import MnoGoSearch.Rtf.Parser
import Mathlib

/-!
# RTF documents

A document with its groups inside one another, how it is written, and the text it stands for: what a group sets ends
with the group, and only the characters that are still to be skipped are carried along. The parser has a counter for
the depth and a memory for the groups instead; it comes to the same text.
-/

namespace MnoGoSearch.Rtf

open Url (bytes isdigit)

/-! ## Documents -/

/-- What a group has besides groups. -/
inductive Item where
  | lineEnd (c : UInt8)
  | char (c : UInt8)
  /-- `\'hh`. -/
  | hex (high low : UInt8)
  /-- A brace or a backslash behind a backslash. -/
  | escaped (c : UInt8)
  /-- Another character behind a backslash. -/
  | symbol (c : UInt8)
  /-- A control word with the digits of its parameter, maybe behind a minus sign and maybe behind `\*`. -/
  | word (starred : Bool) (name : List UInt8) (parameter : Option (Bool × List UInt8))
  /-- `\binN` and its data. -/
  | bin (digits data : List UInt8)

/-- A document, or what a group has. -/
inductive Doc where
  | nil
  | item (i : Item) (rest : Doc)
  | group (body rest : Doc)

/-- The value of a parameter. -/
def digitsInt (sign : ℤ) (digits : List UInt8) : ℤ :=
  digits.foldl (fun n c => wrapInt (n * 10 + sign * (c.toNat - 0x30))) 0

/-- The value of a parameter that may have a minus sign. -/
def parameterInt (parameter : Bool × List UInt8) : ℤ := digitsInt (if parameter.1 then -1 else 1) parameter.2

/-- A number has digits. -/
def IsNumber (digits : List UInt8) : Prop := digits ≠ [] ∧ ∀ c ∈ digits, isdigit c = true

/-- The item can be written: a name has letters, a value has its parameter, and `\binN` has N bytes. -/
def Item.WellFormed : Item → Prop
  | .lineEnd c => c = 0x0D ∨ c = 0x0A
  | .char c => c ∉ [0x7B, 0x7D, 0x0D, 0x0A, 0x5C]
  | .hex high low => (hexDigit high).isSome ∧ (hexDigit low).isSome
  | .escaped c => c = 0x7B ∨ c = 0x7D ∨ c = 0x5C
  | .symbol c => isLetter c = false ∧ c ∉ [0x27, 0x7B, 0x7D, 0x5C, 0x2A]
  | .word _ name parameter =>
    name ≠ [] ∧ (∀ c ∈ name, isLetter c = true) ∧ name ≠ bytes "bin" ∧ (∀ n ∈ parameter, IsNumber n.2) ∧
      (parameter = none → ∀ c ∈ findControl name, c.bits ≠ .value)
  | .bin digits data => IsNumber digits ∧ digitsInt 1 digits = data.length

/-- All items of the document can be written. -/
def Doc.WellFormed : Doc → Prop
  | .nil => True
  | .item i rest => i.WellFormed ∧ rest.WellFormed
  | .group body rest => body.WellFormed ∧ rest.WellFormed

/-- How a parameter is written. -/
def parameterText : Option (Bool × List UInt8) → List UInt8
  | none => []
  | some n => (if n.1 then [0x2D] else []) ++ n.2

/-- How an item is written, up to the data of `\binN`. -/
def Item.head : Item → List UInt8
  | .lineEnd c => [c]
  | .char c => [c]
  | .hex high low => [0x5C, 0x27, high, low]
  | .escaped c => [0x5C, c]
  | .symbol c => [0x5C, c]
  | .word starred name parameter =>
    (if starred then [0x5C, 0x2A] else []) ++ 0x5C :: name ++ parameterText parameter ++ [0x20]
  | .bin digits _ => 0x5C :: bytes "bin" ++ digits ++ [0x20]

/-- The data of `\binN`. -/
def Item.data : Item → List UInt8
  | .bin _ data => data
  | _ => []

/-- How a document is written. -/
def Doc.text : Doc → List UInt8
  | .nil => []
  | .item i rest => i.head ++ (i.data ++ rest.text)
  | .group body rest => 0x7B :: (body.text ++ 0x7D :: rest.text)

/-! ## The text -/

/-- What is set up to the end of a group. -/
structure Scope where
  uc : ℤ
  ignored : Bool

/-- The text so far, with the number of characters that are still to be skipped, and its code page. -/
structure Text where
  skip : ℤ
  out : List UInt8
  ansicpg : ℤ

/-- What a control adds. -/
def Control.write (c : Control) (n : ℤ) (sc : Scope) (t : Text) : Scope × Text :=
  match c.handleFunc with
  | .chr =>
    (sc, if sc.ignored then t else if t.skip ≠ 0 then { t with skip := t.skip - 1 }
      else { t with out := t.out ++ [charOf (if c.defaultValue ≠ 0 then c.defaultValue else n)] })
  | .uni =>
    (sc, if sc.ignored then t else if c.bits = .value then { t with skip := sc.uc, out := t.out ++ uniText n }
      else { t with out := t.out ++ uniText c.defaultValue })
  | .ignorable => ({ sc with ignored := true }, t)
  | .charset => (sc, { t with ansicpg := if c.bits = .value then n else c.defaultValue })
  | .uc => ({ sc with uc := n }, t)
  | .bin => (sc, t)
  | .cs => (sc, t)

/-- What the parser takes an item for. -/
def Item.turn : Item → Turn
  | .lineEnd _ => .pass
  | .char c => .control [] (some (charValue c)) false
  | .hex high low => .control [] (some ((hexDigit high).getD 0 * 16 + (hexDigit low).getD 0)) false
  | .escaped c => .control [] (some (charValue c)) false
  | .symbol c => .control [c] none false
  | .word starred name parameter => .control name (parameter.map parameterInt) starred
  | .bin digits _ => .control (bytes "bin") (some (digitsInt 1 digits)) false

/-- What a name adds: if it is unknown, nothing, but behind `\*` it begins a destination. -/
def writeControl (name : List UInt8) (n : Option ℤ) (starred : Bool) (sc : Scope) (t : Text) : Scope × Text :=
  match findControl name with
  | some c => c.write (n.getD 0) sc t
  | none => (if starred then { sc with ignored := true } else sc, t)

/-- What an item adds. -/
def Item.write (i : Item) (sc : Scope) (t : Text) : Scope × Text :=
  match i.turn with
  | .control name n starred => writeControl name n starred sc t
  | _ => (sc, t)

/-- The text of a document. -/
def Doc.write : Doc → Scope → Text → Text
  | .nil, _, t => t
  | .item i rest, sc, t => rest.write (i.write sc t).1 (i.write sc t).2
  | .group body rest, sc, t => rest.write sc (body.write sc t)

/-! ## Items are read -/

theorem readLetters_append {name : List UInt8} (hne : name ≠ []) (hname : ∀ c ∈ name, isLetter c = true) {d : UInt8}
    (hd : isLetter d = false) (p : List UInt8) : readLetters (name ++ d :: p) = .ok (name, d :: p) := by
  induction name with
  | nil => contradiction
  | cons c name ih =>
    cases name with
    | nil => simp [readLetters, hd]
    | cons b name =>
      rw [List.forall_mem_cons] at hname
      have hb : isLetter b = true := hname.2 b List.mem_cons_self
      have hrest := ih (List.cons_ne_nil _ _) hname.2
      rw [List.cons_append] at hrest
      simp only [List.cons_append, readLetters, hb, if_true, hrest]
      rfl

theorem readDigits_append (sign n : ℤ) {digits : List UInt8} (hdigits : ∀ c ∈ digits, isdigit c = true) (p : List UInt8) :
    readDigits sign n (digits ++ 0x20 :: p) =
      .ok (digits.foldl (fun n c => wrapInt (n * 10 + sign * (c.toNat - 0x30))) n, 0x20 :: p) := by
  induction digits generalizing n with
  | nil => rfl
  | cons c digits ih =>
    rw [List.forall_mem_cons] at hdigits
    rw [List.cons_append, readDigits, if_pos hdigits.1, if_neg (List.append_ne_nil_of_right_ne_nil _ (List.cons_ne_nil _ _)),
      ih _ hdigits.2, List.foldl_cons]

theorem isLetter_of_isdigit {c : UInt8} (h : isdigit c = true) : isLetter c = false ∧ c ≠ 0x2D := by
  revert c
  decide +kernel

theorem readParameter_append {parameter : Option (Bool × List UInt8)} (h : ∀ n ∈ parameter, IsNumber n.2) (p : List UInt8) :
    ∃ c q, parameterText parameter ++ 0x20 :: p = c :: q ∧ isLetter c = false ∧
      readParameter (c :: q) = .ok (parameter.map parameterInt, p) := by
  rcases parameter with _ | ⟨_ | _, digits⟩
  · exact ⟨0x20, p, rfl, rfl, rfl⟩
  · obtain ⟨hne, hdigits⟩ := h _ rfl
    obtain ⟨c, q, rfl⟩ := List.exists_cons_of_ne_nil hne
    have hc := hdigits c List.mem_cons_self
    obtain ⟨hletter, hminus⟩ := isLetter_of_isdigit hc
    have hread := readDigits_append 1 0 hdigits p
    rw [List.cons_append] at hread
    refine ⟨c, q ++ 0x20 :: p, rfl, hletter, ?_⟩
    rw [readParameter, if_neg hminus, if_pos hc, hread]
    rfl
  · obtain ⟨hne, hdigits⟩ := h _ rfl
    refine ⟨0x2D, digits ++ 0x20 :: p, rfl, rfl, ?_⟩
    rw [readParameter, if_pos rfl, if_neg (List.append_ne_nil_of_left_ne_nil hne _), readDigits_append _ _ hdigits]
    rfl

theorem readControl_append (starred : Bool) {name : List UInt8} (hne : name ≠ []) (hname : ∀ c ∈ name, isLetter c = true)
    {parameter : Option (Bool × List UInt8)} (h : ∀ n ∈ parameter, IsNumber n.2) (p : List UInt8) :
    readControl starred (name ++ (parameterText parameter ++ 0x20 :: p)) =
      .ok (.control name (parameter.map parameterInt) starred, p) := by
  obtain ⟨d, q, hq, hd, hread⟩ := readParameter_append h p
  have hletters := readLetters_append hne hname hd q
  obtain ⟨c, name, rfl⟩ := List.exists_cons_of_ne_nil hne
  rw [hq, List.cons_append, readControl, if_pos (hname c List.mem_cons_self), ← List.cons_append, hletters]
  simp only [bind, Except.bind, List.cons_ne_nil, if_false, hread]

theorem ne_of_isLetter {c : UInt8} (h : isLetter c = true) :
    c ≠ 0x27 ∧ ¬(c = 0x7B ∨ c = 0x7D ∨ c = 0x5C) ∧ c ≠ 0x2A := by
  revert c
  decide +kernel

theorem readEscape_word {name : List UInt8} (hne : name ≠ []) (hname : ∀ c ∈ name, isLetter c = true)
    (p : List UInt8) : readEscape (name ++ p) = readControl false (name ++ p) := by
  obtain ⟨c, name, rfl⟩ := List.exists_cons_of_ne_nil hne
  obtain ⟨h1, h2, h3⟩ := ne_of_isLetter (hname c List.mem_cons_self)
  rw [List.cons_append, readEscape, if_neg h1, if_neg h2, if_neg h3]

/-- **An item** is read as what it is. -/
theorem readTurn_head {i : Item} (h : i.WellFormed) (p : List UInt8) : readTurn (i.head ++ p) = .ok (i.turn, p) := by
  cases i with
  | lineEnd c => rcases h with rfl | rfl <;> rfl
  | char c =>
    simp only [Item.WellFormed, List.mem_cons, List.not_mem_nil, or_false, not_or] at h
    obtain ⟨h1, h2, h3, h4, h5⟩ := h
    rw [Item.head, List.singleton_append, readTurn, if_neg h1, if_neg h2, if_neg (not_or.2 ⟨h3, h4⟩), if_neg h5]
    rfl
  | hex high low =>
    obtain ⟨hhigh, hlow⟩ := h
    obtain ⟨a, ha⟩ := Option.isSome_iff_exists.1 hhigh
    obtain ⟨b, hb⟩ := Option.isSome_iff_exists.1 hlow
    change readHex (high :: low :: p) = _
    rw [readHex, Item.turn, ha, hb]
    rfl
  | escaped c => rcases h with rfl | rfl | rfl <;> rfl
  | symbol c =>
    simp only [Item.WellFormed, List.mem_cons, List.not_mem_nil, or_false, not_or] at h
    obtain ⟨hletter, h1, h2, h3, h4, h5⟩ := h
    change readEscape (c :: p) = _
    rw [readEscape, if_neg h1, if_neg (by simp only [h2, h3, h4, or_self, not_false_iff]), if_neg h5, readControl, hletter]
    rfl
  | word starred name parameter =>
    obtain ⟨hne, hname, -, hnumber, -⟩ := h
    have hread := fun starred => readControl_append starred hne hname hnumber p
    cases starred with
    | false =>
      change readEscape (name ++ parameterText parameter ++ [0x20] ++ p) = _
      rw [List.append_assoc, List.append_assoc, readEscape_word hne hname]
      exact hread false
    | true =>
      have hstarred := hread true
      obtain ⟨c, name, rfl⟩ := List.exists_cons_of_ne_nil hne
      change readStar (0x5C :: c :: (name ++ parameterText parameter ++ [0x20] ++ p)) = _
      rw [readStar, if_pos ⟨rfl, hname c List.mem_cons_self⟩, List.append_assoc, List.append_assoc]
      exact hstarred
  | bin digits data =>
    obtain ⟨hnumber, -⟩ := h
    have hletters : ∀ c ∈ bytes "bin", isLetter c = true := by decide +kernel
    have hread := @readControl_append false (bytes "bin") (by decide) hletters (some (false, digits))
      (by rintro _ ⟨⟩; exact hnumber) p
    change readEscape (bytes "bin" ++ digits ++ [0x20] ++ p) = _
    rw [List.append_assoc, List.append_assoc, readEscape_word (by decide) hletters]
    exact hread

/-! ## The parser and the document -/

/-- The groups that are open have their memory, and none of those that are closed is of no interest. -/
structure State.Good (s : State) : Prop where
  allocated : s.Allocated
  ignorable : ∀ k ∈ s.ignorableDepth, k ≤ s.depth

/-- What holds up to the end of the group. -/
def State.scope (s : State) : Scope := ⟨s.uc, s.ignorableDepth.isSome⟩

/-- The text so far. -/
def State.written (s : State) : Text := ⟨s.skipCharacters, s.dstr, s.ansicpg⟩

/-- What may have changed in a group, with all that is inside it. -/
structure State.Within (s s' : State) : Prop where
  depth : s'.depth = s.depth
  allocated : s'.Allocated
  parents : ∀ i < s.depth, s'.parents[i]? = s.parents[i]?
  ignorable : s'.ignorableDepth = s.ignorableDepth ∨ s.ignorableDepth = none ∧ s'.ignorableDepth = some s.depth

theorem State.Within.refl {s : State} (hs : s.Good) : s.Within s := ⟨rfl, hs.allocated, fun _ _ => rfl, Or.inl rfl⟩

theorem State.Within.good {s s' : State} (hs : s.Good) (h : s.Within s') : s'.Good := by
  refine ⟨h.allocated, fun k hk => ?_⟩
  rw [h.depth]
  rcases h.ignorable with heq | ⟨-, heq⟩
  · exact hs.ignorable k (heq ▸ hk)
  · rw [heq, Option.mem_some_iff] at hk
    exact hk.ge

theorem State.Within.trans {s s' s'' : State} (h : s.Within s') (h' : s'.Within s'') : s.Within s'' := by
  obtain ⟨hdepth, -, hparents, hign⟩ := h
  obtain ⟨hdepth', hallocated, hparents', hign'⟩ := h'
  rw [hdepth] at hdepth' hparents' hign'
  refine ⟨hdepth', hallocated, fun i hi => (hparents' i hi).trans (hparents i hi), ?_⟩
  rcases hign' with heq' | ⟨hnone', heq'⟩
  · rw [heq']
    exact hign
  · rcases hign with heq | ⟨-, heq⟩
    · exact Or.inr ⟨heq ▸ hnone', heq'⟩
    · exact absurd (heq.symm.trans hnone') (by simp)

theorem ignores_eq {s : State} (hs : s.Good) : s.ignores = s.scope.ignored := by
  rw [State.ignores, State.scope]
  cases hk : s.ignorableDepth with
  | none => rfl
  | some k => simpa using hs.ignorable k hk

theorem State.Good.ignore {s : State} (hs : s.Good) :
    s.ignore.scope = { s.scope with ignored := true } ∧ s.ignore.written = s.written ∧ s.Within s.ignore := by
  rw [State.ignore]
  split_ifs with hnone
  · exact ⟨rfl, rfl, rfl, hs.allocated, fun _ _ => rfl, Or.inr ⟨hnone, rfl⟩⟩
  · refine ⟨?_, rfl, .refl hs⟩
    rw [State.scope, ← Option.ne_none_iff_isSome.1 hnone]

theorem handleFunc_eq {s : State} (hs : s.Good) {c : Control} (hc : c.handleFunc ≠ .bin) (n : ℤ) (p : List UInt8) :
    ∃ s', handleFunc s c n p = some (s', p) ∧ (s'.scope, s'.written) = c.write n s.scope s.written ∧ s.Within s' := by
  have hsame {s' : State} (hdepth : s'.depth = s.depth) (hparents : s'.parents = s.parents)
      (hign : s'.ignorableDepth = s.ignorableDepth) : s.Within s' :=
    ⟨hdepth, by rw [State.Allocated, hdepth, hparents]; exact hs.allocated, fun i _ => by rw [hparents], Or.inl hign⟩
  unfold handleFunc Control.write
  cases hfunc : c.handleFunc with
  | chr =>
    simp only [ignores_eq hs]
    cases s.scope.ignored with
    | true => exact ⟨s, rfl, rfl, hsame rfl rfl rfl⟩
    | false =>
      by_cases hskip : s.skipCharacters ≠ 0
      · exact ⟨_, if_pos hskip, congrArg _ (if_pos hskip).symm, hsame rfl rfl rfl⟩
      · exact ⟨_, if_neg hskip, congrArg _ (if_neg hskip).symm, hsame rfl rfl rfl⟩
  | uni =>
    simp only [ignores_eq hs]
    split_ifs <;> exact ⟨_, rfl, rfl, hsame rfl rfl rfl⟩
  | bin => exact absurd hfunc hc
  | ignorable =>
    obtain ⟨hscope, hwritten, hwithin⟩ := hs.ignore
    exact ⟨_, rfl, by rw [hscope, hwritten], hwithin⟩
  | charset => exact ⟨_, rfl, rfl, hsame rfl rfl rfl⟩
  | uc => exact ⟨_, rfl, rfl, hsame rfl rfl rfl⟩
  | cs => exact ⟨_, rfl, rfl, hsame rfl rfl rfl⟩

theorem name_of_bin : ∀ c ∈ rtf2textControls, c.handleFunc = .bin → c.name = bytes "bin" := by
  decide +kernel

theorem no_toggle : ∀ c ∈ rtf2textControls, c.bits ≠ .toggle := by
  decide +kernel

theorem letter_of_value : ∀ k ∈ rtf2textControls, k.bits = .value → (k.name.head?.any isLetter) = true := by
  decide +kernel

theorem of_findControl {name : List UInt8} {c : Control} (h : findControl name = some c) :
    c ∈ rtf2textControls ∧ c.name = name :=
  ⟨List.mem_of_find?_eq_some h, by simpa using List.find?_some h⟩

theorem not_value_symbol {c : UInt8} (hc : isLetter c = false) : ∀ k ∈ findControl [c], k.bits ≠ .value := by
  intro k hk hvalue
  obtain ⟨hmem, hname⟩ := of_findControl hk
  have hletter := letter_of_value k hmem hvalue
  rw [hname] at hletter
  exact Bool.noConfusion (hc.symm.trans hletter)

theorem exists_head (i : Item) : ∃ c q, i.head = c :: q := by
  cases i with
  | word starred => cases starred <;> exact ⟨_, _, rfl⟩
  | _ => exact ⟨_, _, rfl⟩

theorem handleControl_eq {s : State} (hs : s.Good) {name : List UInt8} (hname : name ≠ bytes "bin") {n : Option ℤ}
    (hn : n = none → ∀ c ∈ findControl name, c.bits ≠ .value) (starred : Bool) (p : List UInt8) :
    ∃ s', handleControl s name n starred p = some (s', p) ∧
      (s'.scope, s'.written) = writeControl name n starred s.scope s.written ∧ s.Within s' := by
  unfold handleControl writeControl
  cases hfind : findControl name with
  | none =>
    cases starred with
    | false => exact ⟨s, rfl, rfl, .refl hs⟩
    | true =>
      obtain ⟨hscope, hwritten, hwithin⟩ := hs.ignore
      exact ⟨s.ignore, rfl, by rw [hscope, hwritten]; rfl, hwithin⟩
  | some c =>
    obtain ⟨hc, hcname⟩ := of_findControl hfind
    have hbin : c.handleFunc ≠ .bin := fun hfunc => hname (hcname.symm.trans (name_of_bin c hc hfunc))
    obtain ⟨s', hs', hwritten⟩ := handleFunc_eq hs hbin (n.getD 0) p
    refine ⟨s', ?_, hwritten⟩
    rw [← hs']
    cases n with
    | some n => rfl
    | none => simp only [if_neg (hn rfl c hfind), if_neg (no_toggle c hc), Option.getD_none]

/-- **An item** does what it adds, and its data are skipped. -/
theorem takeTurn_item {i : Item} (h : i.WellFormed) {s : State} (hs : s.Good) (p : List UInt8) :
    ∃ s', takeTurn s i.turn (i.data ++ p) = .ok (some (s', p)) ∧
      (s'.scope, s'.written) = i.write s.scope s.written ∧ s.Within s' := by
  have hcontrol {name : List UInt8} (hname : name ≠ bytes "bin") {n : Option ℤ}
      (hn : n = none → ∀ c ∈ findControl name, c.bits ≠ .value) (starred : Bool) :
      ∃ s', takeTurn s (.control name n starred) p = .ok (some (s', p)) ∧
        (s'.scope, s'.written) = writeControl name n starred s.scope s.written ∧ s.Within s' := by
    obtain ⟨s', hs', hwritten⟩ := handleControl_eq hs hname hn starred p
    exact ⟨s', congrArg Except.ok hs', hwritten⟩
  cases i with
  | lineEnd c => exact ⟨s, rfl, rfl, .refl hs⟩
  | char c => exact hcontrol (by decide) (by rintro ⟨⟩) false
  | hex high low => exact hcontrol (by decide) (by rintro ⟨⟩) false
  | escaped c => exact hcontrol (by decide) (by rintro ⟨⟩) false
  | symbol c =>
    exact hcontrol (fun hname => by cases hname) (fun _ => not_value_symbol h.1) false
  | word starred name parameter =>
    obtain ⟨-, -, hbin, -, hvalue⟩ := h
    exact hcontrol hbin (fun hnone => hvalue (Option.map_eq_none_iff.1 hnone)) starred
  | bin digits data =>
    refine ⟨s, ?_, rfl, .refl hs⟩
    change Except.ok (if digitsInt 1 digits < 0 then none else some (s, (data ++ p).drop (digitsInt 1 digits).toNat)) = _
    rw [h.2, if_neg (Int.natCast_nonneg _).not_gt, Int.toNat_natCast, List.drop_left]

theorem rtf2textEndGroup_eq {s s₁ s₂ : State} {parents : List ℤ} (hs : s.Good)
    (hs₁ : s₁ = { s with depth := s.depth + 1, parents := parents }) (hget : parents[s.depth]? = some s.uc)
    (hsame : ∀ i < s.depth, parents[i]? = s.parents[i]?) (h : s₁.Within s₂) :
    ∃ s₃, rtf2textEndGroup s₂ = .ok s₃ ∧ s₃.scope = s.scope ∧ s₃.written = s₂.written ∧ s.Within s₃ := by
  subst hs₁
  obtain ⟨hdepth, hallocated, hparents, hign⟩ := h
  simp only at hdepth hparents hign
  have huc : s₂.parents[s.depth]? = some s.uc := (hparents _ (Nat.lt_succ_self _)).trans hget
  have hnone : (if s₂.ignorableDepth = some s₂.depth then none else s₂.ignorableDepth) = s.ignorableDepth := by
    rcases hign with heq | ⟨heq, hnow⟩
    · rw [if_neg fun hk => ?_, heq]
      have := hs.ignorable s₂.depth (heq ▸ hk)
      omega
    · rw [if_pos (by rw [hnow, hdepth]), heq]
  have hdepth' : s₂.depth - 1 = s.depth := by rw [hdepth, Nat.add_sub_cancel]
  have hend : rtf2textEndGroup s₂ =
      .ok { s₂ with uc := s.uc, ignorableDepth := s.ignorableDepth, depth := s.depth } := by
    rw [rtf2textEndGroup, hnone, hdepth', huc]
  have hroom : s.depth + 1 ≤ s₂.parents.length := hdepth ▸ hallocated
  exact ⟨_, hend, rfl, rfl, rfl, Nat.le_of_succ_le hroom,
    fun i hi => (hparents i (Nat.lt_succ_of_lt hi)).trans (hsame i hi), Or.inl rfl⟩

/-- **A document** is read to its end, and its text is written; what a group sets ends with it. -/
theorem rtfParserParse_text {d : Doc} (h : d.WellFormed) {s : State} (hs : s.Good) (p : List UInt8) {fuel : ℕ}
    (hfuel : (d.text ++ p).length ≤ fuel) :
    ∃ s' fuel', rtfParserParse fuel s (d.text ++ p) = rtfParserParse fuel' s' p ∧ p.length ≤ fuel' ∧ s.Within s' ∧
      s'.written = d.write s.scope s.written := by
  induction d generalizing s p fuel with
  | nil => exact ⟨s, fuel, rfl, hfuel, .refl hs, rfl⟩
  | item i rest ih =>
    obtain ⟨s₁, hs₁, hwrite, hwithin⟩ := takeTurn_item h.1 hs (rest.text ++ p)
    obtain ⟨c, q, hhead⟩ := exists_head i
    have hread := readTurn_head h.1 (i.data ++ (rest.text ++ p))
    simp only [Doc.text, List.append_assoc] at hfuel ⊢
    rw [hhead, List.cons_append] at hread hfuel ⊢
    obtain ⟨fuel, rfl⟩ := Nat.exists_eq_succ_of_ne_zero (Nat.ne_of_gt (Nat.lt_of_lt_of_le (Nat.succ_pos _) hfuel))
    have hlen : (rest.text ++ p).length ≤ fuel := by
      simp only [List.length_cons, List.length_append] at hfuel ⊢
      omega
    obtain ⟨s', fuel', hparse, hp, hwithin', hwritten⟩ := ih h.2 (hwithin.good hs) p hlen
    refine ⟨s', fuel', ?_, hp, hwithin.trans hwithin', ?_⟩
    · rw [rtfParserParse, hread]
      simp only [bind, Except.bind, hs₁]
      exact hparse
    · rw [hwritten, Doc.write, ← hwrite]
  | group body rest ihbody ihrest =>
    obtain ⟨parents, hstart, hroom, hget, htake⟩ := rtf2textStartGroup_eq hs.allocated
    obtain ⟨s₁, hs₁⟩ : ∃ s₁ : State, s₁ = { s with depth := s.depth + 1, parents := parents } := ⟨_, rfl⟩
    have hgood : s₁.Good := ⟨by rw [hs₁]; exact hroom, fun k hk => by
      rw [hs₁] at hk ⊢
      exact (hs.ignorable k hk).trans (Nat.le_succ _)⟩
    obtain ⟨fuel, rfl⟩ := Nat.exists_eq_succ_of_ne_zero (Nat.ne_of_gt (Nat.lt_of_lt_of_le (Nat.succ_pos _) hfuel))
    simp only [Doc.text, List.cons_append, List.append_assoc, List.length_cons] at hfuel ⊢
    obtain ⟨s₂, fuel₂, hbody, hfuel₂, hwithin, hwritten⟩ :=
      ihbody h.1 hgood (0x7D :: (rest.text ++ p)) (Nat.le_of_succ_le_succ hfuel)
    obtain ⟨fuel₂, rfl⟩ := Nat.exists_eq_succ_of_ne_zero (Nat.ne_of_gt (Nat.lt_of_lt_of_le (Nat.succ_pos _) hfuel₂))
    -- the end of the group takes back what it set
    obtain ⟨s₃, hend, hscope, hwritten₃, hwithin₃⟩ := rtf2textEndGroup_eq hs hs₁ hget htake hwithin
    obtain ⟨s', fuel', hrest, hp, hwithin', hwritten'⟩ :=
      ihrest h.2 (hwithin₃.good hs) p (Nat.le_of_succ_le_succ hfuel₂)
    refine ⟨s', fuel', ?_, hp, hwithin₃.trans hwithin', ?_⟩
    · rw [rtfParserParse]
      simp only [readTurn, bind, Except.bind, takeTurn, hstart, Except.map, if_true, ← hs₁, hbody]
      rw [rtfParserParse]
      have hdepth : ¬s₂.depth < 1 := by rw [hwithin.depth, hs₁]; exact Nat.not_lt.2 (Nat.succ_le_succ (Nat.zero_le _))
      exact hrest ▸ by
        simp [readTurn, bind, Except.bind, takeTurn, Except.map, hend, hdepth]
    · rw [hwritten', hscope, hwritten₃, hwritten, Doc.write, hs₁]
      rfl

theorem exists_written {d : Doc} (h : d.WellFormed) :
    ∃ s, rtfParserParse d.text.length ⟨0, none, 1, List.replicate 32 0, 0, [], 1252⟩ d.text = .ok s ∧
      s.written = d.write ⟨1, false⟩ ⟨0, [], 1252⟩ := by
  obtain ⟨s, fuel, hparse, -, -, hwritten⟩ := rtfParserParse_text h
    (⟨Nat.zero_le _, by rintro _ ⟨⟩⟩ : (⟨0, none, 1, List.replicate 32 0, 0, [], 1252⟩ : State).Good) []
    (by rw [List.append_nil])
  rw [List.append_nil] at hparse
  exact ⟨s, by rw [hparse]; cases fuel <;> rfl, hwritten⟩

/-- **The text of a document** is written, and its code page. -/
theorem rtf2text_text {d : Doc} (h : d.WellFormed) :
    rtf2text d.text = .ok ((d.write ⟨1, false⟩ ⟨0, [], 1252⟩).out, (d.write ⟨1, false⟩ ⟨0, [], 1252⟩).ansicpg) := by
  obtain ⟨s, hparse, hwritten⟩ := exists_written h
  rw [rtf2text, hparse]
  exact congrArg (fun t : Text => Except.ok (t.out, t.ansicpg)) hwritten

/-- `{a{\*\x y}\u233 ?b}` -/
def sampleDoc : Doc :=
  .group (.item (.char 0x61) (.group (.item (.word true (bytes "x") none) (.item (.char 0x79) .nil))
    (.item (.word false (bytes "u") (some (false, bytes "233"))) (.item (.char 0x3F) (.item (.char 0x62) .nil))))) .nil

theorem wellFormed_sampleDoc : sampleDoc.WellFormed := by
  simp only [sampleDoc, Doc.WellFormed, Item.WellFormed, IsNumber]
  decide +kernel

theorem rtf2text_sampleDoc : rtf2text (bytes "\x7ba\x7b\\*\\x y\x7d\\u233 ?b\x7d") = .ok (bytes "a&#x00E9;b", 1252) :=
  rtf2text_text wellFormed_sampleDoc

/-! ## Groups on their own -/

/-- The text of a document in which skipping ends where a group begins or ends. -/
def Doc.read : Doc → Scope → ℤ → List UInt8
  | .nil, _, _ => []
  | .item i rest, sc, skip =>
    let r := i.write sc ⟨skip, [], 0⟩
    r.2.out ++ rest.read r.1 r.2.skip
  | .group body rest, sc, _ => body.read sc 0 ++ rest.read sc 0

/-- The characters that are to be skipped stand in the group of their `\uN`. -/
def Doc.Skips : Doc → Scope → ℤ → Prop
  | .nil, _, skip => skip = 0
  | .item i rest, sc, skip =>
    let r := i.write sc ⟨skip, [], 0⟩
    rest.Skips r.1 r.2.skip
  | .group body rest, sc, skip => skip = 0 ∧ body.Skips sc 0 ∧ rest.Skips sc 0

theorem write_eq (i : Item) (sc : Scope) (t : Text) :
    (i.write sc t).1 = (i.write sc ⟨t.skip, [], 0⟩).1 ∧ (i.write sc t).2.skip = (i.write sc ⟨t.skip, [], 0⟩).2.skip ∧
      (i.write sc t).2.out = t.out ++ (i.write sc ⟨t.skip, [], 0⟩).2.out := by
  unfold Item.write
  split
  · unfold writeControl
    split
    · unfold Control.write
      split <;> (try split_ifs) <;> simp
    · split_ifs <;> simp
  · simp

theorem write_eq_read {d : Doc} {sc : Scope} {t : Text} (h : d.Skips sc t.skip) :
    (d.write sc t).skip = 0 ∧ (d.write sc t).out = t.out ++ d.read sc t.skip := by
  induction d generalizing sc t with
  | nil => exact ⟨h, (List.append_nil _).symm⟩
  | item i rest ih =>
    obtain ⟨hscope, hskip, hout⟩ := write_eq i sc t
    rw [Doc.Skips, ← hscope, ← hskip] at h
    obtain ⟨hzero, hrest⟩ := ih h
    refine ⟨hzero, ?_⟩
    rw [Doc.write, hrest, hout, List.append_assoc, Doc.read, hscope, hskip]
  | group body rest ihbody ihrest =>
    obtain ⟨hskip, hbody, hrest⟩ := h
    rw [← hskip] at hbody
    obtain ⟨hzero, hout⟩ := ihbody hbody
    rw [← hzero] at hrest
    obtain ⟨hzero', hout'⟩ := ihrest hrest
    exact ⟨hzero', by rw [Doc.write, hout', hout, hzero, hskip, List.append_assoc, Doc.read]⟩

/-- **A group stands for itself**, if the characters that are to be skipped do not go beyond it. -/
theorem rtf2text_read {d : Doc} (h : d.WellFormed) (hskips : d.Skips ⟨1, false⟩ 0) :
    (rtf2text d.text).map Prod.fst = .ok (d.read ⟨1, false⟩ 0) := by
  obtain ⟨s, hparse, hwritten⟩ := exists_written h
  have hout : s.written.out = d.read ⟨1, false⟩ 0 := by
    rw [hwritten]
    exact (write_eq_read (t := ⟨0, [], 1252⟩) hskips).2
  rw [rtf2text, hparse]
  exact congrArg Except.ok hout

theorem rtf2text_read_sampleDoc :
    (rtf2text (bytes "\x7ba\x7b\\*\\x y\x7d\\u233 ?b\x7d")).map Prod.fst = .ok (bytes "a&#x00E9;b") :=
  rtf2text_read wellFormed_sampleDoc ⟨rfl, ⟨rfl, rfl, rfl⟩, rfl⟩

/-! ## Destinations -/

/-- What a group begins with makes it a destination that is of no interest. -/
def Doc.isDestination : Doc → Bool
  | .item i _ => (i.write ⟨1, false⟩ ⟨0, [], 0⟩).1.ignored
  | _ => false

/-- The document without such groups. -/
def Doc.strip : Doc → Doc
  | .nil => .nil
  | .item i rest => .item i rest.strip
  | .group body rest => if body.isDestination then rest.strip else .group body.strip rest.strip

theorem Doc.WellFormed.strip {d : Doc} (h : d.WellFormed) : d.strip.WellFormed := by
  induction d with
  | nil => trivial
  | item i rest ih => exact ⟨h.1, ih h.2⟩
  | group body rest ihbody ihrest =>
    rw [Doc.strip]
    split_ifs
    · exact ihrest h.2
    · exact ⟨ihbody h.1, ihrest h.2⟩

/-- The same text, maybe in another code page. -/
def Text.Same (t t' : Text) : Prop := t.skip = t'.skip ∧ t.out = t'.out

theorem write_same (i : Item) (sc : Scope) {t t' : Text} (h : t.Same t') :
    (i.write sc t).1 = (i.write sc t').1 ∧ (i.write sc t).2.Same (i.write sc t').2 := by
  obtain ⟨hscope, hskip, hout⟩ := write_eq i sc t
  obtain ⟨hscope', hskip', hout'⟩ := write_eq i sc t'
  rw [← h.1] at hscope' hskip' hout'
  exact ⟨hscope.trans hscope'.symm, hskip.trans hskip'.symm, by rw [hout, hout', h.2]⟩

theorem write_ignored (i : Item) {sc : Scope} (h : sc.ignored = true) (t : Text) :
    (i.write sc t).1.ignored = true ∧ (i.write sc t).2.Same t := by
  unfold Item.write
  split
  · unfold writeControl
    split
    · unfold Control.write
      split <;> (try rw [if_pos h]) <;> first | exact ⟨h, rfl, rfl⟩ | exact ⟨rfl, rfl, rfl⟩
    · split_ifs
      · exact ⟨rfl, rfl, rfl⟩
      · exact ⟨h, rfl, rfl⟩
  · exact ⟨h, rfl, rfl⟩

theorem same_write_ignored (d : Doc) {sc : Scope} (h : sc.ignored = true) (t : Text) : (d.write sc t).Same t := by
  induction d generalizing sc t with
  | nil => exact ⟨rfl, rfl⟩
  | item i rest ih =>
    obtain ⟨hignored, hsame⟩ := write_ignored i h t
    obtain ⟨hskip, hout⟩ := ih hignored (i.write sc t).2
    exact ⟨hskip.trans hsame.1, hout.trans hsame.2⟩
  | group body rest ihbody ihrest =>
    obtain ⟨hskip, hout⟩ := ihrest h (body.write sc t)
    obtain ⟨hskip', hout'⟩ := ihbody h t
    exact ⟨hskip.trans hskip', hout.trans hout'⟩

theorem ignored_write (i : Item) {sc : Scope} (t : Text) (h : (i.write ⟨1, false⟩ ⟨0, [], 0⟩).1.ignored = true) :
    (i.write sc t).1.ignored = true ∧ (i.write sc t).2.Same t := by
  unfold Item.write at h ⊢
  cases hturn : i.turn with
  | control name n starred =>
    rw [hturn] at h
    simp only [writeControl] at h ⊢
    cases hfind : findControl name with
    | none =>
      cases starred with
      | true => exact ⟨rfl, rfl, rfl⟩
      | false => rw [hfind] at h; exact Bool.noConfusion h
    | some c =>
      rw [hfind] at h
      simp only [Control.write] at h ⊢
      cases hfunc : c.handleFunc with
      | ignorable => exact ⟨rfl, rfl, rfl⟩
      | _ => rw [hfunc] at h; exact Bool.noConfusion h
  | _ => rw [hturn] at h; exact Bool.noConfusion h

theorem same_write_strip (d : Doc) (sc : Scope) {t t' : Text} (h : t.Same t') :
    (d.write sc t).Same (d.strip.write sc t') := by
  induction d generalizing sc t t' with
  | nil => exact h
  | item i rest ih =>
    obtain ⟨hscope, hsame⟩ := write_same i sc h
    rw [Doc.write, Doc.strip, Doc.write, hscope]
    exact ih _ hsame
  | group body rest ihbody ihrest =>
    rw [Doc.write, Doc.strip]
    split_ifs with hdest
    · cases body with
      | item i inner =>
        obtain ⟨hignored, hsame⟩ := @ignored_write i sc t hdest
        obtain ⟨hskip, hout⟩ := same_write_ignored inner hignored (i.write sc t).2
        exact ihrest sc ⟨(hskip.trans hsame.1).trans h.1, (hout.trans hsame.2).trans h.2⟩
      | _ => exact Bool.noConfusion hdest
    · exact ihrest sc (ihbody sc h)

/-- **Destinations** can be left out of a document, wherever they stand: the text is the same. -/
theorem rtf2text_strip {d : Doc} (h : d.WellFormed) :
    (rtf2text d.strip.text).map Prod.fst = (rtf2text d.text).map Prod.fst := by
  obtain ⟨s, hparse, hwritten⟩ := exists_written h
  obtain ⟨s', hparse', hwritten'⟩ := exists_written h.strip
  have hout : s'.written.out = s.written.out := by
    rw [hwritten, hwritten']
    exact (same_write_strip d _ ⟨rfl, rfl⟩).2.symm
  rw [rtf2text, rtf2text, hparse, hparse']
  exact congrArg Except.ok hout

theorem rtf2text_strip_sampleDoc : (rtf2text (bytes "\x7ba\\u233 ?b\x7d")).map Prod.fst =
    (rtf2text (bytes "\x7ba\x7b\\*\\x y\x7d\\u233 ?b\x7d")).map Prod.fst :=
  rtf2text_strip wellFormed_sampleDoc

end MnoGoSearch.Rtf
