import MnoGoSearch.Url.Canonize

/-!
# The RTF parser

`rtf2text` (`parsertf.c`) takes the text out of an RTF document. `rtf_parser_parse` goes over groups and controls, and
the functions of `rtf2text_controls` write the text, skip what stands in for a Unicode character, and remember from
which depth on the text is of no interest. Whatever the source is, the parser reads only inside it, and the saved
states of the groups are used only inside their memory.

A pointer is what is left of the source; nothing is left at the end and behind it. A run stops with a fault where a
byte is read at the end, or where the memory for the groups is left. An `int` wraps around where the standard does
not say what it does.
-/

namespace MnoGoSearch.Rtf

open Url (bytes isdigit)

/-! ## Controls -/

/-- `CT_FLAG` and so on: what is known of the parameter of a control. -/
inductive Bits where
  | flag
  | destination
  | symbol
  | toggle
  | value
  deriving DecidableEq

/-- `h_chr` and so on. -/
inductive Handler where
  | chr
  | uni
  | bin
  | ignorable
  | charset
  | uc
  | cs
  deriving DecidableEq

/-- `RTF_CONTROL`. -/
structure Control where
  name : List UInt8
  bits : Bits
  handleFunc : Handler
  defaultValue : ℤ

/-- The destinations of `rtf2text_controls`. -/
def destinations : List String :=
  ["author", "buptim", "colortbl", "comment", "creatim", "doccomm", "fonttbl", "footer", "footerf", "footerr",
    "footerl", "footnote", "ftncn", "ftnsep", "ftnsepc", "g", "header", "headerf", "headerr", "headerl", "info",
    "keywords", "operator", "pict", "printim", "privatel", "revtim", "rxe", "stylesheet", "subject", "tc", "title",
    "txe", "xe"]

/-- `rtf2text_controls`. -/
def rtf2textControls : List Control :=
  [⟨[], .symbol, .chr, 0⟩, ⟨bytes "-", .symbol, .uni, 0x00AD⟩, ⟨bytes "_", .symbol, .uni, 0x2011⟩,
    ⟨bytes "~", .symbol, .uni, 0x00A0⟩, ⟨bytes "bullet", .symbol, .uni, 0x2022⟩,
    ⟨bytes "cell", .symbol, .chr, 0x0020⟩, ⟨bytes "column", .symbol, .chr, 0x000A⟩,
    ⟨bytes "emdash", .symbol, .uni, 0x2014⟩, ⟨bytes "emspace", .symbol, .uni, 0x2003⟩,
    ⟨bytes "endash", .symbol, .uni, 0x2013⟩, ⟨bytes "enspace", .symbol, .uni, 0x2002⟩,
    ⟨bytes "ldblquote", .symbol, .uni, 0x201C⟩, ⟨bytes "line", .symbol, .chr, 0x000A⟩,
    ⟨bytes "lquote", .symbol, .uni, 0x2018⟩, ⟨bytes "nestcell", .symbol, .chr, 0x0020⟩,
    ⟨bytes "nestrow", .symbol, .chr, 0x000A⟩, ⟨bytes "page", .symbol, .chr, 0x000A⟩,
    ⟨bytes "par", .symbol, .chr, 0x000A⟩, ⟨bytes "qmspace", .symbol, .chr, 0x0020⟩,
    ⟨bytes "row", .symbol, .chr, 0x000A⟩, ⟨bytes "rdblquote", .symbol, .uni, 0x201D⟩,
    ⟨bytes "rquote", .symbol, .uni, 0x2019⟩, ⟨bytes "sect", .symbol, .chr, 0x000A⟩,
    ⟨bytes "tab", .symbol, .chr, 0x0009⟩, ⟨bytes "u", .value, .uni, 0⟩, ⟨bytes "uc", .value, .uc, 0⟩,
    ⟨bytes "bin", .value, .bin, 0⟩, ⟨bytes "cs", .value, .cs, 0⟩] ++
  (destinations.map fun name => ⟨bytes name, .destination, .ignorable, 0⟩) ++
  [⟨bytes "ansi", .flag, .charset, 1252⟩, ⟨bytes "ansicpg", .value, .charset, 0⟩, ⟨bytes "mac", .flag, .charset, 10000⟩,
    ⟨bytes "pc", .flag, .charset, 437⟩, ⟨bytes "pca", .flag, .charset, 850⟩]

/-- The control of a name. -/
def findControl (word : List UInt8) : Option Control := rtf2textControls.find? (·.name == word)

/-! ## Reading -/

/-- What a run must not do. -/
inductive Fault where
  /-- A byte outside the source is read. -/
  | outside
  /-- A group outside the memory for the groups is used. -/
  | stack
  | more
  deriving DecidableEq

/-- A part of a run. -/
abbrev Scan (α : Type) : Type := Except Fault α

/-- A letter. -/
def isLetter (c : UInt8) : Bool := (0x61 ≤ c && c ≤ 0x7A) || (0x41 ≤ c && c ≤ 0x5A)

/-- A `char` as a number. -/
def charValue (c : UInt8) : ℤ := if c < 0x80 then c.toNat else c.toNat - 256

/-- A number as a `char`. -/
def charOf (n : ℤ) : UInt8 := UInt8.ofNat (n % 256).toNat

/-- A number as an `int`. -/
def wrapInt (n : ℤ) : ℤ := n.bmod (2 ^ 32)

/-- The value of a hexadecimal digit. -/
def hexDigit (c : UInt8) : Option ℤ :=
  if 0x61 ≤ c ∧ c ≤ 0x66 then some (c.toNat - 0x61 + 10)
  else if 0x41 ≤ c ∧ c ≤ 0x46 then some (c.toNat - 0x41 + 10)
  else if 0x30 ≤ c ∧ c ≤ 0x39 then some (c.toNat - 0x30)
  else none

/-- The loop over the letters of a control word: the word, and where it stops. -/
def readLetters : List UInt8 → Scan (List UInt8 × List UInt8)
  | [] => .error .outside
  | [c] => .ok ([c], [])
  | c :: d :: p => if isLetter d then (readLetters (d :: p)).map fun r => (c :: r.1, r.2) else .ok ([c], d :: p)

/-- The loops over the digits of a parameter, where `n` has been read: its value, and where they stop. -/
def readDigits (sign n : ℤ) : List UInt8 → Scan (ℤ × List UInt8)
  | [] => .error .outside
  | c :: p =>
    if isdigit c then
      if p = [] then .ok (wrapInt (n * 10 + sign * (c.toNat - 0x30)), [])
      else readDigits sign (wrapInt (n * 10 + sign * (c.toNat - 0x30))) p
    else .ok (n, c :: p)

/-- A space behind a control belongs to it. -/
def dropSpace : List UInt8 → List UInt8
  | [] => []
  | c :: p => if c = 0x20 then p else c :: p

/-- The parameter behind a control word, if there is one. -/
def readParameter : List UInt8 → Scan (Option ℤ × List UInt8)
  | [] => .error .outside
  | c :: p =>
    if c = 0x2D then
      if p = [] then .ok (some 0, []) else (readDigits (-1) 0 p).map fun r => (some r.1, dropSpace r.2)
    else if isdigit c then (readDigits 1 0 (c :: p)).map fun r => (some r.1, dropSpace r.2)
    else .ok (none, dropSpace (c :: p))

/-- What the loop of the parser does next. -/
inductive Turn where
  | opening
  | closing
  | pass
  | stop
  /-- `handle_control`. -/
  | control (word : List UInt8) (parameter : Option ℤ) (isIgnorable : Bool)
  deriving DecidableEq

/-- A control word, or a symbol. -/
def readControl (isIgnorable : Bool) : List UInt8 → Scan (Turn × List UInt8)
  | [] => .error .outside
  | c :: p =>
    if isLetter c then do
      let (word, q) ← readLetters (c :: p)
      if q = [] then .ok (.control word none isIgnorable, [])
      else do
        let (n, q) ← readParameter q
        .ok (.control word n isIgnorable, q)
    else .ok (.control [c] none isIgnorable, p)

/-- The two digits of `\'hh`. -/
def readHex : List UInt8 → Scan (Turn × List UInt8)
  | c :: d :: p =>
    match hexDigit c, hexDigit d with
    | some high, some low => .ok (.control [] (some (high * 16 + low)) false, p)
    | _, _ => .ok (.stop, [])
  | _ => .ok (.stop, [])

/-- What is behind `\*`: the control word of a destination, or it is of no interest. -/
def readStar : List UInt8 → Scan (Turn × List UInt8)
  | c :: d :: p => if c = 0x5C ∧ isLetter d then readControl true (d :: p) else .ok (.pass, c :: d :: p)
  | p => .ok (.pass, p)

/-- What is behind a backslash. -/
def readEscape : List UInt8 → Scan (Turn × List UInt8)
  | [] => .ok (.stop, [])
  | c :: p =>
    if c = 0x27 then readHex p
    else if c = 0x7B ∨ c = 0x7D ∨ c = 0x5C then .ok (.control [] (some (charValue c)) false, p)
    else if c = 0x2A then readStar p
    else readControl false (c :: p)

/-- One turn of the loop of `rtf_parser_parse`, up to the functions of the controls. -/
def readTurn : List UInt8 → Scan (Turn × List UInt8)
  | [] => .error .outside
  | c :: p =>
    if c = 0x7B then .ok (.opening, p)
    else if c = 0x7D then .ok (.closing, p)
    else if c = 0x0D ∨ c = 0x0A then .ok (.pass, p)
    else if c = 0x5C then readEscape p
    else .ok (.control [] (some (charValue c)) false, p)

/-! ## What the controls do -/

/-- `RTF_PARSER_STATE` and `RTF2TEXT_STATE`. -/
structure State where
  depth : ℕ
  /-- `ignorable_depth`; nothing for `(size_t) -1`. -/
  ignorableDepth : Option ℕ
  /-- `g.uc`. -/
  uc : ℤ
  /-- The `uc` of the groups, as many as there is memory for. -/
  parents : List ℤ
  skipCharacters : ℤ
  dstr : List UInt8
  ansicpg : ℤ
  deriving DecidableEq

/-- `rtf2text_start_group`. -/
def rtf2textStartGroup (s : State) : Scan State :=
  let depth := s.depth + 1
  let parents := if s.parents.length < depth then s.parents ++ List.replicate 32 0 else s.parents
  if depth - 1 < parents.length then .ok { s with depth := depth, parents := parents.set (depth - 1) s.uc }
  else .error .stack

/-- `rtf2text_end_group`, and what the parser does at the end of a group. -/
def rtf2textEndGroup (s : State) : Scan State :=
  match s.parents[s.depth - 1]? with
  | some uc =>
    .ok { s with
      uc := uc
      ignorableDepth := if s.ignorableDepth = some s.depth then none else s.ignorableDepth
      depth := s.depth - 1 }
  | none => .error .stack

/-- `ignorable_depth <= depth`. -/
def State.ignores (s : State) : Bool := s.ignorableDepth.any (· ≤ s.depth)

/-- From here on the text is of no interest, if it was before. -/
def State.ignore (s : State) : State :=
  if s.ignorableDepth = none then { s with ignorableDepth := some s.depth } else s

/-- `&#x`, four digits and a semicolon. -/
def uniText (n : ℤ) : List UInt8 :=
  let hexDigits := fun n => (bytes "0123456789ABCDEF").getD n 0
  let buf0 := (charOf (n / 256)).toNat
  let buf1 := (charOf n).toNat
  bytes "&#x" ++ [hexDigits (buf0 / 16), hexDigits (buf0 % 16), hexDigits (buf1 / 16), hexDigits (buf1 % 16)] ++ bytes ";"

/-- `handle_func`, with what is left of the source; nothing if it returns 1. -/
def handleFunc (s : State) (c : Control) (n : ℤ) (p : List UInt8) : Option (State × List UInt8) :=
  match c.handleFunc with
  | .chr =>
    if s.ignores then some (s, p)
    else if s.skipCharacters ≠ 0 then some ({ s with skipCharacters := s.skipCharacters - 1 }, p)
    else some ({ s with dstr := s.dstr ++ [charOf (if c.defaultValue ≠ 0 then c.defaultValue else n)] }, p)
  | .uni =>
    if s.ignores then some (s, p)
    else if c.bits = .value then some ({ s with skipCharacters := s.uc, dstr := s.dstr ++ uniText n }, p)
    else some ({ s with dstr := s.dstr ++ uniText c.defaultValue }, p)
  | .bin => if n < 0 then none else some (s, p.drop n.toNat)
  | .ignorable => some (s.ignore, p)
  | .charset => some ({ s with ansicpg := if c.bits = .value then n else c.defaultValue }, p)
  | .uc => some ({ s with uc := n }, p)
  | .cs => some (s, p)

/-- `handle_control`. -/
def handleControl (s : State) (word : List UInt8) (parameter : Option ℤ) (isIgnorable : Bool) (p : List UInt8) :
    Option (State × List UInt8) :=
  match findControl word, parameter with
  | some c, some n => handleFunc s c n p
  -- without a parameter it is undefined, but then no function looks at it
  | some c, none => if c.bits = .value then none else handleFunc s c (if c.bits = .toggle then 1 else 0) p
  | none, _ => some (if isIgnorable then s.ignore else s, p)

/-- What a turn does; nothing if the parser returns. -/
def takeTurn (s : State) (t : Turn) (p : List UInt8) : Scan (Option (State × List UInt8)) :=
  match t with
  | .opening => (rtf2textStartGroup s).map fun s => some (s, p)
  | .closing => if s.depth < 1 then .ok none else (rtf2textEndGroup s).map fun s => some (s, p)
  | .pass => .ok (some (s, p))
  | .stop => .ok none
  | .control word parameter isIgnorable => .ok (handleControl s word parameter isIgnorable p)

/-- `rtf_parser_parse`, at most `fuel` turns: the state where it returns. -/
def rtfParserParse : ℕ → State → List UInt8 → Scan State
  | _, s, [] => .ok s
  | 0, _, _ => .error .more
  | fuel + 1, s, c :: p => do
    let (t, p) ← readTurn (c :: p)
    match ← takeTurn s t p with
    | some (s, p) => rtfParserParse fuel s p
    | none => .ok s

/-- `rtf2text`: the text, and the code page. -/
def rtf2text (src : List UInt8) : Scan (List UInt8 × ℤ) :=
  (rtfParserParse src.length ⟨0, none, 1, List.replicate 32 0, 0, [], 1252⟩ src).map fun s => (s.dstr, s.ansicpg)

/-! ## Safety -/

variable {p : List UInt8} {s : State}

theorem readLetters_ok (hp : p ≠ []) : ∃ w q, readLetters p = .ok (w, q) ∧ q.length < p.length := by
  fun_induction readLetters p with
  | case1 => contradiction
  | case2 c => exact ⟨[c], [], rfl, Nat.zero_lt_one⟩
  | case3 c d p hd ih =>
    obtain ⟨w, q, hw, hq⟩ := ih (List.cons_ne_nil _ _)
    exact ⟨c :: w, q, by rw [hw]; rfl, Nat.lt_succ_of_lt hq⟩
  | case4 c d p hd => exact ⟨[c], d :: p, rfl, Nat.lt_succ_self _⟩

theorem readDigits_ok (sign n : ℤ) (hp : p ≠ []) : ∃ m q, readDigits sign n p = .ok (m, q) ∧ q.length ≤ p.length := by
  fun_induction readDigits sign n p with
  | case1 => contradiction
  | case2 n c hc => exact ⟨_, [], rfl, Nat.zero_le _⟩
  | case3 n c p hc hne ih =>
    obtain ⟨m, q, hm, hq⟩ := ih hne
    exact ⟨m, q, hm, Nat.le_succ_of_le hq⟩
  | case4 n c p hc => exact ⟨n, c :: p, rfl, le_rfl⟩

theorem length_dropSpace_le (p : List UInt8) : (dropSpace p).length ≤ p.length := by
  fun_cases dropSpace p with
  | case1 => exact le_rfl
  | case2 => exact Nat.le_succ _
  | case3 => exact le_rfl

theorem readParameter_ok (hp : p ≠ []) : ∃ n q, readParameter p = .ok (n, q) ∧ q.length ≤ p.length := by
  fun_cases readParameter p with
  | case1 => contradiction
  | case2 => exact ⟨some 0, [], rfl, Nat.zero_le _⟩
  | case3 p hne =>
    obtain ⟨n, q, hn, hq⟩ := readDigits_ok (-1) 0 hne
    exact ⟨some n, dropSpace q, by rw [hn]; rfl, ((length_dropSpace_le q).trans hq).trans (Nat.le_succ _)⟩
  | case4 c p hc hd =>
    obtain ⟨n, q, hn, hq⟩ := readDigits_ok 1 0 (List.cons_ne_nil c p)
    exact ⟨some n, dropSpace q, by rw [hn]; rfl, (length_dropSpace_le q).trans hq⟩
  | case5 c p => exact ⟨none, dropSpace (c :: p), rfl, length_dropSpace_le _⟩

theorem readControl_ok (isIgnorable : Bool) (hp : p ≠ []) :
    ∃ t q, readControl isIgnorable p = .ok (t, q) ∧ q.length < p.length := by
  cases p with
  | nil => contradiction
  | cons c p =>
    rw [readControl]
    split_ifs with hc
    · obtain ⟨w, q, hw, hq⟩ := readLetters_ok hp
      rw [hw]
      by_cases hnil : q = []
      · exact ⟨.control w none isIgnorable, [], if_pos hnil, Nat.succ_pos _⟩
      · obtain ⟨n, r, hn, hr⟩ := readParameter_ok hnil
        refine ⟨.control w n isIgnorable, r, (if_neg hnil).trans ?_, hr.trans_lt hq⟩
        rw [hn]
        rfl
    · exact ⟨_, p, rfl, Nat.lt_succ_self _⟩

theorem readHex_ok (p : List UInt8) : ∃ t q, readHex p = .ok (t, q) ∧ q.length ≤ p.length := by
  fun_cases readHex p with
  | case1 c d p high hhigh low hlow => exact ⟨_, p, rfl, by simp only [List.length_cons]; omega⟩
  | case2 => exact ⟨.stop, [], rfl, Nat.zero_le _⟩
  | case3 => exact ⟨.stop, [], rfl, Nat.zero_le _⟩

theorem readStar_ok (p : List UInt8) : ∃ t q, readStar p = .ok (t, q) ∧ q.length ≤ p.length := by
  fun_cases readStar p with
  | case1 c d p hword =>
    obtain ⟨t, q, ht, hq⟩ := readControl_ok true (List.cons_ne_nil d p)
    exact ⟨t, q, ht, hq.le.trans (Nat.le_succ _)⟩
  | case2 => exact ⟨.pass, _, rfl, le_rfl⟩
  | case3 => exact ⟨.pass, _, rfl, le_rfl⟩

theorem readEscape_ok (p : List UInt8) : ∃ t q, readEscape p = .ok (t, q) ∧ q.length ≤ p.length := by
  cases p with
  | nil => exact ⟨.stop, [], rfl, le_rfl⟩
  | cons c p =>
    rw [readEscape]
    split_ifs
    · obtain ⟨t, q, ht, hq⟩ := readHex_ok p
      exact ⟨t, q, ht, Nat.le_succ_of_le hq⟩
    · exact ⟨_, p, rfl, Nat.le_succ _⟩
    · obtain ⟨t, q, ht, hq⟩ := readStar_ok p
      exact ⟨t, q, ht, Nat.le_succ_of_le hq⟩
    · obtain ⟨t, q, ht, hq⟩ := readControl_ok false (List.cons_ne_nil c p)
      exact ⟨t, q, ht, hq.le⟩

theorem readTurn_ok (c : UInt8) (p : List UInt8) : ∃ t q, readTurn (c :: p) = .ok (t, q) ∧ q.length ≤ p.length := by
  rw [readTurn]
  split_ifs
  · exact ⟨_, p, rfl, le_rfl⟩
  · exact ⟨_, p, rfl, le_rfl⟩
  · exact ⟨_, p, rfl, le_rfl⟩
  · exact readEscape_ok p
  · exact ⟨_, p, rfl, le_rfl⟩

@[simp] theorem ignore_depth (s : State) : s.ignore.depth = s.depth := by
  rw [State.ignore]
  split_ifs <;> rfl

@[simp] theorem ignore_parents (s : State) : s.ignore.parents = s.parents := by
  rw [State.ignore]
  split_ifs <;> rfl

theorem handleControl_some {s' : State} {word p' : List UInt8} {n : Option ℤ} {isIgnorable : Bool}
    (h : handleControl s word n isIgnorable p = some (s', p')) :
    s'.depth = s.depth ∧ s'.parents = s.parents ∧ p'.length ≤ p.length := by
  have hfunc {c : Control} {n : ℤ} (h : handleFunc s c n p = some (s', p')) :
      s'.depth = s.depth ∧ s'.parents = s.parents ∧ p'.length ≤ p.length := by
    unfold handleFunc at h
    split at h
    all_goals
      try split_ifs at h
      all_goals
        cases h
        simp
  unfold handleControl at h
  split at h
  · exact hfunc h
  · split_ifs at h <;> exact hfunc h
  · cases h
    split_ifs <;> simp

/-- The groups that are open have their place in the memory. -/
def State.Allocated (s : State) : Prop := s.depth ≤ s.parents.length

theorem rtf2textStartGroup_eq (hs : s.Allocated) :
    ∃ parents, rtf2textStartGroup s = .ok { s with depth := s.depth + 1, parents := parents } ∧
      s.depth < parents.length ∧ parents[s.depth]? = some s.uc ∧ ∀ i < s.depth, parents[i]? = s.parents[i]? := by
  obtain ⟨memory, hmemory, hlen, hsame⟩ : ∃ memory,
      memory = (if s.parents.length < s.depth + 1 then s.parents ++ List.replicate 32 0 else s.parents) ∧
        s.depth < memory.length ∧ ∀ i < s.depth, memory[i]? = s.parents[i]? := by
    refine ⟨_, rfl, ?_⟩
    unfold State.Allocated at hs
    split_ifs
    · rw [List.length_append, List.length_replicate]
      exact ⟨by omega, fun i hi => List.getElem?_append_left (by omega)⟩
    · exact ⟨by omega, fun _ _ => rfl⟩
  refine ⟨memory.set s.depth s.uc, ?_, by rwa [List.length_set], by rw [List.getElem?_set_self hlen], fun i hi => ?_⟩
  · rw [rtf2textStartGroup, ← hmemory]
    exact if_pos hlen
  · rw [List.getElem?_set_ne hi.ne', hsame i hi]

theorem takeTurn_ok (hs : s.Allocated) (t : Turn) (p : List UInt8) :
    ∃ r, takeTurn s t p = .ok r ∧ ∀ s' p', r = some (s', p') → s'.Allocated ∧ p'.length ≤ p.length := by
  cases t with
  | opening =>
    obtain ⟨parents, hstart, hlen, -⟩ := rtf2textStartGroup_eq hs
    refine ⟨_, by rw [takeTurn, hstart]; rfl, fun s' p' h => ?_⟩
    cases h
    exact ⟨hlen, le_rfl⟩
  | closing =>
    rw [takeTurn]
    split_ifs with hdepth
    · exact ⟨none, rfl, by rintro _ _ ⟨⟩⟩
    · obtain ⟨uc, hget⟩ : ∃ uc, s.parents[s.depth - 1]? = some uc :=
        ⟨_, List.getElem?_eq_getElem (by unfold State.Allocated at hs; omega)⟩
      rw [rtf2textEndGroup, hget]
      refine ⟨_, rfl, fun s' p' h => ?_⟩
      cases h
      exact ⟨(Nat.sub_le _ _).trans hs, le_rfl⟩
  | pass =>
    refine ⟨_, rfl, fun s' p' h => ?_⟩
    cases h
    exact ⟨hs, le_rfl⟩
  | stop => exact ⟨none, rfl, by rintro _ _ ⟨⟩⟩
  | control word n isIgnorable =>
    refine ⟨_, rfl, fun s' p' h => ?_⟩
    obtain ⟨hdepth, hparents, hp⟩ := handleControl_some h
    exact ⟨by rw [State.Allocated, hdepth, hparents]; exact hs, hp⟩

theorem rtfParserParse_ok {fuel : ℕ} {s : State} {p : List UInt8} (hs : s.Allocated) (hp : p.length ≤ fuel) :
    ∃ s', rtfParserParse fuel s p = .ok s' := by
  induction fuel generalizing s p with
  | zero =>
    obtain rfl := List.length_eq_zero_iff.1 (Nat.le_zero.1 hp)
    exact ⟨s, rfl⟩
  | succ fuel ih =>
    cases p with
    | nil => exact ⟨s, rfl⟩
    | cons c p =>
      obtain ⟨t, q, ht, hq⟩ := readTurn_ok c p
      obtain ⟨r, hr, hnext⟩ := takeTurn_ok hs t q
      rw [rtfParserParse, ht]
      change ∃ s', (takeTurn s t q >>= _) = _
      rw [hr]
      cases r with
      | none => exact ⟨s, rfl⟩
      | some r =>
        obtain ⟨hs', hp'⟩ := hnext r.1 r.2 rfl
        exact ih hs' ((hp'.trans hq).trans (Nat.le_of_succ_le_succ hp))

/-- **Every string** of bytes is parsed to an end: after at most as many turns as there are bytes, without a read
outside the string or a group outside the memory for the groups. -/
theorem exists_rtf2text (src : List UInt8) : ∃ r, rtf2text src = .ok r := by
  obtain ⟨s, hs⟩ := @rtfParserParse_ok src.length ⟨0, none, 1, List.replicate 32 0, 0, [], 1252⟩ src (Nat.zero_le _) le_rfl
  exact ⟨(s.dstr, s.ansicpg), by rw [rtf2text, hs]; rfl⟩

end MnoGoSearch.Rtf
