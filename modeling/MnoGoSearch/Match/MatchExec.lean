import MnoGoSearch.Match.Wild
import MnoGoSearch.Url.Idempotent

/-!
# Matching

`UdmMatchComp` prepares a pattern and `UdmMatchExec` matches a string with it (`match.c`). A wildcard
pattern that is an asterisk and a literal is turned into a comparison of the end of the string, unless
a flag forbids it. `optimisation_invisible_iff` says when that is not seen from outside: `strcasecmp` compares the
end and folds ASCII letters, while `UdmWildCaseCmp` also folds the letters of Latin-1.
-/

namespace MnoGoSearch.Match

open MnoGoSearch.Vars
open MnoGoSearch.Url
open MnoGoSearch.Lib.Wildcard (Token wild lang)

/-! ## The C library -/

/-- `strcmp`. -/
def strcmp (s t : List UInt8) : ℤ := if s = t then 0 else if s < t then -1 else 1

/-- `strncmp`. -/
def strncmp (s t : List UInt8) (n : ℕ) : ℤ := strcmp (s.take n) (t.take n)

/-- `strcasecmp`, which folds the ASCII letters. -/
def strcasecmp (s t : List UInt8) : ℤ := strcmp (s.map tolower) (t.map tolower)

/-- `strncasecmp`. -/
def strncasecmp (s t : List UInt8) (n : ℕ) : ℤ := strcasecmp (s.take n) (t.take n)

/-- The regular expressions of the C library. -/
structure Regex where
  /-- `regex_t`. -/
  Reg : Type
  /-- `regcomp`, with `REG_ICASE` or without, or the text of `regerror`. -/
  regcomp : List UInt8 → Bool → Except (List UInt8) Reg
  /-- `regexec`: nothing, or the beginnings and ends of as many parts as asked for. -/
  regexec : Reg → List UInt8 → ℕ → Option (List (ℤ × ℤ))

/-! ## Patterns -/

/-- The types of a match. -/
inductive UdmMatchType where
  | matchFull
  | matchBegin
  | matchSubstr
  | matchEnd
  | matchRegex
  | matchWild
  | matchSubnet
  | matchOther (n : ℤ)
  deriving DecidableEq

/-- The number of a type. -/
def UdmMatchType.number : UdmMatchType → ℤ
  | .matchFull => 0
  | .matchBegin => 1
  | .matchSubstr => 2
  | .matchEnd => 3
  | .matchRegex => 4
  | .matchWild => 5
  | .matchSubnet => 6
  | .matchOther n => n

variable (L : Regex)

/-- `UDM_MATCH`, as far as it is used here. -/
structure UdmMatch where
  matchType : UdmMatchType
  /-- The answer is to be turned round. -/
  noMatch : Bool
  /-- `UDM_CASE_INSENSITIVE`. -/
  insensitive : Bool
  /-- `UDM_MATCH_FLAG_SKIP_OPTIMIZATION`. -/
  skipOptimization : Bool
  pattern : List UInt8
  /-- The length of the pattern. -/
  patternLength : ℕ
  /-- The compiled regular expression. -/
  reg : Option L.Reg

/-- `IsSimpleWildEnding`: an asterisk and a literal that is not empty. -/
def isSimpleWildEnding : List UInt8 → Bool
  | [] => false
  | p :: ps => p == 0x2A && !ps.isEmpty && ps.all fun c => c != 0x2A && c != 0x3F

variable {L}

/-- `UdmMatchComp`, with the text of the error. -/
def udmMatchComp (M : UdmMatch L) (errstrsize : ℕ) : Except (List UInt8) (UdmMatch L) :=
  let M := { M with patternLength := M.pattern.length }
  match M.matchType with
  | .matchRegex =>
    match L.regcomp M.pattern M.insensitive with
    | .error err => .error (err.take (errstrsize - 1))
    | .ok reg => .ok { M with reg := some reg }
  | .matchWild =>
    if M.skipOptimization = false ∧ isSimpleWildEnding M.pattern = true then
      .ok { M with pattern := M.pattern.drop 1, matchType := .matchEnd, patternLength := M.patternLength - 1 }
    else .ok M
  | .matchBegin | .matchEnd | .matchSubstr | .matchFull => .ok M
  | t => .error ((bytes "Unknown match type '" ++ decText t.number ++ [0x27]).take (errstrsize - 1))

/-- The parts of a string that did not match by parts. -/
def noParts (Parts : List (ℤ × ℤ)) : List (ℤ × ℤ) := Parts.map fun _ => (-1, -1)

/-- What `UdmMatchExec` compares before the answer is turned round: 0 when the string matches. -/
def execRes (M : UdmMatch L) (string netString : List UInt8) (Parts : List (ℤ × ℤ)) : ℤ × List (ℤ × ℤ) :=
  match M.matchType with
  | .matchRegex =>
    let nparts := min Parts.length 10
    match M.reg.bind fun reg => L.regexec reg string nparts with
    | none => (1, noParts (Parts.take nparts) ++ Parts.drop nparts)
    | some subs => (0, subs.take nparts ++ Parts.drop nparts)
  | .matchWild => (if M.insensitive then udmWildCaseCmp string M.pattern else udmWildCmp string M.pattern, noParts Parts)
  | .matchSubnet =>
    (if M.insensitive then udmWildCaseCmp netString M.pattern else udmWildCmp netString M.pattern, noParts Parts)
  | .matchBegin =>
    (if M.insensitive then strncasecmp M.pattern string M.patternLength
      else strncmp M.pattern string M.patternLength, noParts Parts)
  | .matchFull => (if M.insensitive then strcasecmp M.pattern string else strcmp M.pattern string, noParts Parts)
  | .matchEnd =>
    (if string.length < M.patternLength then 1
      else
        let se := string.drop (string.length - M.patternLength)
        if M.insensitive then strcasecmp M.pattern se else strcmp M.pattern se, noParts Parts)
  | .matchSubstr | .matchOther _ => (0, noParts Parts)

/-- `UdmMatchExec`. -/
def udmMatchExec (M : UdmMatch L) (string netString : List UInt8) (Parts : List (ℤ × ℤ)) : ℤ × List (ℤ × ℤ) :=
  let res := execRes M string netString Parts
  (if M.noMatch then (if res.1 = 0 then 1 else 0) else res.1, res.2)

/-! ## The two ways to match a literal at the end -/

/-- A character of a literal. -/
def IsLiteral (lit : List UInt8) : Prop := ∀ c ∈ lit, c ≠ 0x2A ∧ c ≠ 0x3F

theorem isSimpleWildEnding_iff {p : List UInt8} :
    isSimpleWildEnding p = true ↔ ∃ lit, p = 0x2A :: lit ∧ lit ≠ [] ∧ IsLiteral lit := by
  cases p with
  | nil => simp [isSimpleWildEnding]
  | cons w lit => simp [isSimpleWildEnding, IsLiteral, and_assoc]

variable {same : UInt8 → UInt8 → Prop} {lit s t : List UInt8} {c : UInt8} {insensitive : Bool}

theorem mem_patternLang_literal (hlit : IsLiteral lit)
    (s : List UInt8) : s ∈ patternLang same lit ↔ List.Forall₂ same s lit := by
  rw [patternLang]
  induction lit generalizing s with
  | nil => rw [List.map_nil, Lib.Wildcard.mem_lang_nil, List.forall₂_nil_right_iff]
  | cons w lit ih =>
    obtain ⟨⟨hstar, hany⟩, hlit⟩ := List.forall_mem_cons.mp hlit
    rw [List.map_cons, token_of_ne hstar hany]
    cases s with
    | nil => simp
    | cons c s => rw [Lib.Wildcard.mem_lang_lit_cons, ih hlit, List.forall₂_cons]

theorem mem_patternLang_star (hlit : IsLiteral lit)
    (s : List UInt8) : s ∈ patternLang same (0x2A :: lit) ↔ ∃ t, t <:+ s ∧ List.Forall₂ same t lit := by
  have hstar : s ∈ patternLang same (0x2A :: lit) ↔ ∃ t, t <:+ s ∧ t ∈ patternLang same lit := Lib.Wildcard.mem_lang_star
  simp only [hstar, mem_patternLang_literal hlit]

theorem forall₂_sameCase_iff : List.Forall₂ SameCase s t ↔ s.map udmL1tolower = t.map udmL1tolower := by
  rw [← List.forall₂_eq_eq_eq, List.forall₂_map_left_iff, List.forall₂_map_right_iff]
  rfl

theorem strcmp_eq_zero_iff : strcmp s t = 0 ↔ s = t := by
  rw [strcmp]
  split_ifs with h
  · exact iff_of_true rfl h
  · exact iff_of_false (by decide) h
  · exact iff_of_false (by decide) h

theorem suffix_iff_drop (hlen : t.length = lit.length) :
    t <:+ s ↔ ¬ s.length < lit.length ∧ s.drop (s.length - lit.length) = t := by
  constructor
  · rintro ⟨a, rfl⟩
    rw [List.length_append, hlen, Nat.add_sub_cancel, List.drop_left]
    exact ⟨by omega, rfl⟩
  · rintro ⟨-, rfl⟩
    exact List.drop_suffix _ _

/-- What is the same without regard to the case of ASCII letters is so without regard to that of Latin-1 letters. -/
theorem map_udmL1tolower_of_tolower (h : s.map tolower = t.map tolower) : s.map udmL1tolower = t.map udmL1tolower := by
  have hbyte : ∀ c, udmL1tolower (tolower c) = udmL1tolower c :=
    @forall_byte (fun c => udmL1tolower (tolower c) = udmL1tolower c) (by decide +kernel)
  have := congrArg (List.map udmL1tolower) h
  simpa [hbyte, Function.comp_def] using this

/-- The strings are the same, with regard to case or without regard to that of Latin-1 letters. -/
def SameWild (insensitive : Bool) (t lit : List UInt8) : Prop :=
  if insensitive then t.map udmL1tolower = lit.map udmL1tolower else t = lit

/-- The strings are the same, with regard to case or without regard to that of ASCII letters. -/
def SameEnd (insensitive : Bool) (t lit : List UInt8) : Prop :=
  if insensitive then t.map tolower = lit.map tolower else t = lit

theorem SameWild.length {insensitive : Bool} {t lit : List UInt8} (h : SameWild insensitive t lit) :
    t.length = lit.length := by
  cases insensitive with
  | false => exact congrArg List.length h
  | true => simpa using congrArg List.length h

theorem SameEnd.sameWild (h : SameEnd insensitive t lit) : SameWild insensitive t lit := by
  cases insensitive with
  | false => exact h
  | true => exact map_udmL1tolower_of_tolower h

theorem wildcard_eq_zero_iff (hlit : IsLiteral lit) :
    (if insensitive then udmWildCaseCmp s (0x2A :: lit) else udmWildCmp s (0x2A :: lit)) = 0 ↔
      ∃ t, t <:+ s ∧ SameWild insensitive t lit := by
  cases insensitive with
  | false =>
    have h := (@code_wild_spec (· = ·) _ s (0x2A :: lit)).1
    rw [← udmWildCmp_eq_code, mem_patternLang_star hlit] at h
    simp only [List.forall₂_eq_eq_eq] at h
    exact h
  | true =>
    have h := (@code_wild_spec SameCase _ s (0x2A :: lit)).1
    rw [← udmWildCaseCmp_eq_code, mem_patternLang_star hlit] at h
    simp only [forall₂_sameCase_iff] at h
    exact h

theorem endCompare_eq_zero_iff :
    (if s.length < lit.length then 1
      else
        let se := s.drop (s.length - lit.length)
        if insensitive then strcasecmp lit se else strcmp lit se) = 0 ↔
      ∃ t, t <:+ s ∧ SameEnd insensitive t lit := by
  have hsame : ∀ t, (if insensitive then strcasecmp lit t else strcmp lit t) = 0 ↔ SameEnd insensitive t lit := by
    intro t
    cases insensitive with
    | false => exact strcmp_eq_zero_iff.trans eq_comm
    | true => exact strcmp_eq_zero_iff.trans eq_comm
  by_cases hlen : s.length < lit.length
  · rw [if_pos hlen]
    refine iff_of_false (by decide) ?_
    rintro ⟨t, ht, hsame⟩
    have := ht.length_le
    rw [hsame.sameWild.length] at this
    omega
  · rw [if_neg hlen]
    dsimp only
    rw [hsame]
    constructor
    · intro h
      exact ⟨_, List.drop_suffix _ _, h⟩
    · rintro ⟨t, ht, h⟩
      rwa [((suffix_iff_drop h.sameWild.length).mp ht).2]

/-! ## The answer -/

/-- The string matches; and the parts. -/
def answer (string netString : List UInt8) (Parts : List (ℤ × ℤ)) (M : UdmMatch L) : Bool × List (ℤ × ℤ) :=
  ((udmMatchExec M string netString Parts).1 == 0, (udmMatchExec M string netString Parts).2)

/-- The answer is the same whether wildcards may be turned into a comparison of the end or not. -/
def Invisible (M : UdmMatch L) (errstrsize : ℕ) (string netString : List UInt8) (Parts : List (ℤ × ℤ)) : Prop :=
  (udmMatchComp { M with skipOptimization := false } errstrsize).map (answer string netString Parts) =
    (udmMatchComp { M with skipOptimization := true } errstrsize).map (answer string netString Parts)

/-- The string ends in the literal but for the case of letters, and some of these are letters of Latin-1. -/
def EndsInOtherCase (lit string : List UInt8) : Prop :=
  ∃ t, t <:+ string ∧ t.map udmL1tolower = lit.map udmL1tolower ∧ t.map tolower ≠ lit.map tolower

/-- Both ways to match have the same answer, unless only the letters of Latin-1 make the difference. -/
theorem sameAnswer_iff :
    ((∃ t, t <:+ s ∧ SameEnd insensitive t lit) ↔ ∃ t, t <:+ s ∧ SameWild insensitive t lit) ↔
      ¬ (insensitive = true ∧ EndsInOtherCase lit s) := by
  constructor
  · rintro h ⟨rfl, t, ht, hwild, hend⟩
    obtain ⟨u, hu, hsame⟩ := h.mpr ⟨t, ht, hwild⟩
    have h1 := ((suffix_iff_drop hsame.sameWild.length).mp hu).2
    have h2 := ((suffix_iff_drop (@SameWild.length true _ _ hwild)).mp ht).2
    rw [← h1, h2] at hsame
    exact hend hsame
  · intro h
    constructor
    · rintro ⟨t, ht, hsame⟩
      exact ⟨t, ht, hsame.sameWild⟩
    · rintro ⟨t, ht, hsame⟩
      refine ⟨t, ht, ?_⟩
      cases insensitive with
      | false => exact hsame
      | true =>
        by_contra hend
        exact h ⟨rfl, t, ht, hsame, hend⟩

theorem invisible_of_not_simple {M : UdmMatch L}
    (h : ¬ (M.matchType = .matchWild ∧ isSimpleWildEnding M.pattern = true)) (errstrsize : ℕ)
    (string netString : List UInt8) (Parts : List (ℤ × ℤ)) : Invisible M errstrsize string netString Parts := by
  have hcomp : ∀ b, udmMatchComp { M with skipOptimization := b } errstrsize =
      (udmMatchComp { M with skipOptimization := true } errstrsize).map fun M => { M with skipOptimization := b } := by
    intro b
    simp only [udmMatchComp]
    cases htype : M.matchType with
    | matchRegex =>
      dsimp only
      cases L.regcomp M.pattern M.insensitive <;> rfl
    | matchWild =>
      dsimp only
      rw [if_neg fun hb => h ⟨htype, hb.2⟩, if_neg fun hb => h ⟨htype, hb.2⟩]
      rfl
    | _ => rfl
  rw [Invisible, hcomp false]
  cases udmMatchComp { M with skipOptimization := true } errstrsize <;> rfl

theorem answer_eq_iff {M N : UdmMatch L} {string netString : List UInt8} {Parts : List (ℤ × ℤ)}
    (hno : M.noMatch = N.noMatch)
    (hparts : (execRes M string netString Parts).2 = (execRes N string netString Parts).2) :
    answer string netString Parts M = answer string netString Parts N ↔
      ((execRes M string netString Parts).1 = 0 ↔ (execRes N string netString Parts).1 = 0) := by
  rw [answer, answer, Prod.mk.injEq, Bool.eq_iff_iff, beq_iff_eq, beq_iff_eq, udmMatchExec, udmMatchExec]
  dsimp only
  rw [and_iff_left hparts, hno]
  cases N.noMatch with
  | false => rfl
  | true =>
    have hflip : ∀ r : ℤ, (if r = 0 then (1 : ℤ) else 0) = 0 ↔ ¬ r = 0 := by
      intro r
      split_ifs with hr
      · exact iff_of_false (by decide) (not_not.mpr hr)
      · exact iff_of_true rfl hr
    rw [if_pos rfl, if_pos rfl, hflip, hflip, not_iff_not]

/-- **The optimisation is invisible** unless the pattern is an asterisk and a literal, the match is without regard to
case, and the string ends in the literal but for the case of letters of Latin-1. -/
theorem invisible_iff (M : UdmMatch L) (errstrsize : ℕ) (string netString : List UInt8) (Parts : List (ℤ × ℤ)) :
    Invisible M errstrsize string netString Parts ↔
      ¬ (M.matchType = .matchWild ∧ M.insensitive = true ∧
        ∃ lit, M.pattern = 0x2A :: lit ∧ IsLiteral lit ∧ EndsInOtherCase lit string) := by
  by_cases hopt : M.matchType = .matchWild ∧ isSimpleWildEnding M.pattern = true
  · obtain ⟨htype, hsimple⟩ := hopt
    obtain ⟨lit, hpattern, -, hlit⟩ := isSimpleWildEnding_iff.mp hsimple
    have hfast : udmMatchComp { M with skipOptimization := false } errstrsize =
        .ok { M with skipOptimization := false, pattern := lit, matchType := .matchEnd, patternLength := lit.length } := by
      simp only [udmMatchComp, htype]
      rw [if_pos ⟨trivial, hsimple⟩, hpattern]
      rfl
    have hslow : udmMatchComp { M with skipOptimization := true } errstrsize =
        .ok { M with skipOptimization := true, patternLength := M.pattern.length } := by
      simp only [udmMatchComp, htype]
      rw [if_neg fun h => nomatch h.1]
    rw [Invisible, hfast, hslow]
    change Except.ok _ = Except.ok _ ↔ _
    rw [Except.ok.injEq]
    refine (answer_eq_iff ?_ ?_).trans ?_
    · rfl
    · simp only [execRes, htype]
    simp only [execRes, htype, hpattern]
    rw [endCompare_eq_zero_iff, wildcard_eq_zero_iff hlit, sameAnswer_iff, not_iff_not]
    constructor
    · rintro ⟨hcase, hends⟩
      exact ⟨trivial, hcase, lit, rfl, hlit, hends⟩
    · rintro ⟨-, hcase, lit', heq, -, hends⟩
      cases heq
      exact ⟨hcase, hends⟩
  · refine iff_of_true (invisible_of_not_simple hopt errstrsize string netString Parts) ?_
    rintro ⟨htype, -, lit, hpattern, hlit, t, -, hwild, hend⟩
    refine hopt ⟨htype, isSimpleWildEnding_iff.mpr ⟨lit, hpattern, ?_, hlit⟩⟩
    rintro rfl
    rw [List.map_nil, List.map_eq_nil_iff] at hwild
    rw [hwild] at hend
    exact hend rfl

/-! ## Patterns for which no string makes a difference -/

/-- The letters of Latin-1 that are not ASCII and have two cases. -/
def Latin1Letter (c : UInt8) : Prop := 0xC0 ≤ c ∧ c ≠ 0xD7 ∧ c ≠ 0xDF ∧ c ≠ 0xF7 ∧ c ≠ 0xFF

instance : DecidablePred Latin1Letter := fun _ => inferInstanceAs (Decidable (_ ∧ _))

theorem exists_otherCase (h : Latin1Letter c) : ∃ d, udmL1tolower d = udmL1tolower c ∧ tolower d ≠ tolower c := by
  refine ⟨if c < 0xE0 then c + 0x20 else c - 0x20, ?_⟩
  exact @forall_byte (fun c => Latin1Letter c → udmL1tolower (if c < 0xE0 then c + 0x20 else c - 0x20) = udmL1tolower c ∧
    tolower (if c < 0xE0 then c + 0x20 else c - 0x20) ≠ tolower c) (by decide +kernel) c h

theorem tolower_eq_of_not_letter {d : UInt8} (hc : ¬ Latin1Letter c) (h : udmL1tolower d = udmL1tolower c) :
    tolower d = tolower c := by
  have hfold : ∀ c, (Latin1Letter (udmL1tolower c) ↔ Latin1Letter c) ∧ (¬ Latin1Letter c → udmL1tolower c = tolower c) :=
    @forall_byte (fun c => (Latin1Letter (udmL1tolower c) ↔ Latin1Letter c) ∧
      (¬ Latin1Letter c → udmL1tolower c = tolower c)) (by decide +kernel)
  have hd : ¬ Latin1Letter d := by
    rw [← (hfold d).1, h, (hfold c).1]
    exact hc
  rw [← (hfold d).2 hd, ← (hfold c).2 hc, h]

theorem map_tolower_of_not_letter (hlit : ∀ c ∈ lit, ¬ Latin1Letter c)
    (h : t.map udmL1tolower = lit.map udmL1tolower) : t.map tolower = lit.map tolower := by
  induction lit generalizing t with
  | nil => simpa using h
  | cons c lit ih =>
    cases t with
    | nil => cases h
    | cons d t =>
      obtain ⟨hc, hlit⟩ := List.forall_mem_cons.mp hlit
      obtain ⟨h1, h2⟩ := List.cons.inj h
      rw [List.map_cons, List.map_cons, tolower_eq_of_not_letter hc h1, ih hlit h2]

/-- Some string ends in a literal in another case exactly when the literal has a letter of Latin-1. -/
theorem exists_endsInOtherCase_iff : (∃ string, EndsInOtherCase lit string) ↔ ∃ c ∈ lit, Latin1Letter c := by
  constructor
  · rintro ⟨string, t, -, hwild, hend⟩
    by_contra hnone
    push Not at hnone
    exact hend (map_tolower_of_not_letter hnone hwild)
  · rintro ⟨c, hc, hletter⟩
    obtain ⟨A, B, rfl⟩ := List.append_of_mem hc
    obtain ⟨d, hsame, hother⟩ := exists_otherCase hletter
    refine ⟨A ++ d :: B, A ++ d :: B, List.suffix_rfl, ?_, ?_⟩
    · simp [hsame]
    · simp [hother]

/-- **When the optimisation is invisible**: for one string, and for whatever string is matched. -/
theorem optimisation_invisible_iff (M : UdmMatch L) (errstrsize : ℕ) (netString : List UInt8) (Parts : List (ℤ × ℤ)) :
    (∀ string, Invisible M errstrsize string netString Parts ↔
      ¬ (M.matchType = .matchWild ∧ M.insensitive = true ∧
        ∃ lit, M.pattern = 0x2A :: lit ∧ IsLiteral lit ∧ EndsInOtherCase lit string)) ∧
    ((∀ string, Invisible M errstrsize string netString Parts) ↔
      ¬ (M.matchType = .matchWild ∧ M.insensitive = true ∧
        ∃ lit, M.pattern = 0x2A :: lit ∧ IsLiteral lit ∧ ∃ c ∈ lit, Latin1Letter c)) := by
  refine ⟨fun string => invisible_iff M errstrsize string netString Parts, ?_⟩
  simp only [invisible_iff, ← exists_endsInOtherCase_iff]
  constructor
  · rintro h ⟨htype, hcase, lit, hpattern, hlit, string, hends⟩
    exact h string ⟨htype, hcase, lit, hpattern, hlit, hends⟩
  · rintro h string ⟨htype, hcase, lit, hpattern, hlit, hends⟩
    exact h ⟨htype, hcase, lit, hpattern, hlit, string, hends⟩

/-! ## A pattern for which it is seen -/

/-- The pattern `*` and a small e with acute, and a capital one. -/
theorem not_forall_invisible :
    ¬ ∀ (L : Regex) (M : UdmMatch L) (errstrsize : ℕ) (string netString : List UInt8) (Parts : List (ℤ × ℤ)),
      Invisible M errstrsize string netString Parts := by
  intro hall
  have h := hall ⟨Unit, fun _ _ => .ok (), fun _ _ _ => none⟩ ⟨.matchWild, false, true, false, [0x2A, 0xE9], 0, none⟩ 100
    [0xC9] [] []
  have heq := (Prod.mk.inj (Except.ok.inj h)).1
  exact absurd heq (by decide)

end MnoGoSearch.Match
