import MnoGoSearch.Lib.Wildcard
import MnoGoSearch.Vars.VarList

/-!
# Wildcard matching

`UdmWildCmp` and `UdmWildCaseCmp` (`wild.c`) walk over the string and the pattern together and call
themselves behind a star. They return 0 for a match, 1 for a mismatch and -1 where the string ends
before the pattern; a -1 from behind a star ends the search of every star in front of it.
`wildCmp_exact` says that the 0 is exact all the same.
-/

namespace MnoGoSearch.Match

open MnoGoSearch.Vars
open MnoGoSearch.Lib.Wildcard (Token Verdict wild lang)

/-- `UdmWildCmp`: 0 when the string matches the pattern (the second argument). A row of asterisks is one asterisk. -/
def udmWildCmp (str : List UInt8) : List UInt8 → ℤ
  | [] => if str = [] then 0 else 1
  | w :: wexp =>
    if str = [] ∧ w ≠ 0x2A then -1
    else if w = 0x2A then
      match wexp with
      | [] => 0
      | w' :: wexp' =>
        if w' = 0x2A then udmWildCmp str (w' :: wexp')
        else scan (fun s => udmWildCmp s (w' :: wexp')) str
    else if w ≠ 0x3F ∧ str.headD 0 ≠ w then 1
    else udmWildCmp str.tail wexp

/-! ## The pattern -/

/-- What a character of a pattern stands for. -/
def token (w : UInt8) : Token UInt8 := if w = 0x2A then .star else if w = 0x3F then .any else .lit w

/-- The language of a pattern. -/
def patternLang (same : UInt8 → UInt8 → Prop) (wexp : List UInt8) : Language UInt8 := lang same (wexp.map token)

/-- The characters are the same but for the case, as `udm_l1tolower` has it. -/
def SameCase (a b : UInt8) : Prop := udmL1tolower a = udmL1tolower b

instance : DecidableRel SameCase := fun _ _ => inferInstanceAs (Decidable (_ = _))

theorem token_of_ne {w : UInt8} (hstar : w ≠ 0x2A) (hany : w ≠ 0x3F) : token w = .lit w := by
  rw [token, if_neg hstar, if_neg hany]

/-- The number that stands for a verdict. -/
def code : Verdict → ℤ
  | .matched => 0
  | .mismatch => 1
  | .exhausted => -1

variable {v : Verdict}

theorem code_eq_zero_iff : code v = 0 ↔ v = .matched := by cases v <;> simp [code]

theorem code_eq_one_iff : code v = 1 ↔ v = .mismatch := by cases v <;> simp [code]

theorem code_eq_neg_one_iff : code v = -1 ↔ v = .exhausted := by cases v <;> simp [code]

theorem scan_eq_code {tail : List UInt8 → ℤ} {tail' : List UInt8 → Verdict} (h : ∀ s, tail s = code (tail' s))
    (str : List UInt8) : scan tail str = code (Lib.Wildcard.scan tail' str) := by
  induction str with
  | nil => rfl
  | cons c str ih =>
    rw [scan, Lib.Wildcard.scan, h, ih]
    by_cases hv : tail' (c :: str) = .mismatch
    · rw [if_pos hv, if_neg (not_not.mpr (code_eq_one_iff.mpr hv))]
    · rw [if_neg hv, if_pos (mt code_eq_one_iff.mp hv)]

theorem eq_code_wild {same : UInt8 → UInt8 → Prop} [DecidableRel same] {f : List UInt8 → List UInt8 → ℤ}
    (hnil : ∀ str, f str [] = if str = [] then 0 else 1)
    (hcons : ∀ str w wexp, f str (w :: wexp) =
      if str = [] ∧ w ≠ 0x2A then -1
      else if w = 0x2A then
        match wexp with
        | [] => 0
        | w' :: wexp' => if w' = 0x2A then f str (w' :: wexp') else scan (fun s => f s (w' :: wexp')) str
      else if w ≠ 0x3F ∧ ¬ same (str.headD 0) w then 1
      else f str.tail wexp)
    (str wexp : List UInt8) : f str wexp = code (wild same (wexp.map token) str) := by
  induction wexp generalizing str with
  | nil =>
    rw [hnil]
    cases str <;> rfl
  | cons w wexp ih =>
    rw [hcons, List.map_cons]
    by_cases hstar : w = 0x2A
    · subst hstar
      rw [if_neg fun h => h.2 rfl, if_pos rfl]
      cases wexp with
      | nil => rfl
      | cons w' wexp =>
        rw [List.map_cons] at ih ⊢
        by_cases hstar' : w' = 0x2A
        · subst hstar'
          exact (if_pos rfl).trans (ih str)
        · refine (if_neg hstar').trans ?_
          rw [scan_eq_code ih]
          by_cases hany : w' = 0x3F
          · subst hany
            rfl
          · rw [token_of_ne hstar' hany]
            rfl
    · rw [if_neg hstar]
      cases str with
      | nil =>
        rw [if_pos ⟨rfl, hstar⟩]
        by_cases hany : w = 0x3F
        · subst hany
          rfl
        · rw [token_of_ne hstar hany]
          rfl
      | cons c str =>
        have hne : ¬ (c :: str = [] ∧ w ≠ 0x2A) := fun h => nomatch h.1
        rw [if_neg hne, List.headD_cons, List.tail_cons]
        by_cases hany : w = 0x3F
        · subst hany
          exact (if_neg fun h => h.1 rfl).trans (ih str)
        · rw [token_of_ne hstar hany, Lib.Wildcard.wild_lit_cons]
          by_cases hsame : same c w
          · rw [if_neg fun h => h.2 hsame, if_pos hsame, ih]
          · rw [if_pos ⟨hany, hsame⟩, if_neg hsame]
            rfl

theorem udmWildCmp_eq_code (str wexp : List UInt8) : udmWildCmp str wexp = code (wild (· = ·) (wexp.map token) str) := by
  refine eq_code_wild (fun str => by rw [udmWildCmp]) (fun str w wexp => ?_) str wexp
  rw [udmWildCmp.eq_def]

theorem udmWildCaseCmp_eq_code (str wexp : List UInt8) :
    udmWildCaseCmp str wexp = code (wild SameCase (wexp.map token) str) := by
  refine eq_code_wild (fun str => by rw [udmWildCaseCmp]) (fun str w wexp => ?_) str wexp
  rw [udmWildCaseCmp.eq_def]
  rfl

theorem code_wild_spec {same : UInt8 → UInt8 → Prop} [DecidableRel same] (str wexp : List UInt8) :
    (code (wild same (wexp.map token) str) = 0 ↔ str ∈ patternLang same wexp) ∧
      (code (wild same (wexp.map token) str) = -1 → ∀ t, t <:+ str → t ∉ patternLang same wexp) := by
  constructor
  · rw [code_eq_zero_iff, Lib.Wildcard.wild_eq_matched_iff, patternLang]
  · intro h
    have hholds := @Lib.Wildcard.holds_wild _ same _ (wexp.map token) str
    rw [code_eq_neg_one_iff.mp h] at hholds
    exact hholds

/-- **Wildcard matching is exact**: the value 0 says that the string is in the language of the pattern, and after the
value -1, which ends the searches further out, no rest of the string is in it. -/
theorem wildCmp_exact (str wexp : List UInt8) :
    ((udmWildCmp str wexp = 0 ↔ str ∈ patternLang (· = ·) wexp) ∧
      (udmWildCmp str wexp = -1 → ∀ t, t <:+ str → t ∉ patternLang (· = ·) wexp)) ∧
    ((udmWildCaseCmp str wexp = 0 ↔ str ∈ patternLang SameCase wexp) ∧
      (udmWildCaseCmp str wexp = -1 → ∀ t, t <:+ str → t ∉ patternLang SameCase wexp)) := by
  rw [udmWildCmp_eq_code, udmWildCaseCmp_eq_code]
  exact ⟨code_wild_spec str wexp, code_wild_spec str wexp⟩

end MnoGoSearch.Match
