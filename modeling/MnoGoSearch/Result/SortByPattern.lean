import MnoGoSearch.Lib.ShellSort
import MnoGoSearch.Lib.Sorting
import MnoGoSearch.Result.GroupBySite

/-!
# Sorting by a pattern

The parameter `s` of a search is a pattern of letters, the keys of the result in their order
(`urldata.c`): the score, the popularity rank, the modification time, the address and a
section; a capital letter puts the highest first. The patterns `R` and `RP` are sorted with
`qsort`, the others with a shell sort. Neither says how documents with equal keys come.
-/

namespace MnoGoSearch.Result

open Lib.Sorting Lib.ShellSort

/-- One letter of a pattern in `cmppattern`: `gt` when `D` has to stand before `E`. -/
def cmpletter (D E : UdmUrlData) : Char → Ordering
  | 'R' => compare D.score E.score
  | 'r' => (compare D.score E.score).swap
  | 'P' => compare D.popRank E.popRank
  | 'p' => (compare D.popRank E.popRank).swap
  | 'D' => compare D.lastModTime E.lastModTime
  | 'd' => (compare D.lastModTime E.lastModTime).swap
  | 'U' => (compare (D.url.getD "") (E.url.getD "")).swap
  | 'u' => compare (D.url.getD "") (E.url.getD "")
  | 'S' => (compare (D.sectionName.getD "") (E.sectionName.getD "")).swap
  | 's' => compare (D.sectionName.getD "") (E.sectionName.getD "")
  | _ => .eq

/-- `cmppattern`: the first letter that tells the documents apart decides. -/
def cmppattern (D E : UdmUrlData) (pattern : List Char) : Ordering :=
  pattern.foldr (fun c rest => (cmpletter D E c).then rest) .eq

/-- `cmppatternR`. -/
def cmppatternR (D1 D2 : UdmUrlData) : Ordering := compare D2.score D1.score

/-- `cmppatternRP`. -/
def cmppatternRP (D1 D2 : UdmUrlData) : Ordering :=
  (compare D2.score D1.score).then (compare D2.popRank D1.popRank)

/-- The order of `cmppatternR`. -/
def PatternR (D1 D2 : UdmUrlData) : Prop := cmppatternR D1 D2 ≠ .gt

/-- The order of `cmppatternRP`. -/
def PatternRP (D1 D2 : UdmUrlData) : Prop := cmppatternRP D1 D2 ≠ .gt

instance : DecidableRel PatternR := fun _ _ => inferInstanceAs (Decidable (_ ≠ _))

instance : DecidableRel PatternRP := fun _ _ => inferInstanceAs (Decidable (_ ≠ _))

/-- The sorting function `UdmSort` on results, for each of the comparisons it is called with. -/
structure PatternSorts where
  /-- With `cmppatternR`. -/
  byR : QSort PatternR
  /-- With `cmppatternRP`. -/
  byRP : QSort PatternRP

/-- `UdmH`, the gaps of the shell sort. -/
def udmH (s : ℕ) : ℕ :=
  [1, 5, 19, 41, 109, 209, 505, 929, 2161, 3905, 8929, 16001, 36289, 64769].getD s 0

/-- The first gap that is used: the index starts at `s` and goes down to a gap of a third of
the elements at most. -/
def firstGap (num : ℕ) : ℕ → ℕ
  | 0 => 0
  | s + 1 => if num / 3 < udmH (s + 1) then firstGap num s else s + 1

/-- The gaps for `num` elements. -/
def gaps (num : ℕ) : List ℕ := (List.range (firstGap num 13 + 1)).reverse.map udmH

/-- The shell sort of `UdmURLDataSortByPattern`. -/
def shellSortByPattern (L : List UdmUrlData) (pattern : List Char) : List UdmUrlData :=
  (List.range L.length).map
    (sort (fun D E => cmppattern D E pattern == .gt) L.length (gaps L.length) fun i => L.getD i emptyData)

/-- `UdmURLDataSortByPattern`. -/
def udmURLDataSortByPattern (S : PatternSorts) (L : List UdmUrlData) (pattern : List Char) : List UdmUrlData :=
  if pattern = ['R', 'P'] then S.byRP.sort L
  else if pattern = ['R'] then S.byR.sort L
  else shellSortByPattern L pattern

/-- The score is the key of a pattern: no other letter that means anything is in it. -/
def ScorePattern (pattern : List Char) : Prop :=
  ∀ c ∈ pattern, c ∉ ['U', 'u', 'P', 'p', 'D', 'd', 'S', 's']

instance (pattern : List Char) : Decidable (ScorePattern pattern) :=
  List.decidableBAll _ pattern

/-- The first letter of the pattern that stands for the score. -/
def scoreLetter (pattern : List Char) : Option Char := pattern.find? fun c => c == 'R' || c == 'r'

variable {pattern : List Char}

theorem scoreLetter_eq_some {c : Char} (h : scoreLetter pattern = some c) : c = 'R' ∨ c = 'r' := by
  have := List.find?_some h
  simpa using this

theorem cmppattern_eq (h : ScorePattern pattern) (D E : UdmUrlData) :
    cmppattern D E pattern = match scoreLetter pattern with
      | some 'R' => compare D.score E.score
      | some _ => (compare D.score E.score).swap
      | none => .eq := by
  induction pattern with
  | nil => rfl
  | cons c pattern ih =>
    have ih := ih fun c hc => h c (List.mem_cons_of_mem _ hc)
    have hc := h c List.mem_cons_self
    change (cmpletter D E c).then (cmppattern D E pattern) = _
    rw [ih]
    by_cases hR : c = 'R'
    · subst hR
      change (compare D.score E.score).then _ = compare D.score E.score
      cases compare D.score E.score with
      | eq => split <;> rfl
      | lt => rfl
      | gt => rfl
    · by_cases hr : c = 'r'
      · subst hr
        change (compare D.score E.score).swap.then _ = (compare D.score E.score).swap
        cases compare D.score E.score with
        | eq => split <;> rfl
        | lt => rfl
        | gt => rfl
      · have hletter : scoreLetter (c :: pattern) = scoreLetter pattern := by
          rw [scoreLetter, List.find?_cons_of_neg (by simp [hR, hr]), ← scoreLetter]
        have hnone : cmpletter D E c = .eq := by
          rw [cmpletter] <;> rintro rfl <;> simp at hc hR hr
        rw [hletter, hnone]
        rfl

/-! ## What the sorting keeps and orders -/

theorem map_getD_range {α : Type} (L : List α) (d : α) : (List.range L.length).map (fun i => L.getD i d) = L := by
  apply List.ext_getElem
  · simp
  · intro i hi hi'
    simp [List.getElem?_eq_getElem hi']

theorem perm_shellSortByPattern (L : List UdmUrlData) (pattern : List Char) :
    (shellSortByPattern L pattern).Perm L := by
  have h := perm_sort (fun D E => cmppattern D E pattern == .gt) L.length (gaps L.length)
    fun i => L.getD i emptyData
  rwa [map_getD_range] at h

theorem perm_udmURLDataSortByPattern (S : PatternSorts) (L : List UdmUrlData) (pattern : List Char) :
    (udmURLDataSortByPattern S L pattern).Perm L := by
  rw [udmURLDataSortByPattern]
  split_ifs
  · exact S.byRP.perm L
  · exact S.byR.perm L
  · exact perm_shellSortByPattern L pattern

theorem gaps_eq (num : ℕ) : ∃ init, gaps num = init ++ [1] := by
  refine ⟨((List.range (firstGap num 13)).map Nat.succ).reverse.map udmH, ?_⟩
  rw [gaps, List.range_succ_eq_map, List.reverse_cons, List.map_append]
  rfl

theorem patternR_iff {D1 D2 : UdmUrlData} : PatternR D1 D2 ↔ D2.score ≤ D1.score := by
  rw [PatternR, cmppatternR, Ne, compare_gt_iff_gt, not_lt]

theorem patternR_trans {D1 D2 D3 : UdmUrlData} (h12 : PatternR D1 D2) (h23 : PatternR D2 D3) : PatternR D1 D3 :=
  patternR_iff.mpr (le_trans (patternR_iff.mp h23) (patternR_iff.mp h12))

theorem patternR_total (D1 D2 : UdmUrlData) : PatternR D1 D2 ∨ PatternR D2 D1 :=
  (le_total D2.score D1.score).imp patternR_iff.mpr patternR_iff.mpr

theorem patternRP_iff {D1 D2 : UdmUrlData} :
    PatternRP D1 D2 ↔ D2.score < D1.score ∨ D2.score = D1.score ∧ D2.popRank ≤ D1.popRank := by
  rw [PatternRP, cmppatternRP]
  rcases lt_trichotomy D2.score D1.score with h | h | h
  · simp [compare_lt_iff_lt.mpr h, h]
  · rw [compare_eq_iff_eq.mpr h]
    change compare D2.popRank D1.popRank ≠ .gt ↔ _
    rw [Ne, compare_gt_iff_gt, not_lt]
    simp [h]
  · simp [compare_gt_iff_gt.mpr h, not_lt.mpr (le_of_lt h), ne_of_gt h]

theorem patternRP_trans {D1 D2 D3 : UdmUrlData} (h12 : PatternRP D1 D2) (h23 : PatternRP D2 D3) : PatternRP D1 D3 := by
  rw [patternRP_iff] at *
  rcases h12 with h12 | ⟨h12, hp12⟩
  · exact Or.inl (by omega)
  · rcases h23 with h23 | ⟨h23, hp23⟩
    · exact Or.inl (by omega)
    · exact Or.inr ⟨h23.trans h12, le_trans hp23 hp12⟩

theorem patternRP_total (D1 D2 : UdmUrlData) : PatternRP D1 D2 ∨ PatternRP D2 D1 := by
  rw [patternRP_iff, patternRP_iff]
  rcases lt_trichotomy D2.score D1.score with h | h | h
  · exact Or.inl (Or.inl h)
  · rcases le_total D2.popRank D1.popRank with hp | hp
    · exact Or.inl (Or.inr ⟨h, hp⟩)
    · exact Or.inr (Or.inr ⟨h.symm, hp⟩)
  · exact Or.inr (Or.inl h)

theorem sorted_shellSortByPattern (L : List UdmUrlData) (f : UdmUrlData → ℤ)
    (hf : ∀ D E, (cmppattern D E pattern == .gt) = decide (f D < f E)) :
    (shellSortByPattern L pattern).Pairwise fun D E => f D ≤ f E := by
  obtain ⟨init, hgaps⟩ := gaps_eq L.length
  rw [shellSortByPattern, hgaps]
  have h := @sorted_sort _ (fun D E => cmppattern D E pattern == .gt)
    (fun x y hxy => by
      simp only [hf, decide_eq_true_eq, decide_eq_false_iff_not] at hxy ⊢
      omega)
    (fun x y z hyx hzy => by
      simp only [hf, decide_eq_false_iff_not] at hyx hzy ⊢
      omega)
    L.length init fun i => L.getD i emptyData
  refine List.Pairwise.imp (fun {D E} hDE => ?_) h
  simp only [hf, decide_eq_false_iff_not] at hDE
  omega

theorem sorted_udmURLDataSortByPattern_desc (S : PatternSorts) (L : List UdmUrlData)
    (hp : ScorePattern pattern) (hletter : scoreLetter pattern = some 'R') :
    (udmURLDataSortByPattern S L pattern).Pairwise fun D E => -(D.score : ℤ) ≤ -(E.score : ℤ) := by
  rw [udmURLDataSortByPattern]
  split_ifs with hRP hR
  · exact absurd (hp 'P' (by simp [hRP])) (by decide)
  · refine List.Pairwise.imp (fun {D E} hDE => ?_) (S.byR.sorted L)
    have := patternR_iff.mp hDE
    omega
  · apply sorted_shellSortByPattern
    intro D E
    rw [cmppattern_eq hp, hletter, Bool.eq_iff_iff, beq_iff_eq, decide_eq_true_eq]
    change compare D.score E.score = .gt ↔ _
    rw [compare_gt_iff_gt]
    omega

theorem sorted_udmURLDataSortByPattern_asc (S : PatternSorts) (L : List UdmUrlData)
    (hp : ScorePattern pattern) (hletter : scoreLetter pattern = some 'r') :
    (udmURLDataSortByPattern S L pattern).Pairwise fun D E => (D.score : ℤ) ≤ (E.score : ℤ) := by
  rw [udmURLDataSortByPattern]
  split_ifs with hRP hR
  · exact absurd (hp 'P' (by simp [hRP])) (by decide)
  · rw [hR] at hletter
    exact absurd hletter (by decide)
  · apply sorted_shellSortByPattern
    intro D E
    rw [cmppattern_eq hp, hletter, Bool.eq_iff_iff, beq_iff_eq, decide_eq_true_eq]
    change (compare D.score E.score).swap = .gt ↔ _
    rw [Ordering.swap_eq_gt, compare_lt_iff_lt]
    omega

theorem shellSortByPattern_eq_self {L : List UdmUrlData}
    (h : ∀ D ∈ L, ∀ E ∈ L, cmppattern D E pattern ≠ .gt) : shellSortByPattern L pattern = L := by
  have hget : ∀ i < L.length, L.getD i emptyData ∈ L := by
    intro i hi
    rw [List.getD, List.getElem?_eq_getElem hi]
    exact List.getElem_mem hi
  rw [shellSortByPattern, sort_eq_self, map_getD_range]
  intro i hi j hj
  simpa using h _ (hget i hi) _ (hget j hj)

end MnoGoSearch.Result
