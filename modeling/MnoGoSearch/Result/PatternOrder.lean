import MnoGoSearch.Lib.Keys
import MnoGoSearch.Result.SortByPattern
import Mathlib.Data.String.Basic

/-!
# The order of a pattern

A pattern sorts by the keys of its letters, one after the other (`urldata.c`). A capital letter puts the highest
score, popularity rank or date first, but the lowest address or section; a small letter does the opposite.
`sorted_udmURLDataSortByPattern` says that the shell sort, and `qsort` for the patterns `R` and `RP`, give this order.
-/

namespace MnoGoSearch.Result

open Lib.Keys Lib.ShellSort

/-- `D` has to stand in front of `E` by the key of a letter. -/
def LetterBefore : Char → UdmUrlData → UdmUrlData → Prop
  | 'R' => fun D E => E.score < D.score
  | 'r' => fun D E => D.score < E.score
  | 'P' => fun D E => E.popRank < D.popRank
  | 'p' => fun D E => D.popRank < E.popRank
  | 'D' => fun D E => E.lastModTime < D.lastModTime
  | 'd' => fun D E => D.lastModTime < E.lastModTime
  | 'U' => fun D E => D.url.getD "" < E.url.getD ""
  | 'u' => fun D E => E.url.getD "" < D.url.getD ""
  | 'S' => fun D E => D.sectionName.getD "" < E.sectionName.getD ""
  | 's' => fun D E => E.sectionName.getD "" < D.sectionName.getD ""
  | _ => fun _ _ => False

/-- The first letter that tells them apart decides. -/
def PatternBefore : List Char → UdmUrlData → UdmUrlData → Prop
  | [] => fun _ _ => False
  | c :: pattern => Lex (LetterBefore c) (PatternBefore pattern)

theorem weakOrder_letterBefore (c : Char) : WeakOrder (LetterBefore c) := by
  unfold LetterBefore
  split
  · exact (WeakOrder.of_key UdmUrlData.score).swap
  · exact WeakOrder.of_key UdmUrlData.score
  · exact (WeakOrder.of_key UdmUrlData.popRank).swap
  · exact WeakOrder.of_key UdmUrlData.popRank
  · exact (WeakOrder.of_key UdmUrlData.lastModTime).swap
  · exact WeakOrder.of_key UdmUrlData.lastModTime
  · exact WeakOrder.of_key fun D : UdmUrlData => D.url.getD ""
  · exact (WeakOrder.of_key fun D : UdmUrlData => D.url.getD "").swap
  · exact WeakOrder.of_key fun D : UdmUrlData => D.sectionName.getD ""
  · exact (WeakOrder.of_key fun D : UdmUrlData => D.sectionName.getD "").swap
  · exact WeakOrder.empty

theorem weakOrder_patternBefore (pattern : List Char) : WeakOrder (PatternBefore pattern) := by
  induction pattern with
  | nil => exact WeakOrder.empty
  | cons c pattern ih => exact (weakOrder_letterBefore c).lex ih

/-! ### The comparison -/

theorem cmpletter_eq_gt (D E : UdmUrlData) (c : Char) : cmpletter D E c = .gt ↔ LetterBefore c D E := by
  unfold cmpletter LetterBefore
  split <;> simp [compare_gt_iff_gt, Ordering.swap_eq_gt, compare_lt_iff_lt]

theorem cmpletter_swap (D E : UdmUrlData) (c : Char) : (cmpletter D E c).swap = cmpletter E D c := by
  unfold cmpletter
  split <;> simp [← Std.OrientedOrd.eq_swap]

theorem cmppattern_eq_gt (D E : UdmUrlData) (pattern : List Char) :
    cmppattern D E pattern = .gt ↔ PatternBefore pattern D E := by
  induction pattern with
  | nil => exact ⟨nofun, False.elim⟩
  | cons c pattern ih =>
    change (cmpletter D E c).then (cmppattern D E pattern) = .gt ↔
      LetterBefore c D E ∨ ¬LetterBefore c E D ∧ PatternBefore pattern D E
    rw [← cmpletter_eq_gt, ← cmpletter_eq_gt, ← cmpletter_swap D E, ← ih]
    cases cmpletter D E c with
    | lt => simp [Ordering.then]
    | eq => simp [Ordering.then]
    | gt => simp [Ordering.then]

theorem cmppattern_beq_gt_eq_false {D E : UdmUrlData} {pattern : List Char} :
    (cmppattern D E pattern == .gt) = false ↔ ¬PatternBefore pattern D E := by
  rw [beq_eq_false_iff_ne, Ne, cmppattern_eq_gt]

theorem pairwise_shellSortByPattern (L : List UdmUrlData) (pattern : List Char) :
    (shellSortByPattern L pattern).Pairwise fun D E => ¬PatternBefore pattern E D := by
  have order := weakOrder_patternBefore pattern
  obtain ⟨init, hgaps⟩ := gaps_eq L.length
  rw [shellSortByPattern, hgaps]
  have hsorted := @sorted_sort _ (fun D E => cmppattern D E pattern == .gt)
    (fun D E hDE => cmppattern_beq_gt_eq_false.mpr (order.asymm ((cmppattern_eq_gt D E pattern).mp (beq_iff_eq.mp hDE))))
    (fun D E F hED hFE => cmppattern_beq_gt_eq_false.mpr
      (order.negTrans (cmppattern_beq_gt_eq_false.mp hFE) (cmppattern_beq_gt_eq_false.mp hED)))
    L.length init fun i => L.getD i emptyData
  exact hsorted.imp fun hDE => cmppattern_beq_gt_eq_false.mp hDE

/-! ### The patterns that `qsort` sorts by -/

theorem patternR_iff_not_before {D E : UdmUrlData} : PatternR D E ↔ ¬PatternBefore ['R'] E D := by
  rw [patternR_iff]
  change E.score ≤ D.score ↔ ¬(D.score < E.score ∨ ¬E.score < D.score ∧ False)
  rw [and_false, or_false, not_lt]

theorem patternRP_iff_not_before {D E : UdmUrlData} : PatternRP D E ↔ ¬PatternBefore ['R', 'P'] E D := by
  rw [patternRP_iff]
  change E.score < D.score ∨ E.score = D.score ∧ E.popRank ≤ D.popRank ↔
    ¬(D.score < E.score ∨ ¬E.score < D.score ∧ (D.popRank < E.popRank ∨ ¬E.popRank < D.popRank ∧ False))
  rw [and_false, or_false]
  rcases lt_trichotomy E.score D.score with h | h | h
  · simp [h, not_lt_of_gt h]
  · simp [h]
  · simp [h, not_lt_of_gt h, ne_of_gt h]

/-- **The result has the documents of the list, in the order of the pattern**, whether the shell sort or `qsort`
sorts it. -/
theorem perm_and_pairwise_udmURLDataSortByPattern (S : PatternSorts) (L : List UdmUrlData) (pattern : List Char) :
    (udmURLDataSortByPattern S L pattern).Perm L ∧
      (udmURLDataSortByPattern S L pattern).Pairwise fun D E => ¬PatternBefore pattern E D := by
  refine ⟨perm_udmURLDataSortByPattern S L pattern, ?_⟩
  rw [udmURLDataSortByPattern]
  split_ifs with hRP hR
  · rw [hRP]
    exact (S.byRP.sorted L).imp patternRP_iff_not_before.mp
  · rw [hR]
    exact (S.byR.sorted L).imp patternR_iff_not_before.mp
  · exact pairwise_shellSortByPattern L pattern

end MnoGoSearch.Result
