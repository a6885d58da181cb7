import MnoGoSearch.Lib.Selection
import MnoGoSearch.Lib.SortProcedure
import Mathlib

/-!
# The best scores

`UdmURLScoreListSortByScoreThenURLTop` (`score.c`) brings the best documents of a long list to its
beginning, in the order of their scores. `topSorted` says that they are those that a full sort
would bring there.
-/

namespace MnoGoSearch.Score

open Lib.Sorting Lib.Selection

/-- A number as an `int4`. -/
def int4 (x : ℤ) : ℤ := x.bmod (2 ^ 32)

/-- `UDM_URL_SCORE`. -/
structure UdmUrlScore where
  urlId : ℤ
  score : ℕ
  deriving DecidableEq

/-- `cmp_score_then_url_id`. -/
def cmpScoreThenUrlId (c1 c2 : UdmUrlScore) : ℤ :=
  let diff := int4 (int4 c2.score - int4 c1.score)
  if diff ≠ 0 then diff else int4 (c1.urlId - c2.urlId)

/-- `UDM_URL_SCORE_IS_SMALLER`. -/
def udmUrlScoreIsSmaller (x y : UdmUrlScore) : Bool :=
  x.score < y.score || x.score == y.score && x.urlId ≥ y.urlId

/-- `UdmURLScoreListSortByScoreThenURLTop`, with `P` for `UdmSort`; nothing, if the assertion fails. The loop begins
with the last of the sorted elements, which is not better than itself. -/
def udmURLScoreListSortByScoreThenURLTop (P : SortProc) (ScoreList : List UdmUrlScore) (topcount : ℕ) :
    Option (List UdmUrlScore) :=
  if topcount < ScoreList.length then
    let first := P.sort (fun c1 c2 => decide (cmpScoreThenUrlId c1 c2 ≤ 0)) (ScoreList.take (topcount + 1))
    let r := selectTop udmUrlScoreIsSmaller first (ScoreList.drop (topcount + 1))
    some (r.1 ++ r.2)
  else none

/-! ## The order -/

/-- The place of a document: the higher score first, then the smaller id. -/
def rank (c : UdmUrlScore) : ℤ ×ₗ ℤ := toLex (-(c.score : ℤ), c.urlId)

/-- The documents in the order of their places. -/
def fullSort (L : List UdmUrlScore) : List UdmUrlScore := L.insertionSort fun a b => rank a ≤ rank b

/-- An id is a positive number and a score is at most 100000, so that the difference of two of them is an `int4`. -/
def InRange (c : UdmUrlScore) : Prop := 0 ≤ c.urlId ∧ c.urlId < 2 ^ 31 ∧ c.score < 2 ^ 31

/-- The best documents are at the beginning, in the order in which a full sort would bring them there, and no document
is lost. -/
def TopSorted (P : SortProc) (ScoreList : List UdmUrlScore) (topcount : ℕ) : Prop :=
  ∃ L, udmURLScoreListSortByScoreThenURLTop P ScoreList topcount = some L ∧ L.Perm ScoreList ∧
    L.take (topcount + 1) = (fullSort ScoreList).take (topcount + 1)

theorem rank_le_iff {c1 c2 : UdmUrlScore} :
    rank c1 ≤ rank c2 ↔ c2.score < c1.score ∨ c1.score = c2.score ∧ c1.urlId ≤ c2.urlId := by
  rw [rank, rank, Prod.Lex.toLex_le_toLex]
  omega

theorem rank_injective {c1 c2 : UdmUrlScore} (h : rank c1 = rank c2) : c1 = c2 := by
  have h1 := rank_le_iff.mp (le_of_eq h)
  have h2 := rank_le_iff.mp (ge_of_eq h)
  cases c1
  cases c2
  simp only [UdmUrlScore.mk.injEq] at h1 h2 ⊢
  omega

theorem udmUrlScoreIsSmaller_eq (x y : UdmUrlScore) : udmUrlScoreIsSmaller x y = decide (rank y ≤ rank x) := by
  rw [Bool.eq_iff_iff, decide_eq_true_eq, rank_le_iff, udmUrlScoreIsSmaller]
  simp only [Bool.or_eq_true, Bool.and_eq_true, decide_eq_true_eq, beq_iff_eq]
  omega

theorem int4_eq {x : ℤ} (hlo : -2 ^ 31 ≤ x) (hhi : x < 2 ^ 31) : int4 x = x :=
  Int.bmod_eq_of_le (by omega) (by omega)

theorem cmpScoreThenUrlId_le_iff {c1 c2 : UdmUrlScore} (h1 : InRange c1) (h2 : InRange c2) :
    cmpScoreThenUrlId c1 c2 ≤ 0 ↔ rank c1 ≤ rank c2 := by
  obtain ⟨hid1, hid1', hscore1⟩ := h1
  obtain ⟨hid2, hid2', hscore2⟩ := h2
  rw [rank_le_iff, cmpScoreThenUrlId, int4_eq (x := c1.score) (by omega) (by omega),
    int4_eq (x := c2.score) (by omega) (by omega), int4_eq (x := c2.score - c1.score) (by omega) (by omega),
    int4_eq (x := c1.urlId - c2.urlId) (by omega) (by omega)]
  split_ifs <;> omega

theorem perm_fullSort (L : List UdmUrlScore) : (fullSort L).Perm L := List.perm_insertionSort _ L

theorem sorted_fullSort (L : List UdmUrlScore) : (fullSort L).Pairwise fun a b => rank a ≤ rank b := by
  have : Std.Total fun a b : UdmUrlScore => rank a ≤ rank b := ⟨fun a b => le_total _ _⟩
  have : IsTrans UdmUrlScore fun a b => rank a ≤ rank b := ⟨fun a b c => le_trans⟩
  exact List.pairwise_insertionSort _ L

theorem eq_fullSort {l L : List UdmUrlScore} (hperm : l.Perm L) (hl : l.Pairwise fun a b => rank a ≤ rank b) :
    l = fullSort L :=
  eq_of_perm (fun _ _ _ _ => rank_injective) (hperm.trans (perm_fullSort L).symm) hl (sorted_fullSort L)

theorem pairwise_sort (P : SortProc) {l : List UdmUrlScore} (hrange : ∀ c ∈ l, InRange c) :
    (P.sort (fun c1 c2 => decide (cmpScoreThenUrlId c1 c2 ≤ 0)) l).Pairwise fun a b => rank a ≤ rank b := by
  have hcmp : ∀ a ∈ l, ∀ b ∈ l, decide (cmpScoreThenUrlId a b ≤ 0) = decide (rank a ≤ rank b) := fun a ha b hb => by
    rw [decide_eq_decide, cmpScoreThenUrlId_le_iff (hrange a ha) (hrange b hb)]
  rw [P.sort_congr hcmp]
  refine List.Pairwise.imp of_decide_eq_true (P.pairwise_sort (fun a _ b _ c _ hab hbc => ?_) fun a _ b _ => ?_)
  · exact decide_eq_true (le_trans (of_decide_eq_true hab) (of_decide_eq_true hbc))
  · exact (le_total (rank a) (rank b)).imp decide_eq_true decide_eq_true

/-- **The beginning of the list** is that of the sorted list. -/
theorem topSorted (P : SortProc) {ScoreList : List UdmUrlScore} {topcount : ℕ} (hlt : topcount < ScoreList.length)
    (hrange : ∀ c ∈ ScoreList, InRange c) : TopSorted P ScoreList topcount := by
  have hfirst := pairwise_sort P fun c hc => hrange c (List.mem_of_mem_take (i := topcount + 1) hc)
  obtain ⟨hperm, hsorted, hle, hlength⟩ :=
    selectTop_spec udmUrlScoreIsSmaller_eq hfirst (ScoreList.drop (topcount + 1))
  refine ⟨_, if_pos hlt, ?_⟩
  generalize selectTop udmUrlScoreIsSmaller _ _ = r at hperm hsorted hle hlength
  have hall : (r.1 ++ r.2).Perm ScoreList := by
    have h := (P.perm_sort (fun c1 c2 => decide (cmpScoreThenUrlId c1 c2 ≤ 0)) (ScoreList.take (topcount + 1))).append_right
      (ScoreList.drop (topcount + 1))
    rw [List.take_append_drop] at h
    exact hperm.trans h
  have hlen : r.1.length = topcount + 1 := by
    rw [hlength, (P.perm_sort _ _).length_eq, List.length_take]
    omega
  have hfull : r.1 ++ fullSort r.2 = fullSort ScoreList := by
    refine eq_fullSort (((perm_fullSort r.2).append_left r.1).trans hall) ?_
    exact List.pairwise_append.mpr
      ⟨hsorted, sorted_fullSort r.2, fun a ha b hb => hle a ha b ((perm_fullSort r.2).mem_iff.mp hb)⟩
  refine ⟨hall, ?_⟩
  rw [← hfull, List.take_append_of_le_length hlen.ge, List.take_append_of_le_length hlen.ge]

/-- The better two of three documents. -/
theorem topSorted_three : TopSorted .forward [⟨1, 5⟩, ⟨2, 9⟩, ⟨3, 9⟩] 1 :=
  topSorted .forward (by decide) (by simp [InRange])

/-- There must be more documents than `topcount`. -/
theorem not_topSorted : ¬ TopSorted .forward [⟨1, 5⟩] 1 := by
  rintro ⟨L, hL, -⟩
  cases hL

end MnoGoSearch.Score
