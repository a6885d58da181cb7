import MnoGoSearch.Lib.Selection
import MnoGoSearch.Result.SortByPattern
import Mathlib

/-!
# Short pages

A page of results with fewer than 256 rows before its end needs no data of the documents
when the result is sorted by score: `UdmSortAndGroupByURL` takes the best rows of the list
of scores, from a list of more than 1000 the best 1001 with `UdmURLScoreListSortByScoreThenURLTop`,
and sorts only these by the pattern. `shortPage_invisible_iff` says when that is the
beginning of the whole list sorted by the pattern.
-/

namespace MnoGoSearch.Result

open Lib.Sorting Lib.Selection

/-- `UDM_URL_SCORE`: a document that has been found and its score. Scores are at most 100000,
their differences and those of the ids fit an `int4`. -/
structure UdmUrlScore where
  urlId : ℤ
  score : ℕ
  urlId_pos : 0 < urlId
  /-- A score is an `int4` too. -/
  score_lt : score < 2 ^ 31
  deriving DecidableEq

/-- `UDM_URLSCORELIST`, in the order of the ids. -/
abbrev UdmUrlScoreList := { l : List UdmUrlScore // l.Pairwise fun a b => a.urlId < b.urlId }

/-- `cmp_score_then_url_id`. -/
def cmpScoreThenUrlId (c1 c2 : UdmUrlScore) : ℤ :=
  let diff := (c2.score : ℤ) - c1.score
  if diff ≠ 0 then diff else c1.urlId - c2.urlId

/-- `cmp_score_urlid`. -/
def cmpScoreUrlid (s1 s2 : UdmUrlScore) : ℤ :=
  if s1.urlId > s2.urlId then 1 else if s1.urlId < s2.urlId then -1 else 0

/-- The order of `cmp_score_then_url_id`. -/
def ScoreThenUrlId (c1 c2 : UdmUrlScore) : Prop := cmpScoreThenUrlId c1 c2 ≤ 0

/-- The order of `cmp_score_urlid`. -/
def ScoreUrlid (s1 s2 : UdmUrlScore) : Prop := cmpScoreUrlid s1 s2 ≤ 0

instance : DecidableRel ScoreThenUrlId := fun _ _ => inferInstanceAs (Decidable (_ ≤ _))

instance : DecidableRel ScoreUrlid := fun _ _ => inferInstanceAs (Decidable (_ ≤ _))

/-- `UdmSort`, for each of the comparisons a search calls it with. -/
structure SearchSorts extends PatternSorts where
  /-- With `cmp_score_then_url_id`. -/
  byScore : QSort ScoreThenUrlId
  /-- With `cmp_score_urlid`. -/
  byUrlid : QSort ScoreUrlid

/-- `UDM_URL_SCORE_IS_SMALLER`. -/
def udmUrlScoreIsSmaller (x y : UdmUrlScore) : Bool :=
  x.score < y.score || x.score == y.score && x.urlId ≥ y.urlId

/-- `UdmURLScoreListSortByScoreThenURLTop`. Its loop begins with the last of the sorted
elements, which is not better than itself. -/
def udmURLScoreListSortByScoreThenURLTop (S : SearchSorts) (ScoreList : List UdmUrlScore) (topcount : ℕ) :
    List UdmUrlScore :=
  let r := selectTop udmUrlScoreIsSmaller (S.byScore.sort (ScoreList.take (topcount + 1)))
    (ScoreList.drop (topcount + 1))
  r.1 ++ r.2

/-- The sorting by score of the short path. -/
def sortByScore (S : SearchSorts) (ScoreList : List UdmUrlScore) : List UdmUrlScore :=
  if ScoreList.length > 1000 then udmURLScoreListSortByScoreThenURLTop S ScoreList 1000
  else S.byScore.sort ScoreList

/-- `UdmScoreListToURLData`, on one element of a zeroed list. -/
def udmScoreListToURLData (C : UdmUrlScore) : UdmUrlData := { emptyData with urlId := C.urlId, score := C.score }

/-- What `UdmSortAndGroupByURL` does with a pattern that asks for no data of the documents and
without grouping. `load` reads the data that `UdmLoadURLDataFromURL` loads nevertheless. -/
def udmSortAndGroupByURL (S : SearchSorts) (load : List UdmUrlData → List UdmUrlData) (pattern : List Char)
    (numBestRows : ℕ) (ScoreList : List UdmUrlScore) : List UdmUrlData :=
  let n := min numBestRows ScoreList.length
  if n < 256 then
    udmURLDataSortByPattern S.toPatternSorts
      ((S.byUrlid.sort ((sortByScore S ScoreList).take n)).map udmScoreListToURLData) pattern
  else udmURLDataSortByPattern S.toPatternSorts (load (ScoreList.map udmScoreListToURLData)) pattern

/-! ## The best rows -/

/-- The place of a document: the higher score first, then the smaller id. -/
def rank (c : UdmUrlScore) : ℤ ×ₗ ℤ := toLex (-(c.score : ℤ), c.urlId)

theorem rank_le_iff {c1 c2 : UdmUrlScore} :
    rank c1 ≤ rank c2 ↔ c2.score < c1.score ∨ c1.score = c2.score ∧ c1.urlId ≤ c2.urlId := by
  rw [rank, rank, Prod.Lex.toLex_le_toLex]
  omega

theorem rank_injective {c1 c2 : UdmUrlScore} (h : rank c1 = rank c2) : c1 = c2 := by
  have h1 := rank_le_iff.mp (le_of_eq h)
  have h2 := rank_le_iff.mp (ge_of_eq h)
  cases c1
  cases c2
  simp only [UdmUrlScore.mk.injEq] at h1 h2 ⊢
  omega

theorem scoreThenUrlId_iff {c1 c2 : UdmUrlScore} : ScoreThenUrlId c1 c2 ↔ rank c1 ≤ rank c2 := by
  rw [rank_le_iff, ScoreThenUrlId, cmpScoreThenUrlId]
  split <;> omega

theorem scoreUrlid_iff {s1 s2 : UdmUrlScore} : ScoreUrlid s1 s2 ↔ s1.urlId ≤ s2.urlId := by
  rw [ScoreUrlid, cmpScoreUrlid]
  split_ifs <;> omega

theorem udmUrlScoreIsSmaller_eq (x y : UdmUrlScore) : udmUrlScoreIsSmaller x y = decide (rank y ≤ rank x) := by
  rw [Bool.eq_iff_iff, decide_eq_true_eq, rank_le_iff, udmUrlScoreIsSmaller]
  simp only [Bool.or_eq_true, Bool.and_eq_true, decide_eq_true_eq, beq_iff_eq]
  omega

/-- The documents in the order of their ranks. -/
def byRank (L : List UdmUrlScore) : List UdmUrlScore := L.insertionSort fun a b => rank a ≤ rank b

theorem perm_byRank (L : List UdmUrlScore) : (byRank L).Perm L := List.perm_insertionSort _ L

theorem sorted_byRank (L : List UdmUrlScore) : (byRank L).Pairwise fun a b => rank a ≤ rank b := by
  have : Std.Total fun a b : UdmUrlScore => rank a ≤ rank b := ⟨fun a b => le_total _ _⟩
  have : IsTrans UdmUrlScore fun a b => rank a ≤ rank b := ⟨fun a b c => le_trans⟩
  exact List.pairwise_insertionSort _ L

theorem eq_byRank {l L : List UdmUrlScore} (hperm : l.Perm L) (hl : l.Pairwise fun a b => rank a ≤ rank b) :
    l = byRank L :=
  eq_of_perm (fun _ _ _ _ => rank_injective) (hperm.trans (perm_byRank L).symm) hl (sorted_byRank L)

variable {n : ℕ} {m : List UdmUrlScore}

theorem take_sortByScore (S : SearchSorts) (L : List UdmUrlScore) (hn : n ≤ 1001) :
    (sortByScore S L).take n = (byRank L).take n := by
  have hsort : ∀ l, (S.byScore.sort l).Pairwise fun a b => rank a ≤ rank b := fun l =>
    List.Pairwise.imp scoreThenUrlId_iff.mp (S.byScore.sorted l)
  rw [sortByScore]
  split_ifs with hlen
  · obtain ⟨hperm, hsorted, hle, hlength⟩ :=
      selectTop_spec udmUrlScoreIsSmaller_eq (hsort (L.take (1000 + 1))) (L.drop (1000 + 1))
    rw [udmURLScoreListSortByScoreThenURLTop]
    generalize selectTop udmUrlScoreIsSmaller (S.byScore.sort (L.take (1000 + 1))) (L.drop (1000 + 1)) = r at *
    have hr : r.1 ++ byRank r.2 = byRank L := by
      apply eq_byRank
      · refine ((perm_byRank r.2).append_left r.1).trans (hperm.trans ?_)
        have h := (S.byScore.perm (L.take (1000 + 1))).append_right (L.drop (1000 + 1))
        rwa [List.take_append_drop] at h
      · refine List.pairwise_append.mpr ⟨hsorted, sorted_byRank r.2, fun a ha b hb => hle a ha b ?_⟩
        exact (perm_byRank r.2).mem_iff.mp hb
    have hr1 : n ≤ r.1.length := by
      rw [hlength, S.byScore.length_sort, List.length_take]
      omega
    rw [← hr, List.take_append_of_le_length hr1, List.take_append_of_le_length hr1]
  · rw [eq_byRank (S.byScore.perm L) (hsort L)]

/-- Merge sort throughout. -/
def mergeSorts : SearchSorts where
  byR := mergeSort PatternR (fun _ _ _ => patternR_trans) patternR_total
  byRP := mergeSort PatternRP (fun _ _ _ => patternRP_trans) patternRP_total
  byScore := mergeSort ScoreThenUrlId (fun _ _ _ hab hbc => scoreThenUrlId_iff.mpr
    (le_trans (scoreThenUrlId_iff.mp hab) (scoreThenUrlId_iff.mp hbc)))
    fun a b => (le_total (rank a) (rank b)).imp scoreThenUrlId_iff.mpr scoreThenUrlId_iff.mpr
  byUrlid := mergeSort ScoreUrlid (fun _ _ _ hab hbc => scoreUrlid_iff.mpr
    (le_trans (scoreUrlid_iff.mp hab) (scoreUrlid_iff.mp hbc)))
    fun a b => (le_total a.urlId b.urlId).imp scoreUrlid_iff.mpr scoreUrlid_iff.mpr

/-! ## The short path -/

/-- The best rows in the order of their ids. -/
def bestByUrlid (S : SearchSorts) (n : ℕ) (L : List UdmUrlScore) : List UdmUrlScore :=
  S.byUrlid.sort ((byRank L).take n)

theorem udmSortAndGroupByURL_short (S : SearchSorts) (load : List UdmUrlData → List UdmUrlData)
    (pattern : List Char) {L : List UdmUrlScore} (hn : min n L.length < 256) :
    udmSortAndGroupByURL S load pattern n L =
      udmURLDataSortByPattern S.toPatternSorts ((bestByUrlid S n L).map udmScoreListToURLData) pattern := by
  have htake : (byRank L).take (min n L.length) = (byRank L).take n := by
    rw [← (perm_byRank L).length_eq, List.take_eq_take_iff]
    omega
  rw [udmSortAndGroupByURL, if_pos hn, take_sortByScore S L (by omega), htake, bestByUrlid]

theorem perm_bestByUrlid (S : SearchSorts) (n : ℕ) (L : List UdmUrlScore) :
    (bestByUrlid S n L).Perm ((byRank L).take n) :=
  S.byUrlid.perm _

theorem udmScoreListToURLData_injective {a b : UdmUrlScore} (h : udmScoreListToURLData a = udmScoreListToURLData b) :
    a = b := by
  have hid := congrArg UdmUrlData.urlId h
  have hscore := congrArg UdmUrlData.score h
  cases a
  cases b
  simp only [udmScoreListToURLData] at hid hscore
  simp only [UdmUrlScore.mk.injEq]
  exact ⟨hid, hscore⟩

theorem nodup_scoreList (L : UdmUrlScoreList) : L.val.Nodup :=
  List.Pairwise.imp (fun {a b} hab heq => by simp [heq] at hab) L.property

theorem urlId_injOn {L : UdmUrlScoreList} (hm : m.Sublist L.val) :
    ∀ a ∈ m, ∀ b ∈ m, a.urlId = b.urlId → a = b := by
  have hids : (m.map UdmUrlScore.urlId).Pairwise (· < ·) := List.pairwise_map.mpr (L.property.sublist hm)
  exact fun a ha b hb hab => List.inj_on_of_nodup_map (hids.imp ne_of_lt) ha hb hab

theorem bestByUrlid_eq (S : SearchSorts) {L : UdmUrlScoreList}
    (hm : m.Sublist L.val) (hperm : ((byRank L.val).take n).Perm m) : bestByUrlid S n L.val = m := by
  apply eq_of_perm (urlId_injOn hm) ((perm_bestByUrlid S n L.val).trans hperm)
  · exact List.Pairwise.imp scoreUrlid_iff.mp (S.byUrlid.sorted _)
  · exact List.Pairwise.imp le_of_lt (L.property.sublist hm)

/-- The whole list sorted by the pattern. -/
def sortComplete (S : SearchSorts) (pattern : List Char) (L : List UdmUrlScore) : List UdmUrlData :=
  udmURLDataSortByPattern S.toPatternSorts (L.map udmScoreListToURLData) pattern

/-- The short path gives the beginning of the whole list sorted by the pattern, whichever
sorting function `UdmSort` is. -/
def ShortPageInvisible (load : List UdmUrlData → List UdmUrlData) (pattern : List Char) (n : ℕ)
    (L : UdmUrlScoreList) : Prop :=
  ∀ S : SearchSorts, udmSortAndGroupByURL S load pattern n L.val = (sortComplete S pattern L.val).take n

/-- The condition: the page ends behind the last document; or, from the highest score down,
every document with fewer than `n` documents above it has a score of its own; from the lowest
score up, all scores are equal; and without a letter for the score, no document behind the
first `n` has a higher score than one of these. -/
def ShortPageExact (pattern : List Char) (n : ℕ) (L : List UdmUrlScore) : Prop :=
  L.length ≤ n ∨
    match scoreLetter pattern with
    | some 'R' =>
      ∀ d ∈ L, L.countP (fun e => decide (d.score < e.score)) < n → ∀ e ∈ L, e.score = d.score → e = d
    | some _ => n = 0 ∨ ∀ d ∈ L, ∀ e ∈ L, d.score = e.score
    | none => ∀ d ∈ L.take n, ∀ e ∈ L.drop n, e.score ≤ d.score

section ShortPage

variable {load : List UdmUrlData → List UdmUrlData} {pattern : List Char} {n : ℕ} {L : UdmUrlScoreList}

theorem shortPageInvisible_of_length_le (hn : min n L.val.length < 256) (hlen : L.val.length ≤ n) :
    ShortPageInvisible load pattern n L := by
  intro S
  have hbest : bestByUrlid S n L.val = L.val := by
    apply bestByUrlid_eq S (List.Sublist.refl _)
    rw [List.take_of_length_le ((perm_byRank L.val).length_eq ▸ hlen)]
    exact perm_byRank L.val
  rw [udmSortAndGroupByURL_short S load pattern hn, hbest, sortComplete, List.take_of_length_le]
  rw [(perm_udmURLDataSortByPattern _ _ _).length_eq, List.length_map]
  exact hlen

theorem sorted_score_byRank (L : List UdmUrlScore) :
    ((byRank L).map udmScoreListToURLData).Pairwise fun D E => -(D.score : ℤ) ≤ -(E.score : ℤ) := by
  rw [List.pairwise_map]
  refine List.Pairwise.imp (fun {a b} hab => ?_) (sorted_byRank L)
  have := rank_le_iff.mp hab
  simp only [udmScoreListToURLData]
  omega

theorem perm_sortComplete (S : SearchSorts) :
    (sortComplete S pattern L.val).Perm ((byRank L.val).map udmScoreListToURLData) :=
  (perm_udmURLDataSortByPattern _ _ _).trans ((perm_byRank L.val).symm.map _)

theorem shortPageInvisible_of_unique (hp : ScorePattern pattern) (hletter : scoreLetter pattern = some 'R')
    (hn : min n L.val.length < 256)
    (h : ∀ d ∈ L.val, L.val.countP (fun e => decide (d.score < e.score)) < n → ∀ e ∈ L.val,
      e.score = d.score → e = d) :
    ShortPageInvisible load pattern n L := by
  intro S
  have hown : ∀ x ∈ ((byRank L.val).map udmScoreListToURLData).take n,
      ∀ y ∈ (byRank L.val).map udmScoreListToURLData, -(y.score : ℤ) = -(x.score : ℤ) → y = x := by
    intro x hx y hy hyx
    have hcount := countP_lt_of_mem_take (sorted_score_byRank L.val) hx
    obtain ⟨d, hd, rfl⟩ := List.mem_map.mp (List.mem_of_mem_take hx)
    obtain ⟨e, he, rfl⟩ := List.mem_map.mp hy
    rw [h d ((perm_byRank L.val).mem_iff.mp hd) ?_ e ((perm_byRank L.val).mem_iff.mp he)]
    · simp only [udmScoreListToURLData] at hyx
      omega
    · rw [List.countP_map] at hcount
      rw [← (perm_byRank L.val).countP_eq]
      refine lt_of_le_of_lt (List.countP_mono_left fun z _ hz => ?_) hcount
      change decide (-(z.score : ℤ) < -(d.score : ℤ)) = true
      rw [decide_eq_true_eq] at hz ⊢
      omega
  have hcomplete : (sortComplete S pattern L.val).take n =
      ((byRank L.val).map udmScoreListToURLData).take n :=
    take_eq_take (perm_sortComplete S) (sorted_udmURLDataSortByPattern_desc _ _ hp hletter)
      (sorted_score_byRank L.val) hown
  rw [hcomplete, udmSortAndGroupByURL_short S load pattern hn]
  have hperm := (perm_udmURLDataSortByPattern S.toPatternSorts
    ((bestByUrlid S n L.val).map udmScoreListToURLData) pattern).trans
      ((perm_bestByUrlid S n L.val).map udmScoreListToURLData)
  rw [List.map_take] at hperm
  have hsub := List.take_sublist n ((byRank L.val).map udmScoreListToURLData)
  have hpage := @take_eq_take _ _ _ _ _ _ hperm (sorted_udmURLDataSortByPattern_desc _ _ hp hletter)
    ((sorted_score_byRank L.val).sublist hsub) n
    (fun x hx y hy => hown x (List.mem_of_mem_take hx) y (List.mem_of_mem_take hy))
  rw [List.take_take, Nat.min_self, List.take_of_length_le] at hpage
  · exact hpage
  · rw [hperm.length_eq, List.length_take]
    omega

theorem bestByUrlid_of_le (S : SearchSorts)
    (h : ∀ d ∈ L.val.take n, ∀ e ∈ L.val.drop n, e.score ≤ d.score) : bestByUrlid S n L.val = L.val.take n := by
  apply bestByUrlid_eq S (List.take_sublist n L.val)
  have hcross : ∀ d ∈ L.val.take n, ∀ e ∈ L.val.drop n, rank d ≤ rank e := by
    intro d hd e he
    have hids := L.property
    rw [← List.take_append_drop n L.val, List.pairwise_append] at hids
    have hid := hids.2.2 d hd e he
    have hscore := h d hd e he
    exact rank_le_iff.mpr (by omega)
  have hsplit : byRank (L.val.take n) ++ byRank (L.val.drop n) = byRank L.val := by
    apply eq_byRank
    · have hperm := (perm_byRank (L.val.take n)).append (perm_byRank (L.val.drop n))
      rwa [List.take_append_drop] at hperm
    · refine List.pairwise_append.mpr ⟨sorted_byRank _, sorted_byRank _, fun a ha b hb => ?_⟩
      exact hcross a ((perm_byRank _).mem_iff.mp ha) b ((perm_byRank _).mem_iff.mp hb)
  rcases le_total n L.val.length with hle | hle
  · have hlen : (byRank (L.val.take n)).length = n := by
      rw [(perm_byRank _).length_eq, List.length_take]
      omega
    rw [← hsplit, List.take_left' hlen]
    exact perm_byRank _
  · rw [List.take_of_length_le hle, List.take_of_length_le ((perm_byRank L.val).length_eq ▸ hle)]
    exact perm_byRank L.val

theorem shortPage_of_ties (S : SearchSorts) (hpattern : pattern ≠ ['R']) (hp : ScorePattern pattern)
    (hn : min n L.val.length < 256)
    (hties : ∀ D ∈ L.val, ∀ E ∈ L.val,
      cmppattern (udmScoreListToURLData D) (udmScoreListToURLData E) pattern ≠ .gt) :
    udmSortAndGroupByURL S load pattern n L.val = (bestByUrlid S n L.val).map udmScoreListToURLData ∧
      sortComplete S pattern L.val = L.val.map udmScoreListToURLData := by
  have hRP : pattern ≠ ['R', 'P'] := fun h => absurd (hp 'P' (by simp [h])) (by decide)
  have hsort : ∀ l : List UdmUrlScore, (∀ D ∈ l, D ∈ L.val) →
      udmURLDataSortByPattern S.toPatternSorts (l.map udmScoreListToURLData) pattern =
        l.map udmScoreListToURLData := by
    intro l hl
    rw [udmURLDataSortByPattern, if_neg hRP, if_neg hpattern]
    apply shellSortByPattern_eq_self
    intro D hD E hE
    obtain ⟨d, hd, rfl⟩ := List.mem_map.mp hD
    obtain ⟨e, he, rfl⟩ := List.mem_map.mp hE
    exact hties d (hl d hd) e (hl e he)
  rw [udmSortAndGroupByURL_short S load pattern hn, sortComplete]
  refine ⟨hsort _ fun D hD => ?_, hsort _ fun D hD => hD⟩
  have hmem := List.mem_of_mem_take ((perm_bestByUrlid S n L.val).mem_iff.mp hD)
  exact (perm_byRank L.val).mem_iff.mp hmem

theorem map_udmScoreListToURLData_inj {l m : List UdmUrlScore}
    (h : l.map udmScoreListToURLData = m.map udmScoreListToURLData) : l = m :=
  List.map_injective_iff.mpr (fun _ _ => udmScoreListToURLData_injective) h

/-- Without a letter for the score nothing is sorted by the pattern: the page is right when the
best rows are the first ones. -/
theorem shortPageInvisible_none (hp : ScorePattern pattern) (hletter : scoreLetter pattern = none)
    (hn : min n L.val.length < 256) (S : SearchSorts) :
    ShortPageInvisible load pattern n L ↔ ∀ d ∈ L.val.take n, ∀ e ∈ L.val.drop n, e.score ≤ d.score := by
  have hpattern : pattern ≠ ['R'] := fun h => by
    rw [h] at hletter
    exact absurd hletter (by decide)
  have hties : ∀ D ∈ L.val, ∀ E ∈ L.val,
      cmppattern (udmScoreListToURLData D) (udmScoreListToURLData E) pattern ≠ .gt := by
    intro D _ E _
    rw [cmppattern_eq hp, hletter]
    change Ordering.eq ≠ .gt
    decide
  constructor
  · intro h d hd e he
    obtain ⟨hpage, hcomplete⟩ := @shortPage_of_ties load _ _ _ S hpattern hp hn hties
    have hS := h S
    rw [hpage, hcomplete, ← List.map_take] at hS
    have hperm := perm_bestByUrlid S n L.val
    rw [map_udmScoreListToURLData_inj hS] at hperm
    -- `e` is not among the best rows: then it stands behind `d`
    have he' : e ∈ (byRank L.val).drop n := by
      have hmem := (perm_byRank L.val).mem_iff.mpr (List.mem_of_mem_drop he)
      rw [← List.take_append_drop n (byRank L.val)] at hmem
      rcases List.mem_append.mp hmem with hmem | hmem
      · exact absurd he (List.disjoint_take_drop (nodup_scoreList L) le_rfl (hperm.mem_iff.mpr hmem))
      · exact hmem
    have hsorted := sorted_byRank L.val
    rw [← List.take_append_drop n (byRank L.val), List.pairwise_append] at hsorted
    have hle := rank_le_iff.mp (hsorted.2.2 d (hperm.mem_iff.mp hd) e he')
    omega
  · intro h S'
    obtain ⟨hpage, hcomplete⟩ := @shortPage_of_ties load _ _ _ S' hpattern hp hn hties
    rw [hpage, hcomplete, bestByUrlid_of_le S' h, List.map_take]

/-- From the lowest score up the page is the beginning of the whole list only when all scores
are equal: the rows are chosen from the highest score down. -/
theorem shortPageInvisible_asc (hp : ScorePattern pattern) (hletter : scoreLetter pattern = some 'r')
    (hn : min n L.val.length < 256) (hlen : n < L.val.length) (S : SearchSorts) :
    ShortPageInvisible load pattern n L ↔ n = 0 ∨ ∀ d ∈ L.val, ∀ e ∈ L.val, d.score = e.score := by
  have hpattern : pattern ≠ ['R'] := fun h => by
    rw [h] at hletter
    exact absurd hletter (by decide)
  constructor
  · intro h
    rcases Nat.eq_zero_or_pos n with rfl | hpos
    · exact Or.inl rfl
    refine Or.inr fun d hd e he => ?_
    have hS := h S
    rw [udmSortAndGroupByURL_short S load pattern hn] at hS
    -- the scores of the whole list from the lowest up, and those of the page: the last `n` of them
    have hup : (byRank L.val).reverse.Pairwise fun a b => (a.score : ℤ) ≤ b.score := by
      rw [List.pairwise_reverse]
      refine List.Pairwise.imp (fun {a b} hab => ?_) (sorted_byRank L.val)
      have := rank_le_iff.mp hab
      omega
    have hwhole := map_eq_of_perm
      ((perm_sortComplete S).trans ((List.reverse_perm _).symm.map udmScoreListToURLData))
      (sorted_udmURLDataSortByPattern_asc _ _ hp hletter) (List.pairwise_map.mpr hup)
    have hlast : ((byRank L.val).take n).reverse = (byRank L.val).reverse.drop (L.val.length - n) := by
      rw [List.reverse_take, (perm_byRank L.val).length_eq]
    have hpage := map_eq_of_perm
      ((perm_udmURLDataSortByPattern S.toPatternSorts ((bestByUrlid S n L.val).map udmScoreListToURLData)
        pattern).trans (((perm_bestByUrlid S n L.val).trans (List.reverse_perm _).symm).map udmScoreListToURLData))
      (sorted_udmURLDataSortByPattern_asc _ _ hp hletter)
      (List.pairwise_map.mpr (hlast ▸ hup.sublist (List.drop_sublist _ _)))
    rw [hS, List.map_take, hwhole, hlast, List.map_drop, List.map_drop] at hpage
    have hascending : (((byRank L.val).reverse.map udmScoreListToURLData).map
        fun D => (D.score : ℤ)).Pairwise (· ≤ ·) := by
      rw [List.map_map, List.pairwise_map]
      exact hup
    have hconst := const_of_take_eq_drop hascending hpos (show 0 < L.val.length - n by omega)
      (by simp only [List.length_map, List.length_reverse, (perm_byRank L.val).length_eq]; omega) hpage
    have hmem : ∀ c ∈ L.val, (c.score : ℤ) ∈
        ((byRank L.val).reverse.map udmScoreListToURLData).map fun D => (D.score : ℤ) := by
      intro c hc
      rw [List.map_map]
      exact List.mem_map.mpr ⟨c, List.mem_reverse.mpr ((perm_byRank L.val).mem_iff.mpr hc), rfl⟩
    exact Int.ofNat.inj (hconst _ (hmem d hd) _ (hmem e he))
  · rintro (rfl | h) S'
    · rw [udmSortAndGroupByURL_short S' load pattern hn, List.take_zero]
      apply List.eq_nil_of_length_eq_zero
      rw [(perm_udmURLDataSortByPattern _ _ _).length_eq, List.length_map, (perm_bestByUrlid _ _ _).length_eq]
      rfl
    · have hties : ∀ D ∈ L.val, ∀ E ∈ L.val,
          cmppattern (udmScoreListToURLData D) (udmScoreListToURLData E) pattern ≠ .gt := by
        intro D hD E hE
        rw [cmppattern_eq hp, hletter]
        change (compare D.score E.score).swap ≠ .gt
        simp [h D hD E hE]
      obtain ⟨hpage, hcomplete⟩ := @shortPage_of_ties load _ _ _ S' hpattern hp hn hties
      rw [hpage, hcomplete, bestByUrlid_of_le S', List.map_take]
      exact fun d hd e he => le_of_eq (h e (List.mem_of_mem_drop he) d (List.mem_of_mem_take hd))

/-- From the highest score down, with `qsort`: when two documents share a score and one of them
has a place on the page, some sorting function orders the page and the whole list differently. -/
theorem unique_of_shortPageInvisible (hn : min n L.val.length < 256) (hlen : n < L.val.length) (S : SearchSorts)
    (h : ShortPageInvisible load ['R'] n L) :
    ∀ d ∈ L.val, L.val.countP (fun e => decide (d.score < e.score)) < n →
      ∀ e ∈ L.val, e.score = d.score → e = d := by
  intro d hd hcount e he hscore
  by_contra hne
  -- the whole list, sorted by `S`, has two neighbours with one score on the page
  have hsorted : (S.byR.sort (L.val.map udmScoreListToURLData)).Pairwise
      fun D E => -(D.score : ℤ) ≤ -(E.score : ℤ) := by
    refine List.Pairwise.imp (fun {D E} hDE => ?_) (S.byR.sorted _)
    have := patternR_iff.mp hDE
    omega
  have hperm := S.byR.perm (L.val.map udmScoreListToURLData)
  obtain ⟨pre, a, b, post, hsplit, hab, hpre⟩ := exists_neighbours hsorted
    (hperm.mem_iff.mpr (List.mem_map_of_mem hd)) (hperm.mem_iff.mpr (List.mem_map_of_mem he))
    (fun heq => hne (udmScoreListToURLData_injective heq).symm)
    (show -((udmScoreListToURLData e).score : ℤ) = -((udmScoreListToURLData d).score : ℤ) by
      simp [udmScoreListToURLData, hscore])
  have hpage : pre.length < n := by
    refine lt_of_le_of_lt hpre ?_
    rw [hperm.countP_eq, List.countP_map]
    refine lt_of_le_of_lt (List.countP_mono_left fun z _ hz => ?_) hcount
    have hz' : -(z.score : ℤ) < -(d.score : ℤ) := of_decide_eq_true hz
    rw [decide_eq_true_eq]
    omega
  -- a sorting function that changes the two places in the whole list, and nowhere else
  have hswapped : (pre ++ b :: a :: post).Perm (L.val.map udmScoreListToURLData) :=
    ((List.Perm.swap a b post).append_left pre).trans (hsplit ▸ hperm)
  have hswapR : (pre ++ b :: a :: post).Pairwise PatternR := by
    refine List.Pairwise.imp (fun {D E} hDE => ?_) (pairwise_swap hab (hsplit ▸ hsorted))
    exact patternR_iff.mpr (by omega)
  have h1 := h S
  have h2 := h { S with byR := S.byR.but hswapped hswapR }
  rw [udmSortAndGroupByURL_short _ load _ hn] at h1 h2
  have hne' : (bestByUrlid S n L.val).map udmScoreListToURLData ≠ L.val.map udmScoreListToURLData := by
    intro heq
    have hlength := congrArg List.length heq
    rw [List.length_map, List.length_map, (perm_bestByUrlid S n L.val).length_eq, List.length_take,
      (perm_byRank L.val).length_eq] at hlength
    omega
  have hsame : (pre ++ a :: b :: post).take n = (pre ++ b :: a :: post).take n := by
    rw [← hsplit]
    have h2' := h2
    change (S.byR.but hswapped hswapR).sort ((bestByUrlid S n L.val).map udmScoreListToURLData) =
      ((S.byR.but hswapped hswapR).sort (L.val.map udmScoreListToURLData)).take n at h2'
    rw [QSort.but_sort_of_ne _ _ _ hne', QSort.but_sort_self] at h2'
    rw [← h2']
    exact h1.symm
  have hget := congrArg (fun l => l[pre.length]?) hsame
  simp only [List.getElem?_take, hpage, if_true, List.getElem?_append_right le_rfl, Nat.sub_self,
    List.getElem?_cons_zero, Option.some.injEq] at hget
  -- the two are different documents
  have hnodup : (pre ++ a :: b :: post).Nodup :=
    (hsplit ▸ hperm).nodup_iff.mpr ((nodup_scoreList L).map fun _ _ => udmScoreListToURLData_injective)
  rw [hget] at hnodup
  exact (List.nodup_cons.mp (hnodup.sublist (List.sublist_append_right pre _))).1 List.mem_cons_self

end ShortPage

theorem ten_lt_int4 : 10 < 2 ^ 31 := by decide

theorem zero_lt_secondId : (0 : ℤ) < 2 := by decide

/-- Two documents with the scores 10 and 20. -/
def twoScores : UdmUrlScoreList := ⟨[⟨1, 10, Int.zero_lt_one, ten_lt_int4⟩, ⟨2, 20, zero_lt_secondId, by decide⟩], by decide⟩

/-- A document with the score 0 or 1. -/
def zeroOrOne (i : ℕ) : UdmUrlScore := ⟨(i : ℤ) + 1, i % 2, by omega, by omega⟩

/-- Documents with the scores 0 and 1 by turns. -/
def manyScores (num : ℕ) : UdmUrlScoreList :=
  ⟨(List.range num).map zeroOrOne, by
    rw [List.pairwise_map]
    exact List.pairwise_lt_range.imp fun {a b} hab => by simpa [zeroOrOne] using hab⟩

theorem length_manyScores (num : ℕ) : (manyScores num).val.length = num := by simp [manyScores]

theorem mem_manyScores {num i : ℕ} (hi : i < num) : zeroOrOne i ∈ (manyScores num).val :=
  List.mem_map_of_mem (List.mem_range.mpr hi)

end MnoGoSearch.Result
