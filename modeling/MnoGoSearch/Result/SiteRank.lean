import MnoGoSearch.Result.Join

/-!
# Ranks within a site

With `GroupBySite=rank` all documents of a site are shown, the later ones further below:
`UdmURLDataApplySiteRank` (`groupby.c`) divides the score of the k-th document of a site by k. The
loop begins as if it had seen a document of site 1. `siteRanked_iff` says for which lists that
makes no difference.
-/

namespace MnoGoSearch.Result

open Lib.Runs

/-- `UDM_URLDATALIST`; a score is a `uint4`. -/
abbrev UdmUrlDataList := { l : List UdmUrlData // ∀ d ∈ l, d.score < 2 ^ 32 }

/-- What becomes of the score of a document with a rank within its site. At an aggregation point the low byte is the
number of a machine. -/
def scoreInRank (isAggregationPoint : Bool) (inSiteRank score : ℕ) : ℕ :=
  if isAggregationPoint then
    if 1 < inSiteRank then (score &&& 0xFF) + ((score / inSiteRank) &&& 0x7FFFFF00) else score
  else score / inSiteRank

/-- The loop of `UdmURLDataApplySiteRank`. -/
def siteRankLoop (isAggregationPoint : Bool) (prevSiteId : ℤ) (inSiteRank : ℕ) : List UdmUrlData → List UdmUrlData
  | [] => []
  | D :: list =>
    let inSiteRank := (if prevSiteId ≠ D.siteId then 0 else inSiteRank) + 1
    { D with score := scoreInRank isAggregationPoint inSiteRank D.score } ::
      siteRankLoop isAggregationPoint D.siteId inSiteRank list

/-- `UdmURLDataApplySiteRank`, at an aggregation point or not. -/
def applySiteRank (isAggregationPoint : Bool) (DataList : List UdmUrlData) : List UdmUrlData :=
  siteRankLoop isAggregationPoint 1 1 DataList

/-! ### What it is for -/

/-- A score divided by `k`; at an aggregation point the low byte is kept. -/
def dividedScore (isAggregationPoint : Bool) (k score : ℕ) : ℕ :=
  if isAggregationPoint then score / k / 256 * 256 + score % 256 else score / k

/-- The documents of one site, the first one being the `k`-th. -/
def divideFrom (isAggregationPoint : Bool) (k : ℕ) (g : List UdmUrlData) : List UdmUrlData :=
  g.mapIdx fun i D => { D with score := dividedScore isAggregationPoint (i + k) D.score }

/-- Every run of documents of one site, ranked. -/
def siteRanked (isAggregationPoint : Bool) (DataList : List UdmUrlData) : List UdmUrlData :=
  (runs UdmUrlData.siteId DataList).flatMap (divideFrom isAggregationPoint 1)

theorem and_high (x : ℕ) (h : x < 2 ^ 31) : x &&& 0x7FFFFF00 = x / 256 * 256 := by
  have hmask : 0x7FFFFF00 = (2 ^ 23 - 1) <<< 8 := by decide
  have hshift : x / 256 * 256 = (x >>> 8) <<< 8 := by
    rw [Nat.shiftLeft_eq, Nat.shiftRight_eq_div_pow]
  rw [hmask, hshift]
  refine Nat.eq_of_testBit_eq fun i => ?_
  rw [Nat.testBit_and, Nat.testBit_shiftLeft, Nat.testBit_shiftLeft, Nat.testBit_two_pow_sub_one, Nat.testBit_shiftRight]
  by_cases hi : 8 ≤ i
  · rw [show 8 + (i - 8) = i by omega]
    by_cases hlt : i < 31
    · simp [hi, show i - 8 < 23 by omega]
    · have hbig : x.testBit i = false :=
        Nat.testBit_lt_two_pow (lt_of_lt_of_le h (Nat.pow_le_pow_right (by decide) (by omega)))
      simp [hbig]
  · simp [hi]

theorem scoreInRank_eq (agg : Bool) {k score : ℕ} (hk : 0 < k) (hscore : score < 2 ^ 32) :
    scoreInRank agg k score = dividedScore agg k score := by
  unfold scoreInRank dividedScore
  cases agg with
  | false => rfl
  | true =>
    simp only [if_true]
    split_ifs with hlt
    · have hhalf : score / k < 2 ^ 31 := by
        have : score / k ≤ score / 2 := Nat.div_le_div_left (by omega) (by decide)
        omega
      rw [and_high _ hhalf, Nat.and_two_pow_sub_one_eq_mod score 8, Nat.add_comm]
    · obtain rfl : k = 1 := by omega
      rw [Nat.div_one]
      omega

/-! ### The loop -/

theorem divideFrom_cons (agg : Bool) (k : ℕ) (D : UdmUrlData) (g : List UdmUrlData) :
    divideFrom agg k (D :: g) = { D with score := dividedScore agg k D.score } :: divideFrom agg (k + 1) g := by
  rw [divideFrom, List.mapIdx_cons, Nat.zero_add]
  refine congrArg (List.cons _) (congrFun (congrArg List.mapIdx ?_) g)
  funext i D
  rw [Nat.add_right_comm, Nat.add_assoc]

theorem siteRanked_cons (agg : Bool) (D : UdmUrlData) (l : List UdmUrlData) :
    siteRanked agg (D :: l) = divideFrom agg 1 (D :: l.takeWhile fun E => E.siteId = D.siteId) ++
      siteRanked agg (l.dropWhile fun E => E.siteId = D.siteId) := by
  rw [siteRanked, runs_cons_span, List.flatMap_cons, siteRanked]

theorem siteRanked_eq (agg : Bool) (s : ℤ) (l : List UdmUrlData) :
    siteRanked agg l = divideFrom agg 1 (l.takeWhile fun E => E.siteId = s) ++
      siteRanked agg (l.dropWhile fun E => E.siteId = s) := by
  cases l with
  | nil => rfl
  | cons D l =>
    by_cases hD : D.siteId = s
    · subst hD
      rw [siteRanked_cons, List.takeWhile_cons_of_pos (by simp), List.dropWhile_cons_of_pos (by simp)]
    · rw [List.takeWhile_cons_of_neg (by simpa using hD), List.dropWhile_cons_of_neg (by simpa using hD)]
      rfl

/-- **The loop**, with some documents of a site behind it: those that follow come first. -/
theorem siteRankLoop_eq (agg : Bool) (prev : ℤ) (rank : ℕ) {l : List UdmUrlData} (hl : ∀ D ∈ l, D.score < 2 ^ 32) :
    siteRankLoop agg prev rank l = divideFrom agg (rank + 1) (l.takeWhile fun E => E.siteId = prev) ++
      siteRanked agg (l.dropWhile fun E => E.siteId = prev) := by
  induction l generalizing prev rank with
  | nil => rfl
  | cons D l ih =>
    have hrest : ∀ E ∈ l, E.score < 2 ^ 32 := fun E hE => hl E (List.mem_cons_of_mem _ hE)
    have hscore (k : ℕ) : scoreInRank agg (k + 1) D.score = dividedScore agg (k + 1) D.score :=
      scoreInRank_eq agg (Nat.succ_pos k) (hl D List.mem_cons_self)
    rw [siteRankLoop]
    by_cases hD : D.siteId = prev
    · subst hD
      simp only [ne_eq, not_true_eq_false, if_false]
      rw [ih _ _ hrest, hscore, List.takeWhile_cons_of_pos (by simp), List.dropWhile_cons_of_pos (by simp),
        divideFrom_cons, List.cons_append]
    · simp only [ne_eq, Ne.symm hD, not_false_eq_true, if_true]
      rw [ih _ _ hrest, hscore, List.takeWhile_cons_of_neg (by simpa using hD),
        List.dropWhile_cons_of_neg (by simpa using hD), siteRanked_cons, divideFrom_cons]
      rfl

theorem divideFrom_eq_iff (agg : Bool) (k : ℕ) (g : List UdmUrlData) :
    divideFrom agg (k + 1) g = divideFrom agg k g ↔
      ∀ i D, g[i]? = some D → dividedScore agg (i + (k + 1)) D.score = dividedScore agg (i + k) D.score := by
  constructor
  · intro h i D hD
    have hi := congrArg (fun l : List UdmUrlData => l[i]?.map UdmUrlData.score) h
    simpa [divideFrom, List.getElem?_mapIdx, hD] using hi
  · intro h
    refine List.ext_getElem? fun i => ?_
    rw [divideFrom, divideFrom, List.getElem?_mapIdx, List.getElem?_mapIdx]
    cases hD : g[i]? with
    | none => rw [Option.map_none, Option.map_none]
    | some D => rw [Option.map_some, Option.map_some, h i D hD]

/-- **When every run of a site is ranked**: exactly if the list does not begin with documents of site 1, or if it makes
no difference to these that each of them is divided by one more. -/
theorem siteRanked_iff (isAggregationPoint : Bool) (DataList : UdmUrlDataList) :
    applySiteRank isAggregationPoint DataList = siteRanked isAggregationPoint DataList ↔
      ∀ i D, (DataList.val.takeWhile fun D => D.siteId = 1)[i]? = some D →
        dividedScore isAggregationPoint (i + 2) D.score = dividedScore isAggregationPoint (i + 1) D.score := by
  rw [applySiteRank, siteRankLoop_eq _ _ _ DataList.2, siteRanked_eq _ 1 DataList.val,
    List.append_cancel_right_eq, divideFrom_eq_iff]

/-- The only document of site 1 loses half of its score. -/
theorem not_siteRanked : applySiteRank false [⟨7, 100, 1, 1, 0, 0, none, none⟩] ≠
    siteRanked false [⟨7, 100, 1, 1, 0, 0, none, none⟩] := by decide

end MnoGoSearch.Result
