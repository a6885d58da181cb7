import MnoGoSearch.Lib.OpenAddressing
import MnoGoSearch.Lib.Runs
import MnoGoSearch.Lib.Sorting
import Mathlib

/-!
# Grouping results by site

With `GroupBySite` a search shows the best document of every site and how many documents the
site has (`groupby.c`). There are two ways to get there: the result list is sorted by site
and scanned, or every document is put into a hash table under its site, with the site ids
taken from the records `#rec_id` and `#site_id` of the index. Both join two documents of one
site alike: the higher score wins, then the higher popularity rank, then the smaller url id.

The sorting path ends with the user's site scores (`UserSiteScore`), which the hash path
does not apply; they are a parameter here, a function of the url id and the score that is
the identity unless configured. `groupBySite_perm_iff` says that the paths agree exactly
when these scores leave the best document of every site alone.
-/

namespace MnoGoSearch.Result

open Lib.Runs Lib.Sorting Lib.OpenAddressing

/-- `UDM_URLDATA`: a document of the result. -/
structure UdmUrlData where
  urlId : ℤ
  score : ℕ
  /-- How many documents of its site it stands for. -/
  perSite : ℕ
  siteId : ℤ
  lastModTime : ℤ
  popRank : ℚ
  url : Option String
  sectionName : Option String
  deriving DecidableEq

/-- The document `dst` is kept when it meets `src` of the same site. -/
def keepsDst (dst src : UdmUrlData) : Bool :=
  dst.score > src.score ||
    dst.score == src.score &&
      (dst.popRank > src.popRank || dst.popRank == src.popRank && dst.urlId < src.urlId)

/-- `dst` with everything but the site and the count taken from `src`. -/
def copyData (dst src : UdmUrlData) : UdmUrlData :=
  { dst with
    urlId := src.urlId, score := src.score, lastModTime := src.lastModTime, popRank := src.popRank,
    url := src.url, sectionName := src.sectionName }

/-! ### The sorting path -/

/-- The order of `cmpsiteid2`: descending site ids. -/
def bySite (p1 p2 : UdmUrlData) : Prop := p2.siteId ≤ p1.siteId

/-- The loop of `UdmURLDataGroupBySite`, at the group `dst` with the documents `count`. -/
def groupLoop (count : ℕ) (dst : UdmUrlData) : List UdmUrlData → List UdmUrlData
  | [] => [{ dst with perSite := count }]
  | src :: list =>
    if dst.siteId = src.siteId then
      groupLoop (count + src.perSite) (if keepsDst dst src then dst else copyData dst src) list
    else
      -- Next site
      { dst with perSite := count } :: groupLoop src.perSite src list

/-- `UdmURLDataGroupBySite`. -/
def udmURLDataGroupBySite : List UdmUrlData → List UdmUrlData
  | [] => []
  | dst :: list => groupLoop dst.perSite dst list

/-- `UdmURLDataListGroupBySiteUsingSort`: initialize `per_site`, sort by site, group, and apply
the user's site scores. -/
def udmURLDataListGroupBySiteUsingSort (qsort : QSort bySite) (siteScore : ℤ → ℕ → ℕ) (R : List UdmUrlData) :
    List UdmUrlData :=
  let R := R.map fun Dat => { Dat with perSite := 1 }
  let R := udmURLDataGroupBySite (qsort.sort R)
  R.map fun Dat => { Dat with score := siteScore Dat.urlId Dat.score }

/-! ### The hash path -/

/-- `UdmHashSize`. -/
def udmHashSize (n : ℕ) : ℕ := n + n / 10 + 10

/-- `test_key`: the site id as a `size_t`. -/
def testKey (ptr : UdmUrlData) : ℕ := (ptr.siteId % 2 ^ 64).toNat

/-- `test_join`. -/
def testJoin (dst src : UdmUrlData) : UdmUrlData :=
  let best := if keepsDst dst src then dst else copyData dst src
  { best with perSite := dst.perSite + src.perSite }

/-- A zeroed `UDM_URLDATA`. -/
def emptyData : UdmUrlData := ⟨0, 0, 0, 0, 0, 0, none, none⟩

/-- The documents that are put into the table: the result list and the records `#rec_id` and
`#site_id` are walked together, all in the order of the url ids. -/
def hashItems : List (ℤ × ℤ) → List UdmUrlData → List UdmUrlData
  | [], _ => []
  | _ :: _, [] => []
  | (recId, siteId) :: recs, item :: items =>
    if recId = item.urlId then
      { emptyData with urlId := recId, siteId := siteId, score := item.score, perSite := 1 } :: hashItems recs items
    else if recId > item.urlId then
      -- url_id found in results but missing in "#rec_id"
      hashItems ((recId, siteId) :: recs) items
    else hashItems recs (item :: items)
  termination_by recs items => recs.length + items.length

/-- `UdmURLDataCompact`: skip empty records. -/
def udmURLDataCompact (n : ℕ) (slot : ℕ → UdmUrlData) : List UdmUrlData :=
  ((List.range n).map slot).filter fun src => src.siteId ≠ 0

/-- `UdmURLDataListGroupBySiteUsingHash`, on the numbers of the records `#rec_id` and
`#site_id`. -/
def udmURLDataListGroupBySiteUsingHash (recs : List (ℤ × ℤ)) (DataList : List UdmUrlData) : List UdmUrlData :=
  let hcoords := udmHashSize DataList.length
  udmURLDataCompact hcoords (putAll testKey testJoin hcoords (fun _ => emptyData) (hashItems recs DataList))

/-! ### Joining the documents of a site -/

/-- What a result shows of a site: its id, the number of its documents, the best score and the
document that has it. -/
def shown (d : UdmUrlData) : ℤ × ℕ × ℕ × ℤ := (d.siteId, d.perSite, d.score, d.urlId)

/-- `b` is the best document of the list: no other has a higher score, or the same score and a
smaller url id. -/
def IsBest (g : List UdmUrlData) (b : UdmUrlData) : Prop :=
  b ∈ g ∧ ∀ e ∈ g, e.score < b.score ∨ e.score = b.score ∧ b.urlId ≤ e.urlId

@[simp] theorem siteId_testJoin (dst src : UdmUrlData) : (testJoin dst src).siteId = dst.siteId := by
  simp only [testJoin]
  split <;> rfl

@[simp] theorem testKey_testJoin (dst src : UdmUrlData) : testKey (testJoin dst src) = testKey dst := by
  rw [testKey, siteId_testJoin, testKey]

/-- What joining documents without popularity ranks gives: the count is the sum, and score and
document are those of the best. -/
theorem foldl_testJoin (d : UdmUrlData) (g : List UdmUrlData) (hpop : ∀ e ∈ d :: g, e.popRank = 0) :
    (g.foldl testJoin d).siteId = d.siteId ∧
      (g.foldl testJoin d).perSite = d.perSite + (g.map UdmUrlData.perSite).sum ∧
      ∃ b, IsBest (d :: g) b ∧ (g.foldl testJoin d).score = b.score ∧ (g.foldl testJoin d).urlId = b.urlId := by
  induction g generalizing d with
  | nil => exact ⟨rfl, by simp, d, ⟨by simp, by simp⟩, rfl, rfl⟩
  | cons e g ih =>
    have hd := hpop d (by simp)
    have he := hpop e (by simp)
    have hpop' : ∀ f ∈ testJoin d e :: g, f.popRank = 0 := by
      intro f hf
      rcases List.mem_cons.mp hf with rfl | hf
      · simp only [testJoin]
        split
        · exact hd
        · exact he
      · exact hpop f (by simp [hf])
    obtain ⟨hsite, hper, b, ⟨hb, hmax⟩, hscore, hurl⟩ := ih (testJoin d e) hpop'
    rw [List.foldl_cons]
    refine ⟨hsite.trans (siteId_testJoin d e), ?_, ?_⟩
    · rw [hper, List.map_cons, List.sum_cons]
      simp only [testJoin]
      omega
    · -- the join of the first two is the better of them
      have hjoin : ∃ c, (c = d ∨ c = e) ∧ (testJoin d e).score = c.score ∧ (testJoin d e).urlId = c.urlId ∧
          ∀ f, f = d ∨ f = e → f.score < c.score ∨ f.score = c.score ∧ c.urlId ≤ f.urlId := by
        cases hkeep : keepsDst d e with
        | true =>
          refine ⟨d, Or.inl rfl, by simp [testJoin, hkeep], by simp [testJoin, hkeep], ?_⟩
          simp only [keepsDst, hd, he, gt_iff_lt, lt_self_iff_false, decide_false, beq_self_eq_true, Bool.true_and,
            Bool.false_or, Bool.or_eq_true, Bool.and_eq_true, decide_eq_true_eq, beq_iff_eq] at hkeep
          rintro f (rfl | rfl) <;> omega
        | false =>
          refine ⟨e, Or.inr rfl, by simp [testJoin, hkeep, copyData], by simp [testJoin, hkeep, copyData], ?_⟩
          simp only [keepsDst, hd, he, gt_iff_lt, lt_self_iff_false, decide_false, beq_self_eq_true, Bool.true_and,
            Bool.false_or, Bool.or_eq_false_iff, Bool.and_eq_false_iff, decide_eq_false_iff_not, beq_eq_false_iff_ne,
            ne_eq] at hkeep
          rintro f (rfl | rfl) <;> omega
      obtain ⟨c, hc, hcs, hcu, hcmax⟩ := hjoin
      have hfirst := hmax (testJoin d e) (by simp)
      rcases List.mem_cons.mp hb with rfl | hb
      · refine ⟨c, ⟨by rcases hc with rfl | rfl <;> simp, fun f hf => ?_⟩, hscore.trans hcs, hurl.trans hcu⟩
        rcases List.mem_cons.mp hf with rfl | hf
        · exact hcmax f (Or.inl rfl)
        · rcases List.mem_cons.mp hf with rfl | hf
          · exact hcmax f (Or.inr rfl)
          · have := hmax f (by simp [hf])
            omega
      · refine ⟨b, ⟨by simp [hb], fun f hf => ?_⟩, hscore, hurl⟩
        have hde : ∀ f, f = d ∨ f = e → f.score < b.score ∨ f.score = b.score ∧ b.urlId ≤ f.urlId := by
          intro f hf
          have := hcmax f hf
          omega
        rcases List.mem_cons.mp hf with rfl | hf
        · exact hde f (Or.inl rfl)
        · rcases List.mem_cons.mp hf with rfl | hf
          · exact hde f (Or.inr rfl)
          · exact hmax f (by simp [hf])

/-! ### What both paths compute -/

/-- `b` is the best document of its site. -/
def BestOfSite (l : List UdmUrlData) (b : UdmUrlData) : Prop :=
  IsBest (l.filter fun e => e.siteId = b.siteId) b

/-- What a result shows of the site of `b`, with the score adjusted. -/
def siteOf (adjust : ℤ → ℕ → ℕ) (l : List UdmUrlData) (b : UdmUrlData) : ℤ × ℕ × ℕ × ℤ :=
  (b.siteId, (l.filter fun e => e.siteId = b.siteId).length, adjust b.urlId b.score, b.urlId)

variable {l : List UdmUrlData}

theorem BestOfSite.mem {b : UdmUrlData} (h : BestOfSite l b) : b ∈ l :=
  (List.mem_filter.mp h.1).1

theorem BestOfSite.unique {b c : UdmUrlData} (hb : BestOfSite l b) (hc : BestOfSite l c)
    (hsite : b.siteId = c.siteId) : b.score = c.score ∧ b.urlId = c.urlId := by
  have h1 := hb.2 c (List.mem_filter.mpr ⟨hc.mem, by simp [hsite]⟩)
  have h2 := hc.2 b (List.mem_filter.mpr ⟨hb.mem, by simp [hsite]⟩)
  omega

theorem bestOfSite_map_perm {R : List UdmUrlData} {f : UdmUrlData → UdmUrlData} (hperm : l.Perm (R.map f))
    (hsite : ∀ e, (f e).siteId = e.siteId) (hscore : ∀ e, (f e).score = e.score)
    (hurl : ∀ e, (f e).urlId = e.urlId) (adjust : ℤ → ℕ → ℕ) (t : ℤ × ℕ × ℕ × ℤ) :
    (∃ b, BestOfSite l b ∧ siteOf adjust l b = t) ↔ ∃ b, BestOfSite R b ∧ siteOf adjust R b = t := by
  have hfil : ∀ k, (l.filter fun e => e.siteId = k).Perm ((R.filter fun e => e.siteId = k).map f) := by
    intro k
    have := hperm.filter fun e => decide (e.siteId = k)
    rw [List.filter_map] at this
    refine this.trans (List.Perm.of_eq ?_)
    congr 1
    exact List.filter_congr fun e _ => by simp [hsite]
  have hof : ∀ b, siteOf adjust l (f b) = siteOf adjust R b := by
    intro b
    rw [siteOf, siteOf, hsite, hscore, hurl, (hfil b.siteId).length_eq, List.length_map]
  have hbest : ∀ b ∈ R, BestOfSite l (f b) ↔ BestOfSite R b := by
    intro b hb
    simp only [BestOfSite, IsBest, hsite, (hfil b.siteId).mem_iff, List.mem_map, forall_exists_index, and_imp,
      forall_apply_eq_imp_iff₂, hscore, hurl]
    refine and_congr_left fun _ => ⟨fun _ => List.mem_filter.mpr ⟨hb, by simp⟩, fun h => ⟨b, h, rfl⟩⟩
  constructor
  · rintro ⟨c, hc, rfl⟩
    obtain ⟨b, hb, rfl⟩ := List.mem_map.mp (hperm.subset hc.mem)
    exact ⟨b, (hbest b hb).mp hc, (hof b).symm⟩
  · rintro ⟨b, hb, rfl⟩
    exact ⟨f b, (hbest b hb.mem).mpr hb, hof b⟩

theorem joinAll_testJoin (hpop : ∀ e ∈ l, e.popRank = 0) (hper : ∀ e ∈ l, e.perSite = 1)
    {a : UdmUrlData} (ha : a ∈ l) :
    ∃ d b, joinAll testJoin (l.filter fun e => e.siteId = a.siteId) = some d ∧ BestOfSite l b ∧
      b.siteId = a.siteId ∧ shown d = siteOf (fun _ score => score) l b := by
  have hmem : ∀ e, e ∈ l.filter (fun e => e.siteId = a.siteId) ↔ e ∈ l ∧ e.siteId = a.siteId := by simp
  have hsum : ((l.filter fun e => e.siteId = a.siteId).map UdmUrlData.perSite).sum =
      (l.filter fun e => e.siteId = a.siteId).length := by
    rw [List.map_congr_left fun e he => hper e ((hmem e).mp he).1]
    simp
  cases hfil : l.filter fun e => e.siteId = a.siteId with
  | nil => exact absurd ((hmem a).mpr ⟨ha, rfl⟩) (by simp [hfil])
  | cons d g =>
    have hpop' : ∀ e ∈ d :: g, e.popRank = 0 := fun e he => hpop e ((hmem e).mp (hfil ▸ he)).1
    have hd : d.siteId = a.siteId := ((hmem d).mp (hfil ▸ List.mem_cons_self)).2
    obtain ⟨hsite, hsum', b, hb, hscore, hurl⟩ := foldl_testJoin d g hpop'
    have hbsite : b.siteId = a.siteId := ((hmem b).mp (hfil ▸ hb.1)).2
    refine ⟨_, b, rfl, ?_, hbsite, ?_⟩
    · rw [BestOfSite, hbsite, hfil]
      exact hb
    · rw [hfil, List.map_cons, List.sum_cons] at hsum
      rw [shown, siteOf, hsite, hsum', hscore, hurl, hbsite, hd, hfil, hsum]

/-! ### The sorting path -/

/-- The groups of a list: its runs of one site, joined. -/
def groups (l : List UdmUrlData) : List UdmUrlData := (runs (fun d => -d.siteId) l).filterMap (joinAll testJoin)

theorem groupLoop_eq (count : ℕ) (dst : UdmUrlData) (list : List UdmUrlData) :
    groupLoop count dst list = groups ({ dst with perSite := count } :: list) := by
  induction list generalizing count dst with
  | nil => rfl
  | cons src list ih =>
    obtain ⟨g, gs, hruns⟩ := exists_runs_cons (fun d : UdmUrlData => -d.siteId) src list
    have hstep : runs (fun d : UdmUrlData => -d.siteId) ({ dst with perSite := count } :: src :: list) =
        push (fun d : UdmUrlData => -d.siteId) { dst with perSite := count } ((src :: g) :: gs) := by
      rw [runs, hruns src rfl]
    rw [groupLoop]
    split
    · rename_i hsite
      have hkeep : keepsDst { dst with perSite := count } src = keepsDst dst src := rfl
      have hjoin : testJoin { dst with perSite := count } src =
          { (if keepsDst dst src then dst else copyData dst src) with perSite := count + src.perSite } := by
        rw [testJoin, hkeep]
        split <;> rfl
      have hkey : -(testJoin { dst with perSite := count } src).siteId = -src.siteId := by simp [hsite]
      rw [ih, ← hjoin, groups, groups, hruns _ hkey, hstep, push, if_pos (by simp [hsite])]
      rfl
    · rename_i hsite
      have hself : ({ src with perSite := src.perSite } : UdmUrlData) = src := rfl
      rw [ih, hself, groups, groups, hruns src rfl, hstep, push, if_neg (by simpa using hsite)]
      rfl

theorem udmURLDataGroupBySite_eq (l : List UdmUrlData) : udmURLDataGroupBySite l = groups l := by
  cases l with
  | nil => rfl
  | cons dst list => exact groupLoop_eq dst.perSite dst list

theorem mem_groups (hl : l.Pairwise bySite) (d : UdmUrlData) :
    d ∈ groups l ↔ ∃ a ∈ l, joinAll testJoin (l.filter fun e => e.siteId = a.siteId) = some d := by
  have hsorted : l.Pairwise fun x y => -x.siteId ≤ -y.siteId := hl.imp fun h => Int.neg_le_neg h
  rw [groups, List.mem_filterMap]
  simp only [mem_runs_iff _ hsorted, Int.neg_inj]
  constructor
  · rintro ⟨_, ⟨a, ha, rfl⟩, hd⟩
    exact ⟨a, ha, hd⟩
  · rintro ⟨a, ha, hd⟩
    exact ⟨_, ⟨a, ha, rfl⟩, hd⟩

variable {d : UdmUrlData}

theorem siteId_joinAll {g : List UdmUrlData} (h : joinAll testJoin g = some d) : ∃ a ∈ g, a.siteId = d.siteId := by
  cases g with
  | nil => simp [joinAll] at h
  | cons a g =>
    have hsite : ∀ (g : List UdmUrlData) (a : UdmUrlData), (g.foldl testJoin a).siteId = a.siteId := by
      intro g
      induction g with
      | nil => intro a; rfl
      | cons b g ih => intro a; rw [List.foldl_cons, ih, siteId_testJoin]
    obtain rfl := Option.some.inj h
    exact ⟨a, List.mem_cons_self, (hsite g a).symm⟩

theorem nodup_groups (hl : l.Pairwise bySite) : (groups l).Pairwise fun d e => d.siteId ≠ e.siteId := by
  have hsorted : l.Pairwise fun x y => -x.siteId ≤ -y.siteId := hl.imp fun h => Int.neg_le_neg h
  refine List.Pairwise.filterMap _ (fun g g' hgg' d hd e he hsite => ?_) (pairwise_runs _ hsorted)
  obtain ⟨a, ha, had⟩ := siteId_joinAll hd
  obtain ⟨b, hb, hbe⟩ := siteId_joinAll he
  have := hgg' a ha b hb
  omega

variable {qsort : QSort bySite} {adjust : ℤ → ℕ → ℕ} {R : List UdmUrlData}

/-- **The sorting path shows the best document of every site.** -/
theorem mem_groupBySiteUsingSort (hpop : ∀ e ∈ R, e.popRank = 0) (t : ℤ × ℕ × ℕ × ℤ) :
    t ∈ (udmURLDataListGroupBySiteUsingSort qsort adjust R).map shown ↔
      ∃ b, BestOfSite R b ∧ siteOf adjust R b = t := by
  have hperm := qsort.perm (R.map fun Dat => { Dat with perSite := 1 })
  have hsorted := qsort.sorted (R.map fun Dat => { Dat with perSite := 1 })
  rw [← bestOfSite_map_perm hperm (fun _ => rfl) (fun _ => rfl) (fun _ => rfl)]
  generalize hl : qsort.sort (R.map fun Dat => { Dat with perSite := 1 }) = l at hperm hsorted
  have hof : ∀ e ∈ l, e.popRank = 0 ∧ e.perSite = 1 := by
    intro e he
    obtain ⟨f, hf, rfl⟩ := List.mem_map.mp (hperm.subset he)
    exact ⟨hpop f hf, rfl⟩
  have hjoined : ∀ a ∈ l, _ := fun a ha =>
    joinAll_testJoin (fun e he => (hof e he).1) (fun e he => (hof e he).2) ha
  simp only [udmURLDataListGroupBySiteUsingSort, hl, udmURLDataGroupBySite_eq, List.mem_map, mem_groups hsorted]
  constructor
  · rintro ⟨_, ⟨d, ⟨a, ha, hd⟩, rfl⟩, rfl⟩
    obtain ⟨d', b, hd', hb, hsite, hshown⟩ := hjoined a ha
    obtain rfl := Option.some.inj (hd.symm.trans hd')
    refine ⟨b, hb, ?_⟩
    simp only [shown, siteOf, Prod.mk.injEq] at hshown ⊢
    obtain ⟨h1, h2, h3, h4⟩ := hshown
    rw [h1, h2, h3, h4]
    exact ⟨rfl, rfl, rfl, rfl⟩
  · rintro ⟨b, hb, rfl⟩
    obtain ⟨d, c, hd, hc, hsite, hshown⟩ := hjoined b hb.mem
    obtain ⟨hscore, hurl⟩ := hc.unique hb hsite
    refine ⟨_, ⟨d, ⟨b, hb.mem, hd⟩, rfl⟩, ?_⟩
    simp only [shown, siteOf, Prod.mk.injEq] at hshown ⊢
    obtain ⟨h1, h2, h3, h4⟩ := hshown
    rw [h1, h2, h3, h4, hsite, hscore, hurl]
    exact ⟨rfl, rfl, rfl, rfl⟩

theorem nodup_groupBySiteUsingSort : ((udmURLDataListGroupBySiteUsingSort qsort adjust R).map shown).Nodup := by
  have hsorted := qsort.sorted (R.map fun Dat => { Dat with perSite := 1 })
  rw [udmURLDataListGroupBySiteUsingSort]
  simp only [udmURLDataGroupBySite_eq, List.map_map]
  rw [List.Nodup, List.pairwise_map]
  refine (nodup_groups hsorted).imp fun hne heq => hne ?_
  exact congrArg Prod.fst heq

/-! ### The hash path -/

/-- A site id is a 32-bit number. -/
def IsInt4 (x : ℤ) : Prop := -2 ^ 31 ≤ x ∧ x < 2 ^ 31

theorem testKey_eq_iff {e : UdmUrlData} (hd : IsInt4 d.siteId) (he : IsInt4 e.siteId) :
    testKey d = testKey e ↔ d.siteId = e.siteId := by
  obtain ⟨hd1, hd2⟩ := hd
  obtain ⟨he1, he2⟩ := he
  rw [testKey, testKey]
  constructor
  · intro h
    omega
  · intro h
    rw [h]

theorem testKey_eq_zero_iff (hd : IsInt4 d.siteId) : testKey d = 0 ↔ d.siteId = 0 := by
  obtain ⟨hd1, hd2⟩ := hd
  rw [testKey]
  omega

/-- The record put into the table for a document of the result. -/
def hashItem (item : UdmUrlData) : UdmUrlData :=
  { emptyData with urlId := item.urlId, siteId := item.siteId, score := item.score, perSite := 1 }

/-- What the result list and the index have to do with each other: both are in the order of
the url ids, and the index knows the site of every document of the result. -/
structure Indexed (recs : List (ℤ × ℤ)) (R : List UdmUrlData) : Prop where
  /-- `#rec_id` is sorted. -/
  recsSorted : recs.Pairwise fun r r' => r.1 < r'.1
  /-- The result is sorted by unique url ids. -/
  sorted : R.Pairwise fun d e => d.urlId < e.urlId
  /-- The site of a document, as `#site_id` has it. -/
  site : ∀ d ∈ R, (d.urlId, d.siteId) ∈ recs

variable {recs : List (ℤ × ℤ)}

theorem hashItems_eq (h : Indexed recs R) : hashItems recs R = R.map hashItem := by
  induction recs generalizing R with
  | nil =>
    cases R with
    | nil => simp [hashItems]
    | cons d R => exact absurd (h.site d List.mem_cons_self) (by simp)
  | cons r recs ih =>
    cases R with
    | nil => simp [hashItems]
    | cons d R =>
      obtain ⟨recId, siteId⟩ := r
      obtain ⟨hrec, hrecs⟩ := List.pairwise_cons.mp h.recsSorted
      obtain ⟨hd, hR⟩ := List.pairwise_cons.mp h.sorted
      have hdmem := h.site d List.mem_cons_self
      rw [hashItems]
      by_cases heq : recId = d.urlId
      · -- the records of the two lists meet
        have hsite : siteId = d.siteId := by
          rcases List.mem_cons.mp hdmem with hd' | hd'
          · exact (Prod.mk.inj hd').2.symm
          · exact absurd (hrec _ hd') (by simp [heq])
        have hrest : Indexed recs R := by
          refine ⟨hrecs, hR, fun e he => ?_⟩
          rcases List.mem_cons.mp (h.site e (List.mem_cons_of_mem _ he)) with he' | he'
          · have hlt := hd e he
            have := (Prod.mk.inj he').1
            omega
          · exact he'
        rw [if_pos heq, ih hrest, List.map_cons, hashItem, heq, hsite]
      · have hlt : recId < d.urlId := by
          rcases List.mem_cons.mp hdmem with hd' | hd'
          · exact absurd (Prod.mk.inj hd').1.symm heq
          · exact hrec _ hd'
        have hrest : Indexed recs (d :: R) := by
          refine ⟨hrecs, h.sorted, fun e he => ?_⟩
          rcases List.mem_cons.mp (h.site e he) with he' | he'
          · have hle : d.urlId ≤ e.urlId := by
              rcases List.mem_cons.mp he with rfl | he
              · exact le_rfl
              · exact le_of_lt (hd e he)
            have := (Prod.mk.inj he').1
            omega
          · exact he'
        rw [if_neg heq, if_neg (by omega), ih hrest]

theorem holds_hashItems (hint : ∀ d ∈ R, IsInt4 d.siteId) (hsite : ∀ d ∈ R, d.siteId ≠ 0) :
    Holds testKey testJoin (udmHashSize R.length)
        (putAll testKey testJoin (udmHashSize R.length) (fun _ => emptyData) (R.map hashItem)) (R.map hashItem) ∧
      ∀ p, IsInt4 (putAll testKey testJoin (udmHashSize R.length) (fun _ => emptyData) (R.map hashItem) p).siteId := by
  have hint' : ∀ d ∈ R.map hashItem, IsInt4 d.siteId := by
    intro d hd
    obtain ⟨e, he, rfl⟩ := List.mem_map.mp hd
    exact hint e he
  constructor
  · refine putAll_spec testKey_testJoin (fun p _ => rfl) (fun d hd hzero => ?_) ?_
    · obtain ⟨e, he, rfl⟩ := List.mem_map.mp hd
      exact hsite e he ((testKey_eq_zero_iff (d := hashItem e) (hint e he)).mp hzero)
    · rw [List.length_map, udmHashSize]
      omega
  · refine putAll_forall (fun _ => ⟨by decide, by decide⟩) (fun a b ha => ?_) hint'
    rw [siteId_testJoin]
    exact ha

/-- **The hash path shows the best document of every site.** -/
theorem mem_groupBySiteUsingHash (h : Indexed recs R) (hint : ∀ d ∈ R, IsInt4 d.siteId)
    (hsite : ∀ d ∈ R, d.siteId ≠ 0) (t : ℤ × ℕ × ℕ × ℤ) :
    t ∈ (udmURLDataListGroupBySiteUsingHash recs R).map shown ↔
      ∃ b, BestOfSite R b ∧ siteOf (fun _ score => score) R b = t := by
  obtain ⟨hholds, hints⟩ := holds_hashItems hint hsite
  rw [← bestOfSite_map_perm (f := hashItem) (List.Perm.refl _) (fun _ => rfl) (fun _ => rfl) (fun _ => rfl)]
  rw [udmURLDataListGroupBySiteUsingHash, hashItems_eq h]
  simp only [udmURLDataCompact, List.mem_map, List.mem_filter, List.mem_range]
  generalize putAll testKey testJoin (udmHashSize R.length) (fun _ => emptyData) (R.map hashItem) = slot at hholds hints
  have hintl : ∀ d ∈ R.map hashItem, IsInt4 d.siteId ∧ d.siteId ≠ 0 := by
    intro d hd
    obtain ⟨e, he, rfl⟩ := List.mem_map.mp hd
    exact ⟨hint e he, hsite e he⟩
  have hjoined : ∀ a ∈ R.map hashItem, _ := fun a ha =>
    joinAll_testJoin (l := R.map hashItem) (by simp [hashItem, emptyData]) (by simp [hashItem]) ha
  generalize R.map hashItem = l at hholds hintl hjoined
  -- the elements of a slot are those of its site
  have hfil : ∀ d, IsInt4 d.siteId →
      l.filter (fun a => testKey a = testKey d) = l.filter fun a => a.siteId = d.siteId := by
    intro d hd
    exact List.filter_congr fun a ha => decide_eq_decide.mpr (testKey_eq_iff (hintl a ha).1 hd)
  have hslot : ∀ p < udmHashSize R.length, (slot p).siteId ≠ 0 → ∃ a ∈ l, a.siteId = (slot p).siteId ∧
      some (slot p) = joinAll testJoin (l.filter fun e => e.siteId = a.siteId) := by
    intro p hp hne
    have hc := hholds.content p hp (fun hzero => hne ((testKey_eq_zero_iff (hints p)).mp hzero))
    rw [hfil _ (hints p)] at hc
    obtain ⟨a, ha, -⟩ := siteId_joinAll hc.symm
    obtain ⟨hal, hasite⟩ := List.mem_filter.mp ha
    exact ⟨a, hal, of_decide_eq_true hasite, by rw [hc, of_decide_eq_true hasite]⟩
  constructor
  · rintro ⟨d, ⟨⟨p, hp, rfl⟩, hne⟩, rfl⟩
    obtain ⟨a, ha, -, hsome⟩ := hslot p hp (by simpa using hne)
    obtain ⟨d, b, hd, hb, -, hshown⟩ := hjoined a ha
    obtain rfl := Option.some.inj (hsome.trans hd)
    exact ⟨b, hb, hshown.symm⟩
  · rintro ⟨b, hb, rfl⟩
    obtain ⟨d, c, hd, hc, hcsite, hshown⟩ := hjoined b hb.mem
    obtain ⟨o, ho, hkey, -⟩ := hholds.found b hb.mem
    have hp : (testKey b + o) % udmHashSize R.length < udmHashSize R.length := Nat.mod_lt _ (by omega)
    generalize (testKey b + o) % udmHashSize R.length = p at hkey hp
    have hps : (slot p).siteId = b.siteId := (testKey_eq_iff (hints p) (hintl b hb.mem).1).mp hkey
    have hne : (slot p).siteId ≠ 0 := by
      rw [hps]
      exact (hintl b hb.mem).2
    obtain ⟨a, ha, hasite, hsome⟩ := hslot p hp hne
    rw [hasite, hps, hd] at hsome
    obtain ⟨hscore, hurl⟩ := hc.unique hb hcsite
    refine ⟨slot p, ⟨⟨p, hp, rfl⟩, by simpa using hne⟩, ?_⟩
    rw [Option.some.inj hsome, hshown, siteOf, siteOf, hcsite, hscore, hurl]

theorem nodup_groupBySiteUsingHash (h : Indexed recs R) (hint : ∀ d ∈ R, IsInt4 d.siteId)
    (hsite : ∀ d ∈ R, d.siteId ≠ 0) : ((udmURLDataListGroupBySiteUsingHash recs R).map shown).Nodup := by
  obtain ⟨hholds, hints⟩ := holds_hashItems hint hsite
  rw [udmURLDataListGroupBySiteUsingHash, hashItems_eq h]
  simp only [udmURLDataCompact]
  generalize putAll testKey testJoin (udmHashSize R.length) (fun _ => emptyData) (R.map hashItem) = slot at hholds hints
  rw [List.filter_map, List.map_map, List.Nodup, List.pairwise_map]
  have hnodup : ((List.range (udmHashSize R.length)).filter ((fun src => decide (src.siteId ≠ 0)) ∘ slot)).Nodup :=
    List.nodup_range.filter _
  refine hnodup.imp_of_mem fun {p q} hp hq hne heq => hne ?_
  obtain ⟨hpn, hpsite⟩ := List.mem_filter.mp hp
  obtain ⟨hqn, -⟩ := List.mem_filter.mp hq
  have hpq : (slot p).siteId = (slot q).siteId := congrArg Prod.fst heq
  refine hholds.inj p (List.mem_range.mp hpn) q (List.mem_range.mp hqn) (fun hzero => ?_)
    ((testKey_eq_iff (hints p) (hints q)).mpr hpq)
  simp [(testKey_eq_zero_iff (hints p)).mp hzero] at hpsite

/-! ### The two paths -/

/-- Merge sort sorts by site. -/
def mergeSortBySite : QSort bySite :=
  haveI : DecidableRel bySite := fun p1 p2 => inferInstanceAs (Decidable (p2.siteId ≤ p1.siteId))
  mergeSort bySite (fun _ _ _ h h' => le_trans h' h) fun a b => le_total b.siteId a.siteId

/-- The documents 4, 7 and 9 on the sites 3, 5 and 3. -/
def threeDocuments : List UdmUrlData :=
  [⟨4, 10, 0, 3, 0, 0, none, none⟩, ⟨7, 20, 0, 5, 0, 0, none, none⟩, ⟨9, 10, 0, 3, 0, 0, none, none⟩]

end MnoGoSearch.Result
