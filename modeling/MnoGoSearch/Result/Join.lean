import MnoGoSearch.Lib.LittleEndian
import MnoGoSearch.Lib.SortProcedure
import MnoGoSearch.Result.SortByPattern

/-!
# Joining the results of several databases

A search over several databases joins their result lists (`db.c`): every score gets the
number of the database in its low byte, the lists are put behind one another, grouped by site
or ranked within their sites, and sorted. A list may be computed or come from the query cache
(`qcache.c`), which keeps of a document the url id, the score and the count of its site. So
a cached list is joined without sites, ranks, times, addresses and sections.
`join_interchangeable` says when this shows.
-/

namespace MnoGoSearch.Result

open Lib.LittleEndian Lib.Sorting

/-! ## The query cache -/

/-- The low 32 bits of a number, which `udm_put_int4` writes. -/
def uint4 (z : ℤ) : ℕ := (z % 2 ^ 32).toNat

/-- The number that an `int4` of these bits is. -/
def int4 (n : ℕ) : ℤ := if n < 2 ^ 31 then n else (n : ℤ) - 2 ^ 32

theorem int4_uint4 {z : ℤ} (h : -2 ^ 31 ≤ z ∧ z < 2 ^ 31) : int4 (uint4 z) = z := by
  obtain ⟨hlow, hhigh⟩ := h
  rw [int4, uint4]
  split <;> omega

/-- `UdmURLDataListEncode`. -/
def udmURLDataListEncode (URLData : List UdmUrlData) : List UInt8 :=
  URLData.flatMap fun D => putLE 4 (uint4 D.urlId) ++ (putLE 4 D.score ++ putLE 4 D.perSite)

/-- The loop of `UdmFetchCachedQuery` over `nitems` records of 12 bytes. -/
def fetchItems : ℕ → List UInt8 → List UdmUrlData
  | 0, _ => []
  | nitems + 1, p =>
    { emptyData with urlId := int4 (getLE 4 p), score := getLE 4 (p.drop 4), perSite := getLE 4 (p.drop 8) } ::
      fetchItems nitems (p.drop 12)

/-- `UdmFetchCachedQuery`, the list of the documents. -/
def udmFetchCachedQuery (doclist : List UInt8) : List UdmUrlData := fetchItems (doclist.length / 12) doclist

/-- The number of results that is read back: `UdmResToXML` writes it as an `int`, and
`UdmResultFromXML` reads it with `atoi` into a `size_t`. -/
def totalResults (totalFound : ℕ) : ℕ := (int4 (uint4 totalFound) % 2 ^ 64).toNat

/-- The result of a database. The numbers are of the widths of the program: `urlid_t` is an
`int4`, the score and the count are `uint4`. There are no more results than url ids. -/
structure DbResult where
  items : List UdmUrlData
  totalFound : ℕ
  fits : ∀ D ∈ items, (-2 ^ 31 ≤ D.urlId ∧ D.urlId < 2 ^ 31) ∧ D.score < 2 ^ 32 ∧ D.perSite < 2 ^ 32
  /-- It is a number of documents. -/
  totalFound_lt : totalFound < 2 ^ 31

/-- What the join gets of a database. -/
structure SearchResult where
  /-- `URLData`. -/
  items : List UdmUrlData
  totalFound : ℕ

/-- The result as the search has computed it. -/
def DbResult.computed (r : DbResult) : SearchResult := ⟨r.items, r.totalFound⟩

/-- The result as the cache has it. -/
def DbResult.fromCache (r : DbResult) : SearchResult :=
  ⟨udmFetchCachedQuery (udmURLDataListEncode r.items), totalResults r.totalFound⟩

/-- What the cache keeps of a document. -/
def asCached (D : UdmUrlData) : UdmUrlData :=
  { emptyData with urlId := D.urlId, score := D.score, perSite := D.perSite }

variable {D : UdmUrlData} {pattern : List Char} {rs : List (DbResult × Bool)}

theorem fetchItems_succ
    (h : (-2 ^ 31 ≤ D.urlId ∧ D.urlId < 2 ^ 31) ∧ D.score < 2 ^ 32 ∧ D.perSite < 2 ^ 32) (n : ℕ)
    (rest : List UInt8) :
    fetchItems (n + 1) ((putLE 4 (uint4 D.urlId) ++ (putLE 4 D.score ++ putLE 4 D.perSite)) ++ rest) =
      asCached D :: fetchItems n rest := by
  obtain ⟨hurl, hscore, hper⟩ := h
  have huint : uint4 D.urlId < 2 ^ 32 := by
    rw [uint4]
    omega
  have hdrop4 : ((putLE 4 (uint4 D.urlId) ++ (putLE 4 D.score ++ putLE 4 D.perSite)) ++ rest).drop 4 =
      putLE 4 D.score ++ (putLE 4 D.perSite ++ rest) := by
    rw [List.append_assoc, List.drop_left' (length_putLE 4 _), List.append_assoc]
  have hdrop8 : ((putLE 4 (uint4 D.urlId) ++ (putLE 4 D.score ++ putLE 4 D.perSite)) ++ rest).drop 8 =
      putLE 4 D.perSite ++ rest := by
    rw [show 8 = 4 + 4 from rfl, ← List.drop_drop, hdrop4, List.drop_left' (length_putLE 4 _)]
  have hdrop12 : ((putLE 4 (uint4 D.urlId) ++ (putLE 4 D.score ++ putLE 4 D.perSite)) ++ rest).drop 12 = rest := by
    rw [show 12 = 8 + 4 from rfl, ← List.drop_drop, hdrop8, List.drop_left' (length_putLE 4 _)]
  rw [fetchItems, hdrop12, hdrop8, hdrop4, List.append_assoc, getLE_putLE, getLE_putLE, getLE_putLE,
    show 256 ^ 4 = 2 ^ 32 from rfl,
    Nat.mod_eq_of_lt huint, Nat.mod_eq_of_lt hscore, Nat.mod_eq_of_lt hper, int4_uint4 hurl]
  rfl

theorem udmFetchCachedQuery_encode (r : DbResult) :
    udmFetchCachedQuery (udmURLDataListEncode r.items) = r.items.map asCached := by
  obtain ⟨items, total, fits, htotal⟩ := r
  change udmFetchCachedQuery (udmURLDataListEncode items) = items.map asCached
  clear htotal
  have hlen : (udmURLDataListEncode items).length = items.length * 12 := by
    induction items with
    | nil => rfl
    | cons D items ih =>
      have ih := ih fun E hE => fits E (List.mem_cons_of_mem _ hE)
      rw [udmURLDataListEncode, List.flatMap_cons, List.length_append, ← udmURLDataListEncode, ih]
      simp only [List.length_append, length_putLE, List.length_cons]
      omega
  rw [udmFetchCachedQuery, hlen, Nat.mul_div_cancel _ (by decide)]
  clear hlen
  induction items with
  | nil => rfl
  | cons D items ih =>
    rw [udmURLDataListEncode, List.flatMap_cons, ← udmURLDataListEncode, List.length_cons,
      fetchItems_succ (fits D List.mem_cons_self), ih fun E hE => fits E (List.mem_cons_of_mem _ hE), List.map_cons]

theorem totalResults_eq {n : ℕ} (h : n < 2 ^ 31) : totalResults n = n := by
  rw [totalResults, int4_uint4 (by omega)]
  omega

theorem fromCache_eq (r : DbResult) : r.fromCache = ⟨r.items.map asCached, r.totalFound⟩ := by
  rw [DbResult.fromCache, udmFetchCachedQuery_encode, totalResults_eq r.totalFound_lt]

/-! ## The join -/

/-- The parameter `GroupBySite`. -/
inductive GroupBySite where
  /-- Every document is shown. -/
  | no
  /-- The best document of a site is shown. -/
  | yes
  /-- The further documents of a site come later. -/
  | rank

/-- `UdmResultSetMachineNumber`. -/
def udmResultSetMachineNumber (num : ℕ) (D : UdmUrlData) : UdmUrlData :=
  { D with score := (D.score * 2 ^ 8 % 2 ^ 32 + (255 - num % 256)) % 2 ^ 32 }

/-- The score of the document with a rank in its site, when results are joined. -/
def rankedScore (score inSiteRank : ℕ) : ℕ :=
  if inSiteRank > 1 then
    -- Keep machine number in the low byte
    score % 256 + (score / inSiteRank &&& 0x7FFFFF00)
  else score

/-- The loop of `UdmURLDataApplySiteRank`, where results are joined. -/
def rankLoop (prevSiteId : ℤ) (inSiteRank : ℕ) : List UdmUrlData → List UdmUrlData
  | [] => []
  | D :: list =>
    let inSiteRank := (if prevSiteId ≠ D.siteId then 0 else inSiteRank) + 1
    { D with score := rankedScore D.score inSiteRank } :: rankLoop D.siteId inSiteRank list

/-- `UdmURLDataApplySiteRank`, where results are joined. -/
def udmURLDataApplySiteRank (DataList : List UdmUrlData) : List UdmUrlData := rankLoop 1 1 DataList

instance : DecidableRel bySite := fun p1 p2 => inferInstanceAs (Decidable (p2.siteId ≤ p1.siteId))

/-- `UdmURLDataSortBySite`. -/
def udmURLDataSortBySite (P : SortProc) (L : List UdmUrlData) : List UdmUrlData :=
  P.sort (fun p1 p2 => decide (bySite p1 p2)) L

/-- The procedure with the comparisons of the patterns. -/
def patternSorts (P : SortProc) : PatternSorts where
  byR := P.qsort PatternR (fun _ _ _ => patternR_trans) patternR_total
  byRP := P.qsort PatternRP (fun _ _ _ => patternRP_trans) patternRP_total

/-- The lists behind one another, with the numbers of the databases. -/
def joinItems (TmpRes : List SearchResult) : List UdmUrlData :=
  TmpRes.zipIdx.flatMap fun CurRes => CurRes.1.items.map (udmResultSetMachineNumber CurRes.2)

/-- Grouping and ranking by site in `UdmResultJoin`. -/
def joinGroup (P : SortProc) (mode : GroupBySite) (Res : SearchResult) : SearchResult :=
  match mode with
  | .no => Res
  | .yes =>
    let items := udmURLDataGroupBySite (udmURLDataSortBySite P Res.items)
    ⟨items, items.length⟩
  | .rank => ⟨udmURLDataApplySiteRank (udmURLDataSortBySite P Res.items), Res.totalFound⟩

/-- `UdmResultJoin`. -/
def udmResultJoin (P : SortProc) (mode : GroupBySite) (pattern : List Char) (TmpRes : List SearchResult) :
    SearchResult :=
  let Res : SearchResult := ⟨joinItems TmpRes, (TmpRes.map SearchResult.totalFound).sum⟩
  if TmpRes.length > 1 ∧ Res.items.length > 0 then
    let Res := joinGroup P mode Res
    if Res.items.length > 0 then
      { Res with items := udmURLDataSortByPattern (patternSorts P) Res.items pattern }
    else Res
  else Res

/-! ## Lists that the cache changed

The documents of the join are taken in pairs: as the search has computed them, and as the
cache may have it.
-/

/-- A document as computed, and as the join gets it. -/
abbrev DocPair : Type := UdmUrlData × UdmUrlData

/-- What a result list shows of a document. -/
def shownOf (D : UdmUrlData) : ℤ × ℕ × ℕ := (D.urlId, D.score, D.perSite)

/-- What a result shows: the documents in their order, and their number. -/
def SearchResult.shown (Res : SearchResult) : List (ℤ × ℕ × ℕ) × ℕ := (Res.items.map shownOf, Res.totalFound)

/-- The result of a database, from the cache or not. -/
def DbResult.result (r : DbResult) (cached : Bool) : SearchResult := if cached then r.fromCache else r.computed

/-- The join of the results shows the same whether some of them come from the cache or none. -/
def Interchangeable (P : SortProc) (mode : GroupBySite) (pattern : List Char) (rs : List (DbResult × Bool)) : Prop :=
  (udmResultJoin P mode pattern (rs.map fun r => r.1.result r.2)).shown =
    (udmResultJoin P mode pattern (rs.map fun r => r.1.computed)).shown

/-- The documents of the join. -/
def docPairs (rs : List (DbResult × Bool)) : List DocPair :=
  rs.zipIdx.flatMap fun r => r.1.1.items.map fun D =>
    (udmResultSetMachineNumber r.2 D, udmResultSetMachineNumber r.2 (if r.1.2 then asCached D else D))

/-- The letters of the pattern but for the score compare two documents alike. -/
def SameLetters (pattern : List Char) (p q : DocPair) : Prop :=
  ∀ c ∈ pattern, c ≠ 'R' → c ≠ 'r' → cmpletter p.1 q.1 c = cmpletter p.2 q.2 c

/-- The comparisons of a join that read other fields than the cache keeps. -/
def SameCompare (mode : GroupBySite) (pattern : List Char) (p q : DocPair) : Prop :=
  match mode with
  | .no => cmppattern p.1 q.1 pattern = cmppattern p.2 q.2 pattern
  | .yes =>
    (bySite p.1 q.1 ↔ bySite p.2 q.2) ∧ (p.1.siteId = q.1.siteId → keepsDst p.1 q.1 = keepsDst p.2 q.2) ∧
      cmppattern p.1 q.1 pattern = cmppattern p.2 q.2 pattern
  | .rank => (bySite p.1 q.1 ↔ bySite p.2 q.2) ∧ (p.1.siteId = 1 ↔ p.2.siteId = 1) ∧ SameLetters pattern p q

/-- Every two documents of the join compare alike with the fields that the cache drops and without them. -/
def Agrees (mode : GroupBySite) (pattern : List Char) (rs : List (DbResult × Bool)) : Prop :=
  ∀ p ∈ docPairs rs, ∀ q ∈ docPairs rs, SameCompare mode pattern p q

variable {p q : DocPair} {ps : List DocPair}

theorem shownOf_docPairs (hp : p ∈ docPairs rs) : shownOf p.1 = shownOf p.2 := by
  obtain ⟨r, -, hp⟩ := List.mem_flatMap.mp hp
  obtain ⟨D, -, rfl⟩ := List.mem_map.mp hp
  cases r.1.2 with
  | false => rfl
  | true => rfl

theorem joinItems_computed (rs : List (DbResult × Bool)) :
    joinItems (rs.map fun r => r.1.computed) = (docPairs rs).map Prod.fst := by
  rw [joinItems, docPairs, List.zipIdx_map, List.flatMap_map, List.map_flatMap]
  refine List.flatMap_congr fun r _ => ?_
  rw [List.map_map]
  rfl

theorem joinItems_result (rs : List (DbResult × Bool)) :
    joinItems (rs.map fun r => r.1.result r.2) = (docPairs rs).map Prod.snd := by
  rw [joinItems, docPairs, List.zipIdx_map, List.flatMap_map, List.map_flatMap]
  refine List.flatMap_congr fun r _ => ?_
  rw [List.map_map]
  change ((r.1.1.result r.1.2).items).map (udmResultSetMachineNumber r.2) = _
  rw [DbResult.result, fromCache_eq]
  cases r.1.2 with
  | false => rfl
  | true => exact List.map_map

theorem totalFound_result (rs : List (DbResult × Bool)) :
    ((rs.map fun r => r.1.result r.2).map SearchResult.totalFound).sum =
      ((rs.map fun r => r.1.computed).map SearchResult.totalFound).sum := by
  rw [List.map_map, List.map_map]
  congr 1
  refine List.map_congr_left fun r _ => ?_
  rw [Function.comp_apply, Function.comp_apply, DbResult.result, fromCache_eq]
  cases r.2 with
  | false => rfl
  | true => rfl

/-! ### The stages of the join -/

theorem sort_pairs (P : SortProc) {le : UdmUrlData → UdmUrlData → Bool} {ps : List DocPair}
    (h : ∀ p ∈ ps, ∀ q ∈ ps, le p.1 q.1 = le p.2 q.2) :
    ∃ ms : List DocPair, ms.Perm ps ∧ P.sort le (ps.map Prod.fst) = ms.map Prod.fst ∧
      P.sort le (ps.map Prod.snd) = ms.map Prod.snd :=
  ⟨P.sort (fun p q => le p.1 q.1) ps, P.perm_sort _ ps, P.sort_map fun _ _ _ _ => rfl,
    P.sort_map fun p hp q hq => (h p hp q hq).symm⟩

theorem cmppatternRP_eq (D1 D2 : UdmUrlData) : cmppatternRP D1 D2 = cmppattern D2 D1 ['R', 'P'] := by
  change _ = (compare D2.score D1.score).then ((compare D2.popRank D1.popRank).then .eq)
  rw [cmppatternRP]
  cases compare D2.popRank D1.popRank with
  | lt => rfl
  | eq => rfl
  | gt => rfl

theorem cmppatternR_eq (D1 D2 : UdmUrlData) : cmppatternR D1 D2 = cmppattern D2 D1 ['R'] := by
  change _ = (compare D2.score D1.score).then .eq
  rw [cmppatternR]
  cases compare D2.score D1.score with
  | lt => rfl
  | eq => rfl
  | gt => rfl

theorem shellSort_pairs (pattern : List Char) (g : DocPair → UdmUrlData)
    (hg : g (emptyData, emptyData) = emptyData)
    (h : ∀ p ∈ ps, ∀ q ∈ ps, cmppattern (g p) (g q) pattern = cmppattern p.1 q.1 pattern) :
    shellSortByPattern (ps.map g) pattern =
      ((List.range ps.length).map (Lib.ShellSort.sort (fun p q : DocPair => cmppattern p.1 q.1 pattern == .gt)
        ps.length (gaps ps.length) fun i => ps.getD i (emptyData, emptyData))).map g := by
  have hget : (fun i => (ps.map g).getD i emptyData) = g ∘ fun i => ps.getD i (emptyData, emptyData) := by
    funext i
    simp only [Function.comp_apply, List.getD, List.getElem?_map]
    cases ps[i]? with
    | none => exact hg.symm
    | some p => rfl
  rw [shellSortByPattern, List.length_map, hget]
  have hcomp := @Lib.ShellSort.sort_comp _ (fun p q : DocPair => cmppattern p.1 q.1 pattern == .gt) _
    (fun D E => cmppattern D E pattern == .gt) g (· ∈ ps) (fun p q hp hq => by rw [h p hp q hq]) ps.length
    (gaps ps.length) (fun i => ps.getD i (emptyData, emptyData)) fun i hi => by
      rw [List.getD, List.getElem?_eq_getElem hi]
      exact List.getElem_mem hi
  rw [hcomp, List.map_map]

theorem sortByPattern_pairs (P : SortProc) (pattern : List Char)
    (h : ∀ p ∈ ps, ∀ q ∈ ps, cmppattern p.1 q.1 pattern = cmppattern p.2 q.2 pattern) :
    ∃ ms : List DocPair, ms.Perm ps ∧
      udmURLDataSortByPattern (patternSorts P) (ps.map Prod.fst) pattern = ms.map Prod.fst ∧
      udmURLDataSortByPattern (patternSorts P) (ps.map Prod.snd) pattern = ms.map Prod.snd := by
  simp only [udmURLDataSortByPattern]
  by_cases hRP : pattern = ['R', 'P']
  · subst hRP
    rw [if_pos rfl, if_pos rfl]
    refine @sort_pairs P (fun D E => decide (PatternRP D E)) ps fun p hp q hq => decide_eq_decide.mpr ?_
    rw [PatternRP, PatternRP, cmppatternRP_eq, cmppatternRP_eq, h q hq p hp]
  · by_cases hR : pattern = ['R']
    · subst hR
      rw [if_neg hRP, if_pos rfl, if_neg hRP, if_pos rfl]
      refine @sort_pairs P (fun D E => decide (PatternR D E)) ps fun p hp q hq => decide_eq_decide.mpr ?_
      rw [PatternR, PatternR, cmppatternR_eq, cmppatternR_eq, h q hq p hp]
    · rw [if_neg hRP, if_neg hR, if_neg hRP, if_neg hR, shellSort_pairs pattern Prod.fst rfl fun p _ q _ => rfl,
        shellSort_pairs pattern Prod.snd rfl fun p hp q hq => (h p hp q hq).symm]
      refine ⟨_, ?_, rfl, rfl⟩
      have hperm := Lib.ShellSort.perm_sort (fun p q : DocPair => cmppattern p.1 q.1 pattern == .gt) ps.length
        (gaps ps.length) fun i => ps.getD i (emptyData, emptyData)
      rwa [map_getD_range] at hperm

/-! ### Grouping by site -/

theorem groupLoop_perSite (count c : ℕ) (dst : UdmUrlData) (list : List UdmUrlData) :
    groupLoop count { dst with perSite := c } list = groupLoop count dst list := by
  induction list generalizing count dst with
  | nil => rfl
  | cons src list ih =>
    rw [groupLoop, groupLoop]
    have hcopy : copyData { dst with perSite := c } src = { copyData dst src with perSite := c } := rfl
    have hkeeps : keepsDst { dst with perSite := c } src = keepsDst dst src := rfl
    rw [hcopy, hkeeps]
    split
    · split
      · exact ih _ dst
      · exact ih _ (copyData dst src)
    · rfl

theorem groupLoop_cons_same (count : ℕ) {dst src : UdmUrlData} (hsite : dst.siteId = src.siteId)
    (list : List UdmUrlData) :
    groupLoop count dst (src :: list) =
      groupLoop (count + src.perSite) (if keepsDst dst src then dst else src) list := by
  rw [groupLoop, if_pos hsite]
  split
  · rfl
  · have hcopy : copyData dst src = { src with perSite := dst.perSite } := by
      rw [copyData, hsite]
    rw [hcopy, groupLoop_perSite]

/-- The group that the loop makes of a document, with the count. -/
def withCount (g : DocPair → UdmUrlData) (m : DocPair × ℕ) : UdmUrlData := { g m.1 with perSite := m.2 }

theorem groupLoop_pairs (S : DocPair → Prop)
    (hsite : ∀ p q, S p → S q → (p.1.siteId = q.1.siteId ↔ p.2.siteId = q.2.siteId))
    (hkeeps : ∀ p q, S p → S q → p.1.siteId = q.1.siteId → keepsDst p.1 q.1 = keepsDst p.2 q.2)
    (hper : ∀ p, S p → p.1.perSite = p.2.perSite) (count : ℕ) (p : DocPair) (ps : List DocPair) (hp : S p)
    (hps : ∀ q ∈ ps, S q) :
    ∃ ms : List (DocPair × ℕ), (∀ m ∈ ms, S m.1) ∧
      groupLoop count p.1 (ps.map Prod.fst) = ms.map (withCount Prod.fst) ∧
      groupLoop count p.2 (ps.map Prod.snd) = ms.map (withCount Prod.snd) := by
  induction ps generalizing count p with
  | nil => exact ⟨[(p, count)], by simpa using hp, rfl, rfl⟩
  | cons q ps ih =>
    have hq := hps q List.mem_cons_self
    have hps := fun r hr => hps r (List.mem_cons_of_mem _ hr)
    rw [List.map_cons, List.map_cons]
    by_cases hsame : p.1.siteId = q.1.siteId
    · rw [groupLoop_cons_same count hsame, groupLoop_cons_same count ((hsite p q hp hq).mp hsame),
        ← hkeeps p q hp hq hsame, ← hper q hq]
      split
      · exact ih _ p hp hps
      · exact ih _ q hq hps
    · obtain ⟨ms, hms, hfst, hsnd⟩ := ih q.1.perSite q hq hps
      have hsame' := mt (hsite p q hp hq).mpr hsame
      refine ⟨(p, count) :: ms, ?_, ?_, ?_⟩
      · intro m hm
        cases List.mem_cons.mp hm with
        | inl h => exact h ▸ hp
        | inr h => exact hms m h
      · rw [groupLoop, if_neg hsame, hfst]
        rfl
      · rw [groupLoop, if_neg hsame', ← hper q hq, hsnd]
        rfl

/-! ### Ranking within sites -/

/-- A document with another score. -/
def withScore (g : DocPair → UdmUrlData) (m : DocPair × ℕ) : UdmUrlData := { g m.1 with score := m.2 }

theorem rankLoop_pairs (S : DocPair → Prop)
    (hsite : ∀ p q, S p → S q → (p.1.siteId = q.1.siteId ↔ p.2.siteId = q.2.siteId))
    (hscore : ∀ p, S p → p.1.score = p.2.score) (ps : List DocPair) (hps : ∀ q ∈ ps, S q) (prev1 prev2 : ℤ)
    (hprev : ∀ p, S p → (prev1 = p.1.siteId ↔ prev2 = p.2.siteId)) (inSiteRank : ℕ) :
    ∃ ms : List (DocPair × ℕ), (∀ m ∈ ms, S m.1) ∧
      rankLoop prev1 inSiteRank (ps.map Prod.fst) = ms.map (withScore Prod.fst) ∧
      rankLoop prev2 inSiteRank (ps.map Prod.snd) = ms.map (withScore Prod.snd) := by
  induction ps generalizing prev1 prev2 inSiteRank with
  | nil => exact ⟨[], by simp, rfl, rfl⟩
  | cons p ps ih =>
    have hp := hps p List.mem_cons_self
    have hrank : (if prev2 ≠ p.2.siteId then 0 else inSiteRank) = if prev1 ≠ p.1.siteId then 0 else inSiteRank :=
      if_congr (not_congr (hprev p hp)).symm rfl rfl
    obtain ⟨ms, hms, hfst, hsnd⟩ := ih (fun q hq => hps q (List.mem_cons_of_mem _ hq)) p.1.siteId p.2.siteId
      (fun q hq => hsite p q hp hq) ((if prev1 ≠ p.1.siteId then 0 else inSiteRank) + 1)
    refine ⟨(p, rankedScore p.1.score ((if prev1 ≠ p.1.siteId then 0 else inSiteRank) + 1)) :: ms, ?_, ?_, ?_⟩
    · intro m hm
      cases List.mem_cons.mp hm with
      | inl h => exact h ▸ hp
      | inr h => exact hms m h
    · rw [List.map_cons, rankLoop, hfst]
      rfl
    · rw [List.map_cons, rankLoop, hrank, hsnd, ← hscore p hp]
      rfl

/-! ### The join of the pairs -/

theorem siteId_eq_iff (hpq : bySite p.1 q.1 ↔ bySite p.2 q.2) (hqp : bySite q.1 p.1 ↔ bySite q.2 p.2) :
    p.1.siteId = q.1.siteId ↔ p.2.siteId = q.2.siteId := by
  simp only [bySite] at hpq hqp
  omega

theorem cmppattern_withScore (h : SameLetters pattern p q) (a b : ℕ) :
    cmppattern (withScore Prod.fst (p, a)) (withScore Prod.fst (q, b)) pattern =
      cmppattern (withScore Prod.snd (p, a)) (withScore Prod.snd (q, b)) pattern := by
  induction pattern with
  | nil => rfl
  | cons c pattern ih =>
    have ih := ih fun d hd => h d (List.mem_cons_of_mem _ hd)
    change (cmpletter _ _ c).then (cmppattern _ _ pattern) = (cmpletter _ _ c).then (cmppattern _ _ pattern)
    rw [ih]
    congr 1
    by_cases hR : c = 'R'
    · subst hR
      rfl
    · by_cases hr : c = 'r'
      · subst hr
        rfl
      · have hc := h c List.mem_cons_self hR hr
        have hfst : cmpletter (withScore Prod.fst (p, a)) (withScore Prod.fst (q, b)) c = cmpletter p.1 q.1 c := by
          unfold cmpletter
          split <;> first | rfl | contradiction
        have hsnd : cmpletter (withScore Prod.snd (p, a)) (withScore Prod.snd (q, b)) c = cmpletter p.2 q.2 c := by
          unfold cmpletter
          split <;> first | rfl | contradiction
        rw [hfst, hsnd, hc]

theorem joinGroup_pairs (P : SortProc) (mode : GroupBySite) (n : ℕ)
    (hshown : ∀ p ∈ ps, shownOf p.1 = shownOf p.2) (h : ∀ p ∈ ps, ∀ q ∈ ps, SameCompare mode pattern p q) :
    ∃ (ms : List DocPair) (k : ℕ), joinGroup P mode ⟨ps.map Prod.fst, n⟩ = ⟨ms.map Prod.fst, k⟩ ∧
      joinGroup P mode ⟨ps.map Prod.snd, n⟩ = ⟨ms.map Prod.snd, k⟩ ∧ (∀ p ∈ ms, shownOf p.1 = shownOf p.2) ∧
      ∀ p ∈ ms, ∀ q ∈ ms, cmppattern p.1 q.1 pattern = cmppattern p.2 q.2 pattern := by
  have hurl : ∀ p ∈ ps, p.1.urlId = p.2.urlId := fun p hp => congrArg Prod.fst (hshown p hp)
  have hscore : ∀ p ∈ ps, p.1.score = p.2.score := fun p hp => congrArg (fun t => t.2.1) (hshown p hp)
  have hper : ∀ p ∈ ps, p.1.perSite = p.2.perSite := fun p hp => congrArg (fun t => t.2.2) (hshown p hp)
  cases mode with
  | no => exact ⟨ps, n, rfl, rfl, hshown, h⟩
  | yes =>
    obtain ⟨qs, hperm, hfst, hsnd⟩ := @sort_pairs P (fun D E => decide (bySite D E)) ps
      fun p hp q hq => decide_eq_decide.mpr (h p hp q hq).1
    have hsite : ∀ p q, p ∈ ps → q ∈ ps → (p.1.siteId = q.1.siteId ↔ p.2.siteId = q.2.siteId) :=
      fun p q hp hq => siteId_eq_iff (h p hp q hq).1 (h q hq p hp).1
    have hgroups : ∃ ms : List (DocPair × ℕ), (∀ m ∈ ms, m.1 ∈ ps) ∧
        udmURLDataGroupBySite (qs.map Prod.fst) = ms.map (withCount Prod.fst) ∧
        udmURLDataGroupBySite (qs.map Prod.snd) = ms.map (withCount Prod.snd) := by
      cases qs with
      | nil => exact ⟨[], by simp, rfl, rfl⟩
      | cons q qs =>
        have hq := hperm.subset List.mem_cons_self
        rw [List.map_cons, List.map_cons, udmURLDataGroupBySite, udmURLDataGroupBySite, ← hper q hq]
        exact groupLoop_pairs (· ∈ ps) hsite (fun p q hp hq => (h p hp q hq).2.1) hper q.1.perSite q qs hq
          fun r hr => hperm.subset (List.mem_cons_of_mem _ hr)
    obtain ⟨ms, hms, hgfst, hgsnd⟩ := hgroups
    refine ⟨ms.map fun m => (withCount Prod.fst m, withCount Prod.snd m), ms.length, ?_, ?_, ?_, ?_⟩
    · simp only [joinGroup, udmURLDataSortBySite, hfst, hgfst, List.length_map, List.map_map]
      rfl
    · simp only [joinGroup, udmURLDataSortBySite, hsnd, hgsnd, List.length_map, List.map_map]
      rfl
    · intro p hp
      obtain ⟨m, hm, rfl⟩ := List.mem_map.mp hp
      simp only [shownOf, withCount, hurl m.1 (hms m hm), hscore m.1 (hms m hm)]
    · intro p hp q hq
      obtain ⟨m, hm, rfl⟩ := List.mem_map.mp hp
      obtain ⟨k, hk, rfl⟩ := List.mem_map.mp hq
      exact (h m.1 (hms m hm) k.1 (hms k hk)).2.2
  | rank =>
    obtain ⟨qs, hperm, hfst, hsnd⟩ := @sort_pairs P (fun D E => decide (bySite D E)) ps
      fun p hp q hq => decide_eq_decide.mpr (h p hp q hq).1
    have hsite : ∀ p q, p ∈ ps → q ∈ ps → (p.1.siteId = q.1.siteId ↔ p.2.siteId = q.2.siteId) :=
      fun p q hp hq => siteId_eq_iff (h p hp q hq).1 (h q hq p hp).1
    obtain ⟨ms, hms, hrfst, hrsnd⟩ := rankLoop_pairs (· ∈ ps) hsite hscore qs (fun q hq => hperm.subset hq) 1 1
      (fun p hp => by rw [eq_comm, (h p hp p hp).2.1, eq_comm]) 1
    refine ⟨ms.map fun m => (withScore Prod.fst m, withScore Prod.snd m), n, ?_, ?_, ?_, ?_⟩
    · simp only [joinGroup, udmURLDataSortBySite, udmURLDataApplySiteRank, hfst, hrfst, List.map_map]
      rfl
    · simp only [joinGroup, udmURLDataSortBySite, udmURLDataApplySiteRank, hsnd, hrsnd, List.map_map]
      rfl
    · intro p hp
      obtain ⟨m, hm, rfl⟩ := List.mem_map.mp hp
      simp only [shownOf, withScore, hurl m.1 (hms m hm), hper m.1 (hms m hm)]
    · intro p hp q hq
      obtain ⟨m, hm, rfl⟩ := List.mem_map.mp hp
      obtain ⟨k, hk, rfl⟩ := List.mem_map.mp hq
      exact cmppattern_withScore (h m.1 (hms m hm) k.1 (hms k hk)).2.2 m.2 k.2

theorem map_shownOf_pairs (h : ∀ p ∈ ps, shownOf p.1 = shownOf p.2) :
    (ps.map Prod.snd).map shownOf = (ps.map Prod.fst).map shownOf := by
  rw [List.map_map, List.map_map]
  exact List.map_congr_left fun p hp => (h p hp).symm

/-- Where every two documents of the join compare alike, a cached list does as well as a computed one. -/
theorem interchangeable_of_agrees (P : SortProc) {mode : GroupBySite}
    (h : Agrees mode pattern rs) : Interchangeable P mode pattern rs := by
  have hshown : ∀ p ∈ docPairs rs, shownOf p.1 = shownOf p.2 := fun p hp => shownOf_docPairs hp
  simp only [Interchangeable, udmResultJoin, joinItems_computed, joinItems_result, totalFound_result, List.length_map]
  split
  · obtain ⟨ms, k, hfst, hsnd, hms, hcmp⟩ :=
      joinGroup_pairs P mode ((rs.map fun r => r.1.computed).map SearchResult.totalFound).sum hshown h
    rw [hfst, hsnd]
    simp only [List.length_map]
    split
    · obtain ⟨ks, hperm, hkfst, hksnd⟩ := sortByPattern_pairs P pattern hcmp
      simp only [SearchResult.shown]
      rw [hkfst, hksnd, map_shownOf_pairs fun p hp => hms p (hperm.subset hp)]
    · simp only [SearchResult.shown]
      rw [map_shownOf_pairs hms]
  · simp only [SearchResult.shown]
    rw [map_shownOf_pairs hshown]

/-! ## The configurations whose joins read nothing else -/

theorem agrees_of_scorePattern (hp : ScorePattern pattern) (rs : List (DbResult × Bool)) : Agrees .no pattern rs := by
  intro p hp' q hq'
  have hscore : ∀ p ∈ docPairs rs, p.1.score = p.2.score := fun p hp =>
    congrArg (fun t => t.2.1) (shownOf_docPairs hp)
  change cmppattern p.1 q.1 pattern = cmppattern p.2 q.2 pattern
  rw [cmppattern_eq hp, cmppattern_eq hp, hscore p hp', hscore q hq']

theorem exists_letter (hp : ¬ ScorePattern pattern) :
    ∃ c ∈ ['U', 'u', 'P', 'p', 'D', 'd', 'S', 's'], ∀ D E, D.score = E.score →
      ∃ rest, cmppattern D E pattern = (cmpletter D E c).then rest := by
  induction pattern with
  | nil => exact absurd (by simp [ScorePattern]) hp
  | cons c pattern ih =>
    by_cases hc : c ∈ ['U', 'u', 'P', 'p', 'D', 'd', 'S', 's']
    · exact ⟨c, hc, fun D E _ => ⟨cmppattern D E pattern, rfl⟩⟩
    · have hp' : ¬ ScorePattern pattern := by
        intro h
        refine hp fun d hd => ?_
        cases List.mem_cons.mp hd with
        | inl hdc => exact hdc ▸ hc
        | inr hd => exact h d hd
      obtain ⟨d, hd, hrest⟩ := ih hp'
      refine ⟨d, hd, fun D E hscore => ?_⟩
      obtain ⟨rest, hrest⟩ := hrest D E hscore
      refine ⟨rest, ?_⟩
      have heq : cmpletter D E c = .eq := by
        simp only [List.mem_cons, List.not_mem_nil, or_false, not_or] at hc
        unfold cmpletter
        split <;> first | rfl | simp_all
      change (cmpletter D E c).then (cmppattern D E pattern) = _
      rw [heq, ← hrest]
      rfl

theorem cmppattern_urlId (D : UdmUrlData) (urlId : ℤ) (pattern : List Char) :
    cmppattern { D with urlId := urlId } D pattern = .eq := by
  induction pattern with
  | nil => rfl
  | cons c pattern ih =>
    change (cmpletter { D with urlId := urlId } D c).then (cmppattern { D with urlId := urlId } D pattern) = .eq
    rw [ih]
    have hletter : cmpletter { D with urlId := urlId } D c = .eq := by
      unfold cmpletter
      split <;> simp
    rw [hletter]
    rfl

theorem shellSortByPattern_pair (D E : UdmUrlData) (pattern : List Char) :
    shellSortByPattern [D, E] pattern = if cmppattern E D pattern = .gt then [E, D] else [D, E] := by
  have hgaps : gaps [D, E].length = [1] := by
    change gaps 2 = [1]
    decide
  rw [shellSortByPattern, hgaps]
  by_cases h : cmppattern E D pattern = .gt
  · simp [Lib.ShellSort.sort, Lib.ShellSort.pass, Lib.ShellSort.sift, List.range_succ, h]
  · simp [Lib.ShellSort.sort, Lib.ShellSort.pass, Lib.ShellSort.sift, List.range_succ, h]

theorem sortByPattern_forward_pair (D E : UdmUrlData) (pattern : List Char) :
    udmURLDataSortByPattern (patternSorts .forward) [D, E] pattern =
      if cmppattern E D pattern = .gt then [E, D] else [D, E] := by
  rw [udmURLDataSortByPattern]
  by_cases hRP : pattern = ['R', 'P']
  · rw [if_pos hRP, hRP]
    refine (@SortProc.forward_sort_pair _ (fun a b => decide (PatternRP a b)) D E).trans ?_
    rw [← cmppatternRP_eq]
    by_cases h : cmppatternRP D E = .gt
    · rw [if_neg (by simp [PatternRP, h]), if_pos h]
    · rw [if_pos (by simp [PatternRP, h]), if_neg h]
  · by_cases hR : pattern = ['R']
    · rw [if_neg hRP, if_pos hR, hR]
      refine (@SortProc.forward_sort_pair _ (fun a b => decide (PatternR a b)) D E).trans ?_
      rw [← cmppatternR_eq]
      by_cases h : cmppatternR D E = .gt
      · rw [if_neg (by simp [PatternR, h]), if_pos h]
      · rw [if_pos (by simp [PatternR, h]), if_neg h]
    · rw [if_neg hRP, if_neg hR, shellSortByPattern_pair]

/-- A document that comes last by every capital letter but those of the texts. -/
def lowDoc : UdmUrlData := { emptyData with urlId := 1, score := 1, perSite := 1 }

/-- A document of the same score that differs in every other key. -/
def highDoc : UdmUrlData := ⟨2, 1, 1, 0, 1, 1, some "a", some "a"⟩

/-- A list of two documents. -/
def pairResult (D E : UdmUrlData) (hD : (-2 ^ 31 ≤ D.urlId ∧ D.urlId < 2 ^ 31) ∧ D.score < 2 ^ 32 ∧ D.perSite < 2 ^ 32)
    (hE : (-2 ^ 31 ≤ E.urlId ∧ E.urlId < 2 ^ 31) ∧ E.score < 2 ^ 32 ∧ E.perSite < 2 ^ 32) : DbResult where
  items := [D, E]
  totalFound := 2
  fits := by simpa using ⟨hD, hE⟩
  totalFound_lt := by decide

/-- A list of one document. -/
def oneResult (D : UdmUrlData) (hD : (-2 ^ 31 ≤ D.urlId ∧ D.urlId < 2 ^ 31) ∧ D.score < 2 ^ 32 ∧ D.perSite < 2 ^ 32) :
    DbResult where
  items := [D]
  totalFound := 1
  fits := by simpa using hD
  totalFound_lt := by decide

/-- A list with nothing. -/
def noResult : DbResult where
  items := []
  totalFound := 0
  fits := by simp
  totalFound_lt := by decide

theorem fits_lowDoc :
    (-2 ^ 31 ≤ lowDoc.urlId ∧ lowDoc.urlId < 2 ^ 31) ∧ lowDoc.score < 2 ^ 32 ∧ lowDoc.perSite < 2 ^ 32 := by
  decide

theorem fits_highDoc :
    (-2 ^ 31 ≤ highDoc.urlId ∧ highDoc.urlId < 2 ^ 31) ∧ highDoc.score < 2 ^ 32 ∧ highDoc.perSite < 2 ^ 32 := by
  decide

theorem cmpletter_low_high {c : Char} (hc : c ∈ ['U', 'u', 'P', 'p', 'D', 'd', 'S', 's']) :
    cmpletter (udmResultSetMachineNumber 0 lowDoc) (udmResultSetMachineNumber 0 highDoc) c = .gt ∨
      cmpletter (udmResultSetMachineNumber 0 highDoc) (udmResultSetMachineNumber 0 lowDoc) c = .gt := by
  simp only [List.mem_cons, List.not_mem_nil, or_false] at hc
  rcases hc with rfl | rfl | rfl | rfl | rfl | rfl | rfl | rfl <;> decide

theorem udmResultJoin_pair (pattern : List Char) (D E : UdmUrlData) (n : ℕ) :
    (udmResultJoin .forward .no pattern [⟨[D, E], n⟩, ⟨[], 0⟩]).items =
      udmURLDataSortByPattern (patternSorts .forward)
        [udmResultSetMachineNumber 0 D, udmResultSetMachineNumber 0 E] pattern := rfl

theorem not_interchangeable_of_gt {E : UdmUrlData}
    (hD : (-2 ^ 31 ≤ D.urlId ∧ D.urlId < 2 ^ 31) ∧ D.score < 2 ^ 32 ∧ D.perSite < 2 ^ 32)
    (hE : (-2 ^ 31 ≤ E.urlId ∧ E.urlId < 2 ^ 31) ∧ E.score < 2 ^ 32 ∧ E.perSite < 2 ^ 32)
    (hne : D.urlId ≠ E.urlId) (hscore : E.score = D.score) (hper : E.perSite = D.perSite)
    (hgt : cmppattern (udmResultSetMachineNumber 0 E) (udmResultSetMachineNumber 0 D) pattern = .gt) :
    ¬ Interchangeable .forward .no pattern [(pairResult D E hD hE, true), (noResult, false)] := by
  intro h
  have hitems := congrArg Prod.fst h
  simp only [SearchResult.shown, List.map_cons, List.map_nil, DbResult.result, fromCache_eq, if_pos] at hitems
  change ((udmResultJoin .forward .no pattern [⟨[asCached D, asCached E], 2⟩, ⟨[], 0⟩]).items).map shownOf =
    ((udmResultJoin .forward .no pattern [⟨[D, E], 2⟩, ⟨[], 0⟩]).items).map shownOf at hitems
  have heq : cmppattern (udmResultSetMachineNumber 0 (asCached E)) (udmResultSetMachineNumber 0 (asCached D)) pattern =
      .eq := by
    have hE' : udmResultSetMachineNumber 0 (asCached E) =
        { udmResultSetMachineNumber 0 (asCached D) with urlId := E.urlId } := by
      simp only [udmResultSetMachineNumber, asCached, hscore, hper]
    rw [hE', cmppattern_urlId]
  rw [udmResultJoin_pair, udmResultJoin_pair, sortByPattern_forward_pair, sortByPattern_forward_pair, heq, hgt,
    if_neg (by decide), if_pos rfl] at hitems
  injection hitems with hfirst _
  exact hne (congrArg Prod.fst hfirst)

/-- Two databases with a document each, of different sites, both lists from the cache. -/
def twoSites : List (DbResult × Bool) :=
  [(oneResult { lowDoc with siteId := 5, score := 8 } (by decide), true),
    (oneResult { highDoc with siteId := 6, score := 8 } (by decide), true)]

theorem udmResultJoin_perm (P : SortProc) (mode : GroupBySite) (pattern : List Char) {TmpRes : List SearchResult}
    (hn : TmpRes.length > 1) (hitems : (joinItems TmpRes).length > 0) :
    (udmResultJoin P mode pattern TmpRes).items.Perm
        (joinGroup P mode ⟨joinItems TmpRes, (TmpRes.map SearchResult.totalFound).sum⟩).items ∧
      (udmResultJoin P mode pattern TmpRes).totalFound =
        (joinGroup P mode ⟨joinItems TmpRes, (TmpRes.map SearchResult.totalFound).sum⟩).totalFound := by
  rw [udmResultJoin]
  dsimp only
  rw [if_pos ⟨hn, hitems⟩]
  split
  · exact ⟨perm_udmURLDataSortByPattern _ _ _, rfl⟩
  · exact ⟨List.Perm.refl _, rfl⟩

theorem not_interchangeable_yes (pattern : List Char) : ¬ Interchangeable .forward .yes pattern twoSites := by
  intro h
  have htotal := congrArg Prod.snd h
  change (udmResultJoin _ _ _ _).totalFound = (udmResultJoin _ _ _ _).totalFound at htotal
  rw [(udmResultJoin_perm _ _ _ (by decide) (by decide)).2, (udmResultJoin_perm _ _ _ (by decide) (by decide)).2] at htotal
  revert htotal
  decide +kernel

theorem not_interchangeable_rank (pattern : List Char) : ¬ Interchangeable .forward .rank pattern twoSites := by
  intro h
  have hitems := congrArg (fun t => (t.1.map fun s => s.2.1).sum) h
  simp only [SearchResult.shown, List.map_map] at hitems
  have hsum : ∀ TmpRes : List SearchResult, TmpRes.length > 1 → (joinItems TmpRes).length > 0 →
      ((udmResultJoin .forward .rank pattern TmpRes).items.map ((fun s => s.2.1) ∘ shownOf)).sum =
        ((udmURLDataApplySiteRank (udmURLDataSortBySite .forward (joinItems TmpRes))).map
          ((fun s => s.2.1) ∘ shownOf)).sum :=
    fun TmpRes hn hi => ((udmResultJoin_perm .forward .rank pattern hn hi).1.map _).sum_nat
  rw [hsum _ (by decide) (by decide), hsum _ (by decide) (by decide)] at hitems
  revert hitems
  decide +kernel

/-- **A list from the query cache joins as a computed one does, where every two documents of
the join compare alike without the fields that the cache drops. That is so of all lists exactly
without grouping by site and with a pattern of the score.** -/
theorem join_interchangeable (mode : GroupBySite) (pattern : List Char) :
    (∀ P rs, Agrees mode pattern rs → Interchangeable P mode pattern rs) ∧
      ((∀ P rs, 2 ≤ rs.length → Interchangeable P mode pattern rs) ↔ mode = .no ∧ ScorePattern pattern) := by
  refine ⟨fun P rs h => interchangeable_of_agrees P h, fun h => ?_, ?_⟩
  · cases mode with
    | yes => exact absurd (h .forward twoSites (by decide)) (not_interchangeable_yes pattern)
    | rank => exact absurd (h .forward twoSites (by decide)) (not_interchangeable_rank pattern)
    | no =>
      refine ⟨rfl, ?_⟩
      by_contra hp
      obtain ⟨c, hc, hrest⟩ := exists_letter hp
      cases cmpletter_low_high hc with
      | inl hgt =>
        obtain ⟨rest, hrest⟩ := hrest (udmResultSetMachineNumber 0 lowDoc) (udmResultSetMachineNumber 0 highDoc) rfl
        rw [hgt] at hrest
        exact not_interchangeable_of_gt fits_highDoc fits_lowDoc (by decide) rfl rfl hrest (h _ _ (by simp))
      | inr hgt =>
        obtain ⟨rest, hrest⟩ := hrest (udmResultSetMachineNumber 0 highDoc) (udmResultSetMachineNumber 0 lowDoc) rfl
        rw [hgt] at hrest
        exact not_interchangeable_of_gt fits_lowDoc fits_highDoc (by decide) rfl rfl hrest (h _ _ (by simp))
  · rintro ⟨rfl, hp⟩ P rs -
    exact interchangeable_of_agrees P (agrees_of_scorePattern hp rs)

/-- Not every configuration joins them alike: two sites become one. -/
theorem not_forall_interchangeable :
    ¬ ∀ P mode pattern rs, 2 ≤ rs.length → Interchangeable P mode pattern rs :=
  fun h => not_interchangeable_yes ['R'] (h .forward .yes ['R'] twoSites (by decide))

end MnoGoSearch.Result
