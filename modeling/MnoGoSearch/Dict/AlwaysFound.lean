import MnoGoSearch.Blob.Unpack
import MnoGoSearch.Dict.Single

/-!
# The word that is always found

A search for `AlwaysFoundWord` (`sql.c`) finds the documents of table `url` without looking into the postings: the
rows are selected, and the limit is applied to them. Without a condition in the query it takes the members of the
limit instead of the rows, whatever kind of list they are. `searchRight_iff` says when the limit is obeyed.
-/

namespace MnoGoSearch.Dict

open Lib.Runs Lib.BinarySearch Limits Score Blob

/-- `UDM_FINDWORD_ARGS`, what this search reads of it. -/
structure FindWordArgs where
  /-- `args->where`; `none` is the empty string. -/
  cond : Option (ℤ → Bool)
  /-- `args->urls`: the limits, merged. -/
  urls : UdmURLIdList
  /-- `args->Word.order`. -/
  wordnum : ℕ
  /-- The orders of the words in `args->WWList`. -/
  orders : List ℕ

/-- `UdmAddOneCoord`. -/
def udmAddOneCoord (urlId : ℤ) (coord num : ℕ) : UdmUrlCrd := ⟨urlId, 0, wrdPos coord, num, wrdSec coord⟩

/-- The section of some coords. -/
def crdListSection (order : ℕ) : List UdmUrlCrd → Option UdmSection
  | [] => none
  | CrdFrom :: l =>
    some
      { coord := (CrdFrom :: l).map UdmUrlCrd.pos
        urlId := CrdFrom.urlId
        seclen := CrdFrom.seclen
        minpos := CrdFrom.pos
        maxpos := (l.getLastD CrdFrom).pos
        secno := UInt8.ofNat CrdFrom.secno
        wordnum := CrdFrom.num
        order := order }

/-- `UdmURLCRDListToSectionList`. -/
def udmURLCRDListToSectionList (order : ℕ) (CoordList : List UdmUrlCrd) : List UdmSection :=
  (runs crdSection CoordList).filterMap (crdListSection order)

/-- `UdmURLCRDListListAddWithSort2`. -/
def udmURLCRDListListAddWithSort2 (args : FindWordArgs) (CoordList : List UdmUrlCrd) : List UdmSection :=
  udmURLCRDListToSectionList (args.orders.getD args.wordnum 0) CoordList

/-- `SELECT url.rec_id FROM url`, with `WHERE` or without. -/
def selectRecId (table : List ℤ) : Option (ℤ → Bool) → List ℤ
  | none => table
  | some cond => table.filter cond

/-- The coord that stands for a document. -/
def FindWordArgs.coordOf (args : FindWordArgs) (urlId : ℤ) : UdmUrlCrd :=
  udmAddOneCoord urlId 0x00010100 (args.wordnum &&& 0xFF)

/-- `UdmFindAlwaysFoundWordSQL`. -/
def udmFindAlwaysFoundWordSQL (table : List ℤ) (args : FindWordArgs) : List UdmSection :=
  if args.cond.isNone ∧ args.urls.urls ≠ [] then
    udmURLCRDListListAddWithSort2 args (args.urls.urls.map args.coordOf)
  else
    let CoordList := (selectRecId table args.cond).map args.coordOf
    udmURLCRDListListAddWithSort2 args
      (if args.urls.urls ≠ [] then udmApplyFastLimit args.urls CoordList else CoordList)

/-- `UdmFindWordsSQL` with this word in the query: nothing is searched when nothing satisfies the limit. -/
def udmFindWordsSQL (table : List ℤ) (args : FindWordArgs) : List UdmSection :=
  if args.urls.empty then [] else udmFindAlwaysFoundWordSQL table args

/-- The documents of the table that the query and its limit admit have been found, each once. -/
structure SearchRight (table : List ℤ) (args : FindWordArgs) (found : List UdmSection) : Prop where
  /-- Each document has one section. -/
  once : (found.map UdmSection.urlId).Nodup
  /-- They are the ones that are admitted. -/
  exact : ∀ id, id ∈ found.map UdmSection.urlId ↔
    id ∈ table ∧ (∀ cond ∈ args.cond, cond id = true) ∧ Admits args.urls id

/-! ### Sections of coords -/

@[simp] theorem urlId_coordOf (args : FindWordArgs) (urlId : ℤ) : (args.coordOf urlId).urlId = urlId := rfl

theorem crdSection_coordOf (args : FindWordArgs) (urlId : ℤ) :
    crdSection (args.coordOf urlId) = toLex (urlId, wrdSec 0x00010100) := rfl

theorem mem_urlId_sectionList (order : ℕ) (l : List UdmUrlCrd) (id : ℤ) :
    id ∈ (udmURLCRDListToSectionList order l).map UdmSection.urlId ↔ id ∈ l.map UdmUrlCrd.urlId := by
  simp only [udmURLCRDListToSectionList, List.mem_map, List.mem_filterMap]
  constructor
  · rintro ⟨S, ⟨g, hg, hS⟩, rfl⟩
    rcases g with _ | ⟨C, g⟩
    · cases hS
    · obtain rfl := Option.some.inj hS
      refine ⟨C, ?_, rfl⟩
      rw [← flatten_runs crdSection l]
      exact List.mem_flatten.mpr ⟨_, hg, List.mem_cons_self⟩
  · rintro ⟨C, hC, rfl⟩
    rw [← flatten_runs crdSection l] at hC
    obtain ⟨g, hg, hCg⟩ := List.mem_flatten.mp hC
    rcases g with _ | ⟨D, g⟩
    · exact absurd hCg List.not_mem_nil
    · refine ⟨_, ⟨_, hg, rfl⟩, ?_⟩
      exact ((crdSection_eq_iff D C).mp (key_eq_of_mem_runs crdSection hg List.mem_cons_self hCg)).1

theorem nodup_urlId_sections {order secno : ℕ} {gs : List (List UdmUrlCrd)} (hsec : ∀ g ∈ gs, ∀ C ∈ g, C.secno = secno)
    (hkeys : gs.Pairwise fun g g' => ∀ C ∈ g, ∀ D ∈ g', crdSection C ≠ crdSection D) :
    ((gs.filterMap (crdListSection order)).map UdmSection.urlId).Nodup := by
  rw [List.Nodup, List.pairwise_map, List.pairwise_filterMap]
  refine hkeys.imp_of_mem ?_
  intro g g' hg hg' hne S hS S' hS' heq
  rcases g with _ | ⟨C, g⟩
  · cases hS
  rcases g' with _ | ⟨D, g'⟩
  · cases hS'
  obtain rfl := Option.some.inj hS
  obtain rfl := Option.some.inj hS'
  refine hne C List.mem_cons_self D List.mem_cons_self ((crdSection_eq_iff C D).mpr ⟨heq, ?_⟩)
  exact (hsec _ hg C List.mem_cons_self).trans (hsec _ hg' D List.mem_cons_self).symm

variable {args : FindWordArgs} {urls : List ℤ}

theorem nodup_sectionList_of_pairwise (order : ℕ) (h : urls.Pairwise (· ≤ ·)) :
    ((udmURLCRDListToSectionList order (urls.map args.coordOf)).map UdmSection.urlId).Nodup := by
  have hsorted : (urls.map args.coordOf).Pairwise fun C D => crdSection C ≤ crdSection D := by
    rw [List.pairwise_map]
    refine h.imp fun hle => ?_
    rw [crdSection_coordOf, crdSection_coordOf, Prod.Lex.toLex_le_toLex]
    rcases hle.lt_or_eq with hlt | heq
    · exact Or.inl hlt
    · exact Or.inr ⟨heq, le_rfl⟩
  refine @nodup_urlId_sections _ (wrdSec 0x00010100) _ ?_ ?_
  · intro g hg C hC
    have hmem : C ∈ urls.map args.coordOf := by
      rw [← flatten_runs crdSection (urls.map args.coordOf)]
      exact List.mem_flatten.mpr ⟨g, hg, hC⟩
    obtain ⟨id, -, rfl⟩ := List.mem_map.mp hmem
    rfl
  · exact (pairwise_runs crdSection hsorted).imp fun hlt C hC D hD => (hlt C hC D hD).ne

theorem nodup_sectionList_of_nodup (order : ℕ) (h : urls.Nodup) :
    ((udmURLCRDListToSectionList order (urls.map args.coordOf)).map UdmSection.urlId).Nodup := by
  have hruns : runs crdSection (urls.map args.coordOf) = (urls.map args.coordOf).map fun C => [C] := by
    have hflat : ((urls.map args.coordOf).map fun C => [C]).flatten = urls.map args.coordOf := by
      rw [← List.flatMap_def, List.flatMap_singleton']
    have hother : ((urls.map args.coordOf).map fun C => [C]).Pairwise fun g g' =>
        ∀ C ∈ g, ∀ D ∈ g', crdSection C ≠ crdSection D := by
      rw [List.pairwise_map, List.pairwise_map]
      refine h.imp fun hne C hC D hD heq => hne ?_
      rw [List.mem_singleton.mp hC, List.mem_singleton.mp hD] at heq
      exact ((crdSection_eq_iff _ _).mp heq).1
    rw [← runs_flatten crdSection (by simp) (by simp) hother, hflat]
  rw [udmURLCRDListToSectionList, hruns]
  refine @nodup_urlId_sections _ (wrdSec 0x00010100) _ ?_ ?_
  · intro g hg C hC
    obtain ⟨D, hD, rfl⟩ := List.mem_map.mp hg
    obtain ⟨id, -, rfl⟩ := List.mem_map.mp hD
    rw [List.mem_singleton.mp hC]
    rfl
  · rw [List.pairwise_map, List.pairwise_map]
    refine h.imp fun hne C hC D hD heq => hne ?_
    rw [List.mem_singleton.mp hC, List.mem_singleton.mp hD] at heq
    exact ((crdSection_eq_iff _ _).mp heq).1

/-! ### The limit -/

theorem mem_udmApplyFastLimit {urls : UdmURLIdList} (hurls : urls.urls.Pairwise (· ≤ ·)) (hne : urls.urls ≠ [])
    (CoordList : List UdmUrlCrd) (C : UdmUrlCrd) :
    C ∈ udmApplyFastLimit urls CoordList ↔ C ∈ CoordList ∧ Passes urls C.urlId := by
  have hfound : (bsearch udmCmpURLID C.urlId urls.urls).isSome = true ↔ C.urlId ∈ urls.urls := by
    have hs : Searchable udmCmpURLID C.urlId urls.urls := searchable_compare C.urlId hurls
    rw [bsearch_isSome_iff udmCmpURLID hs]
    exact ⟨fun ⟨x, hx, heq⟩ => by rwa [compare_eq_iff_eq.mp heq], fun hx => ⟨_, hx, compare_eq_iff_eq.mpr rfl⟩⟩
  rw [udmApplyFastLimit, List.mem_filter, udmURLIdListAllows, if_neg (by simpa using hne), Passes]
  cases hex : urls.exclude <;> by_cases hmem : C.urlId ∈ urls.urls <;> simp [hfound, hmem]

theorem mem_selectRecId (table : List ℤ) (cond : Option (ℤ → Bool)) (id : ℤ) :
    id ∈ selectRecId table cond ↔ id ∈ table ∧ ∀ c ∈ cond, c id = true := by
  cases cond <;> simp [selectRecId]

theorem nodup_selectRecId {table : List ℤ} (h : table.Nodup) (cond : Option (ℤ → Bool)) :
    (selectRecId table cond).Nodup := by
  cases cond
  · exact h
  · exact h.filter _

/-! ### The search -/

section Search

variable {table : List ℤ} {args : FindWordArgs}

theorem searchRight_of_rows (htable : table.Nodup) (hurls : args.urls.urls.Pairwise (· ≤ ·))
    (hempty : args.urls.empty = false) (hrows : ¬ (args.cond.isNone ∧ args.urls.urls ≠ [])) :
    SearchRight table args (udmFindAlwaysFoundWordSQL table args) := by
  have hnodup := nodup_selectRecId htable args.cond
  have hmem : ∀ id, id ∈ ((selectRecId table args.cond).map args.coordOf).map UdmUrlCrd.urlId ↔
      id ∈ table ∧ ∀ cond ∈ args.cond, cond id = true := by
    intro id
    rw [← mem_selectRecId]
    simp
  rw [udmFindAlwaysFoundWordSQL, if_neg hrows]
  dsimp only
  by_cases hne : args.urls.urls = []
  · -- there is no limit: the rows are all found
    rw [if_neg (not_not.mpr hne)]
    refine ⟨nodup_sectionList_of_nodup _ hnodup, fun id => ?_⟩
    rw [udmURLCRDListListAddWithSort2, mem_urlId_sectionList, hmem]
    exact ⟨fun h => ⟨h.1, h.2, admits_of_urls_nil hempty hne id⟩, fun h => ⟨h.1, h.2.1⟩⟩
  · rw [if_pos hne]
    have hkept : udmApplyFastLimit args.urls ((selectRecId table args.cond).map args.coordOf) =
        ((selectRecId table args.cond).filter fun id => udmURLIdListAllows args.urls id).map args.coordOf := by
      rw [udmApplyFastLimit, List.filter_map]
      rfl
    refine ⟨?_, fun id => ?_⟩
    · rw [hkept]
      exact nodup_sectionList_of_nodup _ (hnodup.filter _)
    · rw [udmURLCRDListListAddWithSort2, mem_urlId_sectionList, admits_of_urls_ne_nil hempty hne, ← and_assoc, ← hmem]
      simp only [List.mem_map, mem_udmApplyFastLimit hurls hne]
      exact ⟨fun ⟨C, ⟨hC, hpass⟩, hid⟩ => ⟨⟨C, hC, hid⟩, hid ▸ hpass⟩,
        fun ⟨⟨C, hC, hid⟩, hpass⟩ => ⟨C, ⟨hC, hid ▸ hpass⟩, hid⟩⟩

theorem searchRight_of_members (hurls : args.urls.urls.Pairwise (· ≤ ·)) (hempty : args.urls.empty = false)
    (hcond : args.cond = none) (hne : args.urls.urls ≠ []) :
    SearchRight table args (udmFindAlwaysFoundWordSQL table args) ↔
      args.urls.exclude = false ∧ ∀ id ∈ args.urls.urls, id ∈ table := by
  have hfound : ∀ id, id ∈ (udmFindAlwaysFoundWordSQL table args).map UdmSection.urlId ↔ id ∈ args.urls.urls := by
    intro id
    rw [udmFindAlwaysFoundWordSQL, if_pos ⟨by rw [hcond]; rfl, hne⟩, udmURLCRDListListAddWithSort2,
      mem_urlId_sectionList]
    simp
  constructor
  · intro h
    have hpass : ∀ id ∈ args.urls.urls, id ∈ table ∧ Passes args.urls id := by
      intro id hid
      obtain ⟨htable, -, hpass⟩ := (h.exact id).mp ((hfound id).mpr hid)
      exact ⟨htable, (admits_of_urls_ne_nil hempty hne id).mp hpass⟩
    obtain ⟨id, hid⟩ := List.exists_mem_of_ne_nil _ hne
    exact ⟨(hpass id hid).2.mp hid, fun id hid => (hpass id hid).1⟩
  · rintro ⟨hinclude, htable⟩
    refine ⟨?_, fun id => ?_⟩
    · rw [udmFindAlwaysFoundWordSQL, if_pos ⟨by rw [hcond]; rfl, hne⟩]
      exact nodup_sectionList_of_pairwise _ hurls
    · rw [hfound, admits_of_urls_ne_nil hempty hne, Passes, hcond]
      simp only [hinclude, iff_true]
      exact ⟨fun hid => ⟨htable id hid, by rintro _ ⟨⟩, hid⟩, fun h => h.2.2⟩

end Search

end MnoGoSearch.Dict
