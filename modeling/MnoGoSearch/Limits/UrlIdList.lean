import MnoGoSearch.Lib.BinarySearch
import Mathlib.Order.Basic
import Mathlib.Data.Int.Order.Basic
import Mathlib.Data.List.Sort

/-!
# URL limits

The lists of url ids that restrict a search (`urlidlist.c`) and how two limits are merged.
A list either includes or excludes its members, and its flag `empty` says that a limit was
loaded and nothing satisfies it. A list without members and without the flag is what a
search starts with: no limit has been loaded yet, and the reader of the posting lists
applies none.

`admits_udmURLIdListMerge` is what merging computes: the first list is the limit collected
so far, the second one a limit just loaded.
-/

namespace MnoGoSearch.Limits

open Lib.BinarySearch

/-- `UDM_URLID_LIST`. -/
structure UdmURLIdList where
  /-- The limit has been loaded and nothing satisfies it. -/
  empty : Bool
  /-- The members are excluded, not included. -/
  exclude : Bool
  /-- The members; `nurls` is their number. -/
  urls : List ℤ
  deriving DecidableEq, Repr

/-- `UdmCmpURLID`. -/
def udmCmpURLID (s1 s2 : ℤ) : Ordering := compare s1 s2

/-- `UdmURLIdListJoin`: keep the ids that the second list lets through. -/
def udmURLIdListJoin (urls flUrls : UdmURLIdList) : UdmURLIdList :=
  let bfound := !flUrls.exclude
  let bnotfound := flUrls.exclude
  let kept := urls.urls.filter fun url =>
    if (bsearch udmCmpURLID url flUrls.urls).isSome then bfound else bnotfound
  { urls with urls := kept, empty := urls.empty || kept.isEmpty }

/-- `UdmURLIdListUnion`: append and sort again. -/
def udmURLIdListUnion (a b : UdmURLIdList) : UdmURLIdList :=
  if b.urls.isEmpty then a else { a with urls := (a.urls ++ b.urls).mergeSort (fun x y => decide (x ≤ y)) }

/-- `UdmURLIdListCopy`: the flag of `a` stays. -/
def udmURLIdListCopy (a b : UdmURLIdList) : UdmURLIdList :=
  { a with urls := b.urls, exclude := b.exclude }

/-- `UdmURLIdListMerge`. -/
def udmURLIdListMerge (a b : UdmURLIdList) : UdmURLIdList :=
  let a := if a.exclude && b.exclude then udmURLIdListUnion a b else a
  if !a.urls.isEmpty && !b.urls.isEmpty then udmURLIdListJoin a b
  else if a.urls.isEmpty && !b.urls.isEmpty then udmURLIdListCopy a b
  else if b.urls.isEmpty then
    if !b.exclude then { a with empty := true } else a
  else a

/-! ### What a list stands for -/

/-- Sorted and free of duplicates. -/
def Sorted (l : UdmURLIdList) : Prop := l.urls.Pairwise (· < ·)

/-- The ids that pass a list by its members. -/
def Passes (l : UdmURLIdList) (url : ℤ) : Prop := url ∈ l.urls ↔ l.exclude = false

/-- The ids that a collected limit admits: none when it is flagged, and all of them when it
has no members, for then no limit is applied. -/
def Admits (l : UdmURLIdList) (url : ℤ) : Prop := l.empty = false ∧ (l.urls = [] ∨ Passes l url)

variable {l a b : UdmURLIdList}

theorem not_admits (h : l.empty = true) (url : ℤ) : ¬ Admits l url := by
  intro hl
  exact Bool.false_ne_true (hl.1.symm.trans h)

theorem admits_of_urls_ne_nil (he : l.empty = false) (h : l.urls ≠ []) (url : ℤ) : Admits l url ↔ Passes l url := by
  simp [Admits, he, h]

theorem admits_of_urls_nil (he : l.empty = false) (h : l.urls = []) (url : ℤ) : Admits l url := ⟨he, Or.inl h⟩

/-! ### The operations -/

theorem bsearch_udmCmpURLID (h : Sorted l) (url : ℤ) :
    (bsearch udmCmpURLID url l.urls).isSome = true ↔ url ∈ l.urls := by
  have hs : Searchable udmCmpURLID url l.urls := searchable_compare url (h.imp fun h => le_of_lt h)
  rw [bsearch_isSome_iff udmCmpURLID hs]
  constructor
  · rintro ⟨x, hx, heq⟩
    rwa [compare_eq_iff_eq.mp heq]
  · exact fun hx => ⟨url, hx, compare_eq_iff_eq.mpr rfl⟩

theorem mem_udmURLIdListJoin (a : UdmURLIdList) (hb : Sorted b) (url : ℤ) :
    url ∈ (udmURLIdListJoin a b).urls ↔ url ∈ a.urls ∧ Passes b url := by
  have hfound := bsearch_udmCmpURLID hb url
  simp only [udmURLIdListJoin, List.mem_filter, Passes]
  cases hex : b.exclude <;> by_cases hmem : url ∈ b.urls <;> simp [hfound, hmem]

theorem sorted_udmURLIdListJoin (ha : Sorted a) (b : UdmURLIdList) : Sorted (udmURLIdListJoin a b) := ha.filter _

theorem empty_udmURLIdListJoin (a b : UdmURLIdList) :
    (udmURLIdListJoin a b).empty = (a.empty || (udmURLIdListJoin a b).urls.isEmpty) := rfl

theorem admits_udmURLIdListJoin (hb : Sorted b) (ha : a.urls ≠ []) (hincl : a.exclude = false) (url : ℤ) :
    Admits (udmURLIdListJoin a b) url ↔ Admits a url ∧ Passes b url := by
  have hmem := mem_udmURLIdListJoin a hb url
  have hflag := empty_udmURLIdListJoin a b
  have hex : (udmURLIdListJoin a b).exclude = false := hincl
  cases he : a.empty with
  | true =>
    have hj : (udmURLIdListJoin a b).empty = true := by rw [hflag, he, Bool.true_or]
    simp [not_admits hj, not_admits he]
  | false =>
    rw [admits_of_urls_ne_nil he ha, Passes, hincl]
    by_cases hnil : (udmURLIdListJoin a b).urls = []
    · -- nothing is left: the flag is set, and no id passes both lists
      have hj : (udmURLIdListJoin a b).empty = true := by rw [hflag, hnil, he]; rfl
      rw [hnil] at hmem
      simp only [List.not_mem_nil, false_iff] at hmem
      simp only [not_admits hj, iff_true, false_iff]
      exact hmem
    · have hj : (udmURLIdListJoin a b).empty = false := by
        rw [hflag, he, Bool.false_or, List.isEmpty_eq_false_iff]
        exact hnil
      rw [admits_of_urls_ne_nil hj hnil, Passes, hex]
      simpa using hmem

/-- **Merging two limits is their conjunction.** The first list is the limit collected so
far and the second one was loaded with its members only, its flag is not read. Not covered
are two exclude lists of which the second has members, and an exclude list with members
merged with an include list with members. -/
theorem admits_udmURLIdListMerge (a b : UdmURLIdList) (ha : Sorted a) (hb : Sorted b)
    (hexcl : a.exclude = true → b.exclude = true → b.urls = [])
    (hmixed : a.exclude = true → b.exclude = false → a.urls = [] ∨ b.urls = []) :
    Sorted (udmURLIdListMerge a b) ∧
      ∀ url, Admits (udmURLIdListMerge a b) url ↔ Admits a url ∧ Passes b url := by
  -- the union of two exclude lists only happens when the second has no members
  have hunion : (if a.exclude && b.exclude then udmURLIdListUnion a b else a) = a := by
    split
    · rename_i h
      rw [Bool.and_eq_true] at h
      simp [udmURLIdListUnion, hexcl h.1 h.2]
    · rfl
  rw [udmURLIdListMerge, hunion]
  by_cases hbn : b.urls = []
  · -- the second list has no members: it lets nothing through, or everything
    have hpass : ∀ url, Passes b url ↔ b.exclude = true := by
      intro url
      simp [Passes, hbn]
    cases hbe : b.exclude with
    | false =>
      have hflag : ∀ url, ¬ Admits { a with empty := true } url := fun url => not_admits rfl url
      simp only [hbn, List.isEmpty_nil, Bool.not_true, Bool.and_false, Bool.false_eq_true, if_false, if_true,
        Bool.not_false]
      exact ⟨ha, fun url => by simp [hflag url, hpass url, hbe]⟩
    | true =>
      simp only [hbn, List.isEmpty_nil, Bool.not_true, Bool.and_false, Bool.false_eq_true, if_false, if_true]
      exact ⟨ha, fun url => by simp [hpass url, hbe]⟩
  · have hbn' : b.urls.isEmpty = false := List.isEmpty_eq_false_iff.mpr hbn
    by_cases han : a.urls = []
    · -- no members so far: the second list is taken over
      simp only [han, hbn', List.isEmpty_nil, Bool.not_true, Bool.not_false, Bool.false_and, Bool.and_self,
        Bool.false_eq_true, if_false, if_true]
      refine ⟨hb, fun url => ?_⟩
      cases he : a.empty with
      | true =>
        have hcopy : (udmURLIdListCopy a b).empty = true := he
        simp [not_admits hcopy, not_admits he]
      | false =>
        rw [admits_of_urls_ne_nil (l := udmURLIdListCopy a b) he hbn]
        simp [admits_of_urls_nil he han, Passes, udmURLIdListCopy]
    · -- both have members: the first one is an include list
      have han' : a.urls.isEmpty = false := List.isEmpty_eq_false_iff.mpr han
      have hincl : a.exclude = false := by
        by_contra hex
        rw [Bool.not_eq_false] at hex
        cases hbe : b.exclude with
        | true => exact hbn (hexcl hex hbe)
        | false => exact (hmixed hex hbe).elim han hbn
      simp only [han', hbn', Bool.not_false, Bool.and_self, if_true]
      exact ⟨sorted_udmURLIdListJoin ha b, fun url => admits_udmURLIdListJoin hb han hincl url⟩

/-- An include list of three ids merged with an exclude list of one of them. -/
theorem admits_udmURLIdListMerge_include_exclude :
    Sorted (udmURLIdListMerge ⟨false, false, [2, 5, 9]⟩ ⟨false, true, [5, 7]⟩) ∧
      ∀ url, Admits (udmURLIdListMerge ⟨false, false, [2, 5, 9]⟩ ⟨false, true, [5, 7]⟩) url ↔
        Admits ⟨false, false, [2, 5, 9]⟩ url ∧ Passes ⟨false, true, [5, 7]⟩ url :=
  admits_udmURLIdListMerge ⟨false, false, [2, 5, 9]⟩ ⟨false, true, [5, 7]⟩ (by simp [Sorted]) (by simp [Sorted])
    (by simp) (by simp)

/-- A first list without members and without the flag admits no id by its members, but
merging takes it for no limit: merged with the include list of `1` it admits `1`. -/
theorem udmURLIdListMerge_no_limit :
    ¬ ∀ a b : UdmURLIdList, Sorted a → Sorted b →
      Sorted (udmURLIdListMerge a b) ∧
        ∀ url, ((udmURLIdListMerge a b).empty = false ∧ Passes (udmURLIdListMerge a b) url) ↔
          (a.empty = false ∧ Passes a url) ∧ (b.empty = false ∧ Passes b url) := by
  intro h
  have h1 := (h ⟨false, false, []⟩ ⟨false, false, [1]⟩ (by simp [Sorted]) (by simp [Sorted])).2 1
  revert h1
  simp [udmURLIdListMerge, udmURLIdListCopy, Passes]

end MnoGoSearch.Limits
