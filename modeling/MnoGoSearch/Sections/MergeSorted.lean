import MnoGoSearch.Lib.SortProcedure
import MnoGoSearch.Lib.Tapes
import Mathlib.Data.Prod.Lex

/-!
# Merging section lists

`UdmSectionListListMergeSorted` (`section.c`) merges the section lists of the words of a query. The
lists are taken with the longest one first; from the first short one on they are merged into one list
before. `merged_udmSectionListListMergeSorted` says that the sections come out in order, every one once.
-/

namespace MnoGoSearch.Sections

open Lib.Sorting Lib.Tapes

/-- `UDM_SECTION`, with what the merge does not look at in `data`. -/
structure UdmSection (α : Type) where
  urlId : ℤ
  secno : ℕ
  /-- The coords, the word and the other fields. -/
  data : α
  deriving DecidableEq

variable {α : Type} {opt : Bool}

/-- The records of a `UDM_SECTIONLIST`. -/
abbrev SectionList (α : Type) := List (UdmSection α)

/-- The comparison of two current records: the smaller document, and in a document the smaller section. -/
def isSmaller (s1 s2 : UdmSection α) : Bool :=
  decide (s1.urlId < s2.urlId) || (s1.urlId == s2.urlId && decide (s1.secno < s2.secno))

/-- `cmp_section_list_by_nsections_rev`. -/
def cmpSectionListByNsectionsRev (s1 s2 : SectionList α) : ℤ :=
  if s1.length > s2.length then -1 else if s1.length < s2.length then 1 else 0

/-- Install the tapes of the lists from the number `list` on. `n0` is the length of the first list; with `opt` the lists
from a short one on are merged into one tape by `short`. -/
def fillTapes (opt : Bool) (short : List (SectionList α) → SectionList α) (n0 : ℕ) :
    ℕ → List (SectionList α) → List (Tape (UdmSection α))
  | _, [] => []
  | list, item :: items =>
    match ofList item with
    | none => fillTapes opt short n0 (list + 1) items
    | some t =>
      if opt = true ∧ 2 < list ∧ item.length < n0 / 10 then (ofList (short (item :: items))).toList
      else t :: fillTapes opt short n0 (list + 1) items

/-- The body of `UdmSectionListListMergeSorted`, with `short` for the call of itself. -/
def mergeSorted (P : SortProc) (short : List (SectionList α) → SectionList α) (opt : Bool)
    (SrcList : List (SectionList α)) : SectionList α :=
  let items := P.sort (fun s1 s2 => decide (cmpSectionListByNsectionsRev s1 s2 ≤ 0)) SrcList
  mergeTapes isSmaller (fillTapes opt short (items.headD []).length 0 items)

/-- `UdmSectionListListMergeSorted` from the label `old` on, with `P` for `UdmSort`. The call of itself is without
`opt`, and makes no further call. -/
def udmSectionListListMergeSorted (P : SortProc) (opt : Bool) (SrcList : List (SectionList α)) : SectionList α :=
  mergeSorted P (mergeSorted P (fun _ => []) false) opt SrcList

/-! ## The order -/

/-- The order of the records. -/
def key (s : UdmSection α) : ℤ ×ₗ ℕ := toLex (s.urlId, s.secno)

/-- The records are in order. -/
def InOrder (l : SectionList α) : Prop := l.Pairwise fun a b => key a ≤ key b

/-- What a merge must yield: every record once, in order. -/
structure Merged (SrcList : List (SectionList α)) (Dst : SectionList α) : Prop where
  perm : Dst.Perm SrcList.flatten
  inOrder : InOrder Dst

theorem isSmaller_eq (s1 s2 : UdmSection α) : isSmaller s1 s2 = decide (key s1 < key s2) := by
  rw [Bool.eq_iff_iff, decide_eq_true_eq, key, key, Prod.Lex.toLex_lt_toLex, isSmaller]
  simp only [Bool.or_eq_true, Bool.and_eq_true, decide_eq_true_eq, beq_iff_eq]

/-! ## The tapes -/

theorem content_cons (t : Tape (UdmSection α)) (ts : List (Tape (UdmSection α))) :
    content (t :: ts) = t.toList ++ content ts := List.flatMap_cons

variable {short : List (SectionList α) → SectionList α} {SrcList : List (SectionList α)}

theorem perm_fillTapes
    (hshort : opt = true → ∀ items, (short items).Perm items.flatten) (n0 list : ℕ) (items : List (SectionList α)) :
    (content (fillTapes opt short n0 list items)).Perm items.flatten := by
  induction items generalizing list with
  | nil => exact List.Perm.refl _
  | cons item items ih =>
    rw [fillTapes]
    cases hitem : ofList item with
    | none =>
      rw [List.flatten_cons, eq_nil_of_ofList hitem]
      exact ih (list + 1)
    | some t =>
      dsimp only
      split_ifs with hcut
      · rw [content_ofList]
        exact hshort hcut.1 _
      · rw [content_cons, toList_of_ofList hitem, List.flatten_cons]
        exact (ih (list + 1)).append_left item

theorem sorted_fillTapes {items : List (SectionList α)} (hitems : ∀ item ∈ items, InOrder item)
    (hshort : opt = true → ∀ items : List (SectionList α), (∀ item ∈ items, InOrder item) → InOrder (short items))
    (n0 list : ℕ) : Sorted key (fillTapes opt short n0 list items) := by
  induction items generalizing list with
  | nil => exact fun t ht => absurd ht List.not_mem_nil
  | cons item items ih =>
    have ih := ih (fun i hi => hitems i (List.mem_cons_of_mem item hi)) (list + 1)
    rw [fillTapes]
    cases hitem : ofList item with
    | none => exact ih
    | some t =>
      dsimp only
      split_ifs with hcut
      · intro u hu
        rw [toList_of_ofList (Option.mem_toList.mp hu)]
        exact hshort hcut.1 _ hitems
      · refine List.forall_mem_cons.mpr ⟨?_, ih⟩
        rw [toList_of_ofList hitem]
        exact hitems item List.mem_cons_self

/-! ## The merge -/

theorem perm_mergeSorted (P : SortProc)
    (hshort : opt = true → ∀ items, (short items).Perm items.flatten) (SrcList : List (SectionList α)) :
    (mergeSorted P short opt SrcList).Perm SrcList.flatten :=
  (perm_mergeTapes isSmaller _).trans ((perm_fillTapes hshort _ _ _).trans (P.perm_sort _ SrcList).flatten)

theorem inOrder_mergeSorted (P : SortProc)
    (hshort : opt = true → ∀ items : List (SectionList α), (∀ item ∈ items, InOrder item) → InOrder (short items))
    (hsrc : ∀ item ∈ SrcList, InOrder item) : InOrder (mergeSorted P short opt SrcList) :=
  pairwise_mergeTapes isSmaller_eq
    (sorted_fillTapes (fun item hitem => hsrc item ((P.perm_sort _ SrcList).mem_iff.mp hitem)) hshort _ _)

theorem perm_udmSectionListListMergeSorted (P : SortProc) (opt : Bool) (SrcList : List (SectionList α)) :
    (udmSectionListListMergeSorted P opt SrcList).Perm SrcList.flatten :=
  perm_mergeSorted P (fun _ => perm_mergeSorted P fun h => absurd h Bool.false_ne_true) SrcList

theorem inOrder_udmSectionListListMergeSorted (P : SortProc) (opt : Bool)
    (hsrc : ∀ item ∈ SrcList, InOrder item) : InOrder (udmSectionListListMergeSorted P opt SrcList) :=
  inOrder_mergeSorted P (fun _ _ hitems => inOrder_mergeSorted P (fun h => absurd h Bool.false_ne_true) hitems) hsrc

/-- **The merge** yields every section of every list once, in the order of the documents and sections. -/
theorem merged_udmSectionListListMergeSorted (P : SortProc) (opt : Bool) {SrcList : List (SectionList α)}
    (hsrc : ∀ item ∈ SrcList, InOrder item) : Merged SrcList (udmSectionListListMergeSorted P opt SrcList) :=
  ⟨perm_udmSectionListListMergeSorted P opt SrcList, inOrder_udmSectionListListMergeSorted P opt hsrc⟩

theorem merged_udmSectionListListMergeSorted_two :
    Merged [[⟨1, 1, ()⟩, ⟨2, 1, ()⟩], [], [⟨1, 1, ()⟩]]
      (udmSectionListListMergeSorted .forward true [[⟨1, 1, ()⟩, ⟨2, 1, ()⟩], [], [⟨1, 1, ()⟩]]) :=
  merged_udmSectionListListMergeSorted .forward true (by simp [InOrder, key, Prod.Lex.toLex_le_toLex])

end MnoGoSearch.Sections
