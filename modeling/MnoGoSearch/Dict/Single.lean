import MnoGoSearch.Words.SectionSize
import MnoGoSearch.Score.MultiWord
import MnoGoSearch.Blob.LiveIndex
import MnoGoSearch.Lib.RunSums

/-!
# Words in one table

In the mode `single` (`dbmode-single.c`) every occurrence of a word is a row of table `dict`, with the section and the
position in one number. The section lengths are rows like the others; a search takes the last coord of a section for
its length (`udmFindWordSingle_eq`), whatever words the coords are from.
-/

namespace MnoGoSearch.Dict

open Lib.Runs Lib.Sorting Words Score Limits Blob

/-! ### Words that are searched -/

/-- `args->Word.match`. -/
inductive WordMatch where
  | full
  | beginning
  | ending
  | substring
  deriving DecidableEq

/-- `args->Word`. -/
structure SearchWord where
  word : CString
  /-- How words are compared with it. -/
  wordMatch : WordMatch
  /-- The section to search in; 0 for all. -/
  secno : ℕ
  order : ℕ

/-- `args->cmparg`: the condition on the words of a table. -/
def SearchWord.cmparg (Word : SearchWord) (word : CString) : Bool :=
  match Word.wordMatch with
  | .full => word = Word.word
  | .beginning => Word.word.val <+: word.val
  | .ending => Word.word.val <:+ word.val
  | .substring => Word.word.val <:+: word.val

/-- The coords of a section are wanted. -/
def SearchWord.wants (wf : ℕ → ℕ) (Word : SearchWord) (secno : ℕ) : Bool :=
  wf secno ≠ 0 && (Word.secno = 0 || Word.secno = secno)

/-- `UdmApplyFastLimit`. -/
def udmApplyFastLimit (urls : UdmURLIdList) (CoordList : List UdmUrlCrd) : List UdmUrlCrd :=
  CoordList.filter fun C => udmURLIdListAllows urls C.urlId

/-! ### The table -/

/-- `UDM_WRDCOORD`. -/
def wrdCoord (pos : ℕ) (secno : UInt8) : ℕ := secno.toNat <<< 24 + pos

/-- `UDM_WRDSEC`. -/
def wrdSec (coord : ℕ) : ℕ := coord >>> 24

/-- `UDM_WRDPOS`. -/
def wrdPos (coord : ℕ) : ℕ := coord &&& 0x001FFFFF

/-- A row of table `dict`. The number `intag` is written and read with its 32 bits. -/
structure DictRow where
  word : CString
  urlId : ℤ
  /-- The section and the position. -/
  intag : ℕ

/-- The words of a document that are stored. -/
def storedWords (wlSort : QSort WlLe) (saveSectionSize : Bool) (d : DocWords) : List UdmWord :=
  (if saveSectionSize then udmWordListSaveSectionSize wlSort d else d.words).filter fun W => W.secno ≠ 0

/-- `StoreWordsSingle`. -/
def storeWordsSingle (wlSort : QSort WlLe) (saveSectionSize : Bool) (urlId : ℤ) (d : DocWords) : List DictRow :=
  (storedWords wlSort saveSectionSize d).map fun W => ⟨W.word, urlId, wrdCoord W.pos W.secno⟩

/-- A row as a coord. -/
def rowCoord (wf : ℕ → ℕ) (Word : SearchWord) (row : DictRow) : Option UdmUrlCrd :=
  let sec := wrdSec row.intag
  if Word.wants wf sec then some ⟨row.urlId, 0, wrdPos row.intag, Word.order &&& 0xFF, sec⟩ else none

/-- `UdmFindWordSingleInternal`. -/
def udmFindWordSingleInternal (crdSort : QSort CrdLe) (wf : ℕ → ℕ) (rows : List DictRow) (Word : SearchWord) :
    List UdmUrlCrd :=
  crdSort.sort ((rows.filter fun row => Word.cmparg row.word).filterMap (rowCoord wf Word))

/-- The loop over the sorted coords in `UdmFindWordSingle`, from `Crd` on. The coords of the section from `Prev` to
`To` are `group`; they get their length when the last coord of the section has come. -/
def seclenLoop (prevUrlId : ℤ) (prevSecno : ℕ) (group : List UdmUrlCrd) : List UdmUrlCrd → List UdmUrlCrd
  | [] => group
  | [Crd] => group.map fun C => { C with seclen := Crd.pos }
  | Crd :: Next :: rest =>
    if Next.urlId ≠ prevUrlId ∨ Next.secno ≠ prevSecno then
      (group.map fun C => { C with seclen := Crd.pos }) ++ seclenLoop Next.urlId Next.secno [] (Next :: rest)
    else seclenLoop prevUrlId prevSecno (group ++ [Crd]) (Next :: rest)

/-- `UdmFindWordSingle`. -/
def udmFindWordSingle (crdSort : QSort CrdLe) (saveSectionSize : Bool) (wf : ℕ → ℕ) (urls : UdmURLIdList)
    (rows : List DictRow) (Word : SearchWord) : List UdmUrlCrd :=
  let CoordList := udmFindWordSingleInternal crdSort wf rows Word
  udmApplyFastLimit urls <|
    match CoordList with
    | Crd :: _ => if saveSectionSize then seclenLoop Crd.urlId Crd.secno [] CoordList else CoordList
    | [] => []

/-! ### Sections -/

/-- The document and the section. -/
def crdSection (c : UdmUrlCrd) : ℤ ×ₗ ℕ := toLex (c.urlId, c.secno)

/-- The coords of a section without the last one, which has their length. -/
def closeSection (g : List UdmUrlCrd) : List UdmUrlCrd :=
  match g.getLast? with
  | none => []
  | some last => g.dropLast.map fun C => { C with seclen := last.pos }

theorem closeSection_concat (g : List UdmUrlCrd) (last : UdmUrlCrd) :
    closeSection (g ++ [last]) = g.map fun C => { C with seclen := last.pos } := by
  rw [closeSection, List.getLast?_concat, List.dropLast_concat]

theorem length_closeSection {g : List UdmUrlCrd} (h : g ≠ []) : (closeSection g).length + 1 = g.length := by
  obtain ⟨g, last, rfl⟩ := List.eq_nil_or_concat g |>.resolve_left h
  rw [List.concat_eq_append, closeSection_concat, List.length_map, List.length_append, List.length_singleton]

theorem crdSection_eq_iff (c d : UdmUrlCrd) : crdSection c = crdSection d ↔ c.urlId = d.urlId ∧ c.secno = d.secno := by
  simp [crdSection]

theorem seclenLoop_eq {C : UdmUrlCrd} {l g : List UdmUrlCrd} {gs : List (List UdmUrlCrd)}
    (hruns : runs crdSection (C :: l) = (C :: g) :: gs) (group : List UdmUrlCrd) :
    seclenLoop C.urlId C.secno group (C :: l) = closeSection (group ++ C :: g) ++ gs.flatMap closeSection := by
  induction l generalizing C g gs group with
  | nil =>
    simp only [runs, push, List.cons.injEq] at hruns
    obtain ⟨⟨-, rfl⟩, rfl⟩ := hruns
    rw [closeSection_concat, List.flatMap_nil, List.append_nil]
    rfl
  | cons Next l ih =>
    obtain ⟨g', gs', hnext⟩ := exists_runs_cons crdSection Next l
    have hNext := hnext Next rfl
    rw [runs, hNext, push] at hruns
    rw [seclenLoop]
    by_cases hkey : crdSection C = crdSection Next
    · -- the section goes on
      rw [if_pos hkey, List.cons.injEq, List.cons.injEq] at hruns
      obtain ⟨⟨-, rfl⟩, rfl⟩ := hruns
      obtain ⟨hurl, hsec⟩ := (crdSection_eq_iff C Next).mp hkey
      rw [if_neg (by rw [hurl, hsec]; simp), hurl, hsec, ih hNext, List.append_assoc]
      rfl
    · rw [if_neg hkey, List.cons.injEq, List.cons.injEq] at hruns
      obtain ⟨⟨-, rfl⟩, rfl⟩ := hruns
      have hne : Next.urlId ≠ C.urlId ∨ Next.secno ≠ C.secno := by
        rw [crdSection_eq_iff] at hkey
        tauto
      rw [if_pos hne, ih hNext, closeSection_concat, List.flatMap_cons, List.nil_append]

/-- **What a search finds**: the sections of the sorted coords, each without its last coord. -/
theorem udmFindWordSingle_eq (crdSort : QSort CrdLe) (saveSectionSize : Bool) (wf : ℕ → ℕ) (urls : UdmURLIdList)
    (rows : List DictRow) (Word : SearchWord) :
    udmFindWordSingle crdSort saveSectionSize wf urls rows Word =
      let CoordList := udmFindWordSingleInternal crdSort wf rows Word
      udmApplyFastLimit urls
        (if saveSectionSize then (runs crdSection CoordList).flatMap closeSection else CoordList) := by
  unfold udmFindWordSingle
  simp only
  cases hlist : udmFindWordSingleInternal crdSort wf rows Word with
  | nil => simp
  | cons Crd l =>
    obtain ⟨g, gs, hruns⟩ := exists_runs_cons crdSection Crd l
    simp only
    rw [seclenLoop_eq (hruns Crd rfl), hruns Crd rfl, List.nil_append, List.flatMap_cons]

/-! ### A number for a section and a position -/

theorem wrdSec_wrdCoord {pos : ℕ} (h : pos ≤ 0x1FFFFF) (secno : UInt8) : wrdSec (wrdCoord pos secno) = secno.toNat := by
  rw [wrdSec, wrdCoord, Nat.shiftRight_eq_div_pow, Nat.shiftLeft_eq]
  omega

theorem wrdPos_wrdCoord {pos : ℕ} (h : pos ≤ 0x1FFFFF) (secno : UInt8) : wrdPos (wrdCoord pos secno) = pos := by
  have hmask : wrdCoord pos secno &&& 0x001FFFFF = wrdCoord pos secno % 2 ^ 21 :=
    Nat.and_two_pow_sub_one_eq_mod _ 21
  rw [wrdPos, hmask, wrdCoord, Nat.shiftLeft_eq]
  omega

end MnoGoSearch.Dict
