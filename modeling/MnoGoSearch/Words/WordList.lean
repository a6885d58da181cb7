import MnoGoSearch.Lib.BinarySearch
import Mathlib

/-!
# Word lists

Strings as C has them and the word list of a document (`word.c`).
-/

namespace MnoGoSearch.Words

/-- Bytes are compared as numbers. -/
instance instLinearOrderUInt8 : LinearOrder UInt8 where
  le_refl := UInt8.le_refl
  le_trans _ _ _ := UInt8.le_trans
  le_antisymm _ _ := UInt8.le_antisymm
  le_total := UInt8.le_total
  lt_iff_le_not_ge a b := by simp [UInt8.lt_iff_toNat_lt, UInt8.le_iff_toNat_le]; omega
  toDecidableLE := inferInstance
  toDecidableLT := inferInstance
  toDecidableEq := inferInstance

instance instLawfulBEqUInt8 : LawfulBEq UInt8 := inferInstance

/-- The bytes of a string before its NUL. -/
abbrev CString := { s : List UInt8 // (0 : UInt8) ∉ s }

/-- The string that begins here. -/
def CString.take (s : List UInt8) : CString :=
  ⟨s.takeWhile (· ≠ 0), fun h => by simpa using List.mem_takeWhile_imp h⟩

/-- The bytes after the NUL of the string that begins here. -/
def CString.skip (s : List UInt8) : List UInt8 := (s.dropWhile (· ≠ 0)).drop 1

theorem zero_notMem_nil : (0 : UInt8) ∉ [] := by simp

theorem zero_notMem_a : (0 : UInt8) ∉ [0x61] := by decide

theorem zero_notMem_star : (0 : UInt8) ∉ [0x2A] := by decide

/-- A string without bytes. -/
def CString.empty : CString := ⟨[], zero_notMem_nil⟩

variable {s : List UInt8}

theorem takeWhile_append_zero (h : (0 : UInt8) ∉ s) (rest : List UInt8) :
    (s ++ 0 :: rest).takeWhile (· ≠ 0) = s := by
  rw [List.takeWhile_append_of_pos (fun b hb => by simpa using fun h0 : b = 0 => h (h0 ▸ hb))]
  simp

theorem dropWhile_append_zero (h : (0 : UInt8) ∉ s) (rest : List UInt8) :
    (s ++ 0 :: rest).dropWhile (· ≠ 0) = 0 :: rest := by
  rw [List.dropWhile_append_of_pos (fun b hb => by simpa using fun h0 : b = 0 => h (h0 ▸ hb))]
  simp

@[simp] theorem CString.take_append (w : CString) (rest : List UInt8) : CString.take (w.val ++ 0 :: rest) = w :=
  Subtype.ext (takeWhile_append_zero w.property rest)

@[simp] theorem CString.skip_append (w : CString) (rest : List UInt8) : CString.skip (w.val ++ 0 :: rest) = rest := by
  rw [CString.skip, dropWhile_append_zero w.property, List.drop_one, List.tail_cons]

@[simp] theorem CString.take_val (w : CString) : CString.take w.val = w :=
  Subtype.ext (List.takeWhile_eq_self_iff.mpr fun b hb => by simpa using fun h0 : b = 0 => w.property (h0 ▸ hb))

@[simp] theorem CString.skip_val (w : CString) : CString.skip w.val = [] := by
  have h : w.val.dropWhile (· ≠ 0) = [] :=
    List.dropWhile_eq_nil_iff.mpr fun b hb => by simpa using fun h0 : b = 0 => w.property (h0 ▸ hb)
  rw [CString.skip, h, List.drop_nil]

theorem CString.length_skip_lt (h : s ≠ []) : (CString.skip s).length < s.length := by
  have hle := (List.dropWhile_suffix (l := s) (· ≠ 0)).length_le
  have hpos := List.length_pos_iff.mpr h
  rw [CString.skip, List.length_drop]
  omega

/-- `strcmp`. -/
def strcmp (s1 s2 : CString) : Ordering := if s1 < s2 then .lt else if s1 = s2 then .eq else .gt

theorem strcmp_eq_lt {s1 s2 : CString} : strcmp s1 s2 = .lt ↔ s1 < s2 := by
  unfold strcmp
  split_ifs <;> simp_all

theorem strcmp_eq_eq {s1 s2 : CString} : strcmp s1 s2 = .eq ↔ s1 = s2 := by
  unfold strcmp
  split_ifs with hlt heq
  · simp [ne_of_lt hlt]
  · simp [heq]
  · simp [heq]

theorem strcmp_ne_gt {a b : CString} : strcmp a b ≠ .gt ↔ a ≤ b := by
  unfold strcmp
  split_ifs with hlt heq
  · simp [le_of_lt hlt]
  · simp [heq]
  · simpa using lt_of_le_of_ne (not_lt.mp hlt) (Ne.symm heq)

theorem searchable_strcmp {α : Type} {f : α → CString} (key : CString) {l : List α}
    (hl : l.Pairwise fun x y => f x ≤ f y) : Lib.BinarySearch.Searchable (fun w x => strcmp w (f x)) key l := by
  refine hl.imp fun {x y} hle => ⟨fun h => strcmp_eq_lt.mpr (lt_of_lt_of_le (strcmp_eq_lt.mp h) hle), fun h => ?_⟩
  by_contra hne
  exact absurd h (strcmp_ne_gt.mpr ((strcmp_ne_gt.mp hne).trans hle))

/-- `UDM_WORD`: a word of a document. -/
structure UdmWord where
  word : CString
  /-- Its position in the section. -/
  pos : ℕ
  secno : UInt8
  /-- `UdmWordListAddEx` adds no word at a larger position. -/
  pos_le : pos ≤ 0x1FFFFF

/-- `UdmWordListAddEx`: a word at a position that is too large is left out. -/
def udmWordListAddEx (words : List UdmWord) (word : CString) (secno : UInt8) (wordpos : ℕ) : List UdmWord :=
  if h : wordpos ≤ 0x1FFFFF then words ++ [⟨word, wordpos, secno, h⟩] else words

/-- The word and the section of an occurrence. -/
def UdmWord.key (w : UdmWord) : CString ×ₗ UInt8 := toLex (w.word, w.secno)

end MnoGoSearch.Words
