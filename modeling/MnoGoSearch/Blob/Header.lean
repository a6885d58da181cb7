import MnoGoSearch.Blob.Formats
import Mathlib

/-!
# The header of a stored value

A value of table `bdict` may begin with the bytes FF FF FF FF and the number of its type of
compression (`dbmode-blob.c`): four bytes for the types of `UdmBlobModeInflateOrSelf`, two for the
formats of posting lists. The reader of posting lists takes a header for six bytes only if the two
bytes behind it are not both zero. `recognised_iff` says which values are recognised.
-/

namespace MnoGoSearch.Blob

open Lib.LittleEndian

/-! ### The readers -/

/-- The beginning of `UdmBlobModeInflateOrSelf`: the type of a value that is unpacked here, and where its data begin;
every other value is its own data. -/
def udmBlobModeInflateOrSelf (src : List UInt8) : UdmBlobComp × ℕ :=
  if src.length < 8 ∨ src.take 4 ≠ [0xFF, 0xFF, 0xFF, 0xFF] ∨
      (src[4]? ≠ some 1 ∧ src[4]? ≠ some 2 ∧ src[4]? ≠ some 3) ∨ (src.drop 5).take 3 ≠ [0, 0, 0] then (.none, 0)
  else
    let useZint4 := src[4]? = some 2 ∨ src[4]? = some 3
    let useDeflate := src[4]? = some 1 ∨ src[4]? = some 3
    (if useZint4 then if useDeflate then .zint4Deflate else .zint4 else .deflate, 8)

/-- What a value is for the readers: `UdmBlobModeInflateOrSelf` comes first, and hands on what it does not know to
`UdmBlobCoordsGetCompressionType`. A value without compression begins with its data. -/
def readHeader (src : List UInt8) : UdmBlobComp × ℕ :=
  match udmBlobModeInflateOrSelf src with
  | (.none, _) =>
    match compressionHeader src with
    | (.none, _) => (.none, 0)
    | header => header
  | header => header

/-! ### The writers -/

/-- The header that is written before the data: none without compression. -/
def writtenHeader (c : UdmBlobComp) : List UInt8 := if c = .none then [] else udmDSTRAppendCompressionType c

/-- The readers see the type that was written, and find the data where they were written. -/
def Recognised (c : UdmBlobComp) (payload : List UInt8) : Prop :=
  readHeader (writtenHeader c ++ payload) = (c, (writtenHeader c).length)

/-- The value begins like one that `UdmBlobModeInflateOrSelf` unpacks. -/
def LooksInflatable (v : List UInt8) : Prop :=
  8 ≤ v.length ∧ v.take 4 = [0xFF, 0xFF, 0xFF, 0xFF] ∧ (v[4]? = some 1 ∨ v[4]? = some 2 ∨ v[4]? = some 3) ∧
    (v.drop 5).take 3 = [0, 0, 0]

/-- The value begins like a posting list in a format with a number. -/
def LooksPacked (v : List UInt8) : Prop := 10 < v.length ∧ getLE 4 v = 0xFFFFFFFF ∧ getLE 2 (v.drop 4) ≠ 0

/-- **What a type asks of the data**: a posting list in a format must have more than four bytes, of which the first two
are not both zero; a value without a header must not begin like one. -/
def HeaderOk (c : UdmBlobComp) (payload : List UInt8) : Prop :=
  match c with
  | .none => ¬LooksInflatable payload ∧ ¬LooksPacked payload
  | .deflate | .zint4 | .zint4Deflate => True
  | _ => 4 < payload.length ∧ getLE 2 payload ≠ 0

variable {v : List UInt8} {c : UdmBlobComp}

theorem udmBlobModeInflateOrSelf_eq (h : ¬LooksInflatable v) : udmBlobModeInflateOrSelf v = (.none, 0) := by
  refine if_pos ?_
  by_contra hnot
  simp only [not_or, not_and, not_not, not_lt] at hnot
  refine h ⟨hnot.1, hnot.2.1, ?_, hnot.2.2.2⟩
  by_cases h1 : v[4]? = some 1
  · exact .inl h1
  · by_cases h2 : v[4]? = some 2
    · exact .inr (.inl h2)
    · exact .inr (.inr (hnot.2.2.1 h1 h2))

theorem udmBlobModeInflateOrSelf_ne (h : LooksInflatable v) : (udmBlobModeInflateOrSelf v).1 ≠ .none := by
  obtain ⟨hlen, hmagic, htype, hzero⟩ := h
  rw [udmBlobModeInflateOrSelf, if_neg]
  · dsimp only
    split_ifs <;> exact UdmBlobComp.noConfusion
  · simp only [not_or, not_and, not_not, not_lt]
    refine ⟨hlen, hmagic, fun h1 h2 => ?_, hzero⟩
    exact (htype.resolve_left h1).resolve_left h2

theorem ofCode_eq_none_iff {code : ℕ} : UdmBlobComp.ofCode code = .none ↔ code = 0 := by
  unfold UdmBlobComp.ofCode
  split_ifs <;> simp_all

theorem compressionHeader_none_iff (v : List UInt8) : (compressionHeader v).1 = .none ↔ ¬LooksPacked v := by
  have hlow : getLE 4 (v.drop 4) % 2 ^ 16 = getLE 2 (v.drop 4) := getLE_mod 2 2 _
  rw [compressionHeader, LooksPacked]
  by_cases h : v.length > 10 ∧ getLE 4 v = 0xFFFFFFFF
  · simp only [if_pos h, ofCode_eq_none_iff, hlow]
    exact ⟨fun h0 hp => hp.2.2 h0, fun hp => of_not_not fun h0 => hp ⟨h.1, h.2, h0⟩⟩
  · simp only [if_neg h, ofCode_eq_none_iff, Nat.zero_mod, true_iff]
    exact fun hp => h ⟨hp.1, hp.2.1⟩

theorem readHeader_eq (h : ¬LooksInflatable v) :
    readHeader v = if (compressionHeader v).1 = .none then (.none, 0) else compressionHeader v := by
  rw [readHeader, udmBlobModeInflateOrSelf_eq h]
  dsimp only
  split
  · rename_i size hheader
    rw [hheader, if_pos rfl]
  · rename_i hheader
    rw [if_neg]
    exact fun hnone => hheader _ (Prod.ext hnone rfl)

theorem recognised_none (v : List UInt8) : Recognised .none v ↔ ¬LooksInflatable v ∧ ¬LooksPacked v := by
  rw [Recognised, show writtenHeader .none = [] from rfl, List.nil_append, List.length_nil]
  by_cases h : LooksInflatable v
  · refine iff_of_false (fun heq => ?_) fun hv => hv.1 h
    have hne := udmBlobModeInflateOrSelf_ne h
    rw [readHeader] at heq
    split at heq
    · rename_i hnone
      exact hne (by rw [hnone])
    · exact hne (congrArg Prod.fst heq)
  · rw [readHeader_eq h, and_iff_right h, ← compressionHeader_none_iff]
    split_ifs with hnone
    · exact iff_of_true rfl hnone
    · exact iff_of_false (fun heq => hnone (congrArg Prod.fst heq)) hnone

theorem writtenHeader_eq (hc : 3 < c.code) : writtenHeader c = [0xFF, 0xFF, 0xFF, 0xFF, .ofNat c.code, 0] := by
  cases c <;> first | rfl | exact absurd hc (by decide)

theorem not_looksInflatable (hc : 3 < c.code) (payload : List UInt8) :
    ¬LooksInflatable (writtenHeader c ++ payload) := by
  rintro ⟨-, -, htype, -⟩
  rw [writtenHeader_eq hc] at htype
  cases c <;> first | exact absurd hc (by decide) | exact absurd htype (by simp [UdmBlobComp.code])

theorem recognised_posting (hc : 3 < c.code) (payload : List UInt8) :
    Recognised c payload ↔ 4 < payload.length ∧ getLE 2 payload ≠ 0 := by
  have hlen : (writtenHeader c).length = 6 := by
    rw [writtenHeader_eq hc]
    rfl
  have hne : c ≠ .none := by
    rintro rfl
    exact absurd hc (by decide)
  rw [Recognised, readHeader_eq (not_looksInflatable hc payload), hlen]
  by_cases hpayload : 4 < payload.length
  · rw [writtenHeader, if_neg hne, compressionHeader_append hc hpayload]
    dsimp only
    rw [if_neg hne, and_iff_right hpayload]
    split_ifs with hzero
    · exact iff_of_false (fun heq => absurd (congrArg Prod.snd heq) (show (8 : ℕ) ≠ 6 by decide)) fun h => h hzero
    · exact iff_of_true rfl hzero
  · have hshort : ¬((writtenHeader c ++ payload).length > 10 ∧ getLE 4 (writtenHeader c ++ payload) = 0xFFFFFFFF) := by
      rw [List.length_append, hlen]
      omega
    rw [compressionHeader_none hshort, if_pos rfl]
    exact iff_of_false (fun heq => hne (congrArg Prod.fst heq).symm) fun h => hpayload h.1

/-- **When a value is recognised.** -/
theorem recognised_iff (c : UdmBlobComp) (payload : List UInt8) : Recognised c payload ↔ HeaderOk c payload := by
  cases c with
  | none => exact recognised_none payload
  | deflate => exact iff_of_true rfl trivial
  | zint4 => exact iff_of_true rfl trivial
  | zint4Deflate => exact iff_of_true rfl trivial
  | _ => exact recognised_posting (by decide) payload

/-- The word in the first position of four documents, the first of them with the number 65536. -/
def wordsFrom65536 : List UdmBlobCacheWord :=
  [⟨⟨[], Words.zero_notMem_nil⟩, 1, 65536, 1, [1]⟩, ⟨⟨[], Words.zero_notMem_nil⟩, 1, 65537, 1, [1]⟩, ⟨⟨[], Words.zero_notMem_nil⟩, 1, 65538, 1, [1]⟩,
    ⟨⟨[], Words.zero_notMem_nil⟩, 1, 65539, 1, [1]⟩]

/-- They are packed as a range, which begins with two zero bytes. -/
theorem not_recognised : ∃ payload,
    udmBlobCachePackOneWordForBdict true wordsFrom65536 = writtenHeader .singleRange ++ payload ∧
      ¬Recognised .singleRange payload := by
  refine ⟨(udmBlobCachePackOneWordForBdict true wordsFrom65536).drop 6, by decide, ?_⟩
  unfold Recognised
  decide

end MnoGoSearch.Blob
