import MnoGoSearch.Blob.DeltaFormats
import MnoGoSearch.Blob.RangeFormat
import Mathlib

/-!
# The round trip of a posting list

A posting list that was packed for table `bdict` and is read by a search: when the reader finds
exactly its documents, with their positions and section lengths. Without compression it does
whenever the documents fit; the compressed formats lose documents with a short last record, a
large difference of ids, or an unlucky number behind the header.
-/

namespace MnoGoSearch.Blob

open Lib.Ascending Words

variable {word : CString} {secno : UInt8} {saveSectionSize : Bool} {template : UdmSection}

/-- What a format needs of a posting list, besides documents that fit. -/
def PostingList.ReadableIn (p : PostingList) : UdmBlobComp → Prop
  | .singleRange => p.head.urlId % 2 ^ 16 ≠ 0
  | .urlidRangeMulti => p.ranges.length % 2 ^ 16 ≠ 0
  | .urlidDeltaVariable =>
    (∀ delta ∈ differences 0 (p.head.urlId :: p.tailIds), delta < 0x200000) ∧ 5 < (p.lastRecord 5).length
  | .urlidDelta2Bytes => 5 < (p.lastRecord 2).length
  | .urlidDelta2BytesWithOffset => 5 < (p.lastRecord 2).length
  | .urlidDelta3Bytes => p.head.urlId % 2 ^ 16 ≠ 0 ∧ 5 < (p.lastRecord 3).length
  | _ => True

/-- When a posting list can be read: every document fits, and the ids suit the format. -/
def PostingList.Readable (p : PostingList) (useCompr : Bool) : Prop :=
  (∀ d ∈ p.docs, d.Fits) ∧ p.ReadableIn (compressionOf p.Stat useCompr)

theorem compressionOf_cases (Stat : UdmBlobCacheWordStat) (useCompr : Bool) :
    let c := compressionOf Stat useCompr
    (c = .singleRange ∧ Stat.maxUrlId - Stat.minUrlId = Stat.ndistinctUrlIdsMinusOne) ∨ c = .urlidRangeMulti ∨
      (c = .urlidDeltaVariable ∧ Stat.ndistinctUrlIdsMinusOne ≠ 0) ∨
      (c = .urlidDelta2Bytes ∧ Stat.ndistinctUrlIdsMinusOne ≠ 0 ∧ Stat.maxUrlIdDelta ≤ 0xFFFF ∧
        Stat.minUrlId ≤ 0xFFFF) ∨
      (c = .urlidDelta2BytesWithOffset ∧ Stat.ndistinctUrlIdsMinusOne ≠ 0 ∧ Stat.maxUrlIdDelta ≤ 0xFFFF ∧
        0xFFFF < Stat.minUrlId) ∨
      (c = .urlidDelta3Bytes ∧ Stat.ndistinctUrlIdsMinusOne ≠ 0 ∧ Stat.maxUrlIdDelta ≤ 0xFFFFFF ∧
        Stat.minUrlId ≤ 0xFFFFFF) ∨ c = .none := by
  simp only [compressionOf]
  split_ifs with h1 h2 h3 h4 h5 h6 h7
  · simp
  · exact Or.inl ⟨rfl, h2.2⟩
  · simp
  · simp only [false_and, false_or, true_and]
    omega
  · simp only [false_and, false_or, true_and]
    omega
  · simp only [false_and, false_or, true_and]
    omega
  · simp only [false_and, false_or, true_and]
    omega
  · simp

/-- **The round trip of a posting list**: what the packer has written is read back, with exactly
the documents of the list in their order, if and only if the list is readable. -/
theorem readBack_pack_iff (p : PostingList) (word : CString) (secno : UInt8) (useCompr saveSectionSize : Bool)
    (template : UdmSection) :
    ReadBack saveSectionSize template
      (udmBlobCachePackOneWordForBdict useCompr (p.docs.map (PostingDoc.cacheWord word secno))) p.docs ↔
      p.Readable useCompr := by
  rw [udmBlobCachePackOneWordForBdict_docs, PostingList.Readable]
  suffices hsuff : (∀ d ∈ p.docs, d.Fits) → (ReadBack saveSectionSize template
      (packAs (compressionOf p.Stat useCompr) (p.docs.map (PostingDoc.cacheWord word secno)) p.Stat) p.docs ↔
        p.ReadableIn (compressionOf p.Stat useCompr)) by
    exact ⟨fun h => ⟨h.fits, (hsuff h.fits).mp h⟩, fun h => (hsuff h.1).mpr h.2⟩
  intro hfits
  have htail : p.Stat.ndistinctUrlIdsMinusOne ≠ 0 → p.tail ≠ [] := fun h hnil =>
    h (List.length_eq_zero_iff.mpr hnil)
  obtain ⟨hc, hrange⟩ | hc | ⟨hc, htwo⟩ | ⟨hc, htwo, hdelta, hmin⟩ | ⟨hc, htwo, hdelta, hmin⟩ |
    ⟨hc, htwo, hdelta, hmin⟩ | hc := compressionOf_cases p.Stat useCompr
  · rw [hc]
    exact readBack_singleRange_iff p hfits hrange
  · rw [hc]
    exact readBack_rangeMulti_iff p hfits
  · rw [hc]
    exact readBack_deltaVariable_iff p hfits (htail htwo)
  · rw [hc]
    exact readBack_delta2Bytes_iff p hfits (htail htwo) hmin hdelta
  · rw [hc]
    exact readBack_delta2BytesWithOffset_iff p hfits (htail htwo) hmin hdelta
  · rw [hc]
    exact readBack_delta3Bytes_iff p hfits (htail htwo) hmin hdelta
  · rw [hc]
    exact iff_of_true (readBack_simple p hfits) trivial

/-- A document with one position, the first, in a section of one word. -/
def shortDoc (urlId : ℤ) (hpos : 0 < urlId) (hlt : urlId < 2 ^ 31) : PostingDoc where
  urlId := urlId
  coords := [1, 1]
  urlId_pos := hpos
  urlId_lt := hlt
  coords_ne_nil := by simp
  coords_valid := by
    intro c hc
    have hone : c = 1 := by simpa using hc
    rw [hone]
    exact ⟨by decide, by unfold CoordValid; decide⟩

/-- The documents 1, 3 and 5. -/
def shortPostingList : PostingList where
  head := shortDoc 1 (by decide) (by decide)
  tail := [shortDoc 3 (by decide) (by decide), shortDoc 5 (by decide) (by decide)]
  ascending := by decide

/-- With compression a posting list is not always read back: the record of document 5 has four
bytes. -/
theorem not_forall_readBack_pack : ¬ ∀ (p : PostingList) (word : CString) (secno : UInt8)
    (useCompr saveSectionSize : Bool) (template : UdmSection), ReadBack saveSectionSize template
      (udmBlobCachePackOneWordForBdict useCompr (p.docs.map (PostingDoc.cacheWord word secno))) p.docs := by
  intro h
  have hshort := h shortPostingList ⟨[], by simp⟩ 1 true true ⟨[], 0, 0, 0, 0, 1, 0, 0⟩
  revert hshort
  decide

end MnoGoSearch.Blob
