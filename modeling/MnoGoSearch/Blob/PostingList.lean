import MnoGoSearch.Blob.UnpackRecords
import MnoGoSearch.Lib.Ascending

/-!
# Posting lists and how they are written

A posting list has the documents of one word in one section, by ascending ids. What the packer
counts of it, and the records that each format writes for it: an `Item` has the bytes of a
record and the id that the reader finds in it, and `ReadsIds` says that the reader does.
-/

namespace MnoGoSearch.Blob

open Lib.LittleEndian Lib.Ascending Words

/-- The documents of a word in a section, by ascending ids. -/
structure PostingList where
  head : PostingDoc
  /-- The documents after it. -/
  tail : List PostingDoc
  ascending : (head.urlId :: tail.map PostingDoc.urlId).Pairwise (· < ·)

namespace PostingList

/-- The documents. -/
def docs (p : PostingList) : List PostingDoc := p.head :: p.tail

/-- The ids behind the first one. -/
def tailIds (p : PostingList) : List ℤ := p.tail.map PostingDoc.urlId

/-- The statistics of the ids. -/
def Stat (p : PostingList) : UdmBlobCacheWordStat where
  minUrlId := p.head.urlId
  maxUrlId := p.tailIds.getLastD p.head.urlId
  maxUrlIdDelta := (differences p.head.urlId p.tailIds).foldl max 0
  ndistinctUrlIdsMinusOne := p.tail.length

end PostingList

variable {word : CString} {secno : UInt8}

/-! ### Statistics -/

theorem add_of_lt {Stat : UdmBlobCacheWordStat} {W : UdmBlobCacheWord} (h : Stat.maxUrlId < W.urlId) :
    Stat.add W =
      { minUrlId := Stat.minUrlId
        maxUrlId := W.urlId
        maxUrlIdDelta := max Stat.maxUrlIdDelta (W.urlId - Stat.maxUrlId)
        ndistinctUrlIdsMinusOne := Stat.ndistinctUrlIdsMinusOne + 1 } := by
  rw [UdmBlobCacheWordStat.add, if_pos (by omega)]
  simp only [UdmBlobCacheWordStat.mk.injEq, true_and, and_true]
  split <;> omega

theorem foldl_add {Stat : UdmBlobCacheWordStat} {docs : List PostingDoc}
    (h : (Stat.maxUrlId :: docs.map PostingDoc.urlId).Pairwise (· < ·)) :
    (docs.map (PostingDoc.cacheWord word secno)).foldl UdmBlobCacheWordStat.add Stat =
      { minUrlId := Stat.minUrlId
        maxUrlId := (docs.map PostingDoc.urlId).getLastD Stat.maxUrlId
        maxUrlIdDelta := (differences Stat.maxUrlId (docs.map PostingDoc.urlId)).foldl max Stat.maxUrlIdDelta
        ndistinctUrlIdsMinusOne := Stat.ndistinctUrlIdsMinusOne + docs.length } := by
  induction docs generalizing Stat with
  | nil => rfl
  | cons d docs ih =>
    obtain ⟨hlt, htail⟩ := tail_of_ascending h
    have hadd := @add_of_lt Stat (d.cacheWord word secno) hlt
    rw [List.map_cons, List.foldl_cons, hadd, ih htail]
    simp only [PostingDoc.cacheWord_urlId, List.map_cons, List.getLastD_cons, differences, List.foldl_cons, List.length_cons,
      UdmBlobCacheWordStat.mk.injEq, true_and]
    omega

theorem takeWhile_cacheWord (d : PostingDoc) (docs : List PostingDoc) :
    oneWord (d.cacheWord word secno) (docs.map (PostingDoc.cacheWord word secno)) =
      docs.map (PostingDoc.cacheWord word secno) := by
  rw [oneWord, List.takeWhile_eq_self_iff]
  intro W hW
  obtain ⟨d', -, rfl⟩ := List.mem_map.mp hW
  simp [PostingDoc.cacheWord]

theorem udmBlobCacheOneWordStat_docs (p : PostingList) :
    udmBlobCacheOneWordStat (p.head.cacheWord word secno) (p.docs.map (PostingDoc.cacheWord word secno)) =
      (p.Stat, p.docs.length) := by
  rw [udmBlobCacheOneWordStat, takeWhile_cacheWord]
  have hfirst : UdmBlobCacheWordStat.add ⟨p.head.urlId, p.head.urlId, 0, 0⟩ (p.head.cacheWord word secno) =
      ⟨p.head.urlId, p.head.urlId, 0, 0⟩ := by
    simp [UdmBlobCacheWordStat.add, PostingDoc.cacheWord]
  simp only [PostingList.docs, List.map_cons, List.foldl_cons, PostingDoc.cacheWord_urlId, hfirst, List.length_cons,
    List.length_map,
    Prod.mk.injEq, and_true]
  rw [@foldl_add word secno ⟨p.head.urlId, p.head.urlId, 0, 0⟩ p.tail p.ascending, Nat.zero_add]
  rfl

theorem udmBlobCachePackOneWordForBdict_docs (p : PostingList) (useCompr : Bool) :
    udmBlobCachePackOneWordForBdict useCompr (p.docs.map (PostingDoc.cacheWord word secno)) =
      packAs (compressionOf p.Stat useCompr) (p.docs.map (PostingDoc.cacheWord word secno)) p.Stat := by
  have hstat := @udmBlobCacheOneWordStat_docs word secno p
  have hwords : p.docs.map (PostingDoc.cacheWord word secno) =
      p.head.cacheWord word secno :: p.tail.map (PostingDoc.cacheWord word secno) := rfl
  conv_lhs => rw [hwords, udmBlobCachePackOneWordForBdict, ← hwords, hstat]
  show packAs _ ((p.docs.map (PostingDoc.cacheWord word secno)).take p.docs.length) p.Stat = _
  rw [List.take_of_length_le (by rw [List.length_map])]

end MnoGoSearch.Blob
