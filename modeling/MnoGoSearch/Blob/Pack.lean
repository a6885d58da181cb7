import MnoGoSearch.Blob.Bdicti
import MnoGoSearch.Lib.LittleEndian
import Mathlib.Data.Int.Order.Basic

/-!
# Posting lists of table `bdict`

How the records of one word in one section, one for each document, are packed into one
string of table `bdict` (`UdmBlobCachePackOneWordForBdict` in `dbmode-blob.c`). Without
compression a record is the id of the document, the number of its coordinates and the
coordinates. With compression the statistics of the ids choose a format: the ids are
written as differences, as ranges, or as before.
-/

namespace MnoGoSearch.Blob

open Lib.LittleEndian Words

/-! ### Numbers -/

/-- An `int` as the unsigned number with the same 32 bits. -/
def uint32 (i : ℤ) : ℕ := (i % 2 ^ 32).toNat

/-- `udm_put_int2`. -/
def udmPutInt2 (i : ℤ) : List UInt8 := putLE 2 (uint32 i)

/-- `udm_put_int3`. -/
def udmPutInt3 (i : ℤ) : List UInt8 := putLE 3 (uint32 i)

/-- `udm_put_int4`. -/
def udmPutInt4 (i : ℤ) : List UInt8 := putLE 4 (uint32 i)

/-- `udm_put_int_with_format`: `0` puts nothing, `1` to `4` that many bytes, `5` the variable
length encoding. -/
def udmPutIntWithFormat (i : ℤ) (format : ℕ) : List UInt8 :=
  if format = 1 then putLE 1 (uint32 i)
  else if format = 2 then udmPutInt2 i
  else if format = 3 then udmPutInt3 i
  else if format = 4 then udmPutInt4 i
  else if format = 5 then udmCoordPut (if i < 0 then uint32 i + (2 ^ 64 - 2 ^ 32) else uint32 i)
  else []

/-- The types of compression, `UDM_BLOB_COMP_...`. -/
inductive UdmBlobComp
  | none
  | deflate
  | zint4
  | zint4Deflate
  | singleRange
  | urlidDeltaVariable
  | urlidDelta2Bytes
  | urlidDelta2BytesWithOffset
  | urlidDelta3Bytes
  | urlidDelta1BytesWithOffset
  | urlidRangeMulti
  deriving DecidableEq, Repr

/-- The number of a type. -/
def UdmBlobComp.code : UdmBlobComp → ℕ
  | .none => 0x00
  | .deflate => 0x01
  | .zint4 => 0x02
  | .zint4Deflate => 0x03
  | .singleRange => 0x04
  | .urlidDeltaVariable => 0x05
  | .urlidDelta2Bytes => 0x06
  | .urlidDelta2BytesWithOffset => 0x07
  | .urlidDelta3Bytes => 0x08
  | .urlidDelta1BytesWithOffset => 0x09
  | .urlidRangeMulti => 0x0A

/-- `UdmDSTRAppendCompressionType`. -/
def udmDSTRAppendCompressionType (compressionType : UdmBlobComp) : List UInt8 :=
  udmPutInt4 0xFFFFFFFF ++
    if compressionType.code ≤ UdmBlobComp.zint4Deflate.code then udmPutInt4 compressionType.code
    else udmPutInt2 compressionType.code

/-! ### Statistics -/

/-- `UDM_BLOB_CACHE_WORD_STAT`, what the packer uses of it. -/
structure UdmBlobCacheWordStat where
  minUrlId : ℤ
  maxUrlId : ℤ
  /-- The greatest difference of neighbours. -/
  maxUrlIdDelta : ℤ
  /-- How many ids there are after the first one. -/
  ndistinctUrlIdsMinusOne : ℕ
  deriving DecidableEq

/-- One step of the loop of `UdmBlobCacheOneWordStat`. -/
def UdmBlobCacheWordStat.add (Stat : UdmBlobCacheWordStat) (W : UdmBlobCacheWord) : UdmBlobCacheWordStat :=
  if W.urlId ≠ Stat.maxUrlId then
    let urlIdDelta := W.urlId - Stat.maxUrlId
    { Stat with
      ndistinctUrlIdsMinusOne := Stat.ndistinctUrlIdsMinusOne + 1
      maxUrlIdDelta := if urlIdDelta > Stat.maxUrlIdDelta then urlIdDelta else Stat.maxUrlIdDelta
      maxUrlId := W.urlId }
  else { Stat with maxUrlId := W.urlId }

/-- The records from `First` on with its word and section: where the loop ends. -/
def oneWord (First : UdmBlobCacheWord) (words : List UdmBlobCacheWord) : List UdmBlobCacheWord :=
  words.takeWhile fun W => W.secno = First.secno && W.word = First.word

/-- `UdmBlobCacheOneWordStat`: the statistics and the number of records. -/
def udmBlobCacheOneWordStat (First : UdmBlobCacheWord) (words : List UdmBlobCacheWord) :
    UdmBlobCacheWordStat × ℕ :=
  let one := oneWord First words
  (one.foldl UdmBlobCacheWordStat.add ⟨First.urlId, First.urlId, 0, 0⟩, one.length)

/-! ### The formats -/

/-- `UdmBlobCachePackOneWordDocForBdict`. An empty string cannot be appended: a record whose
number of coordinates or difference of ids is too large to be written is left out. -/
def udmBlobCachePackOneWordDocForBdict (urlid : ℤ) (w : UdmBlobCacheWord) (urlidFormat : ℕ) : List UInt8 :=
  let urlidbuf := udmPutIntWithFormat urlid urlidFormat
  let ncoordsbuf := udmCoordPut w.nintags
  if ncoordsbuf = [] ∨ (urlidbuf = [] ∧ urlidFormat ≠ 0) then [] else urlidbuf ++ ncoordsbuf ++ w.intags

/-- `UdmBlobCachePackOneWordForBdictSimple`. -/
def udmBlobCachePackOneWordForBdictSimple (words : List UdmBlobCacheWord) : List UInt8 :=
  words.flatMap fun word1 =>
    let utmp := udmPutInt4 word1.urlId
    let ubuf := udmCoordPut word1.nintags
    if ubuf = [] then [] else utmp ++ ubuf ++ word1.intags

/-- The loop that writes the differences of the ids. -/
def packDeltas (format : ℕ) : ℤ → List UdmBlobCacheWord → List UInt8
  | _, [] => []
  | urlIdPrev, w :: words =>
    udmBlobCachePackOneWordDocForBdict (w.urlId - urlIdPrev) w format ++ packDeltas format w.urlId words

/-- `UdmBlobCachePackOneWordForBdictURLIDDeltaFixed`. -/
def udmBlobCachePackOneWordForBdictURLIDDeltaFixed (words : List UdmBlobCacheWord) (deltaFormat : ℕ) (offset : ℤ) :
    List UInt8 :=
  if deltaFormat = 1 then
    udmDSTRAppendCompressionType .urlidDelta1BytesWithOffset ++ udmPutInt4 offset ++ packDeltas deltaFormat offset words
  else
    -- clear the 2 lower bytes
    let urlIdPrev := offset / 2 ^ 16 * 2 ^ 16
    let header :=
      if offset = 0 then
        udmDSTRAppendCompressionType (if deltaFormat = 2 then .urlidDelta2Bytes else .urlidDelta3Bytes)
      else udmDSTRAppendCompressionType .urlidDelta2BytesWithOffset ++ udmPutInt2 (offset / 2 ^ 16)
    header ++ packDeltas deltaFormat urlIdPrev words

/-- `UdmBlobCachePackOneWordForBdictURLIDDeltaVariable`. -/
def udmBlobCachePackOneWordForBdictURLIDDeltaVariable (words : List UdmBlobCacheWord) : List UInt8 :=
  udmDSTRAppendCompressionType .urlidDeltaVariable ++ packDeltas 5 0 words

/-- The records without the ids of their documents. -/
def packWithoutUrlIds (words : List UdmBlobCacheWord) : List UInt8 :=
  words.flatMap fun w => udmBlobCachePackOneWordDocForBdict 0 w 0

/-- `UdmBlobCachePackOneWordForBdictURLIDRange`. -/
def udmBlobCachePackOneWordForBdictURLIDRange (words : List UdmBlobCacheWord) (Stat : UdmBlobCacheWordStat) :
    List UInt8 :=
  udmDSTRAppendCompressionType .singleRange ++ udmPutInt4 Stat.minUrlId ++ udmPutInt4 Stat.maxUrlId ++
    packWithoutUrlIds words

/-- The last id of a range and the ids after it: the inner loop of the packer of ranges. -/
def rangeLast : ℤ → List ℤ → ℤ × List ℤ
  | w, [] => (w, [])
  | w, w1 :: rest => if w1 > w + 1 then (w, w1 :: rest) else rangeLast w1 rest

theorem length_rangeLast (w : ℤ) (rest : List ℤ) : (rangeLast w rest).2.length ≤ rest.length := by
  induction rest generalizing w with
  | nil => exact le_rfl
  | cons w1 rest ih =>
    rw [rangeLast]
    split
    · exact le_rfl
    · exact (ih w1).trans (Nat.le_succ _)

/-- The ranges of the ids, each with its first and its last one. -/
def rangesOf : List ℤ → List (ℤ × ℤ)
  | [] => []
  | w :: rest => (w, (rangeLast w rest).1) :: rangesOf (rangeLast w rest).2
  termination_by urls => urls.length
  decreasing_by exact Nat.lt_succ_of_le (length_rangeLast w rest)

/-- `UdmBlobCachePackOneWordForBdictURLIDRangeMulti`. -/
def udmBlobCachePackOneWordForBdictURLIDRangeMulti (words : List UdmBlobCacheWord) : List UInt8 :=
  let ranges := rangesOf (words.map UdmBlobCacheWord.urlId)
  udmDSTRAppendCompressionType .urlidRangeMulti ++ udmPutInt4 ranges.length ++
    ranges.flatMap (fun range => udmPutInt4 range.1 ++ udmPutInt4 range.2) ++ packWithoutUrlIds words

/-- The format that `UdmBlobCachePackOneWordForBdict` chooses. -/
def compressionOf (Stat : UdmBlobCacheWordStat) (useCompr : Bool) : UdmBlobComp :=
  let rangeSize := Stat.maxUrlId - Stat.minUrlId
  let ndist : ℤ := Stat.ndistinctUrlIdsMinusOne
  let missing := rangeSize - ndist
  if !useCompr then .none
  else if ndist > 2 ∧ rangeSize = ndist then .singleRange
  else if missing + 1 < (rangeSize + 1) / 8 ∧ rangeSize > 16 then .urlidRangeMulti
  else if ndist > 1 ∧ ndist > rangeSize / 256 then .urlidDeltaVariable
  else if Stat.maxUrlIdDelta ≤ 0xFFFF ∧ Stat.minUrlId ≤ 0xFFFF ∧ ndist > 2 then .urlidDelta2Bytes
  else if Stat.maxUrlIdDelta ≤ 0xFFFF ∧ Stat.minUrlId ≥ 0xFFFF ∧ ndist > 3 then .urlidDelta2BytesWithOffset
  else if Stat.maxUrlIdDelta ≤ 0xFFFFFF ∧ Stat.minUrlId ≤ 0xFFFFFF ∧ ndist > 4 then .urlidDelta3Bytes
  else .none

/-- The string of the records in a format. -/
def packAs (compressionType : UdmBlobComp) (words : List UdmBlobCacheWord) (Stat : UdmBlobCacheWordStat) : List UInt8 :=
  match compressionType with
  | .singleRange => udmBlobCachePackOneWordForBdictURLIDRange words Stat
  | .urlidRangeMulti => udmBlobCachePackOneWordForBdictURLIDRangeMulti words
  | .urlidDeltaVariable => udmBlobCachePackOneWordForBdictURLIDDeltaVariable words
  | .urlidDelta2Bytes => udmBlobCachePackOneWordForBdictURLIDDeltaFixed words 2 0
  | .urlidDelta2BytesWithOffset => udmBlobCachePackOneWordForBdictURLIDDeltaFixed words 2 Stat.minUrlId
  | .urlidDelta3Bytes => udmBlobCachePackOneWordForBdictURLIDDeltaFixed words 3 0
  | _ => udmBlobCachePackOneWordForBdictSimple words

/-- `UdmBlobCachePackOneWordForBdict`: the string of the first word in the records, none when
there are no records. -/
def udmBlobCachePackOneWordForBdict (useCompr : Bool) : List UdmBlobCacheWord → List UInt8
  | [] => []
  | First :: rest =>
    let (Stat, count) := udmBlobCacheOneWordStat First (First :: rest)
    packAs (compressionOf Stat useCompr) ((First :: rest).take count) Stat

end MnoGoSearch.Blob
