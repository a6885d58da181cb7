import MnoGoSearch.Blob.Pack

/-!
# Reading posting lists of table `bdict`

The reader of the strings that `Pack` describes (`UdmSectionListBlobCoordsUnpack` in
`dbmode-blob.c`), for a search that needs the coordinates and has no limit. The number of
bytes of the header is not stored: the reader guesses it from the two bytes after the
compression type.

A value has a NUL byte after its end, which the reader may look at. It is undefined what the
reader does with a number that was not assigned, or when the records would begin before the
value: `none` or `undefined` stand for that.
-/

namespace MnoGoSearch.Blob

open Lib.LittleEndian Words

/-! ### Numbers -/

/-- A number of 32 bits as an `int`. -/
def int32 (n : ℕ) : ℤ := if n < 2 ^ 31 then n else n - 2 ^ 32

/-- `udm_get_int2`. -/
def udmGetInt2 (s : List UInt8) : ℤ := getLE 2 s

/-- `udm_get_int3`. -/
def udmGetInt3 (s : List UInt8) : ℤ := getLE 3 s

/-- `udm_get_int4`. -/
def udmGetInt4 (s : List UInt8) : ℤ := int32 (getLE 4 s)

/-- `udm_coord_get_quick`: there are enough bytes for a whole number. -/
def udmCoordGetQuick (s : List UInt8) : Option (Option ℕ × ℕ) :=
  let c := s.getD 0 0
  let s1 := s.getD 1 0
  let s2 := s.getD 2 0
  let s3 := s.getD 3 0
  if c < 0x80 then some (some c.toNat, 1)
  else if c < 0xc2 then some (none, 1)
  else if c < 0xe0 then
    if !isTail s1 then none else some (some ((c &&& 0x1f).toNat <<< 6 ||| tailBits s1), 2)
  else if c < 0xf0 then
    if !(isTail s1 && isTail s2 && (0xe1 ≤ c || 0xa0 ≤ s1)) then none
    else some (some ((c &&& 0x0f).toNat <<< 12 ||| tailBits s1 <<< 6 ||| tailBits s2), 3)
  else if c < 0xf8 then
    if !(isTail s1 && isTail s2 && isTail s3 && (0xf1 ≤ c || 0x90 ≤ s1)) then none
    else some (some ((c &&& 0x07).toNat <<< 18 ||| tailBits s1 <<< 12 ||| tailBits s2 <<< 6 ||| tailBits s3), 4)
  else none

/-- What reading a number from the front of a string comes to. -/
inductive CoordRead
  /-- The number is not assigned. -/
  | undefined
  | failed
  /-- A number, and the bytes after it. -/
  | value (wc : ℕ) (rest : List UInt8)

/-- The result of scanning a number. -/
def CoordRead.ofScan (s : List UInt8) : Option (Option ℕ × ℕ) → CoordRead
  | none => .failed
  | some (none, _) => .undefined
  | some (some wc, nbytes) => .value wc (s.drop nbytes)

/-- Scan a number, a small one at once: `*s < 128 ? *s++ : udm_coord_get(...)`. -/
def readCoord (s : List UInt8) : CoordRead :=
  if s.headD 0 < 128 then .value (s.headD 0).toNat s.tail else .ofScan s (udmCoordGet s)

/-- The same where the end of the string is checked for small numbers also. -/
def readCoordChecked (s : List UInt8) : CoordRead :=
  if s ≠ [] ∧ s.headD 0 < 128 then .value (s.headD 0).toNat s.tail else .ofScan s (udmCoordGet s)

/-- The same without looking for the end of the string. -/
def readCoordQuick (s : List UInt8) : CoordRead :=
  if s.headD 0 < 128 then .value (s.headD 0).toNat s.tail else .ofScan s (udmCoordGetQuick s)

/-! ### Sections -/

/-- `UDM_SECTION`: the occurrences in one section of one document. The number of coordinates
`ncoords` is the length of `coord`. -/
structure UdmSection where
  coord : List ℕ
  urlId : ℤ
  /-- The length of the section. -/
  seclen : ℕ
  minpos : ℕ
  maxpos : ℕ
  secno : UInt8
  wordnum : ℕ
  order : ℕ

/-- A position has 24 bits. -/
def pos24 (pos : ℕ) : ℕ := pos % 2 ^ 24

/-- The loops of `UdmBlobPackedCoordsToUnpackedCoords`: the positions that are added, and
where unpacking stopped. -/
def unpackLoop (read : List UInt8 → CoordRead) : ℕ → ℕ → List UInt8 → Option (List ℕ × List UInt8)
  | 0, _, s => some ([], s)
  | nrecs + 1, pos, s =>
    match read s with
    | .undefined => none
    | .failed => some ([], s)
    | .value crd rest =>
      (unpackLoop read nrecs (pos24 (pos + crd)) rest).map fun r => (pos24 (pos + crd) :: r.1, r.2)

/-- `UdmBlobPackedCoordsToUnpackedCoords`: the end of the string is far, or near. -/
def udmBlobPackedCoordsToUnpackedCoords (s : List UInt8) (nrecs pos : ℕ) : Option (List ℕ × List UInt8) :=
  if nrecs * 4 < s.length then unpackLoop readCoordQuick nrecs pos s else unpackLoop readCoordChecked nrecs pos s

/-- What reading a record behind the id of its document comes to. `ncoords` counts for the
section list. -/
inductive SectionRead
  /-- A number was not assigned. -/
  | undefined
  /-- The loop over the records ends here. -/
  | stop (ncoords : ℕ)
  /-- A section, and the bytes after its record. -/
  | found (Section : UdmSection) (ncoords : ℕ) (rest : List UInt8)

/-- How many coordinates are counted for a record: the length of the section is none. -/
def countCoords (saveSectionSize : Bool) (nrecs : ℕ) : ℕ :=
  if saveSectionSize ∧ nrecs > 1 then nrecs - 1 else nrecs

/-- The body of the loop over the records, behind the id of the document. `template` has the
section, the word and its place. -/
def readSection (saveSectionSize : Bool) (template : UdmSection) (urlId : ℤ) (s : List UInt8) : SectionRead :=
  match readCoord s with
  | .undefined => .undefined
  | .failed => .stop 0
  | .value nrecs s =>
    if nrecs = 0 then .stop 0
    else
      let ncoords := countCoords saveSectionSize nrecs
      match readCoord s with
      | .undefined => .undefined
      | .failed => .stop ncoords
      | .value crd s =>
        let C := pos24 crd
        let Section := { template with urlId := urlId, minpos := C }
        if nrecs - 1 = 0 then .found { Section with coord := [C], seclen := C, maxpos := C } ncoords s
        else
          match udmBlobPackedCoordsToUnpackedCoords s (nrecs - 1) C with
          | none => .undefined
          | some (coords, s) =>
            let Coord := C :: coords
            if saveSectionSize then
              .found { Section with coord := Coord.dropLast, seclen := Coord.getLastD 0,
                                       maxpos := Coord.dropLast.getLastD 0 } ncoords s
            else .found { Section with coord := Coord, seclen := 0, maxpos := Coord.getLastD 0 } ncoords s

/-! ### The ids of the documents -/

/-- `UDM_BLOB_CACHE_WORD_STAT`, what the reader uses of it, with `range_ptr`. -/
structure ReadStat where
  /-- The id read last, or the next one of a single range. -/
  curUrlId : ℤ
  rangeMaxUrlId : ℤ
  nranges : ℕ
  rangePtr : List UInt8

/-- What reading the id of a document comes to. -/
inductive UrlIdRead
  /-- A number was not assigned. -/
  | undefined
  /-- The loop over the records ends here. -/
  | stop
  /-- The id, and the bytes after it. -/
  | urlId (urlId : ℤ) (Stat : ReadStat) (rest : List UInt8)

/-- A difference of ids has been read. -/
def ReadStat.addDelta (Stat : ReadStat) (delta : ℤ) (rest : List UInt8) : UrlIdRead :=
  .urlId (Stat.curUrlId + delta) { Stat with curUrlId := Stat.curUrlId + delta } rest

/-- The body of the loop over the records, up to the id of the document. -/
def readUrlId (compressionType : UdmBlobComp) (Stat : ReadStat) (s : List UInt8) : UrlIdRead :=
  match compressionType with
  | .none => .urlId (udmGetInt4 s) Stat (s.drop 4)
  | .singleRange => .urlId Stat.curUrlId { Stat with curUrlId := Stat.curUrlId + 1 } s
  | .urlidRangeMulti =>
    if Stat.curUrlId = Stat.rangeMaxUrlId ∧ Stat.nranges ≠ 0 then
      let rangeMinUrlId := udmGetInt4 Stat.rangePtr
      .urlId rangeMinUrlId
        { curUrlId := rangeMinUrlId
          rangeMaxUrlId := udmGetInt4 (Stat.rangePtr.drop 4)
          nranges := Stat.nranges - 1
          rangePtr := Stat.rangePtr.drop 8 } s
    else
      -- `nranges--` has been evaluated when the range was at its end
      let nranges := if Stat.curUrlId = Stat.rangeMaxUrlId then 2 ^ 64 - 1 else Stat.nranges
      .urlId (Stat.curUrlId + 1) { Stat with curUrlId := Stat.curUrlId + 1, nranges := nranges } s
  | .urlidDeltaVariable =>
    match CoordRead.ofScan s (udmCoordGet s) with
    | .undefined => .undefined
    | .failed => .stop
    | .value delta rest => Stat.addDelta delta rest
  | .urlidDelta1BytesWithOffset => Stat.addDelta (s.headD 0).toNat (s.drop 1)
  | .urlidDelta2Bytes => Stat.addDelta (udmGetInt2 s) (s.drop 2)
  | .urlidDelta2BytesWithOffset => Stat.addDelta (udmGetInt2 s) (s.drop 2)
  | .urlidDelta3Bytes => Stat.addDelta (udmGetInt3 s) (s.drop 3)
  | _ => .undefined

/-! ### The header -/

/-- The type of compression with this number; a number without a type has the type `deflate`,
which is not read here. -/
def UdmBlobComp.ofCode (code : ℕ) : UdmBlobComp :=
  if code = 0x00 then .none
  else if code = 0x04 then .singleRange
  else if code = 0x05 then .urlidDeltaVariable
  else if code = 0x06 then .urlidDelta2Bytes
  else if code = 0x07 then .urlidDelta2BytesWithOffset
  else if code = 0x08 then .urlidDelta3Bytes
  else if code = 0x09 then .urlidDelta1BytesWithOffset
  else if code = 0x0A then .urlidRangeMulti
  else .deflate

/-- The type of compression of a string, and the size of its header: the beginning of
`UdmBlobCoordsGetCompressionType`. -/
def compressionHeader (s : List UInt8) : UdmBlobComp × ℕ :=
  let compressionType := if s.length > 10 ∧ getLE 4 s = 0xFFFFFFFF then getLE 4 (s.drop 4) else 0
  (UdmBlobComp.ofCode (compressionType % 2 ^ 16), if compressionType / 2 ^ 16 ≠ 0 then 6 else 8)

/-- `UdmBlobCoordsGetCompressionType`: the type, where the records begin as a `size_t`, and
how the loop over the records begins. -/
def udmBlobCoordsGetCompressionType (s : List UInt8) : UdmBlobComp × ℕ × ReadStat :=
  let (type, headerSize) := compressionHeader s
  match type with
  | .singleRange => (type, headerSize + 8, ⟨udmGetInt4 (s.drop headerSize), 0, 0, s⟩)
  | .urlidDeltaVariable => (type, headerSize, ⟨0, 0, 0, s⟩)
  | .urlidDelta2Bytes => (type, headerSize, ⟨0, 0, 0, s⟩)
  | .urlidDelta2BytesWithOffset => (type, headerSize + 2, ⟨udmGetInt2 (s.drop headerSize) * 2 ^ 16, 0, 0, s⟩)
  | .urlidDelta1BytesWithOffset => (type, headerSize + 4, ⟨udmGetInt4 (s.drop headerSize), 0, 0, s⟩)
  | .urlidDelta3Bytes => (type, headerSize, ⟨0, 0, 0, s⟩)
  | .urlidRangeMulti =>
    -- an `int` as a `size_t`
    let nranges := (udmGetInt4 (s.drop headerSize) % 2 ^ 64).toNat
    (type, (headerSize + 4 + 8 * nranges) % 2 ^ 64, ⟨0, 0, nranges, s.drop (headerSize + 4)⟩)
  | _ => (type, 0, ⟨0, 0, 0, s⟩)

/-! ### The loop over the records -/

/-- The last bytes of a string, where no record begins: `last_urlid_start`. -/
def tailBytes (compressionType : UdmBlobComp) : ℕ :=
  if compressionType = .singleRange ∨ compressionType = .urlidRangeMulti then 1 else 5

/-- The loop of `UdmSectionListBlobCoordsUnpack`. `tail` is how many bytes before the end of
the string no record begins, the last one included. -/
def unpackSections (saveSectionSize : Bool) (template : UdmSection) (compressionType : UdmBlobComp) (tail : ℕ) :
    ℕ → ReadStat → List UInt8 → Option (List UdmSection × ℕ)
  | 0, _, _ => some ([], 0)
  | fuel + 1, Stat, s =>
    if s.length ≤ tail then some ([], 0)
    else
      match readUrlId compressionType Stat s with
      | .undefined => none
      | .stop => some ([], 0)
      | .urlId urlId Stat s =>
        match readSection saveSectionSize template urlId s with
        | .undefined => none
        | .stop ncoords => some ([], ncoords)
        | .found Section ncoords s =>
          (unpackSections saveSectionSize template compressionType tail fuel Stat s).map
            fun r => (Section :: r.1, ncoords + r.2)

/-- `UdmSectionListBlobCoordsUnpack` with `need_coords` and without a limit: the sections, and
the number of coordinates in the section list. -/
def udmSectionListBlobCoordsUnpack (saveSectionSize : Bool) (template : UdmSection) (s : List UInt8) :
    Option (List UdmSection × ℕ) :=
  let (compressionType, offset, Stat) := udmBlobCoordsGetCompressionType s
  -- a negative number of ranges: the records would begin before the string
  if 2 ^ 63 ≤ offset then none
  else unpackSections saveSectionSize template compressionType (tailBytes compressionType) s.length Stat (s.drop offset)

end MnoGoSearch.Blob
