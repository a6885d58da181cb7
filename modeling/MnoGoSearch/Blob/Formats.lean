import MnoGoSearch.Blob.PostingList

/-!
# The formats of a posting list

For each format, which records the packer writes and when the reader finds the documents in
them. The reader recognises the size of the header by the two bytes behind the compression
type, and in some formats these are zero for some ids; and it leaves out a last record of less
than six bytes, except in the formats without the ids of the documents.
-/

namespace MnoGoSearch.Blob

open Lib.LittleEndian Lib.Ascending Words

variable {word : CString} {secno : UInt8} {saveSectionSize : Bool} {template : UdmSection}
variable {docs : List PostingDoc} {c : UdmBlobComp} {i : ℤ}

/-! ### Numbers of a fixed width -/

theorem uint32_of_nonneg (h : 0 ≤ i) (hlt : i < 2 ^ 32) : uint32 i = i.toNat := by
  rw [uint32, Int.emod_eq_of_lt h hlt]

theorem udmGetInt2_udmPutInt2 {i : ℤ} (h : 0 ≤ i) (hlt : i < 2 ^ 16) (rest : List UInt8) :
    udmGetInt2 (udmPutInt2 i ++ rest) = i := by
  rw [udmGetInt2, udmPutInt2, getLE_putLE, uint32_of_nonneg h (by omega)]
  omega

theorem udmGetInt3_udmPutInt3 (h : 0 ≤ i) (hlt : i < 2 ^ 24) (rest : List UInt8) :
    udmGetInt3 (udmPutInt3 i ++ rest) = i := by
  rw [udmGetInt3, udmPutInt3, getLE_putLE, uint32_of_nonneg h (by omega)]
  omega

theorem getLE_udmPutInt4 {i : ℤ} (h : 0 ≤ i) (hlt : i < 2 ^ 31) (rest : List UInt8) :
    getLE 4 (udmPutInt4 i ++ rest) = i.toNat := by
  rw [udmPutInt4, getLE_putLE, uint32_of_nonneg h (by omega), Nat.mod_eq_of_lt (by omega)]

theorem udmGetInt4_udmPutInt4 {i : ℤ} (h : 0 ≤ i) (hlt : i < 2 ^ 31) (rest : List UInt8) :
    udmGetInt4 (udmPutInt4 i ++ rest) = i := by
  rw [udmGetInt4, getLE_udmPutInt4 h hlt, int32, if_pos (by omega)]
  omega

theorem getLE_two_udmPutInt4 {i : ℤ} (h : 0 ≤ i) (hlt : i < 2 ^ 31) (rest : List UInt8) :
    (getLE 2 (udmPutInt4 i ++ rest) : ℤ) = i % 2 ^ 16 := by
  have hmod : getLE 4 (udmPutInt4 i ++ rest) % 256 ^ 2 = getLE 2 (udmPutInt4 i ++ rest) := getLE_mod 2 2 _
  have hget := getLE_udmPutInt4 h hlt rest
  omega

@[simp] theorem length_udmPutInt4 (i : ℤ) : (udmPutInt4 i).length = 4 := length_putLE 4 _

/-! ### The header -/

theorem udmDSTRAppendCompressionType_eq (hc : 3 < c.code) :
    udmDSTRAppendCompressionType c = udmPutInt4 0xFFFFFFFF ++ udmPutInt2 c.code := by
  have hcode : ¬ c.code ≤ UdmBlobComp.zint4Deflate.code := Nat.not_le_of_lt hc
  rw [udmDSTRAppendCompressionType, if_neg hcode]

theorem length_udmDSTRAppendCompressionType (hc : 3 < c.code) : (udmDSTRAppendCompressionType c).length = 6 := by
  rw [udmDSTRAppendCompressionType_eq hc, List.length_append, length_udmPutInt4, udmPutInt2, length_putLE]

theorem code_lt (c : UdmBlobComp) : c.code < 16 := by
  cases c <;> decide

theorem ofCode_code (hc : 3 < c.code) : UdmBlobComp.ofCode c.code = c := by
  cases c <;> first | rfl | exact absurd hc (by decide)

/-- **The guess of the header size**: the header of a compressed string is recognised when there
is enough behind it, and it is taken for eight bytes when the next two are zero. -/
theorem compressionHeader_append (hc : 3 < c.code) {body : List UInt8} (hbody : 4 < body.length) :
    compressionHeader (udmDSTRAppendCompressionType c ++ body) = (c, if getLE 2 body = 0 then 8 else 6) := by
  have hmagic : getLE 4 (udmDSTRAppendCompressionType c ++ body) = 0xFFFFFFFF := by
    rw [udmDSTRAppendCompressionType_eq hc, List.append_assoc, udmPutInt4, getLE_putLE]
    rfl
  have hcode := code_lt c
  have htype : getLE 4 ((udmDSTRAppendCompressionType c ++ body).drop 4) = c.code + 2 ^ 16 * getLE 2 body := by
    have hdrop : (udmDSTRAppendCompressionType c ++ body).drop 4 = udmPutInt2 c.code ++ body := by
      rw [udmDSTRAppendCompressionType_eq hc, List.append_assoc]
      exact List.drop_left' (length_udmPutInt4 _)
    have hadd : getLE 4 (udmPutInt2 c.code ++ body) = getLE 2 (udmPutInt2 c.code ++ body) + 256 ^ 2 *
        getLE 2 ((udmPutInt2 c.code ++ body).drop 2) := getLE_add 2 2 _
    have hlow : (getLE 2 (udmPutInt2 c.code ++ body) : ℤ) = c.code := udmGetInt2_udmPutInt2 (by omega) (by omega) body
    have hhigh : (udmPutInt2 c.code ++ body).drop 2 = body := List.drop_left' (length_putLE 2 _)
    rw [hhigh] at hadd
    rw [hdrop]
    omega
  have hlen : (udmDSTRAppendCompressionType c ++ body).length > 10 := by
    rw [List.length_append, length_udmDSTRAppendCompressionType hc]
    omega
  rw [compressionHeader, if_pos ⟨hlen, hmagic⟩, htype]
  have hmod : (c.code + 2 ^ 16 * getLE 2 body) % 2 ^ 16 = c.code := by omega
  have hdiv : (c.code + 2 ^ 16 * getLE 2 body) / 2 ^ 16 = getLE 2 body := by omega
  simp only [hmod, hdiv, ofCode_code hc, ne_eq, ite_not]

theorem compressionHeader_none {s : List UInt8} (h : ¬ (s.length > 10 ∧ getLE 4 s = 0xFFFFFFFF)) :
    compressionHeader s = (.none, 8) := by
  rw [compressionHeader, if_neg h]
  rfl

/-! ### Reading back -/

/-- The reader finds the documents in a string: all of them, in this order, with their positions
and section lengths, and nothing else. -/
def ReadBack (saveSectionSize : Bool) (template : UdmSection) (s : List UInt8) (docs : List PostingDoc) : Prop :=
  (udmSectionListBlobCoordsUnpack saveSectionSize template s).map (fun r => r.1.map UdmSection.posting) =
    some (docs.map (PostingDoc.posting saveSectionSize))

instance (saveSectionSize : Bool) (template : UdmSection) (s : List UInt8) (docs : List PostingDoc) :
    Decidable (ReadBack saveSectionSize template s docs) :=
  inferInstanceAs (Decidable (_ = _))

section ReadBack

variable {s : List UInt8} {docs : List PostingDoc} {c : UdmBlobComp} {offset : ℕ} {Stat : ReadStat}
variable {items : List Item} {d : PostingDoc}

theorem udmSectionListBlobCoordsUnpack_eq (hheader : udmBlobCoordsGetCompressionType s = (c, offset, Stat)) :
    udmSectionListBlobCoordsUnpack saveSectionSize template s =
      if 2 ^ 63 ≤ offset then none
      else unpackSections saveSectionSize template c (tailBytes c) s.length Stat (s.drop offset) := by
  rw [udmSectionListBlobCoordsUnpack, hheader]

theorem ReadBack.sections (h : ReadBack saveSectionSize template s docs)
    (hheader : udmBlobCoordsGetCompressionType s = (c, offset, Stat)) :
    offset < 2 ^ 63 ∧ ∃ sections ncoords,
      unpackSections saveSectionSize template c (tailBytes c) s.length Stat (s.drop offset) = some (sections, ncoords) ∧
        sections.map UdmSection.posting = docs.map (PostingDoc.posting saveSectionSize) := by
  rw [ReadBack, udmSectionListBlobCoordsUnpack_eq hheader] at h
  split at h
  · exact absurd h (by simp)
  · rename_i hoffset
    obtain ⟨⟨sections, ncoords⟩, hsections, hdocs⟩ := Option.map_eq_some_iff.mp h
    exact ⟨by omega, sections, ncoords, hsections, hdocs⟩

theorem ReadBack.fits (h : ReadBack saveSectionSize template s docs) : ∀ d ∈ docs, d.Fits := by
  obtain ⟨-, sections, ncoords, hsections, hdocs⟩ := h.sections rfl
  exact fits_unpackSections hsections hdocs

theorem ReadBack.head (h : ReadBack saveSectionSize template s (d :: docs))
    (hheader : udmBlobCoordsGetCompressionType s = (c, offset, Stat)) :
    ∃ Stat' rest, readUrlId c Stat (s.drop offset) = .urlId d.urlId Stat' rest := by
  obtain ⟨-, sections, ncoords, hsections, hdocs⟩ := h.sections hheader
  cases sections with
  | nil => exact absurd hdocs (by simp)
  | cons Section sections =>
    obtain ⟨Stat', s', _, _, _, _, -, hurl, -, -⟩ := unpackSections_cons hsections
    have hid : Section.urlId = d.urlId := congrArg Prod.fst (List.cons.inj hdocs).1
    exact ⟨Stat', s', hid ▸ hurl⟩

theorem readBack_items_iff (hheader : udmBlobCoordsGetCompressionType s = (c, offset, Stat)) (hoffset : offset < 2 ^ 63)
    (hs : s.drop offset = items.flatMap Item.bytes) (hreads : ReadsIds c Stat items)
    (hfits : ∀ it ∈ items, it.doc.Fits) :
    ReadBack saveSectionSize template s docs ↔
      (readable (tailBytes c) items).map (Item.posting saveSectionSize) =
        docs.map (PostingDoc.posting saveSectionSize) := by
  have hfuel : (items.flatMap Item.bytes).length ≤ s.length := by
    rw [← hs, List.length_drop]
    omega
  obtain ⟨r, hr, hmap⟩ := @unpackSections_items saveSectionSize template c Stat items hreads hfits (tailBytes c) _ hfuel
  rw [ReadBack, udmSectionListBlobCoordsUnpack_eq hheader, if_neg (by omega), hs, hr, Option.map_some,
    Option.some.injEq, hmap]

/-- Records that have the ids of the documents: they are found unless the last one is too short. -/
theorem readBack_written_iff (hheader : udmBlobCoordsGetCompressionType s = (c, offset, Stat))
    (hoffset : offset < 2 ^ 63) (hs : s.drop offset = items.flatMap Item.bytes)
    (hreads : ReadsIds c Stat items) (hfits : ∀ it ∈ items, it.doc.Fits)
    (hitems : items.map (Item.posting saveSectionSize) = docs.map (PostingDoc.posting saveSectionSize)) :
    ReadBack saveSectionSize template s docs ↔ readable (tailBytes c) items = items := by
  rw [readBack_items_iff hheader hoffset hs hreads hfits, ← hitems]
  constructor
  · intro h
    have hlen := congrArg List.length h
    rw [List.length_map, List.length_map] at hlen
    exact (readable_isPrefix_items _ items).eq_of_length hlen
  · intro h
    rw [h]

theorem not_readBack_of_lost (hheader : udmBlobCoordsGetCompressionType s = (c, offset, Stat)) (hoffset : offset < 2 ^ 63)
    (hs : s.drop offset = items.flatMap Item.bytes) (hreads : ReadsIds c Stat items)
    (hfits : ∀ it ∈ items, it.doc.Fits) (hlost : items.length < docs.length) :
    ¬ ReadBack saveSectionSize template s docs := by
  rw [readBack_items_iff hheader hoffset hs hreads hfits]
  intro h
  have hlen := congrArg List.length h
  rw [List.length_map, List.length_map] at hlen
  have hle := (readable_isPrefix_items (tailBytes c) items).length_le
  omega

theorem header_none (h : ¬ (s.length > 10 ∧ getLE 4 s = 0xFFFFFFFF)) :
    udmBlobCoordsGetCompressionType s = (.none, 0, ⟨0, 0, 0, s⟩) := by
  rw [udmBlobCoordsGetCompressionType, compressionHeader_none h]

theorem not_readBack_of_short (hc : 3 < c.code) {body : List UInt8} (hbody : body.length ≤ 4) :
    ¬ ReadBack saveSectionSize template (udmDSTRAppendCompressionType c ++ body) (d :: docs) := by
  intro h
  have hlen : ¬ (udmDSTRAppendCompressionType c ++ body).length > 10 := by
    rw [List.length_append, length_udmDSTRAppendCompressionType hc]
    omega
  obtain ⟨Stat', rest, hurl⟩ := h.head (header_none fun hlong => hlen hlong.1)
  have hmagic : udmGetInt4 (udmDSTRAppendCompressionType c ++ body) = -1 := by
    rw [udmDSTRAppendCompressionType_eq hc, List.append_assoc, udmGetInt4, udmPutInt4, getLE_putLE]
    rfl
  simp only [readUrlId, List.drop_zero, hmagic, UrlIdRead.urlId.injEq] at hurl
  have hpos := d.urlId_pos
  omega

end ReadBack

/-! ### The parts of a record -/

theorem packDoc_fits {d : PostingDoc} (h : d.Fits) (i : ℤ) (format : ℕ) :
    udmBlobCachePackOneWordDocForBdict i (d.cacheWord word secno) format =
      if udmPutIntWithFormat i format = [] ∧ format ≠ 0 then [] else udmPutIntWithFormat i format ++ d.body := by
  have hlen : CoordValid d.coords.length := by
    have := h.1
    unfold CoordValid
    omega
  have hne : udmCoordPut d.coords.length ≠ [] := coordCode.ne_nil hlen
  simp only [udmBlobCachePackOneWordDocForBdict, PostingDoc.cacheWord, hne, false_or, PostingDoc.body,
    List.append_assoc]

theorem drop_header (hc : 3 < c.code) (body : List UInt8) (k : ℕ) :
    (udmDSTRAppendCompressionType c ++ body).drop (6 + k) = body.drop k := by
  rw [← List.drop_drop, List.drop_left' (length_udmDSTRAppendCompressionType hc)]

theorem udmGetInt4_mod (s : List UInt8) : udmGetInt4 s % 2 ^ 16 = getLE 2 s := by
  have hmod : getLE 4 s % 256 ^ 2 = getLE 2 s := getLE_mod 2 2 s
  rw [udmGetInt4, int32]
  split <;> omega

/-- A string that is taken to begin two bytes too late: its first two bytes are the high ones
of the number that it begins with. -/
theorem udmGetInt4_shifted (h : 0 ≤ i) (hlt : i < 2 ^ 31) (rest : List UInt8) :
    udmGetInt4 ((udmPutInt4 i ++ rest).drop 2) % 2 ^ 16 = i / 2 ^ 16 := by
  have hdiv : getLE 4 (udmPutInt4 i ++ rest) / 256 ^ 2 = getLE 2 ((udmPutInt4 i ++ rest).drop 2) := getLE_div 2 2 _
  have hget := getLE_udmPutInt4 h hlt rest
  rw [udmGetInt4_mod]
  omega

/-! ### Records without ids -/

/-- The records of the documents without their ids. -/
def bareItems (docs : List PostingDoc) : List Item := docs.map fun d => ⟨[], d.urlId, d⟩

theorem map_posting_bareItems (docs : List PostingDoc) :
    (bareItems docs).map (Item.posting saveSectionSize) = docs.map (PostingDoc.posting saveSectionSize) := by
  rw [bareItems, List.map_map]
  rfl

theorem doc_bareItems {it : Item} (h : it ∈ bareItems docs) : it.doc ∈ docs := by
  obtain ⟨d, hd, rfl⟩ := List.mem_map.mp h
  exact hd

theorem packWithoutUrlIds_docs (hfits : ∀ d ∈ docs, d.Fits) :
    packWithoutUrlIds (docs.map (PostingDoc.cacheWord word secno)) = (bareItems docs).flatMap Item.bytes := by
  rw [packWithoutUrlIds, bareItems, List.flatMap_map, List.flatMap_map]
  apply List.flatMap_congr
  intro d hd
  rw [packDoc_fits (hfits d hd), if_neg (by simp)]
  rfl

theorem readable_bareItems (hfits : ∀ d ∈ docs, d.Fits) : readable 1 (bareItems docs) = bareItems docs := by
  have hlen : ∀ it ∈ bareItems docs, 2 ≤ it.bytes.length := fun it hit => by
    have hbody := two_le_length_body (hfits _ (doc_bareItems hit))
    rw [Item.bytes, List.length_append]
    omega
  rw [readable_eq_self_iff (by decide) hlen]
  intro it hit
  have := hlen it (List.mem_of_mem_getLast? hit)
  omega

/-! ### Without compression -/

/-- The records with the whole ids. -/
def simpleItems (docs : List PostingDoc) : List Item := docs.map fun d => ⟨udmPutInt4 d.urlId, d.urlId, d⟩

theorem packSimple_docs (hfits : ∀ d ∈ docs, d.Fits) :
    udmBlobCachePackOneWordForBdictSimple (docs.map (PostingDoc.cacheWord word secno)) =
      (simpleItems docs).flatMap Item.bytes := by
  rw [udmBlobCachePackOneWordForBdictSimple, simpleItems, List.flatMap_map, List.flatMap_map]
  apply List.flatMap_congr
  intro d hd
  have hlen : CoordValid d.coords.length := by
    have := (hfits d hd).1
    unfold CoordValid
    omega
  have hne : udmCoordPut d.coords.length ≠ [] := coordCode.ne_nil hlen
  simp only [PostingDoc.cacheWord, if_neg hne, Item.bytes, PostingDoc.body, List.append_assoc]

theorem readsIds_simpleItems (Stat : ReadStat) (docs : List PostingDoc) : ReadsIds .none Stat (simpleItems docs) := by
  induction docs with
  | nil => exact .nil Stat
  | cons d docs ih =>
    refine .cons (fun rest => ?_) ih
    have hdrop : (udmPutInt4 d.urlId ++ rest).drop 4 = rest := List.drop_left' (length_udmPutInt4 _)
    rw [readUrlId, udmGetInt4_udmPutInt4 (le_of_lt d.urlId_pos) d.urlId_lt, hdrop]

/-- **Without compression** the documents are always found. -/
theorem readBack_simple (p : PostingList) (hfits : ∀ d ∈ p.docs, d.Fits) :
    ReadBack saveSectionSize template
      (udmBlobCachePackOneWordForBdictSimple (p.docs.map (PostingDoc.cacheWord word secno))) p.docs := by
  rw [packSimple_docs hfits]
  have hmem : ∀ it ∈ simpleItems p.docs, it.doc ∈ p.docs ∧ it.idBytes.length = 4 := fun it hit => by
    obtain ⟨d, hd, rfl⟩ := List.mem_map.mp hit
    exact ⟨hd, length_udmPutInt4 _⟩
  have hlen : ∀ it ∈ simpleItems p.docs, 6 ≤ it.bytes.length := fun it hit => by
    have hbody := two_le_length_body (hfits _ (hmem it hit).1)
    rw [Item.bytes, List.length_append, (hmem it hit).2]
    omega
  have hfirst : getLE 4 ((simpleItems p.docs).flatMap Item.bytes) = p.head.urlId.toNat := by
    rw [PostingList.docs, simpleItems, List.map_cons, List.flatMap_cons, Item.bytes, List.append_assoc]
    exact getLE_udmPutInt4 (le_of_lt p.head.urlId_pos) p.head.urlId_lt _
  have hplain : ¬ (((simpleItems p.docs).flatMap Item.bytes).length > 10 ∧
      getLE 4 ((simpleItems p.docs).flatMap Item.bytes) = 0xFFFFFFFF) := by
    rintro ⟨-, hmagic⟩
    have hlt := p.head.urlId_lt
    omega
  apply (readBack_written_iff (header_none hplain) (by decide) rfl (readsIds_simpleItems _ _)
    (fun it hit => hfits _ (hmem it hit).1) _).mpr
  · rw [show tailBytes .none = 5 from rfl, readable_eq_self_iff (by decide) hlen]
    intro it hit
    have := hlen it (List.mem_of_mem_getLast? hit)
    omega
  · rw [simpleItems, List.map_map]
    rfl

/-! ### A single range -/

theorem readsIds_singleRange {Stat : ReadStat} (h : breaks (Stat.curUrlId - 1) (docs.map PostingDoc.urlId) = 0) :
    ReadsIds .singleRange Stat (bareItems docs) := by
  induction docs generalizing Stat with
  | nil => exact .nil Stat
  | cons d docs ih =>
    rw [List.map_cons, breaks] at h
    have hid : d.urlId = Stat.curUrlId - 1 + 1 := by
      by_contra hne
      rw [if_neg hne] at h
      omega
    rw [if_pos hid, Nat.zero_add] at h
    have hcur : d.urlId = Stat.curUrlId := by omega
    have hread : ∀ rest, readUrlId .singleRange Stat ([] ++ rest) =
        .urlId d.urlId { Stat with curUrlId := Stat.curUrlId + 1 } rest := fun rest => by
      rw [readUrlId, hcur]
      rfl
    apply ReadsIds.cons hread
    apply ih
    show breaks (Stat.curUrlId + 1 - 1) (docs.map PostingDoc.urlId) = 0
    rw [Int.add_sub_cancel, ← hcur, h]

/-- **A single range** is found unless the two low bytes of its first id are zero. -/
theorem readBack_singleRange_iff (p : PostingList) (hfits : ∀ d ∈ p.docs, d.Fits)
    (hrange : p.Stat.maxUrlId - p.Stat.minUrlId = p.tail.length) :
    ReadBack saveSectionSize template
      (udmBlobCachePackOneWordForBdictURLIDRange (p.docs.map (PostingDoc.cacheWord word secno)) p.Stat) p.docs ↔
      p.head.urlId % 2 ^ 16 ≠ 0 := by
  have hc : 3 < UdmBlobComp.singleRange.code := by decide
  have hpos := p.head.urlId_pos
  have hmin : p.Stat.minUrlId = p.head.urlId := rfl
  rw [udmBlobCachePackOneWordForBdictURLIDRange, List.append_assoc, List.append_assoc, packWithoutUrlIds_docs hfits,
    hmin]
  generalize hrest : udmPutInt4 p.Stat.maxUrlId ++ (bareItems p.docs).flatMap Item.bytes = rest
  have hlow := getLE_two_udmPutInt4 (le_of_lt hpos) p.head.urlId_lt rest
  have hbody : 4 < (udmPutInt4 p.head.urlId ++ rest).length := by
    rw [← hrest, List.length_append, List.length_append, length_udmPutInt4, length_udmPutInt4]
    omega
  have hsize := compressionHeader_append hc hbody
  constructor
  · intro h hzero
    have hheader : udmBlobCoordsGetCompressionType (udmDSTRAppendCompressionType .singleRange ++
        (udmPutInt4 p.head.urlId ++ rest)) = (.singleRange, 8 + 8, ⟨udmGetInt4 ((udmPutInt4 p.head.urlId ++ rest).drop 2),
          0, 0, udmDSTRAppendCompressionType .singleRange ++ (udmPutInt4 p.head.urlId ++ rest)⟩) := by
      rw [udmBlobCoordsGetCompressionType, hsize, if_pos (by omega)]
      simp only [drop_header hc _ 2]
    obtain ⟨Stat', rest', hurl⟩ := h.head hheader
    have hshift := udmGetInt4_shifted (le_of_lt hpos) p.head.urlId_lt rest
    simp only [readUrlId, UrlIdRead.urlId.injEq] at hurl
    rw [hurl.1] at hshift
    omega
  · intro hne
    have hheader : udmBlobCoordsGetCompressionType (udmDSTRAppendCompressionType .singleRange ++
        (udmPutInt4 p.head.urlId ++ rest)) = (.singleRange, 6 + 8, ⟨p.head.urlId, 0, 0,
          udmDSTRAppendCompressionType .singleRange ++ (udmPutInt4 p.head.urlId ++ rest)⟩) := by
      rw [udmBlobCoordsGetCompressionType, hsize, if_neg (by omega)]
      simp only [drop_header hc _ 0, List.drop_zero, udmGetInt4_udmPutInt4 (le_of_lt hpos) p.head.urlId_lt]
    have hdrop : (udmDSTRAppendCompressionType .singleRange ++ (udmPutInt4 p.head.urlId ++ rest)).drop (6 + 8) =
        (bareItems p.docs).flatMap Item.bytes := by
      rw [drop_header hc, ← hrest, ← List.append_assoc]
      exact List.drop_left' (by rw [List.length_append, length_udmPutInt4, length_udmPutInt4])
    have hids : breaks p.head.urlId p.tailIds = 0 := by
      apply breaks_eq_zero p.ascending
      show p.Stat.maxUrlId ≤ p.Stat.minUrlId + (p.tail.map PostingDoc.urlId).length
      rw [List.length_map]
      omega
    apply (readBack_written_iff hheader (by decide) hdrop (readsIds_singleRange _)
      (fun it hit => hfits _ (doc_bareItems hit)) (map_posting_bareItems p.docs)).mpr (readable_bareItems hfits)
    show breaks (p.head.urlId - 1) (p.head.urlId :: p.tailIds) = 0
    rw [breaks, if_pos (by omega), hids]

end MnoGoSearch.Blob
