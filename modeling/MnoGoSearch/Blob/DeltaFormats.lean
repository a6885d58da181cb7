import MnoGoSearch.Blob.Formats

/-!
# The formats with differences of ids

The ids of the documents as differences, of a fixed width or of variable length. A difference
of variable length that is too large is not written, and its document is lost. The loop over
the records ends five bytes before the end of the string, so a shorter last record is lost too.
-/

namespace MnoGoSearch.Blob

open Lib.LittleEndian Lib.Ascending Words

variable {word : CString} {secno : UInt8} {saveSectionSize : Bool} {template : UdmSection} {p : PostingList}
variable {delta : ℤ}

/-! ### The records -/

/-- The records of documents behind the id `urlIdPrev`, when the reader is at the id `cur`: a
document whose difference cannot be written has no record. -/
@[grind =] def deltaItems (format : ℕ) : ℤ → ℤ → List PostingDoc → List Item
  | _, _, [] => []
  | urlIdPrev, cur, d :: docs =>
    let delta := d.urlId - urlIdPrev
    if udmPutIntWithFormat delta format = [] then deltaItems format d.urlId cur docs
    else ⟨udmPutIntWithFormat delta format, cur + delta, d⟩ :: deltaItems format d.urlId (cur + delta) docs

section Items

variable {format : ℕ} {urlIdPrev cur : ℤ} {docs : List PostingDoc}

theorem packDeltas_docs (hformat : format ≠ 0) (hfits : ∀ d ∈ docs, d.Fits) :
    packDeltas format urlIdPrev (docs.map (PostingDoc.cacheWord word secno)) =
      (deltaItems format urlIdPrev cur docs).flatMap Item.bytes := by
  induction docs generalizing urlIdPrev cur with
  | nil => rfl
  | cons d docs ih =>
    obtain ⟨hd, hdocs⟩ := List.forall_mem_cons.mp hfits
    rw [List.map_cons, packDeltas, PostingDoc.cacheWord_urlId, packDoc_fits hd, deltaItems]
    by_cases hempty : udmPutIntWithFormat (d.urlId - urlIdPrev) format = []
    · rw [if_pos ⟨hempty, hformat⟩, if_pos hempty, List.nil_append, ih hdocs]
    · rw [if_neg (fun h => hempty h.1), if_neg hempty, List.flatMap_cons, Item.bytes, ih hdocs]

theorem mem_deltaItems {it : Item} (h : it ∈ deltaItems format urlIdPrev cur docs) : it.doc ∈ docs ∧ it.idBytes ≠ [] := by
  induction docs generalizing urlIdPrev cur with
  | nil => exact absurd h (by simp [deltaItems])
  | cons d docs ih =>
    rw [deltaItems] at h
    split at h
    · obtain ⟨hdoc, hne⟩ := ih h
      exact ⟨List.mem_cons_of_mem _ hdoc, hne⟩
    · rename_i hwritten
      cases List.mem_cons.mp h with
      | inl heq =>
        rw [heq]
        exact ⟨List.mem_cons_self, hwritten⟩
      | inr hmem =>
        obtain ⟨hdoc, hne⟩ := ih hmem
        exact ⟨List.mem_cons_of_mem _ hdoc, hne⟩

theorem length_deltaItems_le : (deltaItems format urlIdPrev cur docs).length ≤ docs.length := by
  induction docs generalizing urlIdPrev cur with
  | nil => exact le_rfl
  | cons d docs ih =>
    rw [deltaItems]
    split
    · exact ih.trans (Nat.le_succ _)
    · exact Nat.succ_le_succ ih

theorem length_deltaItems_lt {delta : ℤ} (hmem : delta ∈ differences urlIdPrev (docs.map PostingDoc.urlId))
    (hempty : udmPutIntWithFormat delta format = []) : (deltaItems format urlIdPrev cur docs).length < docs.length := by
  induction docs generalizing urlIdPrev cur with
  | nil => exact absurd hmem (by simp [differences])
  | cons d docs ih =>
    rw [List.map_cons, differences, List.mem_cons] at hmem
    rw [deltaItems, List.length_cons]
    split
    · exact Nat.lt_succ_of_le length_deltaItems_le
    · rename_i hwritten
      cases hmem with
      | inl heq => exact absurd (heq ▸ hempty) hwritten
      | inr hmem => exact Nat.succ_lt_succ (ih hmem)

theorem map_posting_deltaItems
    (hwritten : ∀ delta ∈ differences urlIdPrev (docs.map PostingDoc.urlId), udmPutIntWithFormat delta format ≠ []) :
    (deltaItems format urlIdPrev urlIdPrev docs).map (Item.posting saveSectionSize) =
      docs.map (PostingDoc.posting saveSectionSize) := by
  induction docs generalizing urlIdPrev with
  | nil => rfl
  | cons d docs ih =>
    obtain ⟨hd, hdocs⟩ := List.forall_mem_cons.mp hwritten
    have hcur : urlIdPrev + (d.urlId - urlIdPrev) = d.urlId := by omega
    rw [deltaItems, if_neg hd, hcur, List.map_cons, List.map_cons, ih hdocs]
    rfl

theorem getLast?_deltaItems {d : PostingDoc}
    (hwritten : ∀ delta ∈ differences urlIdPrev ((d :: docs).map PostingDoc.urlId), udmPutIntWithFormat delta format ≠ []) :
    ∃ it, (deltaItems format urlIdPrev cur (d :: docs)).getLast? = some it ∧
      it.bytes = udmPutIntWithFormat
        ((differences d.urlId (docs.map PostingDoc.urlId)).getLastD (d.urlId - urlIdPrev)) format ++
          (docs.getLastD d).body := by
  induction docs generalizing urlIdPrev cur d with
  | nil =>
    have hd := (List.forall_mem_cons.mp hwritten).1
    rw [deltaItems, if_neg hd]
    exact ⟨_, rfl, rfl⟩
  | cons e docs ih =>
    obtain ⟨hd, hdocs⟩ := List.forall_mem_cons.mp hwritten
    obtain ⟨it, hlast, hbytes⟩ := @ih d.urlId (cur + (d.urlId - urlIdPrev)) e hdocs
    refine ⟨it, ?_, ?_⟩
    · rw [deltaItems, if_neg hd]
      rw [deltaItems] at hlast ⊢
      rw [if_neg (List.forall_mem_cons.mp hdocs).1] at hlast ⊢
      rw [List.getLast?_cons_cons, hlast]
    · rw [hbytes, List.map_cons, differences, List.getLastD_cons, List.getLastD_cons]

end Items

/-- How a format reads what it writes. -/
def ReadsDeltas (c : UdmBlobComp) (format : ℕ) (bound : ℤ) : Prop :=
  ∀ delta, 0 ≤ delta → delta < bound → udmPutIntWithFormat delta format ≠ [] → ∀ Stat rest,
    readUrlId c Stat (udmPutIntWithFormat delta format ++ rest) = Stat.addDelta delta rest

theorem readsIds_deltaItems {c : UdmBlobComp} {format : ℕ} {bound : ℤ} (hreads : ReadsDeltas c format bound)
    {urlIdPrev : ℤ} {docs : List PostingDoc}
    (hdiff : ∀ delta ∈ differences urlIdPrev (docs.map PostingDoc.urlId), 0 ≤ delta ∧ delta < bound) (Stat : ReadStat) :
    ReadsIds c Stat (deltaItems format urlIdPrev Stat.curUrlId docs) := by
  induction docs generalizing urlIdPrev Stat with
  | nil => exact .nil Stat
  | cons d docs ih =>
    obtain ⟨hd, hdocs⟩ := List.forall_mem_cons.mp hdiff
    rw [deltaItems]
    split
    · exact ih hdocs Stat
    · rename_i hwritten
      have hread := fun rest => hreads _ hd.1 hd.2 hwritten Stat rest
      exact .cons hread (ih hdocs { Stat with curUrlId := Stat.curUrlId + (d.urlId - urlIdPrev) })

/-! ### Reading them -/

namespace PostingList

/-- The last record, its id written in a format. -/
def lastRecord (p : PostingList) (format : ℕ) : List UInt8 :=
  udmPutIntWithFormat ((differences p.head.urlId p.tailIds).getLastD 0) format ++ (p.tail.getLastD p.head).body

end PostingList

/-- **Differences that are all written**: the documents are found unless the last record has
less than six bytes. -/
theorem readBack_deltas_iff {p : PostingList} (hfits : ∀ d ∈ p.docs, d.Fits) (htwo : p.tail ≠ []) {c : UdmBlobComp}
    (htail : tailBytes c = 5) {format : ℕ} (hformat : format ≠ 0) {bound : ℤ} (hreads : ReadsDeltas c format bound)
    {urlIdPrev : ℤ}
    (hdiff : ∀ delta ∈ differences urlIdPrev (p.head.urlId :: p.tailIds),
      0 ≤ delta ∧ delta < bound ∧ udmPutIntWithFormat delta format ≠ [])
    {s : List UInt8} {offset : ℕ} {Stat : ReadStat} (hheader : udmBlobCoordsGetCompressionType s = (c, offset, Stat))
    (hoffset : offset < 2 ^ 63) (hcur : Stat.curUrlId = urlIdPrev)
    (hs : s.drop offset = packDeltas format urlIdPrev (p.docs.map (PostingDoc.cacheWord word secno))) :
    ReadBack saveSectionSize template s p.docs ↔ 5 < (p.lastRecord format).length := by
  subst hcur
  have hwritten : ∀ delta ∈ differences Stat.curUrlId (p.docs.map PostingDoc.urlId),
      udmPutIntWithFormat delta format ≠ [] := fun delta h => (hdiff delta h).2.2
  rw [@packDeltas_docs word secno format _ Stat.curUrlId _ hformat hfits] at hs
  rw [readBack_written_iff hheader hoffset hs
    (readsIds_deltaItems hreads (fun delta h => ⟨(hdiff delta h).1, (hdiff delta h).2.1⟩) Stat)
    (fun it hit => hfits _ (mem_deltaItems hit).1) (map_posting_deltaItems hwritten), htail]
  have hlen : ∀ it ∈ deltaItems format Stat.curUrlId Stat.curUrlId p.docs, 3 ≤ it.bytes.length := fun it hit => by
    obtain ⟨hdoc, hne⟩ := mem_deltaItems hit
    have hbody := two_le_length_body (hfits _ hdoc)
    have hid := List.length_pos_iff.mpr hne
    rw [Item.bytes, List.length_append]
    omega
  obtain ⟨it, hlast, hbytes⟩ := @getLast?_deltaItems format Stat.curUrlId Stat.curUrlId p.tail p.head hwritten
  have hdelta : (differences p.head.urlId p.tailIds).getLastD (p.head.urlId - Stat.curUrlId) =
      (differences p.head.urlId p.tailIds).getLastD 0 := by
    obtain ⟨e, tail, htail⟩ := List.exists_cons_of_ne_nil htwo
    rw [PostingList.tailIds, htail, List.map_cons, differences, List.getLastD_cons, List.getLastD_cons]
  rw [readable_eq_self_iff (by decide) hlen, PostingList.docs, hlast]
  simp only [Option.mem_some_iff, forall_eq', hbytes]
  rw [PostingList.lastRecord, ← hdelta]
  rfl

/-- A string of differences begins with the first one, and has at least six bytes for two
documents. -/
theorem packDeltas_begin {p : PostingList} (hfits : ∀ d ∈ p.docs, d.Fits) (htwo : p.tail ≠ []) {format : ℕ} {urlIdPrev : ℤ}
    (hwritten : ∀ delta ∈ differences urlIdPrev (p.head.urlId :: p.tailIds), udmPutIntWithFormat delta format ≠ []) :
    ∃ rest, packDeltas format urlIdPrev (p.docs.map (PostingDoc.cacheWord word secno)) =
      udmPutIntWithFormat (p.head.urlId - urlIdPrev) format ++ rest ∧
        4 < (udmPutIntWithFormat (p.head.urlId - urlIdPrev) format ++ rest).length := by
  obtain ⟨e, tail, htail⟩ := List.exists_cons_of_ne_nil htwo
  rw [PostingList.tailIds, htail, List.map_cons] at hwritten
  obtain ⟨hhead, htailw⟩ := List.forall_mem_cons.mp hwritten
  have he := (List.forall_mem_cons.mp htailw).1
  rw [PostingList.docs, htail] at hfits
  obtain ⟨hd, hdocs⟩ := List.forall_mem_cons.mp hfits
  have hefits := (List.forall_mem_cons.mp hdocs).1
  have hpack : packDeltas format urlIdPrev (p.docs.map (PostingDoc.cacheWord word secno)) =
      udmPutIntWithFormat (p.head.urlId - urlIdPrev) format ++ (p.head.body ++
        (udmPutIntWithFormat (e.urlId - p.head.urlId) format ++ e.body ++
          packDeltas format e.urlId (tail.map (PostingDoc.cacheWord word secno)))) := by
    rw [PostingList.docs, htail, List.map_cons, List.map_cons, packDeltas, packDeltas, PostingDoc.cacheWord_urlId,
      PostingDoc.cacheWord_urlId, packDoc_fits hd, packDoc_fits hefits, if_neg (fun h => hhead h.1),
      if_neg (fun h => he h.1), List.append_assoc]
  refine ⟨_, hpack, ?_⟩
  have hbody := two_le_length_body hd
  have hebody := two_le_length_body hefits
  have hid := List.length_pos_iff.mpr hhead
  have heid := List.length_pos_iff.mpr he
  simp only [List.length_append]
  omega

theorem mem_differences_tailIds (h : delta ∈ differences p.head.urlId p.tailIds) :
    0 < delta ∧ delta ≤ p.Stat.maxUrlIdDelta :=
  ⟨differences_pos p.ascending delta h, (le_foldl_max 0 _).2 delta h⟩

theorem fixed_differences {format : ℕ} (hne : ∀ i, udmPutIntWithFormat i format ≠ []) {urlIdPrev bound : ℤ}
    (hprev : urlIdPrev ≤ p.head.urlId) (hfirst : p.head.urlId - urlIdPrev < bound) (hdelta : p.Stat.maxUrlIdDelta < bound) :
    ∀ delta ∈ differences urlIdPrev (p.head.urlId :: p.tailIds),
      0 ≤ delta ∧ delta < bound ∧ udmPutIntWithFormat delta format ≠ [] := by
  refine List.forall_mem_cons.mpr ⟨⟨by omega, hfirst, hne _⟩, fun delta h => ?_⟩
  obtain ⟨hlow, hhigh⟩ := mem_differences_tailIds h
  exact ⟨by omega, by omega, hne _⟩

/-! ### Two bytes -/

theorem readsDeltas_two {c : UdmBlobComp} (hc : c = .urlidDelta2Bytes ∨ c = .urlidDelta2BytesWithOffset) :
    ReadsDeltas c 2 (2 ^ 16) := by
  intro delta hpos hlt _ Stat rest
  have hput : udmPutIntWithFormat delta 2 = udmPutInt2 delta := rfl
  have hdrop : (udmPutInt2 delta ++ rest).drop 2 = rest := List.drop_left' (length_putLE 2 _)
  cases hc with
  | inl hc => rw [hc, hput, readUrlId, udmGetInt2_udmPutInt2 hpos hlt, hdrop]
  | inr hc => rw [hc, hput, readUrlId, udmGetInt2_udmPutInt2 hpos hlt, hdrop]

theorem udmPutInt2_ne_nil (i : ℤ) : udmPutIntWithFormat i 2 ≠ [] := by
  simp [udmPutIntWithFormat, udmPutInt2, putLE]

/-- **Differences of two bytes** behind a small first id. -/
theorem readBack_delta2Bytes_iff (p : PostingList) (hfits : ∀ d ∈ p.docs, d.Fits) (htwo : p.tail ≠ [])
    (hmin : p.Stat.minUrlId ≤ 0xFFFF) (hdelta : p.Stat.maxUrlIdDelta ≤ 0xFFFF) :
    ReadBack saveSectionSize template
      (udmBlobCachePackOneWordForBdictURLIDDeltaFixed (p.docs.map (PostingDoc.cacheWord word secno)) 2 0) p.docs ↔
      5 < (p.lastRecord 2).length := by
  have hc : 3 < UdmBlobComp.urlidDelta2Bytes.code := by decide
  have hpos := p.head.urlId_pos
  have hmin' : p.head.urlId ≤ 0xFFFF := hmin
  have hdiff : ∀ delta ∈ differences 0 (p.head.urlId :: p.tailIds),
      0 ≤ delta ∧ delta < 2 ^ 16 ∧ udmPutIntWithFormat delta 2 ≠ [] :=
    fixed_differences udmPutInt2_ne_nil (by omega) (by omega) (by omega)
  obtain ⟨rest, hbody, hlen⟩ := @packDeltas_begin word secno p hfits htwo 2 0 fun delta h => (hdiff delta h).2.2
  have hlow : (getLE 2 (udmPutIntWithFormat (p.head.urlId - 0) 2 ++ rest) : ℤ) = p.head.urlId - 0 :=
    udmGetInt2_udmPutInt2 (by omega) (by omega) rest
  have hpack : udmBlobCachePackOneWordForBdictURLIDDeltaFixed (p.docs.map (PostingDoc.cacheWord word secno)) 2 0 =
      udmDSTRAppendCompressionType .urlidDelta2Bytes ++
        packDeltas 2 0 (p.docs.map (PostingDoc.cacheWord word secno)) := rfl
  rw [← hbody] at hlow hlen
  have hheader : udmBlobCoordsGetCompressionType (udmDSTRAppendCompressionType .urlidDelta2Bytes ++
      packDeltas 2 0 (p.docs.map (PostingDoc.cacheWord word secno))) =
        (.urlidDelta2Bytes, 6 + 0, ⟨0, 0, 0, udmDSTRAppendCompressionType .urlidDelta2Bytes ++
          packDeltas 2 0 (p.docs.map (PostingDoc.cacheWord word secno))⟩) := by
    rw [udmBlobCoordsGetCompressionType, compressionHeader_append hc hlen, if_neg (by omega)]
  rw [hpack]
  exact readBack_deltas_iff hfits htwo rfl (by decide) (readsDeltas_two (Or.inl rfl)) hdiff hheader (by decide) rfl
    (drop_header hc _ 0)

/-- **Differences of two bytes** with an offset. -/
theorem readBack_delta2BytesWithOffset_iff (p : PostingList) (hfits : ∀ d ∈ p.docs, d.Fits) (htwo : p.tail ≠ [])
    (hmin : 0xFFFF < p.Stat.minUrlId) (hdelta : p.Stat.maxUrlIdDelta ≤ 0xFFFF) :
    ReadBack saveSectionSize template
      (udmBlobCachePackOneWordForBdictURLIDDeltaFixed (p.docs.map (PostingDoc.cacheWord word secno)) 2 p.Stat.minUrlId)
        p.docs ↔ 5 < (p.lastRecord 2).length := by
  have hc : 3 < UdmBlobComp.urlidDelta2BytesWithOffset.code := by decide
  have hlt := p.head.urlId_lt
  have hmin' : 0xFFFF < p.head.urlId := hmin
  have hdiff : ∀ delta ∈ differences (p.head.urlId / 2 ^ 16 * 2 ^ 16) (p.head.urlId :: p.tailIds),
      0 ≤ delta ∧ delta < 2 ^ 16 ∧ udmPutIntWithFormat delta 2 ≠ [] :=
    fixed_differences udmPutInt2_ne_nil (by omega) (by omega) (by omega)
  obtain ⟨rest, hbegin, hlen⟩ := @packDeltas_begin word secno p hfits htwo 2 _ fun delta h => (hdiff delta h).2.2
  have hpack : udmBlobCachePackOneWordForBdictURLIDDeltaFixed (p.docs.map (PostingDoc.cacheWord word secno)) 2
      p.Stat.minUrlId = udmDSTRAppendCompressionType .urlidDelta2BytesWithOffset ++
        (udmPutInt2 (p.head.urlId / 2 ^ 16) ++
          packDeltas 2 (p.head.urlId / 2 ^ 16 * 2 ^ 16) (p.docs.map (PostingDoc.cacheWord word secno))) := by
    have hzero : p.head.urlId ≠ 0 := by omega
    show (if 2 = 1 then _ else (if p.head.urlId = 0 then _ else _) ++ _) = _
    rw [if_neg (by decide), if_neg hzero, List.append_assoc]
    rfl
  rw [hpack]
  rw [← hbegin] at hlen
  generalize hrecords : packDeltas 2 (p.head.urlId / 2 ^ 16 * 2 ^ 16) (p.docs.map (PostingDoc.cacheWord word secno)) =
    records at hlen
  have hlow := @udmGetInt2_udmPutInt2 (p.head.urlId / 2 ^ 16) (by omega) (by omega) records
  have hlow' : (getLE 2 (udmPutInt2 (p.head.urlId / 2 ^ 16) ++ records) : ℤ) = p.head.urlId / 2 ^ 16 := hlow
  have hlen' : 4 < (udmPutInt2 (p.head.urlId / 2 ^ 16) ++ records).length := by
    rw [List.length_append]
    omega
  have hdrop : (udmDSTRAppendCompressionType .urlidDelta2BytesWithOffset ++
      (udmPutInt2 (p.head.urlId / 2 ^ 16) ++ records)).drop (6 + 2) = records := by
    rw [drop_header hc]
    exact List.drop_left' (length_putLE 2 _)
  rw [← hrecords] at hdrop ⊢
  apply readBack_deltas_iff hfits htwo rfl (by decide) (readsDeltas_two (Or.inr rfl)) hdiff _ _ _ hdrop
  · exact ⟨p.head.urlId / 2 ^ 16 * 2 ^ 16, 0, 0, udmDSTRAppendCompressionType .urlidDelta2BytesWithOffset ++
      (udmPutInt2 (p.head.urlId / 2 ^ 16) ++ records)⟩
  · rw [hrecords, udmBlobCoordsGetCompressionType, compressionHeader_append hc hlen', if_neg (by omega)]
    simp only [drop_header hc _ 0, List.drop_zero, hlow]
  · decide
  · rfl

/-! ### Three bytes -/

theorem readsDeltas_three : ReadsDeltas .urlidDelta3Bytes 3 (2 ^ 24) := by
  intro delta hpos hlt _ Stat rest
  have hput : udmPutIntWithFormat delta 3 = udmPutInt3 delta := rfl
  have hdrop : (udmPutInt3 delta ++ rest).drop 3 = rest := List.drop_left' (length_putLE 3 _)
  rw [hput, readUrlId, udmGetInt3_udmPutInt3 hpos hlt, hdrop]

theorem udmPutInt3_ne_nil (i : ℤ) : udmPutIntWithFormat i 3 ≠ [] := by
  simp [udmPutIntWithFormat, udmPutInt3, putLE]

/-- **Differences of three bytes**: the two low bytes of the first id must not be zero. -/
theorem readBack_delta3Bytes_iff (p : PostingList) (hfits : ∀ d ∈ p.docs, d.Fits) (htwo : p.tail ≠ [])
    (hmin : p.Stat.minUrlId ≤ 0xFFFFFF) (hdelta : p.Stat.maxUrlIdDelta ≤ 0xFFFFFF) :
    ReadBack saveSectionSize template
      (udmBlobCachePackOneWordForBdictURLIDDeltaFixed (p.docs.map (PostingDoc.cacheWord word secno)) 3 0) p.docs ↔
      p.head.urlId % 2 ^ 16 ≠ 0 ∧ 5 < (p.lastRecord 3).length := by
  have hc : 3 < UdmBlobComp.urlidDelta3Bytes.code := by decide
  have hpos := p.head.urlId_pos
  have hmin' : p.head.urlId ≤ 0xFFFFFF := hmin
  have hdiff : ∀ delta ∈ differences 0 (p.head.urlId :: p.tailIds),
      0 ≤ delta ∧ delta < 2 ^ 24 ∧ udmPutIntWithFormat delta 3 ≠ [] :=
    fixed_differences udmPutInt3_ne_nil (by omega) (by omega) (by omega)
  obtain ⟨rest, hbody, hlen⟩ := @packDeltas_begin word secno p hfits htwo 3 0 fun delta h => (hdiff delta h).2.2
  have hget : (getLE 3 (udmPutIntWithFormat (p.head.urlId - 0) 3 ++ rest) : ℤ) = p.head.urlId - 0 :=
    udmGetInt3_udmPutInt3 (by omega) (by omega) rest
  rw [← hbody] at hget hlen
  have hpack : udmBlobCachePackOneWordForBdictURLIDDeltaFixed (p.docs.map (PostingDoc.cacheWord word secno)) 3 0 =
      udmDSTRAppendCompressionType .urlidDelta3Bytes ++
        packDeltas 3 0 (p.docs.map (PostingDoc.cacheWord word secno)) := rfl
  rw [hpack]
  generalize hrecords : packDeltas 3 0 (p.docs.map (PostingDoc.cacheWord word secno)) = records at hget hlen
  have hmod : getLE 3 records % 256 ^ 2 = getLE 2 records := getLE_mod 2 1 records
  have hsize := compressionHeader_append hc hlen
  by_cases hzero : p.head.urlId % 2 ^ 16 = 0
  · -- the header is taken for eight bytes
    have hheader : udmBlobCoordsGetCompressionType (udmDSTRAppendCompressionType .urlidDelta3Bytes ++ records) =
        (.urlidDelta3Bytes, 6 + 2, ⟨0, 0, 0, udmDSTRAppendCompressionType .urlidDelta3Bytes ++ records⟩) := by
      rw [udmBlobCoordsGetCompressionType, hsize, if_pos (by omega)]
    refine ⟨fun h => ?_, fun h => absurd hzero h.1⟩
    obtain ⟨Stat', rest', hurl⟩ := h.head hheader
    have hdiv : getLE 3 records / 256 ^ 2 = getLE 1 (records.drop 2) := getLE_div 2 1 records
    have hlow : getLE 3 (records.drop 2) % 256 ^ 1 = getLE 1 (records.drop 2) := getLE_mod 1 2 _
    simp only [drop_header hc, readUrlId, ReadStat.addDelta, udmGetInt3, UrlIdRead.urlId.injEq] at hurl
    omega
  · have hheader : udmBlobCoordsGetCompressionType (udmDSTRAppendCompressionType .urlidDelta3Bytes ++ records) =
        (.urlidDelta3Bytes, 6 + 0, ⟨0, 0, 0, udmDSTRAppendCompressionType .urlidDelta3Bytes ++ records⟩) := by
      rw [udmBlobCoordsGetCompressionType, hsize, if_neg (by omega)]
    have hdrop : (udmDSTRAppendCompressionType .urlidDelta3Bytes ++ records).drop (6 + 0) =
        packDeltas 3 0 (p.docs.map (PostingDoc.cacheWord word secno)) := by
      rw [drop_header hc, hrecords, List.drop_zero]
    have hiff := @readBack_deltas_iff word secno saveSectionSize template p hfits htwo _ rfl _ (by decide) _
      readsDeltas_three _ hdiff _ _ _ hheader (by decide) rfl hdrop
    exact ⟨fun h => ⟨hzero, hiff.mp h⟩, fun h => hiff.mpr h.2⟩

/-! ### Variable length -/

theorem udmPutIntWithFormat_five (h : 0 ≤ delta) (hlt : delta < 2 ^ 31) :
    udmPutIntWithFormat delta 5 = udmCoordPut delta.toNat := by
  have hneg : ¬ delta < 0 := by omega
  show udmCoordPut (if delta < 0 then uint32 delta + (2 ^ 64 - 2 ^ 32) else uint32 delta) = _
  rw [if_neg hneg, uint32_of_nonneg h (by omega)]

theorem udmPutIntWithFormat_five_ne_nil (h : 0 ≤ delta) (hlt : delta < 2 ^ 31) :
    udmPutIntWithFormat delta 5 ≠ [] ↔ delta < 0x200000 := by
  rw [udmPutIntWithFormat_five h hlt]
  constructor
  · intro hne
    by_contra hlarge
    apply hne
    apply udmCoordPut_of_not_valid
    unfold CoordValid
    omega
  · intro hsmall
    apply coordCode.ne_nil
    unfold CoordValid
    omega

theorem readsDeltas_variable : ReadsDeltas .urlidDeltaVariable 5 (2 ^ 31) := by
  intro delta hpos hlt hne Stat rest
  have hvalid : CoordValid delta.toNat := by
    have := (udmPutIntWithFormat_five_ne_nil hpos hlt).mp hne
    unfold CoordValid
    omega
  have hdelta : (delta.toNat : ℤ) = delta := Int.toNat_of_nonneg hpos
  rw [udmPutIntWithFormat_five hpos hlt, readUrlId, ofScan_udmCoordPut hvalid]
  simp only [hdelta]

theorem getLE_two_ne_zero {s : List UInt8} (hs : s ≠ []) (h : ∀ b ∈ s.head?, b ≠ 0) : getLE 2 s ≠ 0 := by
  obtain ⟨b, s, rfl⟩ := List.exists_cons_of_ne_nil hs
  have hb : b ≠ 0 := h b rfl
  have hnat : b.toNat ≠ 0 := fun heq => hb (UInt8.toNat_inj.mp heq)
  show b.toNat + 256 * getLE 1 s ≠ 0
  omega

theorem head?_deltaItems {urlIdPrev cur : ℤ} {docs : List PostingDoc}
    (hdiff : ∀ delta ∈ differences urlIdPrev (docs.map PostingDoc.urlId), 0 < delta ∧ delta < 2 ^ 31) :
    ∀ b ∈ ((deltaItems 5 urlIdPrev cur docs).flatMap Item.bytes).head?, b ≠ 0 := by
  induction docs generalizing urlIdPrev cur with
  | nil => simp [deltaItems]
  | cons d docs ih =>
    obtain ⟨hd, hdocs⟩ := List.forall_mem_cons.mp hdiff
    rw [deltaItems]
    split
    · exact ih hdocs
    · rename_i hwritten
      intro b hb
      rw [List.flatMap_cons, Item.bytes, List.append_assoc, List.head?_append_of_ne_nil _ hwritten,
        udmPutIntWithFormat_five (le_of_lt hd.1) hd.2] at hb
      exact udmCoordPut_ne_zero (by omega) (List.mem_of_mem_head? hb)

/-- **Differences of variable length**: none of them may be too large. -/
theorem readBack_deltaVariable_iff (p : PostingList) (hfits : ∀ d ∈ p.docs, d.Fits) (htwo : p.tail ≠ []) :
    ReadBack saveSectionSize template
      (udmBlobCachePackOneWordForBdictURLIDDeltaVariable (p.docs.map (PostingDoc.cacheWord word secno))) p.docs ↔
      (∀ delta ∈ differences 0 (p.head.urlId :: p.tailIds), delta < 0x200000) ∧ 5 < (p.lastRecord 5).length := by
  have hc : 3 < UdmBlobComp.urlidDeltaVariable.code := by decide
  have hpos := p.head.urlId_pos
  have hids : (0 :: p.head.urlId :: p.tailIds).Pairwise (· < ·) := by
    refine List.pairwise_cons.mpr ⟨List.forall_mem_cons.mpr ⟨hpos, fun id hid => ?_⟩, p.ascending⟩
    have := (List.pairwise_cons.mp p.ascending).1 id hid
    omega
  have hlt : ∀ id ∈ p.head.urlId :: p.tailIds, id < 2 ^ 31 := by
    refine List.forall_mem_cons.mpr ⟨p.head.urlId_lt, fun id hid => ?_⟩
    obtain ⟨d, -, rfl⟩ := List.mem_map.mp hid
    exact d.urlId_lt
  have hdiff : ∀ delta ∈ differences 0 (p.head.urlId :: p.tailIds), 0 < delta ∧ delta < 2 ^ 31 := fun delta h =>
    ⟨differences_pos hids delta h, differences_lt le_rfl hids hlt delta h⟩
  have hpack : udmBlobCachePackOneWordForBdictURLIDDeltaVariable (p.docs.map (PostingDoc.cacheWord word secno)) =
      udmDSTRAppendCompressionType .urlidDeltaVariable ++
        packDeltas 5 0 (p.docs.map (PostingDoc.cacheWord word secno)) := rfl
  rw [hpack]
  -- behind the header there is a number that is not zero
  have hheader : 4 < (packDeltas 5 0 (p.docs.map (PostingDoc.cacheWord word secno))).length →
      udmBlobCoordsGetCompressionType (udmDSTRAppendCompressionType .urlidDeltaVariable ++
        packDeltas 5 0 (p.docs.map (PostingDoc.cacheWord word secno))) =
          (.urlidDeltaVariable, 6 + 0, ⟨0, 0, 0, udmDSTRAppendCompressionType .urlidDeltaVariable ++
            packDeltas 5 0 (p.docs.map (PostingDoc.cacheWord word secno))⟩) := by
    intro hlen
    have hfirst : getLE 2 (packDeltas 5 0 (p.docs.map (PostingDoc.cacheWord word secno))) ≠ 0 := by
      apply getLE_two_ne_zero (List.ne_nil_of_length_pos (by omega))
      rw [@packDeltas_docs word secno 5 _ 0 _ (by decide) hfits]
      exact head?_deltaItems fun delta h => hdiff delta h
    rw [udmBlobCoordsGetCompressionType, compressionHeader_append hc hlen, if_neg hfirst]
  by_cases hsmall : ∀ delta ∈ differences 0 (p.head.urlId :: p.tailIds), delta < 0x200000
  · have hwritten : ∀ delta ∈ differences 0 (p.head.urlId :: p.tailIds),
        0 ≤ delta ∧ delta < 2 ^ 31 ∧ udmPutIntWithFormat delta 5 ≠ [] := fun delta h =>
      ⟨le_of_lt (hdiff delta h).1, (hdiff delta h).2,
        (udmPutIntWithFormat_five_ne_nil (le_of_lt (hdiff delta h).1) (hdiff delta h).2).mpr (hsmall delta h)⟩
    obtain ⟨rest, hbody, hlen⟩ := @packDeltas_begin word secno p hfits htwo 5 0 fun delta h => (hwritten delta h).2.2
    rw [← hbody] at hlen
    have hiff := @readBack_deltas_iff word secno saveSectionSize template p hfits htwo _ rfl _ (by decide) _
      readsDeltas_variable _ hwritten _ _ _ (hheader hlen) (by decide) rfl (drop_header hc _ 0)
    exact ⟨fun h => ⟨hsmall, hiff.mp h⟩, fun h => hiff.mpr h.2⟩
  · -- a document is lost
    refine ⟨fun h => absurd h ?_, fun h => absurd h.1 hsmall⟩
    by_cases hlen : 4 < (packDeltas 5 0 (p.docs.map (PostingDoc.cacheWord word secno))).length
    · simp only [not_forall] at hsmall
      obtain ⟨delta, hmem, hlarge⟩ := hsmall
      have hempty : udmPutIntWithFormat delta 5 = [] := by
        by_contra hne
        exact hlarge ((udmPutIntWithFormat_five_ne_nil (le_of_lt (hdiff delta hmem).1) (hdiff delta hmem).2).mp hne)
      have hdrop := drop_header hc (packDeltas 5 0 (p.docs.map (PostingDoc.cacheWord word secno))) 0
      rw [List.drop_zero, @packDeltas_docs word secno 5 _ 0 _ (by decide) hfits] at hdrop
      rw [@packDeltas_docs word secno 5 _ 0 _ (by decide) hfits] at hheader hlen ⊢
      have hreads := @readsIds_deltaItems _ _ _ readsDeltas_variable 0 p.docs
        (fun delta h => ⟨le_of_lt (hdiff delta h).1, (hdiff delta h).2⟩)
      exact not_readBack_of_lost (hheader hlen) (by decide) hdrop (hreads _)
        (fun it hit => hfits _ (mem_deltaItems hit).1) (length_deltaItems_lt hmem hempty)
    · exact not_readBack_of_short hc (by omega)

end MnoGoSearch.Blob
