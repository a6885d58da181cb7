import MnoGoSearch.Blob.Formats

/-!
# The format with several ranges

The ids of the documents as ranges of ids that follow one another, and their number in front.
When its two low bytes are zero the header is taken for eight bytes, the number and the ranges
are read two bytes too late, and the documents are not found: there are too few ranges then, or
the records begin too late to have enough bytes.
-/

namespace MnoGoSearch.Blob

open Lib.PrefixCode Lib.LittleEndian Lib.Ascending Words

variable {word : CString} {secno : UInt8} {saveSectionSize : Bool} {template : UdmSection} {ncoords nrecs : ℕ}
variable {d : PostingDoc} {rest s : List UInt8} {coords : List ℕ} {Stat : ReadStat} {w : ℤ}

/-! ### Ranges -/

theorem rangeLast_mem (w : ℤ) (rest : List ℤ) : (rangeLast w rest).1 ∈ w :: rest := by
  induction rest generalizing w with
  | nil => exact List.mem_cons_self
  | cons w1 rest ih =>
    rw [rangeLast]
    split
    · exact List.mem_cons_self
    · exact List.mem_cons_of_mem _ (ih w1)

theorem le_rangeLast {rest : List ℤ} (h : (w :: rest).Pairwise (· < ·)) : w ≤ (rangeLast w rest).1 := by
  cases List.mem_cons.mp (rangeLast_mem w rest) with
  | inl heq => exact le_of_eq heq.symm
  | inr hmem => exact le_of_lt ((List.pairwise_cons.mp h).1 _ hmem)

theorem length_rangesOf {rest : List ℤ} (h : (w :: rest).Pairwise (· < ·)) :
    (rangesOf (w :: rest)).length = 1 + breaks w rest := by
  induction rest generalizing w with
  | nil => rw [rangesOf, rangeLast, rangesOf, breaks, List.length_singleton]
  | cons w1 rest ih =>
    obtain ⟨hlt, htail⟩ := tail_of_ascending h
    have hw1 := ih htail
    rw [rangesOf, rangeLast, breaks]
    by_cases hgap : w1 > w + 1
    · rw [if_pos hgap, if_neg (by omega), List.length_cons, hw1]
      omega
    · rw [rangesOf, List.length_cons] at hw1
      rw [if_neg hgap, if_pos (by omega), List.length_cons, hw1]
      omega

/-- The bytes of ranges. -/
def putRanges (ranges : List (ℤ × ℤ)) : List UInt8 :=
  ranges.flatMap fun range => udmPutInt4 range.1 ++ udmPutInt4 range.2

theorem length_putRanges (ranges : List (ℤ × ℤ)) : (putRanges ranges).length = 8 * ranges.length := by
  induction ranges with
  | nil => rfl
  | cons range ranges ih =>
    rw [putRanges, List.flatMap_cons, ← putRanges, List.length_append, List.length_append, length_udmPutInt4,
      length_udmPutInt4, ih, List.length_cons]
    omega

/-! ### Reading the ranges -/

theorem readUrlId_load {Stat : ReadStat} {first last : ℤ} (hfirst : 0 ≤ first ∧ first < 2 ^ 31)
    (hlast : 0 ≤ last ∧ last < 2 ^ 31) (hcur : Stat.curUrlId = Stat.rangeMaxUrlId) (hn : Stat.nranges ≠ 0)
    {bytes : List UInt8} (hptr : Stat.rangePtr = udmPutInt4 first ++ udmPutInt4 last ++ bytes) (s : List UInt8) :
    readUrlId .urlidRangeMulti Stat s = .urlId first ⟨first, last, Stat.nranges - 1, bytes⟩ s := by
  have h4 : (udmPutInt4 first ++ udmPutInt4 last ++ bytes).drop 4 = udmPutInt4 last ++ bytes := by
    rw [List.append_assoc]
    exact List.drop_left' (length_udmPutInt4 _)
  have h8 : (udmPutInt4 first ++ udmPutInt4 last ++ bytes).drop 8 = bytes :=
    List.drop_left' (by rw [List.length_append, length_udmPutInt4, length_udmPutInt4])
  have hget : udmGetInt4 (udmPutInt4 first ++ udmPutInt4 last ++ bytes) = first := by
    rw [List.append_assoc]
    exact udmGetInt4_udmPutInt4 hfirst.1 hfirst.2 _
  rw [readUrlId, if_pos ⟨hcur, hn⟩, hptr, h4, h8, hget, udmGetInt4_udmPutInt4 hlast.1 hlast.2]

theorem readUrlId_next {Stat : ReadStat} (hcur : Stat.curUrlId ≠ Stat.rangeMaxUrlId) (s : List UInt8) :
    readUrlId .urlidRangeMulti Stat s =
      .urlId (Stat.curUrlId + 1) { Stat with curUrlId := Stat.curUrlId + 1 } s := by
  rw [readUrlId, if_neg (fun h => hcur h.1)]
  simp only [if_neg hcur]

theorem readsIds_inRange {w : ℤ} {docs : List PostingDoc} (h : (w :: docs.map PostingDoc.urlId).Pairwise (· < ·))
    {Stat : ReadStat} (hcur : Stat.curUrlId = w) (hmax : Stat.rangeMaxUrlId = (rangeLast w (docs.map PostingDoc.urlId)).1)
    (hn : Stat.nranges = (rangesOf (rangeLast w (docs.map PostingDoc.urlId)).2).length) {bytes : List UInt8}
    (hptr : Stat.rangePtr = putRanges (rangesOf (rangeLast w (docs.map PostingDoc.urlId)).2) ++ bytes) :
    ReadsIds .urlidRangeMulti Stat (bareItems docs) := by
  induction docs generalizing w Stat with
  | nil => exact .nil Stat
  | cons d docs ih =>
    obtain ⟨hlt, htail⟩ := tail_of_ascending h
    rw [List.map_cons, rangeLast] at hmax hn hptr
    by_cases hgap : d.urlId > w + 1
    · -- the next range
      rw [if_pos hgap] at hmax hn hptr
      rw [rangesOf] at hn hptr
      rw [putRanges, List.flatMap_cons, ← putRanges, List.append_assoc] at hptr
      have hbound : 0 ≤ (rangeLast d.urlId (docs.map PostingDoc.urlId)).1 ∧
          (rangeLast d.urlId (docs.map PostingDoc.urlId)).1 < 2 ^ 31 := by
        obtain ⟨e, -, he⟩ : ∃ e ∈ d :: docs, PostingDoc.urlId e = (rangeLast d.urlId (docs.map PostingDoc.urlId)).1 :=
          List.mem_map.mp (rangeLast_mem d.urlId (docs.map PostingDoc.urlId))
        rw [← he]
        exact ⟨le_of_lt e.urlId_pos, e.urlId_lt⟩
      have hload := readUrlId_load ⟨le_of_lt d.urlId_pos, d.urlId_lt⟩ hbound (hcur.trans hmax.symm)
        (by rw [hn]; exact Nat.succ_ne_zero _) hptr
      have hnext := @ih d.urlId htail ⟨d.urlId, _, Stat.nranges - 1, _⟩ rfl rfl (by rw [hn]; rfl) rfl
      exact .cons hload hnext
    · -- the same range
      rw [if_neg hgap] at hmax hn hptr
      have hle := le_rangeLast htail
      have hread := @readUrlId_next Stat (by omega)
      have hid : Stat.curUrlId + 1 = d.urlId := by omega
      rw [hid] at hread
      have hnext := @ih d.urlId htail { Stat with curUrlId := d.urlId } rfl hmax hn hptr
      exact .cons hread hnext

/-! ### Too few ranges -/

theorem rest_urlidRangeMulti {Stat' : ReadStat} {s' : List UInt8} {id : ℤ}
    (h : readUrlId .urlidRangeMulti Stat s = .urlId id Stat' s') : s' = s ∧ Stat'.curUrlId = id := by
  rw [readUrlId] at h
  split at h
  · obtain ⟨rfl, rfl, rfl⟩ := UrlIdRead.urlId.inj h
    exact ⟨rfl, rfl⟩
  · obtain ⟨rfl, rfl, rfl⟩ := UrlIdRead.urlId.inj h
    exact ⟨rfl, rfl⟩

/-- An id that does not follow the one before needs a range: there are not more such ids than
ranges remain. Behind the end of its range the reader loads none. -/
theorem breaks_unpackSections {tail fuel k : ℕ} {Stat : ReadStat} {s : List UInt8} {sections : List UdmSection}
    {ncoords : ℕ} (hk : Stat.nranges ≤ k ∨ Stat.rangeMaxUrlId < Stat.curUrlId)
    (h : unpackSections saveSectionSize template .urlidRangeMulti tail fuel Stat s = some (sections, ncoords)) :
    breaks Stat.curUrlId (sections.map UdmSection.urlId) ≤ k := by
  induction sections generalizing k fuel Stat s ncoords with
  | nil => exact Nat.zero_le k
  | cons Section sections ih =>
    obtain ⟨Stat', s', n, rest, fuel', ncoords', -, hurl, -, hrec⟩ := unpackSections_cons h
    rw [List.map_cons, breaks]
    rw [readUrlId] at hurl
    split at hurl
    · -- a range is loaded
      rename_i hload
      obtain ⟨hid, rfl, -⟩ := UrlIdRead.urlId.inj hurl
      have hn : Stat.nranges - 1 ≤ k - 1 := by omega
      have hrest := @ih _ (k - 1) _ _ _ (Or.inl hn) hrec
      rw [← hid]
      simp only at hrest
      split <;> omega
    · rename_i hload
      obtain ⟨hid, rfl, -⟩ := UrlIdRead.urlId.inj hurl
      have hk' : (if Stat.curUrlId = Stat.rangeMaxUrlId then 2 ^ 64 - 1 else Stat.nranges) ≤ k ∨
          Stat.rangeMaxUrlId < Stat.curUrlId + 1 := by
        split <;> omega
      have hrest := @ih _ k _ _ _ hk' hrec
      rw [if_pos hid.symm, ← hid, Nat.zero_add]
      exact hrest

/-! ### Too few bytes -/

theorem length_udmCoordPut_le_of_le {m n : ℕ} (h : m ≤ n) (hn : CoordValid n) :
    (udmCoordPut m).length ≤ (udmCoordPut n).length := by
  unfold CoordValid at hn
  unfold udmCoordPut
  split_ifs <;> simp <;> omega

theorem rest_unpackLoop {pos : ℕ}
    (h : unpackLoop readCoordChecked nrecs pos s = some (coords, rest)) : rest.length ≤ s.length := by
  induction nrecs generalizing pos s coords with
  | zero =>
    simp only [unpackLoop, Option.some.injEq, Prod.mk.injEq] at h
    rw [h.2]
  | succ nrecs ih =>
    rw [unpackLoop] at h
    split at h
    · exact absurd h (by simp)
    · simp only [Option.some.injEq, Prod.mk.injEq] at h
      rw [h.2]
    · rename_i hread
      obtain ⟨⟨coords', rest'⟩, hrec, heq⟩ := Option.map_eq_some_iff.mp h
      obtain ⟨-, rfl⟩ := Prod.mk.inj heq
      have hlen := (readCoordChecked_value hread).2.1
      have hle := ih hrec
      omega

theorem consume_unpackLoop {cs : List ℕ} (hcs : ∀ c ∈ cs, CoordValid c) {pos : ℕ} (hsum : pos + cs.sum < 2 ^ 24)
    (h : unpackLoop readCoordChecked nrecs pos s = some (coords, rest)) (hinit : sums pos cs <+: coords) :
    (cs.flatMap udmCoordPut).length + rest.length ≤ s.length ∧ cs.length ≤ nrecs := by
  induction cs generalizing nrecs pos s coords with
  | nil => exact ⟨by simpa using rest_unpackLoop h, Nat.zero_le _⟩
  | cons c cs ih =>
    rw [List.sum_cons] at hsum
    obtain ⟨hc, hcs⟩ := List.forall_mem_cons.mp hcs
    cases nrecs with
    | zero =>
      simp only [unpackLoop, Option.some.injEq, Prod.mk.injEq] at h
      rw [← h.1] at hinit
      exact absurd (List.prefix_nil.mp hinit) (by simp [sums])
    | succ nrecs =>
      rw [unpackLoop] at h
      split at h
      · exact absurd h (by simp)
      · simp only [Option.some.injEq, Prod.mk.injEq] at h
        rw [← h.1] at hinit
        exact absurd (List.prefix_nil.mp hinit) (by simp [sums])
      · rename_i crd s1 hread
        obtain ⟨⟨coords', rest'⟩, hrec, heq⟩ := Option.map_eq_some_iff.mp h
        obtain ⟨rfl, rfl⟩ := Prod.mk.inj heq
        obtain ⟨hpos, htail⟩ := List.cons_prefix_cons.mp hinit
        obtain ⟨hcrd, hlen, -⟩ := readCoordChecked_value hread
        -- both numbers are small: they are equal
        have heq : crd = c := by
          unfold CoordValid at hc hcrd
          unfold pos24 at hpos
          omega
        rw [← hpos] at hrec
        obtain ⟨hbytes, hcount⟩ := ih hcs (by omega) hrec htail
        rw [List.flatMap_cons, List.length_append, List.length_cons, ← heq]
        omega

theorem dropLast_append_getLastD {l : List ℕ} (h : l ≠ []) : l.dropLast ++ [l.getLastD 0] = l := by
  rw [List.getLastD_eq_getLast?, List.getLast?_eq_some_getLast h]
  exact List.dropLast_append_getLast h

theorem eq_of_dropLast_getLastD {l l' : List ℕ} (h : l ≠ []) (h' : l' ≠ []) (hdrop : l.dropLast = l'.dropLast)
    (hlast : l.getLastD 0 = l'.getLastD 0) : l = l' := by
  rw [← dropLast_append_getLastD h, ← dropLast_append_getLastD h', hdrop, hlast]

theorem sums_prefix {C : ℕ}
    (h : occurrences saveSectionSize d.coords =
      if nrecs = 1 then ([C], C)
      else if saveSectionSize then ((C :: coords).dropLast, (C :: coords).getLastD 0)
      else (C :: coords, 0)) : sums 0 d.coords <+: C :: coords := by
  have hsums : sums 0 d.coords ≠ [] := by
    rw [← List.length_pos_iff, length_sums]
    exact List.length_pos_iff.mpr d.coords_ne_nil
  have hone : [C] <+: C :: coords := List.cons_prefix_cons.mpr ⟨rfl, List.nil_prefix⟩
  unfold occurrences at h
  split at h
  · -- one coordinate
    split at h
    · rw [(Prod.mk.inj h).1]
      exact hone
    · split at h
      · rw [(Prod.mk.inj h).1]
        exact List.dropLast_prefix _
      · exact (Prod.mk.inj h).1 ▸ List.prefix_refl _
  · cases saveSectionSize with
    | true =>
      simp only [if_true] at h
      split at h
      · -- the last of two positions would be the first one
        obtain ⟨hdrop, hlast⟩ := Prod.mk.inj h
        have hpair := dropLast_append_getLastD hsums
        rw [hdrop, hlast] at hpair
        have hpos := d.coords_valid
        rcases hd : d.coords with _ | ⟨c, _ | ⟨c', _ | _⟩⟩
        · exact absurd hd d.coords_ne_nil
        · simp [hd, sums] at hpair
        · rw [hd] at hpair hpos
          have hc' := (hpos c' (by simp)).1
          simp [sums] at hpair
          omega
        · simp [hd, sums] at hpair
      · obtain ⟨hdrop, hlast⟩ := Prod.mk.inj h
        exact eq_of_dropLast_getLastD hsums (by simp) hdrop hlast ▸ List.prefix_refl _
    | false =>
      simp only [Bool.false_eq_true, if_false] at h
      split at h
      · rw [(Prod.mk.inj h).1]
        exact hone
      · exact (Prod.mk.inj h).1 ▸ List.prefix_refl _

theorem consume_readSection {urlId : ℤ} (hs : s ≠ []) {Section : UdmSection}
    (h : readSection saveSectionSize template urlId s = .found Section ncoords rest)
    (hd : Section.posting = d.posting saveSectionSize) : d.body.length + rest.length ≤ s.length := by
  obtain ⟨-, hsum⟩ := fits_of_found h hd
  obtain ⟨nrecs, s1, crd, s2, coords, hnrecs, hzero, hcrd, hunpack, hposting⟩ := readSection_found h
  rw [hd, PostingDoc.posting, Prod.mk.injEq] at hposting
  have hinit := sums_prefix hposting.2
  have hvalid := d.coords_valid
  obtain ⟨c, cs, hcs⟩ := List.exists_cons_of_ne_nil d.coords_ne_nil
  rw [hcs] at hsum hinit hvalid
  rw [PostingDoc.body, hcs]
  rw [readCoord_eq hs] at hnrecs
  obtain ⟨hnvalid, hnlen, -⟩ := readCoordChecked_value hnrecs
  obtain ⟨⟨hpos, hc⟩, hcsvalid⟩ := List.forall_mem_cons.mp hvalid
  obtain ⟨hfirst, htail⟩ := List.cons_prefix_cons.mp hinit
  have hcrdvalid : CoordValid crd := readCoord_value hcrd
  have heq : crd = c := by
    unfold CoordValid at hcrdvalid
    unfold pos24 at hfirst
    omega
  -- the first position is not zero: it has been read from the string
  have hs1 : s1 ≠ [] := by
    rintro rfl
    have hnil : readCoord [] = .value 0 [] := rfl
    rw [hnil, CoordRead.value.injEq] at hcrd
    omega
  rw [readCoord_eq hs1] at hcrd
  have hclen := (readCoordChecked_value hcrd).2.1
  rw [List.sum_cons] at hsum
  rw [← hfirst] at hunpack
  obtain ⟨hbytes, hcount⟩ := consume_unpackLoop (fun e he => (hcsvalid e he).2) (by omega) hunpack htail
  have hnput := @length_udmCoordPut_le_of_le (c :: cs).length nrecs (by rw [List.length_cons]; omega) hnvalid
  rw [heq] at hclen
  rw [List.flatMap_cons, List.length_append, List.length_append]
  omega

theorem consume_unpackSections {fuel : ℕ} {sections : List UdmSection}
    (h : unpackSections saveSectionSize template .urlidRangeMulti 1 fuel Stat s = some (sections, ncoords))
    {docs : List PostingDoc} (hdocs : sections.map UdmSection.posting = docs.map (PostingDoc.posting saveSectionSize)) :
    (docs.flatMap PostingDoc.body).length ≤ s.length := by
  induction sections generalizing fuel Stat s ncoords docs with
  | nil =>
    rw [List.map_nil, eq_comm, List.map_eq_nil_iff] at hdocs
    simp [hdocs]
  | cons Section sections ih =>
    cases docs with
    | nil => simp
    | cons d docs =>
      obtain ⟨Stat', s', n, rest, fuel', ncoords', hlen, hurl, hsection, hrec⟩ := unpackSections_cons h
      obtain ⟨hd, hdocs⟩ := List.cons.inj hdocs
      obtain ⟨rfl, -⟩ := rest_urlidRangeMulti hurl
      have hne : s' ≠ [] := List.ne_nil_of_length_pos (by omega)
      have hfirst := consume_readSection hne hsection hd
      have hrest := ih hrec hdocs
      rw [List.flatMap_cons, List.length_append]
      omega

/-! ### Reading back -/

namespace PostingList

/-- The ranges of the ids. -/
def ranges (p : PostingList) : List (ℤ × ℤ) := rangesOf (p.head.urlId :: p.tailIds)

end PostingList

theorem length_ranges (p : PostingList) : p.ranges.length = 1 + breaks p.head.urlId p.tailIds :=
  length_rangesOf p.ascending

theorem length_ranges_lt (p : PostingList) : 0 < p.ranges.length ∧ p.ranges.length < 2 ^ 31 := by
  have hbreaks := breaks_le_length p.head.urlId p.tailIds
  have hlast := add_length_le_getLastD p.ascending
  have hpos := p.head.urlId_pos
  have hlt : p.tailIds.getLastD p.head.urlId < 2 ^ 31 := by
    rcases htail : p.tailIds with _ | ⟨id, ids⟩
    · exact p.head.urlId_lt
    · have hmem : (id :: ids).getLastD p.head.urlId ∈ p.tailIds := by
        rw [htail, List.getLastD_eq_getLast?, List.getLast?_eq_some_getLast (by simp), Option.getD_some]
        exact List.getLast_mem _
      obtain ⟨d, -, hd⟩ := List.mem_map.mp hmem
      rw [← hd]
      exact d.urlId_lt
  rw [length_ranges]
  change p.head.urlId + (p.tailIds.length : ℤ) ≤ p.tailIds.getLastD p.head.urlId at hlast
  omega

theorem putRanges_begin (p : PostingList) (bytes : List UInt8) :
    ∃ rest, putRanges p.ranges ++ bytes =
      udmPutInt4 p.head.urlId ++ udmPutInt4 (rangeLast p.head.urlId p.tailIds).1 ++ rest ∧
        rest = putRanges (rangesOf (rangeLast p.head.urlId p.tailIds).2) ++ bytes := by
  refine ⟨_, ?_, rfl⟩
  rw [PostingList.ranges, rangesOf, putRanges, List.flatMap_cons, ← putRanges, List.append_assoc]

theorem length_bareItems (docs : List PostingDoc) :
    ((bareItems docs).flatMap Item.bytes).length = (docs.flatMap PostingDoc.body).length := by
  rw [bareItems, List.flatMap_map]
  rfl

/-- **The number of ranges is read two bytes too late**: there are too few ranges, or the records
begin too late. `N` is the number of ranges that is read. -/
theorem not_readBack_shifted {p : PostingList} {s rest : List UInt8} {x N : ℕ} (hN : N = (int32 x % 2 ^ 64).toNat)
    (hhigh : (x / 2 ^ 16 : ℤ) = p.head.urlId % 2 ^ 16) (hzero : x % 2 ^ 16 ≠ 0) (hx : x < 2 ^ 32)
    (hs : s.length = 10 + 8 * p.ranges.length + (p.docs.flatMap PostingDoc.body).length)
    (hheader : udmBlobCoordsGetCompressionType s =
      (.urlidRangeMulti, (12 + 8 * N) % 2 ^ 64, ⟨0, 0, N, (udmPutInt4 p.head.urlId ++ rest).drop 2⟩)) :
    ¬ ReadBack saveSectionSize template s p.docs := by
  intro h
  have hpos := p.head.urlId_pos
  have hlt := p.head.urlId_lt
  obtain ⟨hoffset, sections, ncoords, hsections, hdocs⟩ := h.sections hheader
  have hconsume := consume_unpackSections hsections hdocs
  cases sections with
  | nil => exact absurd hdocs (by simp [PostingList.docs])
  | cons Section sections =>
    have hNne : N ≠ 0 := by
      unfold int32 at hN
      split at hN <;> omega
    obtain ⟨hd, hdocs⟩ := List.cons.inj hdocs
    have hid : Section.urlId = p.head.urlId := congrArg Prod.fst hd
    obtain ⟨Stat', s', n, rest', fuel', ncoords', -, hurl, -, hrec⟩ := unpackSections_cons hsections
    rw [readUrlId, if_pos ⟨rfl, hNne⟩] at hurl
    obtain ⟨hfirst, rfl, -⟩ := UrlIdRead.urlId.inj hurl
    have hshift := udmGetInt4_shifted (le_of_lt hpos) hlt rest
    rw [hfirst, hid] at hshift
    -- a negative number of ranges has high bytes that the first id does not have
    have hsmall : x < 2 ^ 31 := by omega
    have hNx : N = x := by
      rw [hN, int32, if_pos hsmall]
      omega
    have htail : sections.map UdmSection.urlId = p.tailIds := by
      have hmap := congrArg (List.map Prod.fst) hdocs
      rw [List.map_map, List.map_map] at hmap
      exact hmap
    have hbreaks := @breaks_unpackSections saveSectionSize template _ _ (N - 1) _ _ _ _ (Or.inl le_rfl) hrec
    simp only [htail, hfirst, hid] at hbreaks
    have hranges := length_ranges p
    rw [List.length_drop, hs, Nat.mod_eq_of_lt (by omega)] at hconsume
    have hbytes : 0 < (p.docs.flatMap PostingDoc.body).length := by
      have hfits := h.fits p.head (by simp [PostingList.docs])
      have := two_le_length_body hfits
      rw [PostingList.docs, List.flatMap_cons, List.length_append]
      omega
    omega

/-- **Several ranges** are found unless the two low bytes of their number are zero. -/
theorem readBack_rangeMulti_iff (p : PostingList) (hfits : ∀ d ∈ p.docs, d.Fits) :
    ReadBack saveSectionSize template
      (udmBlobCachePackOneWordForBdictURLIDRangeMulti (p.docs.map (PostingDoc.cacheWord word secno))) p.docs ↔
      p.ranges.length % 2 ^ 16 ≠ 0 := by
  have hc : 3 < UdmBlobComp.urlidRangeMulti.code := by decide
  obtain ⟨hn, hnlt⟩ := length_ranges_lt p
  have hpos := p.head.urlId_pos
  have hlt := p.head.urlId_lt
  have hids : (p.docs.map (PostingDoc.cacheWord word secno)).map UdmBlobCacheWord.urlId =
      p.head.urlId :: p.tailIds := by
    rw [List.map_map]
    rfl
  have hpack : udmBlobCachePackOneWordForBdictURLIDRangeMulti (p.docs.map (PostingDoc.cacheWord word secno)) =
      udmDSTRAppendCompressionType .urlidRangeMulti ++ (udmPutInt4 p.ranges.length ++
        (putRanges p.ranges ++ (bareItems p.docs).flatMap Item.bytes)) := by
    rw [udmBlobCachePackOneWordForBdictURLIDRangeMulti, hids, packWithoutUrlIds_docs hfits, List.append_assoc,
      List.append_assoc]
    rfl
  rw [hpack]
  generalize hrest : putRanges p.ranges ++ (bareItems p.docs).flatMap Item.bytes = rest
  have hrestlen : rest.length = 8 * p.ranges.length + ((bareItems p.docs).flatMap Item.bytes).length := by
    rw [← hrest, List.length_append, length_putRanges]
  have hlow := @getLE_two_udmPutInt4 (p.ranges.length : ℤ) (by omega) (by omega) rest
  have hbody : 4 < (udmPutInt4 (p.ranges.length : ℤ) ++ rest).length := by
    rw [List.length_append, length_udmPutInt4, hrestlen]
    omega
  have hsize := compressionHeader_append hc hbody
  obtain ⟨rest', hbegin, hrest'⟩ := putRanges_begin p ((bareItems p.docs).flatMap Item.bytes)
  rw [hrest] at hbegin
  constructor
  · intro h hzero
    have hx : getLE 4 ((udmPutInt4 (p.ranges.length : ℤ) ++ rest).drop 2) < 2 ^ 32 := getLE_lt 4 _
    have hxlow : getLE 4 ((udmPutInt4 (p.ranges.length : ℤ) ++ rest).drop 2) % 256 ^ 2 =
        getLE 2 ((udmPutInt4 (p.ranges.length : ℤ) ++ rest).drop 2) := getLE_mod 2 2 _
    have hxhigh : getLE 4 ((udmPutInt4 (p.ranges.length : ℤ) ++ rest).drop 2) / 256 ^ 2 =
        getLE 2 (((udmPutInt4 (p.ranges.length : ℤ) ++ rest).drop 2).drop 2) := getLE_div 2 2 _
    have hnhigh : getLE 4 (udmPutInt4 (p.ranges.length : ℤ) ++ rest) / 256 ^ 2 =
        getLE 2 ((udmPutInt4 (p.ranges.length : ℤ) ++ rest).drop 2) := getLE_div 2 2 _
    have hnget := @getLE_udmPutInt4 (p.ranges.length : ℤ) (by omega) (by omega) rest
    have hdrop4 : (udmPutInt4 (p.ranges.length : ℤ) ++ rest).drop 4 = rest := List.drop_left' (length_udmPutInt4 _)
    have hdrop6 : (udmPutInt4 (p.ranges.length : ℤ) ++ rest).drop 6 = rest.drop 2 := by
      conv_rhs => rw [← hdrop4, List.drop_drop]
    rw [List.drop_drop, hdrop4] at hxhigh
    have hmin := getLE_two_udmPutInt4 (le_of_lt hpos) hlt (udmPutInt4 (rangeLast p.head.urlId p.tailIds).1 ++ rest')
    rw [List.append_assoc] at hbegin
    rw [← hbegin] at hmin
    refine @not_readBack_shifted _ _ p _ (udmPutInt4 (rangeLast p.head.urlId p.tailIds).1 ++ rest') _ _ rfl ?_ ?_ hx ?_ ?_ h
    · omega
    · omega
    · rw [List.length_append, length_udmDSTRAppendCompressionType hc, List.length_append, length_udmPutInt4, hrestlen,
        length_bareItems]
      omega
    · rw [udmBlobCoordsGetCompressionType, hsize, if_pos (by omega), ← hbegin]
      simp only [drop_header hc _ 2, drop_header hc _ 6, hdrop6, udmGetInt4]
  · intro hne
    have hget := @udmGetInt4_udmPutInt4 (p.ranges.length : ℤ) (by omega) (by omega) rest
    have hdrop4 : (udmPutInt4 (p.ranges.length : ℤ) ++ rest).drop 4 = rest := List.drop_left' (length_udmPutInt4 _)
    have hheader : udmBlobCoordsGetCompressionType (udmDSTRAppendCompressionType .urlidRangeMulti ++
        (udmPutInt4 p.ranges.length ++ rest)) =
          (.urlidRangeMulti, 6 + (4 + 8 * p.ranges.length), ⟨0, 0, p.ranges.length, rest⟩) := by
      rw [udmBlobCoordsGetCompressionType, hsize, if_neg (by omega)]
      simp only [drop_header hc _ 0, drop_header hc _ 4, List.drop_zero, hget, hdrop4, Prod.mk.injEq, true_and,
        ReadStat.mk.injEq, and_true]
      omega
    have hdrop : (udmDSTRAppendCompressionType .urlidRangeMulti ++ (udmPutInt4 p.ranges.length ++ rest)).drop
        (6 + (4 + 8 * p.ranges.length)) = (bareItems p.docs).flatMap Item.bytes := by
      rw [drop_header hc, ← List.drop_drop, hdrop4, ← hrest]
      exact List.drop_left' (length_putRanges _)
    have hreads : ReadsIds .urlidRangeMulti ⟨0, 0, p.ranges.length, rest⟩ (bareItems p.docs) := by
      have hlast : 0 ≤ (rangeLast p.head.urlId p.tailIds).1 ∧ (rangeLast p.head.urlId p.tailIds).1 < 2 ^ 31 := by
        obtain ⟨e, -, he⟩ : ∃ e ∈ p.docs, PostingDoc.urlId e = (rangeLast p.head.urlId p.tailIds).1 :=
          List.mem_map.mp (rangeLast_mem p.head.urlId p.tailIds)
        rw [← he]
        exact ⟨le_of_lt e.urlId_pos, e.urlId_lt⟩
      have hload := @readUrlId_load ⟨0, 0, p.ranges.length, rest⟩ _ _ ⟨le_of_lt hpos, hlt⟩ hlast rfl (by simp only; omega)
        _ hbegin
      have hranges : p.ranges.length - 1 = (rangesOf (rangeLast p.head.urlId p.tailIds).2).length := by
        rw [PostingList.ranges, rangesOf, List.length_cons, Nat.add_sub_cancel]
      have hnext := @readsIds_inRange p.head.urlId p.tail p.ascending
        ⟨p.head.urlId, (rangeLast p.head.urlId p.tailIds).1, p.ranges.length - 1, rest'⟩ rfl rfl hranges _ hrest'
      exact .cons hload hnext
    exact (readBack_written_iff hheader (by omega) hdrop hreads (fun it hit => hfits _ (doc_bareItems hit))
      (map_posting_bareItems p.docs)).mpr (readable_bareItems hfits)

end MnoGoSearch.Blob
