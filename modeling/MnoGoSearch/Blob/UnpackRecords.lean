import MnoGoSearch.Blob.Unpack

/-!
# Reading the records of a posting list

What the reader of `Unpack` makes of records that were written as `Pack` describes, whatever
the format of the ids: `unpackSections_items` says which sections the loop over the records
finds, and `bounds_unpackSections` what holds of the sections whatever bytes are read.
-/

namespace MnoGoSearch.Blob

open Lib.PrefixCode Lib.LittleEndian Words

/-! ### Numbers -/

theorem udmCoordGet_cons_lt {c : UInt8} (h : c < 0x80) (s : List UInt8) :
    udmCoordGet (c :: s) = some (some c.toNat, 1) := by
  show (if c < 0x80 then some (some c.toNat, 1) else _) = _
  rw [if_pos h]

theorem readCoordChecked_eq (s : List UInt8) : readCoordChecked s = .ofScan s (udmCoordGet s) := by
  unfold readCoordChecked
  split
  · rename_i h
    cases s with
    | nil => exact absurd rfl h.1
    | cons c s =>
      have hc : c < 0x80 := h.2
      rw [udmCoordGet_cons_lt hc]
      rfl
  · rfl

variable {s rest : List UInt8} {tail fuel ncoords nrecs pos wc : ℕ} {compressionType : UdmBlobComp} {urlId : ℤ}
variable {saveSectionSize : Bool}

theorem readCoord_eq (hs : s ≠ []) : readCoord s = readCoordChecked s := by
  simp [readCoord, readCoordChecked, hs]

theorem udmCoordGetQuick_eq (h : 4 ≤ s.length) : udmCoordGetQuick s = udmCoordGet s := by
  match s, h with
  | c :: s1 :: s2 :: s3 :: rest, _ => rfl

theorem readCoordQuick_eq (h : 4 ≤ s.length) : readCoordQuick s = readCoordChecked s := by
  have hs : s ≠ [] := by
    rintro rfl
    exact absurd h (by decide)
  simp [readCoordQuick, readCoordChecked, hs, udmCoordGetQuick_eq h]

theorem tailBits_of_isTail {b : UInt8} (h : isTail b = true) :
    tailBits b < 64 ∧ (0xa0 ≤ b → 32 ≤ tailBits b) ∧ (0x90 ≤ b → 16 ≤ tailBits b) := by
  have hall : ∀ x : Fin 256, isTail (.ofNat x) = true → tailBits (.ofNat x) < 64 ∧
      (0xa0 ≤ UInt8.ofNat x → 32 ≤ tailBits (.ofNat x)) ∧ (0x90 ≤ UInt8.ofNat x → 16 ≤ tailBits (.ofNat x)) := by
    decide +kernel
  have hb := hall ⟨b.toNat, UInt8.toNat_lt_size b⟩
  rw [UInt8.ofNat_toNat] at hb
  exact hb h

theorem toNat_and_low (c : UInt8) {m : UInt8} {k : ℕ} (h : m.toNat = 2 ^ k - 1) :
    (c &&& m).toNat = c.toNat % 2 ^ k := by
  rw [UInt8.toNat_and, h, Nat.and_two_pow_sub_one_eq_mod]

theorem shiftLeft_or {a r k : ℕ} (h : r < 2 ^ k) : a <<< k ||| r = a * 2 ^ k + r := by
  rw [← Nat.shiftLeft_add_eq_or_of_lt h, Nat.shiftLeft_eq]

/-- A number that is read is the one that has these bytes: it has at most four, and lies below
the limit of the code. -/
theorem udmCoordGet_some {n : ℕ} (h : udmCoordGet s = some (some wc, n)) :
    CoordValid wc ∧ n = (udmCoordPut wc).length ∧ n ≤ s.length := by
  cases s with
  | nil => exact absurd h (by simp [udmCoordGet])
  | cons c s =>
    change (if c < 0x80 then some (some c.toNat, 1) else _) = _ at h
    simp only [UInt8.lt_iff_toNat_lt, UInt8.le_iff_toNat_le] at h
    by_cases h1 : c.toNat < UInt8.toNat 0x80
    · -- one byte
      rw [if_pos h1] at h
      simp only [Option.some.injEq, Prod.mk.injEq] at h
      obtain ⟨rfl, rfl⟩ := h
      have hc : c.toNat < 0x80 := h1
      refine ⟨by unfold CoordValid; omega, ?_, by simp⟩
      rw [udmCoordPut, if_pos hc]
      rfl
    · rw [if_neg h1] at h
      by_cases h2 : c.toNat < UInt8.toNat 0xc2
      · rw [if_pos h2] at h
        exact absurd h (by simp)
      · rw [if_neg h2] at h
        have hlead : 0xc2 ≤ c.toNat := Nat.le_of_not_lt h2
        by_cases h3 : c.toNat < UInt8.toNat 0xe0
        · -- two bytes
          rw [if_pos h3] at h
          have hc : c.toNat < 0xe0 := h3
          cases s with
          | nil => exact absurd h (by simp)
          | cons s1 s =>
            have hmask := @toNat_and_low c 0x1f 5 rfl
            by_cases ht : isTail s1 = true
            · obtain ⟨hb1, -, -⟩ := tailBits_of_isTail ht
              simp only [ht, Bool.not_true, Bool.false_eq_true, if_false, Option.some.injEq, Prod.mk.injEq,
                hmask] at h
              rw [shiftLeft_or (by omega)] at h
              obtain ⟨rfl, rfl⟩ := h
              refine ⟨by unfold CoordValid; omega, ?_, by simp⟩
              rw [udmCoordPut_two (by omega) (by omega)]
              rfl
            · exact absurd h (by simp [ht])
        · rw [if_neg h3] at h
          have hc3 : 0xe0 ≤ c.toNat := Nat.le_of_not_lt h3
          by_cases h4 : c.toNat < UInt8.toNat 0xf0
          · -- three bytes
            rw [if_pos h4] at h
            have hc : c.toNat < 0xf0 := h4
            rcases s with _ | ⟨s1, _ | ⟨s2, s⟩⟩
            · exact absurd h (by simp)
            · exact absurd h (by simp)
            · have hmask := @toNat_and_low c 0x0f 4 rfl
              simp only [Bool.not_eq_true', hmask] at h
              split at h
              · exact absurd h (by simp)
              · rename_i hcond
                simp only [Bool.not_eq_false, Bool.and_eq_true, Bool.or_eq_true, decide_eq_true_eq] at hcond
                obtain ⟨⟨ht1, ht2⟩, hmin⟩ := hcond
                obtain ⟨hb1, hs1, -⟩ := tailBits_of_isTail ht1
                obtain ⟨hb2, -, -⟩ := tailBits_of_isTail ht2
                have hlong : 0xe1 ≤ c.toNat ∨ 32 ≤ tailBits s1 :=
                  hmin.imp id fun hle => hs1 (UInt8.le_iff_toNat_le.mpr hle)
                simp only [Option.some.injEq, Prod.mk.injEq] at h
                rw [Nat.or_assoc, @shiftLeft_or (tailBits s1) (tailBits s2) 6 (by omega),
                  @shiftLeft_or _ _ 12 (by omega)] at h
                obtain ⟨rfl, rfl⟩ := h
                refine ⟨by unfold CoordValid; omega, ?_, by simp⟩
                rw [udmCoordPut_three (by omega) (by omega)]
                rfl
          · rw [if_neg h4] at h
            have hc4 : 0xf0 ≤ c.toNat := Nat.le_of_not_lt h4
            by_cases h5 : c.toNat < UInt8.toNat 0xf8
            · -- four bytes
              rw [if_pos h5] at h
              have hc : c.toNat < 0xf8 := h5
              rcases s with _ | ⟨s1, _ | ⟨s2, _ | ⟨s3, s⟩⟩⟩
              · exact absurd h (by simp)
              · exact absurd h (by simp)
              · exact absurd h (by simp)
              · have hmask := @toNat_and_low c 0x07 3 rfl
                simp only [Bool.not_eq_true', hmask] at h
                split at h
                · exact absurd h (by simp)
                · rename_i hcond
                  simp only [Bool.not_eq_false, Bool.and_eq_true, Bool.or_eq_true, decide_eq_true_eq] at hcond
                  obtain ⟨⟨⟨ht1, ht2⟩, ht3⟩, hmin⟩ := hcond
                  obtain ⟨hb1, -, hs1⟩ := tailBits_of_isTail ht1
                  obtain ⟨hb2, -, -⟩ := tailBits_of_isTail ht2
                  obtain ⟨hb3, -, -⟩ := tailBits_of_isTail ht3
                  have hlong : 0xf1 ≤ c.toNat ∨ 16 ≤ tailBits s1 :=
                    hmin.imp id fun hle => hs1 (UInt8.le_iff_toNat_le.mpr hle)
                  simp only [Option.some.injEq, Prod.mk.injEq] at h
                  rw [Nat.or_assoc, Nat.or_assoc, @shiftLeft_or (tailBits s2) (tailBits s3) 6 (by omega),
                    @shiftLeft_or (tailBits s1) _ 12 (by omega), @shiftLeft_or _ _ 18 (by omega)] at h
                  obtain ⟨rfl, rfl⟩ := h
                  refine ⟨by unfold CoordValid; omega, ?_, by simp⟩
                  rw [udmCoordPut_four (by omega) (by omega)]
                  rfl
            · rw [if_neg h5] at h
              exact absurd h (by simp)

theorem ofScan_udmCoordPut (h : CoordValid wc) (rest : List UInt8) :
    CoordRead.ofScan (udmCoordPut wc ++ rest) (udmCoordGet (udmCoordPut wc ++ rest)) = .value wc rest := by
  rw [coordCode.get_put h, CoordRead.ofScan, List.drop_left]

theorem readCoord_udmCoordPut (h : CoordValid wc) (rest : List UInt8) :
    readCoord (udmCoordPut wc ++ rest) = .value wc rest := by
  have hne : udmCoordPut wc ++ rest ≠ [] := by
    simp [coordCode.ne_nil h]
  rw [readCoord_eq hne, readCoordChecked_eq, ofScan_udmCoordPut h]

theorem readCoordChecked_value (h : readCoordChecked s = .value wc rest) :
    CoordValid wc ∧ s.length = (udmCoordPut wc).length + rest.length ∧ (udmCoordPut wc).length ≤ 4 := by
  rw [readCoordChecked_eq, CoordRead.ofScan.eq_def] at h
  split at h
  · exact absurd h (by simp)
  · exact absurd h (by simp)
  · rename_i wc' n hscan
    simp only [CoordRead.value.injEq] at h
    obtain ⟨rfl, rfl⟩ := h
    obtain ⟨hvalid, hlen, hle⟩ := udmCoordGet_some hscan
    have h4 := length_udmCoordPut_le wc'
    rw [List.length_drop]
    exact ⟨hvalid, by omega, by omega⟩

/-! ### The coordinates of a record -/

theorem unpackLoop_quick (h : nrecs * 4 ≤ s.length) :
    unpackLoop readCoordQuick nrecs pos s = unpackLoop readCoordChecked nrecs pos s := by
  induction nrecs generalizing pos s with
  | zero => rfl
  | succ nrecs ih =>
    rw [unpackLoop, unpackLoop, readCoordQuick_eq (by omega)]
    split
    · rfl
    · rfl
    · rename_i crd rest hread
      have hlen := readCoordChecked_value hread
      rw [ih (by omega)]

theorem udmBlobPackedCoordsToUnpackedCoords_eq (s : List UInt8) (nrecs pos : ℕ) :
    udmBlobPackedCoordsToUnpackedCoords s nrecs pos = unpackLoop readCoordChecked nrecs pos s := by
  unfold udmBlobPackedCoordsToUnpackedCoords
  split
  · rename_i h
    exact unpackLoop_quick (le_of_lt h)
  · rfl

theorem unpackLoop_flatMap {cs : List ℕ} (hcs : ∀ c ∈ cs, CoordValid c) {pos : ℕ} (hsum : pos + cs.sum < 2 ^ 24)
    (rest : List UInt8) :
    unpackLoop readCoordChecked cs.length pos (cs.flatMap udmCoordPut ++ rest) = some (sums pos cs, rest) := by
  induction cs generalizing pos with
  | nil => rfl
  | cons c cs ih =>
    rw [List.sum_cons, ← Nat.add_assoc] at hsum
    have hpos : pos24 (pos + c) = pos + c := Nat.mod_eq_of_lt (by omega)
    rw [List.length_cons, unpackLoop, List.flatMap_cons, List.append_assoc, readCoordChecked_eq,
      ofScan_udmCoordPut (hcs c (by simp))]
    simp only [hpos]
    rw [ih (fun d hd => hcs d (by simp [hd])) hsum]
    rfl

theorem bounds_unpackLoop {coords : List ℕ} (h : unpackLoop readCoordChecked nrecs pos s = some (coords, rest)) :
    coords.length ≤ nrecs ∧ ∀ p ∈ coords, p < 2 ^ 24 := by
  induction nrecs generalizing pos s coords with
  | zero =>
    simp only [unpackLoop, Option.some.injEq, Prod.mk.injEq] at h
    obtain ⟨rfl, -⟩ := h
    simp
  | succ nrecs ih =>
    rw [unpackLoop] at h
    split at h
    · exact absurd h (by simp)
    · simp only [Option.some.injEq, Prod.mk.injEq] at h
      obtain ⟨rfl, -⟩ := h
      simp
    · rw [Option.map_eq_some_iff] at h
      obtain ⟨⟨coords', rest'⟩, hrec, heq⟩ := h
      simp only [Prod.mk.injEq] at heq
      obtain ⟨rfl, rfl⟩ := heq
      obtain ⟨hlen, hall⟩ := ih hrec
      refine ⟨by simpa using hlen, fun p hp => ?_⟩
      rw [List.mem_cons] at hp
      cases hp with
      | inl hp => exact hp ▸ Nat.mod_lt _ (by decide)
      | inr hp => exact hall p hp

/-! ### The posting of a document -/

/-- The occurrences of a word in a section of one document: the coordinates are the differences
of the positions and, with `SaveSectionSize`, of the length of the section. -/
structure PostingDoc where
  urlId : ℤ
  coords : List ℕ
  urlId_pos : 0 < urlId
  urlId_lt : urlId < 2 ^ 31
  coords_ne_nil : coords ≠ []
  /-- Coordinates are positive numbers that can be written. -/
  coords_valid : ∀ c ∈ coords, 0 < c ∧ CoordValid c

/-- The record of a document in the cache. -/
def PostingDoc.cacheWord (word : CString) (secno : UInt8) (d : PostingDoc) : UdmBlobCacheWord :=
  ⟨word, secno, d.urlId, d.coords.length, d.coords.flatMap udmCoordPut⟩

@[simp] theorem PostingDoc.cacheWord_urlId (word : CString) (secno : UInt8) (d : PostingDoc) :
    (d.cacheWord word secno).urlId = d.urlId := rfl

/-- What the coordinates stand for: the positions and the length of the section. A coordinate
alone is the position and the length. -/
def occurrences (saveSectionSize : Bool) (coords : List ℕ) : List ℕ × ℕ :=
  let pos := sums 0 coords
  if coords.length = 1 then (pos, pos.getLastD 0)
  else if saveSectionSize then (pos.dropLast, pos.getLastD 0)
  else (pos, 0)

/-- The posting of a document. -/
def PostingDoc.posting (saveSectionSize : Bool) (d : PostingDoc) : ℤ × List ℕ × ℕ :=
  (d.urlId, occurrences saveSectionSize d.coords)

/-- The posting that a section stands for. -/
def UdmSection.posting (Section : UdmSection) : ℤ × List ℕ × ℕ :=
  (Section.urlId, Section.coord, Section.seclen)

/-- A document whose number of coordinates can be written and whose positions have 24 bits. -/
def PostingDoc.Fits (d : PostingDoc) : Prop := d.coords.length ≤ 0x1FFFFF ∧ d.coords.sum < 2 ^ 24

/-- What is written of a document behind its id. -/
def PostingDoc.body (d : PostingDoc) : List UInt8 := udmCoordPut d.coords.length ++ d.coords.flatMap udmCoordPut

variable {template Section : UdmSection} {sections : List UdmSection} {d : PostingDoc}

/-- **A record is read back**, whatever follows it. -/
theorem readSection_body {d : PostingDoc} (h : d.Fits) (urlId : ℤ) (rest : List UInt8) :
    ∃ Section ncoords, readSection saveSectionSize template urlId (d.body ++ rest) = .found Section ncoords rest ∧
      Section.posting = (urlId, occurrences saveSectionSize d.coords) := by
  obtain ⟨hlen, hsum⟩ := h
  have hvalid := d.coords_valid
  have hne := d.coords_ne_nil
  unfold PostingDoc.body
  generalize d.coords = cs at hlen hsum hvalid hne
  cases cs with
  | nil => exact absurd rfl hne
  | cons c cs =>
    have hc := hvalid c (by simp)
    have hcs : ∀ d ∈ cs, CoordValid d := fun d hd => (hvalid d (by simp [hd])).2
    rw [List.length_cons] at hlen
    rw [List.sum_cons] at hsum
    have hncoords : CoordValid (c :: cs).length := by
      rw [List.length_cons]
      unfold CoordValid
      omega
    have hpos : pos24 c = c := Nat.mod_eq_of_lt (by omega)
    have hread := @unpackLoop_flatMap cs hcs c (by omega) rest
    rw [readSection, List.append_assoc, readCoord_udmCoordPut hncoords]
    simp only [List.length_cons, Nat.add_one_ne_zero, if_false, List.flatMap_cons, List.append_assoc]
    rw [readCoord_udmCoordPut hc.2]
    simp only [hpos, Nat.add_sub_cancel]
    cases cs with
    | nil => exact ⟨_, _, rfl, by simp [UdmSection.posting, occurrences, sums]⟩
    | cons d cs =>
      rw [if_neg (by simp), udmBlobPackedCoordsToUnpackedCoords_eq, hread]
      cases saveSectionSize with
      | true =>
        refine ⟨_, _, rfl, ?_⟩
        simp [UdmSection.posting, occurrences, sums]
      | false =>
        refine ⟨_, _, rfl, ?_⟩
        simp [UdmSection.posting, occurrences, sums]

theorem readCoord_value (h : readCoord s = .value wc rest) : CoordValid wc := by
  cases s with
  | nil =>
    have hnil : readCoord [] = .value 0 [] := rfl
    rw [hnil, CoordRead.value.injEq] at h
    rw [← h.1]
    exact Nat.two_pow_pos 21
  | cons c s =>
    rw [readCoord_eq (by simp)] at h
    exact (readCoordChecked_value h).1

/-- **How a section is found**: the number of coordinates, the first one, and those that can be
unpacked after it. -/
theorem readSection_found
    (h : readSection saveSectionSize template urlId s = .found Section ncoords rest) :
    ∃ nrecs s1 crd s2 coords, readCoord s = .value nrecs s1 ∧ nrecs ≠ 0 ∧ readCoord s1 = .value crd s2 ∧
      unpackLoop readCoordChecked (nrecs - 1) (pos24 crd) s2 = some (coords, rest) ∧
      Section.posting = (urlId,
        if nrecs = 1 then ([pos24 crd], pos24 crd)
        else if saveSectionSize then ((pos24 crd :: coords).dropLast, (pos24 crd :: coords).getLastD 0)
        else (pos24 crd :: coords, 0)) := by
  unfold readSection at h
  split at h
  · exact absurd h (by simp)
  · exact absurd h (by simp)
  · rename_i nrecs s1 hnrecs
    split at h
    · exact absurd h (by simp)
    · rename_i hzero
      split at h
      · exact absurd h (by simp)
      · exact absurd h (by simp)
      · rename_i crd s2 hcrd
        split at h
        · -- one coordinate
          rename_i hone
          simp only [SectionRead.found.injEq] at h
          obtain ⟨rfl, -, rfl⟩ := h
          refine ⟨nrecs, s1, crd, s2, [], hnrecs, hzero, hcrd, ?_, ?_⟩
          · rw [hone, unpackLoop]
          · rw [if_pos (by omega)]
            rfl
        · rename_i hone
          cases hunpack : udmBlobPackedCoordsToUnpackedCoords s2 (nrecs - 1) (pos24 crd) with
          | none => exact absurd h (by simp [hunpack])
          | some r =>
            obtain ⟨coords, s3⟩ := r
            simp only [hunpack] at h
            rw [udmBlobPackedCoordsToUnpackedCoords_eq] at hunpack
            cases saveSectionSize with
            | true =>
              simp only [if_true, SectionRead.found.injEq] at h
              obtain ⟨rfl, -, rfl⟩ := h
              refine ⟨nrecs, s1, crd, s2, coords, hnrecs, hzero, hcrd, hunpack, ?_⟩
              rw [if_neg (by omega), if_pos rfl]
              rfl
            | false =>
              simp only [Bool.false_eq_true, if_false, SectionRead.found.injEq] at h
              obtain ⟨rfl, -, rfl⟩ := h
              refine ⟨nrecs, s1, crd, s2, coords, hnrecs, hzero, hcrd, hunpack, ?_⟩
              rw [if_neg (by omega), if_neg (by simp)]
              rfl

theorem urlId_of_found
    (h : readSection saveSectionSize template urlId s = .found Section ncoords rest) : Section.urlId = urlId := by
  obtain ⟨_, _, _, _, _, -, -, -, -, hposting⟩ := readSection_found h
  exact congrArg Prod.fst hposting

theorem sums_getLastD (p : ℕ) (cs : List ℕ) : (sums p cs).getLastD p = p + cs.sum := by
  induction cs generalizing p with
  | nil => rfl
  | cons c cs ih => rw [sums, List.getLastD_cons, ih, List.sum_cons, Nat.add_assoc]

theorem getLastD_mem_of_ne_nil {l : List ℕ} (h : l ≠ []) (p : ℕ) : l.getLastD p ∈ l := by
  rw [List.getLastD_eq_getLast?, List.getLast?_eq_some_getLast h, Option.getD_some]
  exact List.getLast_mem h

/-- A document whose posting has been found fits: a number tells the coordinates, and a position
has 24 bits. -/
theorem fits_of_found (h : readSection saveSectionSize template urlId s = .found Section ncoords rest)
    (hd : Section.posting = d.posting saveSectionSize) : d.Fits := by
  obtain ⟨nrecs, s1, crd, s2, coords, hnrecs, hzero, -, hunpack, hposting⟩ := readSection_found h
  have hvalid : nrecs < 0x200000 := readCoord_value hnrecs
  have hC : pos24 crd < 2 ^ 24 := Nat.mod_lt _ (by decide)
  obtain ⟨hlen, hall⟩ := bounds_unpackLoop hunpack
  have hCoord : ∀ p ∈ pos24 crd :: coords, p < 2 ^ 24 := List.forall_mem_cons.mpr ⟨hC, hall⟩
  have hlast : (sums 0 d.coords).getLastD 0 = d.coords.sum := by
    rw [sums_getLastD, Nat.zero_add]
  have hsums : (sums 0 d.coords) ≠ [] := by
    rw [← List.length_pos_iff, length_sums]
    exact List.length_pos_iff.mpr d.coords_ne_nil
  rw [hd, PostingDoc.posting, Prod.mk.injEq] at hposting
  replace hposting := hposting.2
  unfold occurrences at hposting
  unfold PostingDoc.Fits
  rw [← hlast]
  split at hposting
  · -- one coordinate
    rename_i hone
    refine ⟨by omega, ?_⟩
    split at hposting
    · rw [(Prod.mk.inj hposting).2]
      exact hC
    · split at hposting
      · rw [(Prod.mk.inj hposting).2]
        exact hCoord _ (getLastD_mem_of_ne_nil (by simp) 0)
      · rw [(Prod.mk.inj hposting).2]
        decide
  · rename_i hmany
    have hpos : 0 < d.coords.length := List.length_pos_iff.mpr d.coords_ne_nil
    cases saveSectionSize with
    | true =>
      simp only [if_true] at hposting
      split at hposting
      · have hl := congrArg List.length (Prod.mk.inj hposting).1
        rw [List.length_dropLast, length_sums, List.length_singleton] at hl
        rw [(Prod.mk.inj hposting).2]
        exact ⟨by omega, hC⟩
      · have hl := congrArg List.length (Prod.mk.inj hposting).1
        rw [List.length_dropLast, length_sums, List.length_dropLast, List.length_cons] at hl
        rw [(Prod.mk.inj hposting).2]
        exact ⟨by omega, hCoord _ (getLastD_mem_of_ne_nil (by simp) 0)⟩
    | false =>
      simp only [Bool.false_eq_true, if_false] at hposting
      split at hposting
      · have hl := congrArg List.length (Prod.mk.inj hposting).1
        rw [length_sums, List.length_singleton] at hl
        exact absurd hl hmany
      · have hl := congrArg List.length (Prod.mk.inj hposting).1
        rw [length_sums, List.length_cons] at hl
        rw [(Prod.mk.inj hposting).1]
        exact ⟨by omega, hCoord _ (getLastD_mem_of_ne_nil (by simp) 0)⟩

/-- **One round of the loop**: when a section is found first, its id and its record have been
read, and the loop goes on behind them. -/
theorem unpackSections_cons {Stat : ReadStat}
    (h : unpackSections saveSectionSize template compressionType tail fuel Stat s =
      some (Section :: sections, ncoords)) :
    ∃ Stat' s' n rest fuel' ncoords', tail < s.length ∧
      readUrlId compressionType Stat s = .urlId Section.urlId Stat' s' ∧
      readSection saveSectionSize template Section.urlId s' = .found Section n rest ∧
      unpackSections saveSectionSize template compressionType tail fuel' Stat' rest = some (sections, ncoords') := by
  cases fuel with
  | zero => exact absurd h (by simp [unpackSections])
  | succ fuel =>
    rw [unpackSections] at h
    split at h
    · exact absurd h (by simp)
    · rename_i htail
      split at h
      · exact absurd h (by simp)
      · exact absurd h (by simp)
      · rename_i urlId Stat' s' hurl
        split at h
        · exact absurd h (by simp)
        · exact absurd h (by simp)
        · rename_i Section' n rest hsection
          rw [Option.map_eq_some_iff] at h
          obtain ⟨⟨sections', ncoords'⟩, hrec, heq⟩ := h
          simp only [Prod.mk.injEq, List.cons.injEq] at heq
          obtain ⟨⟨rfl, rfl⟩, -⟩ := heq
          rw [urlId_of_found hsection]
          exact ⟨Stat', s', n, rest, fuel, ncoords', by omega, hurl, hsection, hrec⟩

theorem fits_unpackSections {Stat : ReadStat}
    (h : unpackSections saveSectionSize template compressionType tail fuel Stat s = some (sections, ncoords))
    {docs : List PostingDoc} (hdocs : sections.map UdmSection.posting = docs.map (PostingDoc.posting saveSectionSize)) :
    ∀ d ∈ docs, d.Fits := by
  induction sections generalizing fuel Stat s ncoords docs with
  | nil =>
    rw [List.map_nil, eq_comm, List.map_eq_nil_iff] at hdocs
    simp [hdocs]
  | cons Section sections ih =>
    cases docs with
    | nil => simp
    | cons d docs =>
      rw [List.map_cons, List.map_cons, List.cons.injEq] at hdocs
      obtain ⟨_, _, _, _, _, _, -, -, hsection, hrec⟩ := unpackSections_cons h
      exact List.forall_mem_cons.mpr ⟨fits_of_found hsection hdocs.1, ih hrec hdocs.2⟩

/-! ### The loop over the records -/

/-- A record as it is laid out: the bytes of its id, the id that is read, and the rest. -/
structure Item where
  idBytes : List UInt8
  /-- The id that the reader finds. -/
  urlId : ℤ
  doc : PostingDoc

/-- The bytes of a record. -/
def Item.bytes (it : Item) : List UInt8 := it.idBytes ++ it.doc.body

/-- The posting that the reader finds. -/
def Item.posting (saveSectionSize : Bool) (it : Item) : ℤ × List ℕ × ℕ :=
  (it.urlId, occurrences saveSectionSize it.doc.coords)

/-- The reader finds the ids of the records one after another. -/
inductive ReadsIds (compressionType : UdmBlobComp) : ReadStat → List Item → Prop
  | nil (Stat) : ReadsIds compressionType Stat []
  /-- The id of the next record is read, whatever follows it. -/
  | cons {Stat Stat' : ReadStat} {it : Item} {items : List Item}
      (h : ∀ rest, readUrlId compressionType Stat (it.idBytes ++ rest) = .urlId it.urlId Stat' rest)
      (hrest : ReadsIds compressionType Stat' items) : ReadsIds compressionType Stat (it :: items)

/-- The records up to where the loop ends: no record begins in the last bytes. -/
def readable (tail : ℕ) : List Item → List Item
  | [] => []
  | it :: items => if ((it :: items).flatMap Item.bytes).length ≤ tail then [] else it :: readable tail items

theorem readable_isPrefix_items (tail : ℕ) (items : List Item) : readable tail items <+: items := by
  induction items with
  | nil => exact List.prefix_refl _
  | cons it items ih =>
    rw [readable]
    split
    · exact List.nil_prefix
    · exact List.cons_prefix_cons.mpr ⟨rfl, ih⟩

theorem readable_eq_self_iff {len : ℕ} (htail : tail < 2 * len) {items : List Item}
    (h : ∀ it ∈ items, len ≤ it.bytes.length) :
    readable tail items = items ↔ ∀ it ∈ items.getLast?, tail < it.bytes.length := by
  induction items with
  | nil => simp [readable]
  | cons it items ih =>
    obtain ⟨hit, hitems⟩ := List.forall_mem_cons.mp h
    cases items with
    | nil =>
      rw [readable]
      by_cases hlen : ([it].flatMap Item.bytes).length ≤ tail
      · rw [if_pos hlen]
        simpa using hlen
      · rw [if_neg hlen]
        simpa [readable] using hlen
    | cons it' items =>
      have hlen : ¬ ((it :: it' :: items).flatMap Item.bytes).length ≤ tail := by
        have hit' := hitems it' (by simp)
        rw [List.flatMap_cons, List.flatMap_cons, List.length_append, List.length_append]
        omega
      rw [readable, if_neg hlen, List.getLast?_cons_cons, List.cons.injEq, ← ih hitems]
      simp

theorem two_le_length_body (h : d.Fits) : 2 ≤ d.body.length := by
  have hlen : d.coords.length < 0x200000 := by
    have := h.1
    omega
  have hncoords : 0 < (udmCoordPut d.coords.length).length := List.length_pos_iff.mpr (coordCode.ne_nil hlen)
  obtain ⟨c, cs, hcs⟩ := List.exists_cons_of_ne_nil d.coords_ne_nil
  have hc : CoordValid c := (d.coords_valid c (by simp [hcs])).2
  have hcoord : 0 < (udmCoordPut c).length := List.length_pos_iff.mpr (coordCode.ne_nil hc)
  rw [PostingDoc.body, hcs, List.flatMap_cons, List.length_append, List.length_append, ← hcs]
  omega

/-- **The loop over the records** finds the readable ones. -/
theorem unpackSections_items {compressionType : UdmBlobComp} {Stat : ReadStat} {items : List Item}
    (h : ReadsIds compressionType Stat items) (hfits : ∀ it ∈ items, it.doc.Fits) (tail : ℕ) {fuel : ℕ}
    (hfuel : (items.flatMap Item.bytes).length ≤ fuel) :
    ∃ r, unpackSections saveSectionSize template compressionType tail fuel Stat (items.flatMap Item.bytes) = some r ∧
      r.1.map UdmSection.posting = (readable tail items).map (Item.posting saveSectionSize) := by
  induction h generalizing fuel with
  | nil Stat =>
    refine ⟨([], 0), ?_, rfl⟩
    cases fuel <;> simp [unpackSections]
  | @cons Stat Stat' it items hid hrest ih =>
    have hbody := two_le_length_body (hfits it (by simp))
    have hpos : 2 ≤ it.bytes.length := by
      rw [Item.bytes, List.length_append]
      omega
    have hlen : ((it :: items).flatMap Item.bytes).length = it.bytes.length + (items.flatMap Item.bytes).length := by
      rw [List.flatMap_cons, List.length_append]
    cases fuel with
    | zero => omega
    | succ fuel =>
      rw [unpackSections, readable]
      by_cases htail : ((it :: items).flatMap Item.bytes).length ≤ tail
      · rw [if_pos htail, if_pos htail]
        exact ⟨_, rfl, rfl⟩
      · rw [if_neg htail, if_neg htail]
        have hbytes : (it :: items).flatMap Item.bytes = it.idBytes ++ (it.doc.body ++ items.flatMap Item.bytes) := by
          rw [List.flatMap_cons, Item.bytes, List.append_assoc]
        rw [hbytes, hid]
        obtain ⟨Section, ncoords, hsection, hposting⟩ := @readSection_body saveSectionSize template it.doc
          (hfits it (by simp)) it.urlId (items.flatMap Item.bytes)
        obtain ⟨r, hr, hmap⟩ := @ih (fun x hx => hfits x (by simp [hx])) fuel (by omega)
        simp only [hsection, hr, Option.map_some, Option.some.injEq, exists_eq_left', List.map_cons, hposting, hmap]
        rfl

end MnoGoSearch.Blob
