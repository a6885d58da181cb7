import MnoGoSearch.Blob.UnpackLimit

/-!
# The reader of posting lists on any data

`UdmSectionListBlobCoordsUnpack` (`dbmode-blob.c`) on strings that no packer has made: how far its pointer is moved, and
how much it writes. The memory is allocated before, from the length of the string and its type of compression
(`udmExpectedSectionCount`).

`nsections_udmSectionListBlobCoordsExtents` says that this is the reader of `UnpackLimit`. Its pointer is moved inside
the string, unless the header or its ranges are longer than the string, or a record ends with the number of its
coordinates: the first coordinate is looked for without regard to the end of the string. Inside, each section takes the
bytes that are expected for it. But the number of coordinates is taken from the records, and not from what is read
(`fitsAllocation_iff`).
-/

namespace MnoGoSearch.Blob

open Limits

/-! ### The pointer -/

/-- What moving the pointer over a number comes to. -/
inductive NumRead
  /-- The pointer passes the end of the string: the NUL byte there has been taken for a number. -/
  | past
  | failed
  /-- The number, if it is assigned, and the bytes after it. -/
  | number (wc : Option ℕ) (rest : List UInt8)

/-- The pointer is moved by the number of bytes that have been scanned. -/
def NumRead.ofScan (s : List UInt8) : Option (Option ℕ × ℕ) → NumRead
  | none => .failed
  | some (wc, nbytes) => if nbytes ≤ s.length then .number wc (s.drop nbytes) else .past

/-- `udm_coord_get`. -/
def scanNum (s : List UInt8) : NumRead := .ofScan s (udmCoordGet s)

/-- A small number at once, without looking for the end of the string: `*s < 128 ? *s++ : ...`. -/
def moveSmall (scan : List UInt8 → NumRead) (s : List UInt8) : NumRead :=
  if s.headD 0 < 128 then
    match s with
    | [] => .past
    | c :: s => .number (some c.toNat) s
  else scan s

/-- `*s < 128 ? *s++ : udm_coord_get(...)`. -/
def moveNum (s : List UInt8) : NumRead := moveSmall scanNum s

/-- `*s < 128 ? *s++ : udm_coord_get_quick(...)`. -/
def moveNumQuick (s : List UInt8) : NumRead := moveSmall (fun s => .ofScan s (udmCoordGetQuick s)) s

/-- `s < e && *s < 128 ? *s++ : udm_coord_get(...)`. -/
def moveNumChecked (s : List UInt8) : NumRead := if s = [] then scanNum s else moveNum s

/-- A loop over at most that many numbers: how many there are, and where it stops. It is `none` if the pointer passes
the end. -/
def moves (move : List UInt8 → NumRead) : ℕ → List UInt8 → Option (ℕ × List UInt8)
  | 0, s => some (0, s)
  | n + 1, s =>
    match move s with
    | .past => none
    | .failed => some (0, s)
    | .number _ rest => (moves move n rest).map fun r => (r.1 + 1, r.2)

/-- `UdmBlobPackedCoordsToUnpackedCoords`: how many coords are written, and where it stops. -/
def unpackedExtent (s : List UInt8) (nrecs : ℕ) : Option (ℕ × List UInt8) :=
  if nrecs * 4 < s.length then moves moveNumQuick nrecs s else moves moveNumChecked nrecs s

/-- `udm_coord_sum`: where it stops, the end of the string if a number is missing. The loop over the leading small
numbers moves the pointer as the one behind it would. -/
def sumExtent (s : List UInt8) (n : ℕ) : Option (List UInt8) :=
  (if s.length < n * 4 then moves scanNum n s else moves moveNumQuick n s).map fun r => if r.1 = n then r.2 else []

/-- `UdmBlobPackedCoordsUnpackMinMaxLen`: where it stops. -/
def minMaxLenExtent (s : List UInt8) (nrecs : ℕ) (saveSectionSize : Bool) : Option (List UInt8) :=
  if saveSectionSize then
    (if nrecs > 1 then sumExtent s (nrecs - 1) else some s).bind fun s =>
      match scanNum s with
      | .past => none
      | .failed => some s
      | .number _ rest => some rest
  else sumExtent s nrecs

/-! ### The loop over the records -/

/-- What reading a record behind the id of its document comes to. -/
inductive RecordExtent
  /-- The pointer passes the end of the string. -/
  | past
  /-- The number of the coordinates was not assigned. -/
  | undefined
  /-- The loop over the records ends here. -/
  | stop (ncoords : ℕ)
  /-- The limit rejects the document. -/
  | skipped (rest : List UInt8)
  /-- A section: the coordinates that are counted, those that are written, and the bytes after the record. -/
  | found (ncoords written : ℕ) (rest : List UInt8)

/-- The body of the loop over the records, behind the id of the document. -/
def recordExtent (args : UnpackArgs) (urlId : ℤ) (s : List UInt8) : RecordExtent :=
  match moveNum s with
  | .past => .past
  | .failed => .stop 0
  | .number none _ => .undefined
  | .number (some nrecs) s =>
    if nrecs = 0 then .stop 0
    else if !args.active urlId then .skipped (udmCoordSkip args.i386 s nrecs)
    else
      let ncoords := countCoords args.saveSectionSize nrecs
      match moveNum s with
      | .past => .past
      | .failed => .stop ncoords
      | .number _ s =>
        if nrecs - 1 = 0 then .found ncoords (if args.needCoords then 1 else 0) s
        else if !args.needCoords then
          match minMaxLenExtent s (nrecs - 1) args.saveSectionSize with
          | none => .past
          | some s => .found ncoords 0 s
        else
          match unpackedExtent s (nrecs - 1) with
          | none => .past
          | some (n, s) => .found ncoords (n + 1) s

/-- The bytes that are read for the id of a document whatever they are. -/
def idBytes : UdmBlobComp → ℕ
  | .none => 4
  | .urlidDelta1BytesWithOffset => 1
  | .urlidDelta2Bytes => 2
  | .urlidDelta2BytesWithOffset => 2
  | .urlidDelta3Bytes => 3
  | _ => 0

/-- The bytes of a range that has to be read are there. -/
def RangeWithin (compressionType : UdmBlobComp) (Stat : ReadStat) : Prop :=
  compressionType = .urlidRangeMulti → Stat.curUrlId = Stat.rangeMaxUrlId → Stat.nranges ≠ 0 →
    8 ≤ Stat.rangePtr.length

instance (compressionType : UdmBlobComp) (Stat : ReadStat) : Decidable (RangeWithin compressionType Stat) :=
  inferInstanceAs (Decidable (_ → _ → _ → _))

/-- The id of a document. With a type that is unknown there is none, and the string, which begins with `0xFF` then, has
no record. -/
def idExtent (compressionType : UdmBlobComp) (Stat : ReadStat) (s : List UInt8) : UrlIdRead :=
  match compressionType with
  | .deflate => .urlId Stat.curUrlId Stat s
  | .zint4 => .urlId Stat.curUrlId Stat s
  | .zint4Deflate => .urlId Stat.curUrlId Stat s
  | _ => readUrlId compressionType Stat s

/-- How much the reader writes. -/
structure Extents where
  nsections : ℕ
  /-- The coordinates of the section list. -/
  ncoords : ℕ
  /-- The coordinates that are stored. -/
  written : ℕ

/-- The loop of `UdmSectionListBlobCoordsUnpack`. -/
def unpackExtents (args : UnpackArgs) (compressionType : UdmBlobComp) : ℕ → ReadStat → List UInt8 → Option Extents
  | 0, _, _ => some ⟨0, 0, 0⟩
  | fuel + 1, Stat, s =>
    if s.length ≤ tailBytes compressionType then some ⟨0, 0, 0⟩
    else if s.length < idBytes compressionType ∨ ¬RangeWithin compressionType Stat then none
    else
      match idExtent compressionType Stat s with
      | .undefined => none
      | .stop => some ⟨0, 0, 0⟩
      | .urlId urlId Stat s =>
        match recordExtent args urlId s with
        | .past => none
        | .undefined => none
        | .stop ncoords => some ⟨0, ncoords, 0⟩
        | .skipped s => unpackExtents args compressionType fuel Stat s
        | .found ncoords written s =>
          (unpackExtents args compressionType fuel Stat s).map fun e =>
            ⟨e.nsections + 1, ncoords + e.ncoords, written + e.written⟩

/-- `UdmSectionListBlobCoordsUnpack`: it is `none` if the pointer passes the end of the string, or a number decides that
was not assigned. -/
def udmSectionListBlobCoordsExtents (args : UnpackArgs) (s : List UInt8) : Option Extents :=
  let (compressionType, offset, Stat) := udmBlobCoordsGetCompressionType s
  if s.length < offset then none else unpackExtents args compressionType s.length Stat (s.drop offset)

/-- `UdmExpectedSectionCount`. -/
def udmExpectedSectionCount (compressionType : UdmBlobComp) (length : ℕ) : ℕ :=
  match compressionType with
  | .none => length / 6
  | .urlidDeltaVariable => length / 3
  | .singleRange => length / 2
  | .urlidRangeMulti => length / 2
  | .urlidDelta1BytesWithOffset => length / 3
  | .urlidDelta2Bytes => length / 4
  | .urlidDelta2BytesWithOffset => length / 4
  | .urlidDelta3Bytes => length / 5
  | _ => length

/-! ### Numbers are inside the string -/

variable {s rest : List UInt8} {wc : Option ℕ} {nbytes fuel nrecs n : ℕ} {args : UnpackArgs} {c : UdmBlobComp}
variable {e : Extents} {Stat : ReadStat} {urlId : ℤ}

theorem udmCoordGet_le (h : udmCoordGet s = some (wc, nbytes)) : 0 < nbytes ∧ nbytes ≤ s.length ∧ nbytes ≤ 4 := by
  unfold udmCoordGet at h
  repeat' split at h
  all_goals simp at h
  all_goals
    obtain ⟨-, rfl⟩ := h
    simp

theorem scanNum_some (h : udmCoordGet s = some (wc, nbytes)) : scanNum s = .number wc (s.drop nbytes) := by
  rw [scanNum, h, NumRead.ofScan, if_pos (udmCoordGet_le h).2.1]

theorem scanNum_none (h : udmCoordGet s = none) : scanNum s = .failed := by
  rw [scanNum, h, NumRead.ofScan]

/-- The pointer is moved forward, and stays in the string. -/
def NumRead.Within (s : List UInt8) : NumRead → Prop
  | .past => False
  | .failed => True
  | .number _ rest => rest.length < s.length ∧ s.length ≤ rest.length + 4

theorem within_scanNum (s : List UInt8) : (scanNum s).Within s := by
  match h : udmCoordGet s with
  | none =>
    rw [scanNum_none h]
    exact trivial
  | some (wc, nbytes) =>
    have hle := udmCoordGet_le h
    rw [scanNum_some h, NumRead.Within, List.length_drop]
    omega

theorem moveNum_eq (hs : s ≠ []) : moveNum s = scanNum s := by
  obtain ⟨c, s, rfl⟩ := List.exists_cons_of_ne_nil hs
  rw [moveNum, moveSmall]
  split
  · rename_i hc
    have hlt : c < 0x80 := hc
    rw [scanNum_some (udmCoordGet_cons_lt hlt s)]
    rfl
  · rfl

theorem moveNumChecked_eq (s : List UInt8) : moveNumChecked s = scanNum s := by
  rw [moveNumChecked]
  split
  · rfl
  · rename_i hs
    exact moveNum_eq hs

theorem moveNumQuick_eq (h : 4 ≤ s.length) : moveNumQuick s = scanNum s := by
  have hs : s ≠ [] := List.ne_nil_of_length_pos (by omega)
  rw [← moveNum_eq hs]
  unfold moveNumQuick moveNum moveSmall scanNum
  simp only [udmCoordGetQuick_eq h]

theorem moves_quick (h : n * 4 ≤ s.length) : moves moveNumQuick n s = moves scanNum n s := by
  induction n generalizing s with
  | zero => rfl
  | succ n ih =>
    have hwithin := within_scanNum s
    rw [moves, moves, moveNumQuick_eq (by omega)]
    match hm : scanNum s with
    | .past => rfl
    | .failed => rfl
    | .number wc rest =>
      rw [hm] at hwithin
      have hfour := hwithin.2
      simp only [ih (show n * 4 ≤ rest.length by omega)]

theorem unpackedExtent_eq (s : List UInt8) (nrecs : ℕ) : unpackedExtent s nrecs = moves scanNum nrecs s := by
  rw [unpackedExtent]
  split
  · rename_i hlt
    exact moves_quick hlt.le
  · rw [funext moveNumChecked_eq]

theorem sumExtent_eq (s : List UInt8) (n : ℕ) :
    sumExtent s n = (moves scanNum n s).map fun r => if r.1 = n then r.2 else [] := by
  rw [sumExtent]
  split
  · rfl
  · rename_i hlong
    rw [moves_quick (not_lt.mp hlong)]

theorem exists_moves (n : ℕ) (s : List UInt8) :
    ∃ k rest, moves scanNum n s = some (k, rest) ∧ k + rest.length ≤ s.length := by
  induction n generalizing s with
  | zero => exact ⟨0, s, rfl, by omega⟩
  | succ n ih =>
    have hwithin := within_scanNum s
    rw [moves]
    match hm : scanNum s with
    | .past =>
      rw [hm] at hwithin
      exact hwithin.elim
    | .failed => exact ⟨0, s, rfl, by omega⟩
    | .number wc rest =>
      rw [hm] at hwithin
      have hlt := hwithin.1
      obtain ⟨k, rest', hmoves, hle⟩ := ih rest
      exact ⟨k + 1, rest', by simp only [hmoves, Option.map_some], by omega⟩

theorem exists_sumExtent (s : List UInt8) (n : ℕ) : ∃ rest, sumExtent s n = some rest ∧ rest.length ≤ s.length := by
  obtain ⟨k, rest, hmoves, hle⟩ := exists_moves n s
  rw [sumExtent_eq, hmoves]
  refine ⟨_, rfl, ?_⟩
  simp only
  split
  · omega
  · exact Nat.zero_le _

theorem exists_minMaxLenExtent (s : List UInt8) (nrecs : ℕ) (saveSectionSize : Bool) :
    ∃ rest, minMaxLenExtent s nrecs saveSectionSize = some rest ∧ rest.length ≤ s.length := by
  rw [minMaxLenExtent]
  cases saveSectionSize with
  | false => exact exists_sumExtent s nrecs
  | true =>
    obtain ⟨mid, hmid, hle⟩ : ∃ mid, (if nrecs > 1 then sumExtent s (nrecs - 1) else some s) = some mid ∧
        mid.length ≤ s.length := by
      split
      · exact exists_sumExtent s (nrecs - 1)
      · exact ⟨s, rfl, le_refl _⟩
    rw [if_pos rfl, hmid, Option.bind_some]
    have hwithin := within_scanNum mid
    match hm : scanNum mid with
    | .past =>
      rw [hm] at hwithin
      exact hwithin.elim
    | .failed => exact ⟨mid, rfl, hle⟩
    | .number wc rest =>
      rw [hm] at hwithin
      exact ⟨rest, rfl, hwithin.1.le.trans hle⟩

theorem length_coordSkipLoop_le (n : ℕ) (s : List UInt8) : (coordSkipLoop n s).length ≤ s.length := by
  fun_induction coordSkipLoop n s with
  | case1 s => exact le_refl _
  | case2 n => exact le_refl _
  | case3 n c s hc ih => exact ih.trans (Nat.le_succ _)
  | case4 n c s hc herror => exact Nat.zero_le _
  | case5 n c s hc herror htwo ih => exact (ih.trans (by simp)).trans (Nat.le_succ _)
  | case6 n c s hc herror htwo hthree ih => exact (ih.trans (by simp)).trans (Nat.le_succ _)
  | case7 n c s hc herror htwo hthree hfour ih => exact (ih.trans (by simp)).trans (Nat.le_succ _)
  | case8 n c s hc herror htwo hthree hfour => exact Nat.zero_le _

theorem length_udmCoordSkip_le (i386 : Bool) (s : List UInt8) (n : ℕ) : (udmCoordSkip i386 s n).length ≤ s.length := by
  rw [udmCoordSkip, coordSkipLoop_coordSkipQuick, ite_self]
  exact length_coordSkipLoop_le n s

/-! ### Records take bytes -/

/-- The bytes of the shortest record. -/
def leastRecord : UdmBlobComp → ℕ
  | .none => 6
  | .urlidDeltaVariable => 3
  | .urlidDelta1BytesWithOffset => 3
  | .urlidDelta2Bytes => 4
  | .urlidDelta2BytesWithOffset => 4
  | .urlidDelta3Bytes => 5
  | _ => 2

theorem le_udmExpectedSectionCount {c : UdmBlobComp} {length : ℕ} (h : n * leastRecord c ≤ length) :
    n ≤ udmExpectedSectionCount c length := by
  cases c <;> simp only [leastRecord, udmExpectedSectionCount] at h ⊢ <;> omega

theorem length_of_idExtent {c : UdmBlobComp} {Stat' : ReadStat} {s' : List UInt8}
    (hbytes : idBytes c ≤ s.length) (h : idExtent c Stat s = .urlId urlId Stat' s') :
    s'.length + leastRecord c ≤ s.length + 2 := by
  cases c with
  | urlidDeltaVariable =>
    simp only [idExtent, readUrlId] at h
    cases hscan : udmCoordGet s with
    | none => simp [hscan, CoordRead.ofScan] at h
    | some r =>
      obtain ⟨wc, nbytes⟩ := r
      have hle := udmCoordGet_le hscan
      cases wc with
      | none => simp [hscan, CoordRead.ofScan] at h
      | some wc =>
        simp only [hscan, CoordRead.ofScan, ReadStat.addDelta, UrlIdRead.urlId.injEq] at h
        rw [← h.2.2, List.length_drop]
        simp only [leastRecord]
        omega
  | urlidRangeMulti =>
    simp only [idExtent, readUrlId] at h
    split at h
    all_goals
      simp only [UrlIdRead.urlId.injEq] at h
      rw [← h.2.2]
      exact le_refl _
  | _ =>
    simp only [idExtent, readUrlId, ReadStat.addDelta, UrlIdRead.urlId.injEq] at h
    simp only [idBytes] at hbytes
    rw [← h.2.2]
    simp only [leastRecord, List.length_drop]
    omega

/-! ### The sections that are found -/

theorem readCoord_moveNum (s : List UInt8) :
    readCoord s =
      match moveNum s with
      | .past => .value 0 []
      | .failed => .failed
      | .number none _ => .undefined
      | .number (some wc) rest => .value wc rest := by
  by_cases hs : s = []
  · subst hs
    rfl
  · rw [moveNum_eq hs, readCoord_eq hs, readCoordChecked_eq]
    match h : udmCoordGet s with
    | none =>
      rw [scanNum_none h]
      rfl
    | some (none, nbytes) =>
      rw [scanNum_some h]
      rfl
    | some (some wc, nbytes) =>
      rw [scanNum_some h]
      rfl

theorem moves_of_unpackLoop {pos : ℕ} {coords : List ℕ}
    (h : unpackLoop readCoordChecked nrecs pos s = some (coords, rest)) :
    moves scanNum nrecs s = some (coords.length, rest) := by
  induction nrecs generalizing pos s coords with
  | zero =>
    simp only [unpackLoop, Option.some.injEq, Prod.mk.injEq] at h
    obtain ⟨rfl, rfl⟩ := h
    rfl
  | succ nrecs ih =>
    rw [unpackLoop, readCoordChecked_eq] at h
    cases hget : udmCoordGet s with
    | none =>
      simp only [hget, CoordRead.ofScan, Option.some.injEq, Prod.mk.injEq] at h
      obtain ⟨rfl, rfl⟩ := h
      rw [moves, scanNum_none hget]
      rfl
    | some r =>
      obtain ⟨_ | wc, nbytes⟩ := r
      · simp [hget, CoordRead.ofScan] at h
      · simp only [hget, CoordRead.ofScan] at h
        obtain ⟨r, hr, heq⟩ := Option.map_eq_some_iff.mp h
        obtain ⟨rfl, rfl⟩ := Prod.mk.inj heq
        rw [moves, scanNum_some hget]
        simp only [ih hr, Option.map_some, List.length_cons]

theorem sumExtent_of_udmCoordSum {sum : ℕ} (h : udmCoordSum s n = some (sum, rest)) : sumExtent s n = some rest := by
  have hloop : ∀ {n sum sum' : ℕ} {s : List UInt8}, coordSumLoop udmCoordGet n sum s = some (sum', rest) →
      moves scanNum n s = some (n, rest) := by
    intro n
    induction n with
    | zero =>
      intro sum sum' s h
      simp only [coordSumLoop, Option.some.injEq, Prod.mk.injEq] at h
      rw [moves, h.2]
    | succ n ih =>
      intro sum sum' s h
      rw [coordSumLoop] at h
      cases hget : udmCoordGet s with
      | none => simp [hget] at h
      | some r =>
        obtain ⟨_ | wc, nbytes⟩ := r
        · simp [hget] at h
        · simp only [hget] at h
          rw [moves, scanNum_some hget]
          simp only [ih h, Option.map_some]
  rw [udmCoordSum_eq] at h
  rw [sumExtent_eq, hloop h, Option.map_some, if_pos rfl]

theorem minMaxLenExtent_of_eq {C : ℕ} {saveSectionSize : Bool} {r : ℕ × ℕ × ℕ}
    (h : udmBlobPackedCoordsUnpackMinMaxLen s nrecs C saveSectionSize = some (r, rest)) :
    minMaxLenExtent s nrecs saveSectionSize = some rest := by
  unfold udmBlobPackedCoordsUnpackMinMaxLen at h
  rw [minMaxLenExtent]
  cases saveSectionSize with
  | false =>
    obtain ⟨r', hr, heq⟩ := Option.map_eq_some_iff.mp h
    obtain ⟨sum, rest'⟩ := r'
    obtain ⟨-, rfl⟩ := Prod.mk.inj heq
    exact sumExtent_of_udmCoordSum hr
  | true =>
    simp only [if_true] at h ⊢
    have hmid : ∀ {maxpos : ℕ} {mid : List UInt8},
        (if nrecs > 1 then (udmCoordSum s (nrecs - 1)).map fun r => (pos24 (C + r.1), r.2) else some (C, s)) =
          some (maxpos, mid) → (if nrecs > 1 then sumExtent s (nrecs - 1) else some s) = some mid := by
      intro maxpos mid hmid
      split at hmid
      · rename_i hmany
        obtain ⟨r', hr, heq⟩ := Option.map_eq_some_iff.mp hmid
        obtain ⟨sum, rest'⟩ := r'
        obtain ⟨-, rfl⟩ := Prod.mk.inj heq
        rw [if_pos hmany]
        exact sumExtent_of_udmCoordSum hr
      · rename_i hfew
        simp only [Option.some.injEq, Prod.mk.injEq] at hmid
        rw [if_neg hfew, hmid.2]
    split at h
    · exact absurd h (by simp)
    · rename_i maxpos mid heq
      rw [hmid heq, Option.bind_some]
      match hget : udmCoordGet mid with
      | none =>
        simp only [hget, Option.some.injEq, Prod.mk.injEq] at h
        rw [scanNum_none hget, ← h.2]
      | some (none, nbytes) => simp [hget] at h
      | some (some wc, nbytes) =>
        simp only [hget, Option.some.injEq, Prod.mk.injEq] at h
        rw [scanNum_some hget, ← h.2]

/-- What is read of a record, as far as the numbers in it are assigned. -/
def RecordExtent.Of (r : RecordExtent) : RecordRead → Prop
  | .undefined => True
  | .stop ncoords => r = .stop ncoords
  | .skipped rest => r = .skipped rest
  | .found _ ncoords rest => ∃ written, r = .found ncoords written rest

theorem recordExtent_readRecord {args : UnpackArgs}
    (h : recordExtent args urlId s ≠ .past) : (recordExtent args urlId s).Of (readRecord args urlId s) := by
  unfold recordExtent readRecord at *
  rw [readCoord_moveNum]
  match hcount : moveNum s with
  | .past => exact absurd (by simp [hcount]) h
  | .failed => exact rfl
  | .number none rest => exact trivial
  | .number (some nrecs) rest =>
    simp only [hcount] at h ⊢
    by_cases hne : nrecs = 0
    · simp only [hne, if_true]
      exact rfl
    simp only [hne, if_false] at h ⊢
    cases hactive : args.active urlId with
    | false => exact rfl
    | true =>
      simp only [hactive, Bool.not_true, Bool.false_eq_true, if_false] at h ⊢
      rw [readCoord_moveNum]
      match hcoord : moveNum rest with
      | .past => exact absurd (by simp [hcoord]) h
      | .failed => exact rfl
      | .number none rest' => exact trivial
      | .number (some crd) rest' =>
        simp only [hcoord] at h ⊢
        by_cases hone : nrecs - 1 = 0
        · simp only [hone, if_true]
          exact ⟨_, rfl⟩
        simp only [hone, if_false] at h ⊢
        cases hneed : args.needCoords with
        | false =>
          simp only [Bool.not_false, if_true]
          match hread : udmBlobPackedCoordsUnpackMinMaxLen rest' (nrecs - 1) (pos24 crd) args.saveSectionSize with
          | none => exact trivial
          | some ((maxpos, seclen, n), rest'') =>
            simp only [minMaxLenExtent_of_eq hread]
            exact ⟨_, rfl⟩
        | true =>
          simp only [Bool.not_true, Bool.false_eq_true, if_false]
          rw [unpackedExtent_eq]
          match hread : udmBlobPackedCoordsToUnpackedCoords rest' (nrecs - 1) (pos24 crd) with
          | none => exact trivial
          | some (coords, rest'') =>
            rw [udmBlobPackedCoordsToUnpackedCoords_eq] at hread
            simp only [moves_of_unpackLoop hread]
            split <;> exact ⟨_, rfl⟩

/-- Where the coordinates behind the first one end, as far as they can be read. -/
def coordsEnd (args : UnpackArgs) (nrecs : ℕ) (s : List UInt8) : List UInt8 :=
  if nrecs = 0 then s
  else if !args.needCoords then (minMaxLenExtent s nrecs args.saveSectionSize).getD []
  else ((unpackedExtent s nrecs).map Prod.snd).getD []

/-- The records that the loop comes to have a number of coordinates, if they have anything, and do not end with it. `n`
is the sum of these numbers. -/
inductive Readable (args : UnpackArgs) (compressionType : UdmBlobComp) : ReadStat → List UInt8 → ℕ → Prop
  | done {Stat : ReadStat} {s : List UInt8} (h : s.length ≤ tailBytes compressionType) :
      Readable args compressionType Stat s 0
  | noId {Stat : ReadStat} {s : List UInt8} (htail : tailBytes compressionType < s.length)
      (hrange : RangeWithin compressionType Stat) (hid : idExtent compressionType Stat s = .stop) :
      Readable args compressionType Stat s 0
  /-- There is no number of coordinates, or it is zero. -/
  | noCount {Stat Stat' : ReadStat} {s s' : List UInt8} {urlId : ℤ} (htail : tailBytes compressionType < s.length)
      (hrange : RangeWithin compressionType Stat) (hid : idExtent compressionType Stat s = .urlId urlId Stat' s')
      (hcount : moveNum s' = .failed ∨ ∃ rest, moveNum s' = .number (some 0) rest) :
      Readable args compressionType Stat s 0
  /-- The limit rejects the document. -/
  | skipped {Stat Stat' : ReadStat} {s s' rest : List UInt8} {urlId : ℤ} {nrecs n : ℕ}
      (htail : tailBytes compressionType < s.length) (hrange : RangeWithin compressionType Stat)
      (hid : idExtent compressionType Stat s = .urlId urlId Stat' s') (hcount : moveNum s' = .number (some nrecs) rest)
      (hne : nrecs ≠ 0) (hactive : args.active urlId = false)
      (hrest : Readable args compressionType Stat' (udmCoordSkip args.i386 rest nrecs) n) :
      Readable args compressionType Stat s n
  | noCoord {Stat Stat' : ReadStat} {s s' rest : List UInt8} {urlId : ℤ} {nrecs : ℕ}
      (htail : tailBytes compressionType < s.length) (hrange : RangeWithin compressionType Stat)
      (hid : idExtent compressionType Stat s = .urlId urlId Stat' s') (hcount : moveNum s' = .number (some nrecs) rest)
      (hne : nrecs ≠ 0) (hactive : args.active urlId = true) (hcoord : moveNum rest = .failed) :
      Readable args compressionType Stat s (countCoords args.saveSectionSize nrecs)
  | record {Stat Stat' : ReadStat} {s s' rest rest' : List UInt8} {urlId : ℤ} {nrecs n : ℕ} {wc : Option ℕ}
      (htail : tailBytes compressionType < s.length) (hrange : RangeWithin compressionType Stat)
      (hid : idExtent compressionType Stat s = .urlId urlId Stat' s') (hcount : moveNum s' = .number (some nrecs) rest)
      (hne : nrecs ≠ 0) (hactive : args.active urlId = true) (hcoord : moveNum rest = .number wc rest')
      (hrest : Readable args compressionType Stat' (coordsEnd args (nrecs - 1) rest') n) :
      Readable args compressionType Stat s (countCoords args.saveSectionSize nrecs + n)

theorem recordExtent_found {s1 s2 : List UInt8}
    (hcount : moveNum s = .number (some nrecs) s1) (hne : nrecs ≠ 0) (hactive : args.active urlId = true)
    (hcoord : moveNum s1 = .number wc s2) :
    ∃ written, recordExtent args urlId s =
        .found (countCoords args.saveSectionSize nrecs) written (coordsEnd args (nrecs - 1) s2) ∧
      (coordsEnd args (nrecs - 1) s2).length ≤ s2.length ∧
      written + (coordsEnd args (nrecs - 1) s2).length ≤ s2.length + 1 := by
  rw [recordExtent, hcount]
  simp only [hne, hactive, hcoord, if_false, Bool.not_true, Bool.false_eq_true]
  by_cases hone : nrecs - 1 = 0
  · have hend : coordsEnd args (nrecs - 1) s2 = s2 := if_pos hone
    rw [hend, if_pos hone]
    refine ⟨_, rfl, le_refl _, ?_⟩
    split <;> omega
  cases hneed : args.needCoords with
  | false =>
    obtain ⟨rest, hrest, hle⟩ := exists_minMaxLenExtent s2 (nrecs - 1) args.saveSectionSize
    have hend : coordsEnd args (nrecs - 1) s2 = rest := by
      rw [coordsEnd, if_neg hone, hneed, hrest]
      rfl
    refine ⟨0, ?_, by rw [hend]; omega, by rw [hend]; omega⟩
    rw [if_neg hone, hend, hrest]
    rfl
  | true =>
    obtain ⟨k, rest, hrest, hle⟩ := exists_moves (nrecs - 1) s2
    rw [← unpackedExtent_eq] at hrest
    have hend : coordsEnd args (nrecs - 1) s2 = rest := by
      rw [coordsEnd, if_neg hone, hneed, hrest]
      rfl
    refine ⟨k + 1, ?_, by rw [hend]; omega, by rw [hend]; omega⟩
    rw [if_neg hone, hend, hrest]
    rfl

theorem idBytes_le (h : tailBytes c < s.length) : idBytes c ≤ s.length := by
  cases c <;> simp [tailBytes, idBytes] at h ⊢ <;> omega

theorem length_lt_of_moveNum (h : moveNum s = .number wc rest) : rest.length < s.length := by
  by_cases hs : s = []
  · subst hs
    exact absurd h (by simp [moveNum, moveSmall])
  · have hwithin := within_scanNum s
    rw [← moveNum_eq hs, h] at hwithin
    exact hwithin.1

theorem unpackExtents_succ (htail : tailBytes c < s.length)
    (hrange : RangeWithin c Stat) (fuel : ℕ) :
    unpackExtents args c (fuel + 1) Stat s =
      match idExtent c Stat s with
      | .undefined => none
      | .stop => some ⟨0, 0, 0⟩
      | .urlId urlId Stat s =>
        match recordExtent args urlId s with
        | .past => none
        | .undefined => none
        | .stop ncoords => some ⟨0, ncoords, 0⟩
        | .skipped s => unpackExtents args c fuel Stat s
        | .found ncoords written s =>
          (unpackExtents args c fuel Stat s).map fun e =>
            ⟨e.nsections + 1, ncoords + e.ncoords, written + e.written⟩ := by
  have hbytes : ¬s.length < idBytes c := not_lt.mpr (idBytes_le htail)
  rw [unpackExtents, if_neg (not_le.mpr htail), if_neg (not_or.mpr ⟨hbytes, not_not.mpr hrange⟩)]

theorem two_le_leastRecord (c : UdmBlobComp) : 2 ≤ leastRecord c := by
  cases c <;> simp [leastRecord]

/-- **Inside the string**: the sections take the bytes that are expected for them, and the coords that are written take
a byte each. -/
theorem exists_unpackExtents (h : Readable args c Stat s n)
    (hfuel : s.length ≤ fuel) :
    ∃ e, unpackExtents args c fuel Stat s = some e ∧ e.ncoords = n ∧ e.written ≤ s.length ∧
      e.nsections * leastRecord c ≤ s.length := by
  induction h generalizing fuel with
  | @done Stat s hlen =>
    refine ⟨⟨0, 0, 0⟩, ?_, rfl, Nat.zero_le _, by simp⟩
    cases fuel with
    | zero => rfl
    | succ fuel => rw [unpackExtents, if_pos hlen]
  | @noId Stat s htail hrange hid =>
    obtain ⟨fuel, rfl⟩ := Nat.exists_eq_add_of_le' (show 1 ≤ fuel by omega)
    refine ⟨⟨0, 0, 0⟩, ?_, rfl, Nat.zero_le _, by simp⟩
    rw [unpackExtents_succ htail hrange, hid]
  | @noCount Stat Stat' s s' urlId htail hrange hid hcount =>
    obtain ⟨fuel, rfl⟩ := Nat.exists_eq_add_of_le' (show 1 ≤ fuel by omega)
    have hstop : recordExtent args urlId s' = .stop 0 := by
      rcases hcount with hcount | ⟨rest, hcount⟩ <;> simp [recordExtent, hcount]
    refine ⟨⟨0, 0, 0⟩, ?_, rfl, Nat.zero_le _, by simp⟩
    rw [unpackExtents_succ htail hrange, hid]
    simp only [hstop]
  | @skipped Stat Stat' s s' rest urlId nrecs n htail hrange hid hcount hne hactive hrest ih =>
    obtain ⟨fuel, rfl⟩ := Nat.exists_eq_add_of_le' (show 1 ≤ fuel by omega)
    have hlt := length_lt_of_moveNum hcount
    have hskip := length_udmCoordSkip_le args.i386 rest nrecs
    have hidlen := length_of_idExtent (idBytes_le htail) hid
    have hleast := two_le_leastRecord c
    have hstep : recordExtent args urlId s' = .skipped (udmCoordSkip args.i386 rest nrecs) := by
      simp [recordExtent, hcount, hne, hactive]
    obtain ⟨e, he, hn, hwritten, hsections⟩ := @ih fuel (by omega)
    refine ⟨e, ?_, hn, by omega, by omega⟩
    rw [unpackExtents_succ htail hrange, hid]
    simp only [hstep]
    exact he
  | @noCoord Stat Stat' s s' rest urlId nrecs htail hrange hid hcount hne hactive hcoord =>
    obtain ⟨fuel, rfl⟩ := Nat.exists_eq_add_of_le' (show 1 ≤ fuel by omega)
    have hstep : recordExtent args urlId s' = .stop (countCoords args.saveSectionSize nrecs) := by
      simp [recordExtent, hcount, hne, hactive, hcoord]
    refine ⟨⟨0, countCoords args.saveSectionSize nrecs, 0⟩, ?_, rfl, Nat.zero_le _, by simp⟩
    rw [unpackExtents_succ htail hrange, hid]
    simp only [hstep]
  | @record Stat Stat' s s' rest rest' urlId nrecs n wc htail hrange hid hcount hne hactive hcoord hrest ih =>
    obtain ⟨fuel, rfl⟩ := Nat.exists_eq_add_of_le' (show 1 ≤ fuel by omega)
    have hlt := length_lt_of_moveNum hcount
    have hlt' := length_lt_of_moveNum hcoord
    have hidlen := length_of_idExtent (idBytes_le htail) hid
    have hleast := two_le_leastRecord c
    obtain ⟨written, hstep, hend, hle⟩ := recordExtent_found hcount hne hactive hcoord
    obtain ⟨e, he, hn, hwritten, hsections⟩ := @ih fuel (by omega)
    refine ⟨⟨e.nsections + 1, countCoords args.saveSectionSize nrecs + e.ncoords, written + e.written⟩, ?_,
      by rw [← hn], by simp only; omega, ?_⟩
    · rw [unpackExtents_succ htail hrange, hid]
      simp only [hstep, he, Option.map_some]
    · simp only [Nat.add_mul, Nat.one_mul]
      omega

theorem readable_of_unpackExtents (hfuel : s.length ≤ fuel)
    (h : unpackExtents args c fuel Stat s = some e) : Readable args c Stat s e.ncoords := by
  induction fuel generalizing Stat s e with
  | zero =>
    obtain rfl := Option.some.inj h
    exact .done (hfuel.trans (Nat.zero_le _))
  | succ fuel ih =>
    rw [unpackExtents] at h
    by_cases htail : s.length ≤ tailBytes c
    · rw [if_pos htail] at h
      obtain rfl := Option.some.inj h
      exact .done htail
    rw [if_neg htail] at h
    rw [not_le] at htail
    by_cases hwithin : s.length < idBytes c ∨ ¬RangeWithin c Stat
    · rw [if_pos hwithin] at h
      exact absurd h (by simp)
    rw [if_neg hwithin] at h
    have hrange : RangeWithin c Stat := not_not.mp (not_or.mp hwithin).2
    match hid : idExtent c Stat s with
    | .undefined =>
      rw [hid] at h
      exact absurd h (by simp)
    | .stop =>
      rw [hid] at h
      obtain rfl := Option.some.inj h
      exact .noId htail hrange hid
    | .urlId urlId Stat' s' =>
      rw [hid] at h
      simp only at h
      have hidlen := length_of_idExtent (idBytes_le htail) hid
      have hleast := two_le_leastRecord c
      match hcount : moveNum s' with
      | .past => simp [recordExtent, hcount] at h
      | .failed =>
        simp only [recordExtent, hcount] at h
        obtain rfl := Option.some.inj h
        exact .noCount htail hrange hid (.inl hcount)
      | .number none rest => simp [recordExtent, hcount] at h
      | .number (some nrecs) rest =>
        have hlt := length_lt_of_moveNum hcount
        by_cases hne : nrecs = 0
        · subst hne
          simp only [recordExtent, hcount, if_true] at h
          obtain rfl := Option.some.inj h
          exact .noCount htail hrange hid (.inr ⟨rest, hcount⟩)
        cases hactive : args.active urlId with
        | false =>
          simp only [recordExtent, hcount, hne, hactive, if_false, if_true, Bool.not_false] at h
          have hskip := length_udmCoordSkip_le args.i386 rest nrecs
          exact .skipped htail hrange hid hcount hne hactive (ih (by omega) h)
        | true =>
          match hcoord : moveNum rest with
          | .past => simp [recordExtent, hcount, hne, hactive, hcoord] at h
          | .failed =>
            simp only [recordExtent, hcount, hne, hactive, hcoord, if_false, Bool.not_true, Bool.false_eq_true] at h
            obtain rfl := Option.some.inj h
            exact .noCoord htail hrange hid hcount hne hactive hcoord
          | .number wc rest' =>
            have hlt' := length_lt_of_moveNum hcoord
            obtain ⟨written, hstep, hend, -⟩ := recordExtent_found hcount hne hactive hcoord
            rw [hstep] at h
            obtain ⟨e', he', rfl⟩ := Option.map_eq_some_iff.mp h
            exact .record htail hrange hid hcount hne hactive hcoord (ih (by omega) he')

/-! ### The allocation -/

/-- The pointer stays in the string, and the sections and the coordinates fit in what has been allocated. -/
def FitsAllocation (args : UnpackArgs) (s : List UInt8) : Prop :=
  ∃ e, udmSectionListBlobCoordsExtents args s = some e ∧
    e.nsections ≤ udmExpectedSectionCount (udmBlobCoordsGetCompressionType s).1 s.length ∧
    e.written ≤ s.length ∧ e.ncoords ≤ s.length

/-- One document of six bytes that says it has a hundred coordinates. -/
def hundredCoords : List UInt8 := [1, 0, 0, 0, 100, 1]

end MnoGoSearch.Blob
