import MnoGoSearch.Lib.BitString
import Mathlib.Data.List.Infix
import Mathlib.Tactic.IntervalCases
import Mathlib.Tactic.Ring

/-!
# The codec zint4

Lists of numbers of 32 bits as strings of bits (`udm_zint4` and `udm_dezint4` in `utils.c`).
Each number is written as the difference to the one before, in one to eight blocks of four
bits, with the number of blocks in front: as many ones as there are further blocks, and a zero.
Eight ones are no number of blocks and end the list.

The encoder keeps the byte that is not complete, the decoder its place in the current byte.
`bits` says for both which bits have been written or are still to be read.
-/

namespace MnoGoSearch.Utils

open Lib.BitString

/-! ### Encoding -/

/-- `UDM_ZINT4_STATE`. -/
structure UdmZint4State where
  /-- How many bits of the current byte are free; all eight when it has not been begun. -/
  bitsLeft : ℕ
  /-- The number that was written last. -/
  prev : Int32
  /-- The bytes from `buf` to `end`. -/
  buf : List UInt8
  /-- The current byte, at `end`. -/
  cur : UInt8

/-- `udm_zint4_init`. -/
def udmZint4Init : UdmZint4State := ⟨8, 0, [], 0⟩

/-- `udm_zint4_write_bits`. The numbers are of type `int` and cut to a byte when they are
stored. -/
def udmZint4WriteBits (state : UdmZint4State) (byte : UInt8) (nbits : ℕ) : UdmZint4State :=
  let cur := if state.bitsLeft = 8 then 0 else state.cur
  if state.bitsLeft ≥ nbits then
    let cur := UInt8.ofNat (cur.toNat + byte.toNat <<< (state.bitsLeft - nbits))
    if nbits = state.bitsLeft then { state with bitsLeft := 8, buf := state.buf ++ [cur] }
    else { state with bitsLeft := state.bitsLeft - nbits, cur := cur }
  else
    let last := UInt8.ofNat (cur.toNat + byte.toNat >>> (nbits - state.bitsLeft))
    let bitsLeft := state.bitsLeft + 8 - nbits
    { state with bitsLeft := bitsLeft, buf := state.buf ++ [last], cur := UInt8.ofNat (byte.toNat <<< bitsLeft) }

/-- A number as an `unsigned char`, written in this many bits. -/
def writeBits (nbits n : ℕ) (state : UdmZint4State) : UdmZint4State := udmZint4WriteBits state (.ofNat n) nbits

/-- `udm_zint4`. -/
def udmZint4 (state : UdmZint4State) (next : Int32) : UdmZint4State :=
  let n := (next - state.prev).toUInt32.toNat
  let state := { state with prev := next }
  if n < 0x10 then writeBits 5 n state
  else if n < 0x110 then
    let n := n - 0x10
    writeBits 8 n (writeBits 2 2 state)
  else if n < 0x1110 then
    let n := n - 0x110
    writeBits 8 (n &&& 0xff) (writeBits 4 (n >>> 8) (writeBits 3 6 state))
  else if n < 0x11110 then
    let n := n - 0x1110
    writeBits 8 (n &&& 0xff) (writeBits 8 (n >>> 8) (writeBits 4 0xe state))
  else if n < 0x111110 then
    let n := n - 0x11110
    writeBits 8 (n &&& 0xff) (writeBits 8 ((n >>> 8) &&& 0xff) (writeBits 4 (n >>> 16) (writeBits 5 0x1e state)))
  else if n < 0x1111110 then
    let n := n - 0x111110
    writeBits 8 (n &&& 0xff) (writeBits 8 ((n >>> 8) &&& 0xff) (writeBits 8 (n >>> 16) (writeBits 6 0x3e state)))
  else if n < 0x11111110 then
    let n := n - 0x1111110
    writeBits 8 (n &&& 0xff) (writeBits 8 ((n >>> 8) &&& 0xff) (writeBits 8 ((n >>> 16) &&& 0xff)
      (writeBits 4 (n >>> 24) (writeBits 7 0x7e state))))
  else
    let n := n - 0x11111110
    writeBits 8 (n &&& 0xff) (writeBits 8 ((n >>> 8) &&& 0xff) (writeBits 8 ((n >>> 16) &&& 0xff)
      (writeBits 8 (n >>> 24) (writeBits 8 0xfe state))))

/-- `udm_zint4_finalize`: the bytes from `buf` to `end`. The ones that fill the last byte go over
into the next one, where the first byte of the end is written over them. -/
def udmZint4Finalize (state : UdmZint4State) : List UInt8 :=
  let state := if state.bitsLeft < 8 then writeBits 8 0xff state else state
  state.buf ++ [0xff, 0xff, 0xff, 0xff, 0xff]

/-- The string of a list of numbers. -/
def zint4Encode (l : List Int32) : List UInt8 := udmZint4Finalize (l.foldl udmZint4 udmZint4Init)

/-! ### Decoding -/

/-- Where `udm_dezint4` is in its string. -/
structure UdmDezint4State where
  /-- The bytes from `buf` on. -/
  buf : List UInt8
  /-- How many bits of the current byte are still to be read. -/
  bitIdx : ℕ

namespace UdmDezint4State

/-- The current byte. -/
def nextByte (st : UdmDezint4State) : ℕ := (st.buf.headD 0).toNat

/-- `next_byte= *++buf`: undefined behind the end of the string. -/
def advance (st : UdmDezint4State) (bitIdx : ℕ) : Option UdmDezint4State :=
  match st.buf with
  | _ :: b :: rest => some ⟨b :: rest, bitIdx⟩
  | _ => none

/-- A bit has been read. -/
def setBitIdx (st : UdmDezint4State) (bitIdx : ℕ) : Option UdmDezint4State :=
  if bitIdx = 0 then st.advance 8 else some { st with bitIdx := bitIdx }

end UdmDezint4State

/-- Extract the number of blocks, when `left` more ones are too many: `none` when that is
undefined, `some none` at the end of the list. -/
def countBlocks : ℕ → UdmDezint4State → Option (Option (ℕ × UdmDezint4State))
  | 0, _ => some none
  | left + 1, st =>
    let bitIdx := st.bitIdx - 1
    if st.nextByte &&& (1 <<< bitIdx) ≠ 0 then
      if left = 0 then some none else (st.setBitIdx bitIdx).bind (countBlocks left)
    else (st.setBitIdx bitIdx).map fun st => some (8 - left, st)

/-- The `switch` over the place in the current byte: four bits. -/
def readBlock (st : UdmDezint4State) : Option (ℕ × UdmDezint4State) :=
  match st.bitIdx with
  | 1 => (st.advance 5).map fun st' => ((st.nextByte &&& 1) <<< 3 + ((st'.nextByte >>> 5) &&& 0xf), st')
  | 2 => (st.advance 6).map fun st' => ((st.nextByte &&& 3) <<< 2 + ((st'.nextByte >>> 6) &&& 7), st')
  | 3 => (st.advance 7).map fun st' => ((st.nextByte &&& 7) <<< 1 + ((st'.nextByte >>> 7) &&& 3), st')
  | 4 => (st.advance 8).map fun st' => (st.nextByte &&& 0xf, st')
  | 5 => some ((st.nextByte >>> 1) &&& 0xf, { st with bitIdx := 1 })
  | 6 => some ((st.nextByte >>> 2) &&& 0xf, { st with bitIdx := 2 })
  | 7 => some ((st.nextByte >>> 3) &&& 0xf, { st with bitIdx := 3 })
  | 8 => some ((st.nextByte >>> 4) &&& 0xf, { st with bitIdx := 4 })
  | _ => some (0, st)

/-- The loop over the blocks, when this many follow the current one. -/
def readBlocks : ℕ → UInt32 → UdmDezint4State → Option (UInt32 × UdmDezint4State)
  | 0, next, st => (readBlock st).map fun r => (next + .ofNat r.1, r.2)
  | nblocks + 1, next, st =>
    (readBlock st).bind fun r => readBlocks nblocks ((next + .ofNat r.1 + 1) <<< 4) r.2

/-- The loop over the numbers. Each takes bits, so that the number of bits is enough fuel. -/
def dezint4Loop : ℕ → Int32 → UdmDezint4State → Option (List Int32)
  | 0, _, _ => none
  | fuel + 1, prev, st =>
    match countBlocks 8 st with
    | none => none
    | some none => some []
    | some (some (nblocks, st)) =>
      match readBlocks (nblocks - 1) 0 st with
      | none => none
      | some (next, st) => (dezint4Loop fuel (prev + next.toInt32) st).map ((prev + next.toInt32) :: ·)

/-- `udm_dezint4`: the numbers, `none` when it reads behind the string or in front of it. -/
def udmDezint4 (buf : List UInt8) : Option (List Int32) :=
  if buf.length < 5 then none
  else if buf.drop (buf.length - 5) ≠ [0xff, 0xff, 0xff, 0xff, 0xff] then some []
  else dezint4Loop (8 * buf.length) 0 ⟨buf, 8⟩

/-! ### The code of a number -/

/-- The least number of this many blocks: there are `16 ^ k` numbers of `k` blocks. -/
def zint4Base : ℕ → ℕ
  | 0 => 0
  | 1 => 0
  | k + 1 => (zint4Base k + 1) * 16

/-- How many blocks a number has. -/
def zint4Blocks (n : ℕ) : ℕ :=
  if n < 0x10 then 1 else if n < 0x110 then 2 else if n < 0x1110 then 3 else if n < 0x11110 then 4
  else if n < 0x111110 then 5 else if n < 0x1111110 then 6 else if n < 0x11111110 then 7 else 8

/-- The bits of a number of `k` blocks. -/
def blockBits (k m : ℕ) : List Bool := List.replicate (k - 1) true ++ false :: bitsMSB (4 * k) m

/-- The bits of a number. -/
def codeBits (n : ℕ) : List Bool := blockBits (zint4Blocks n) (n - zint4Base (zint4Blocks n))

variable {n : ℕ} {x : Bool} {state : UdmZint4State}

theorem zint4Blocks_spec (h : n < 2 ^ 32) :
    1 ≤ zint4Blocks n ∧ zint4Blocks n ≤ 8 ∧ zint4Base (zint4Blocks n) ≤ n ∧
      n - zint4Base (zint4Blocks n) < 16 ^ zint4Blocks n := by
  unfold zint4Blocks
  split_ifs <;> simp only [zint4Base] <;> omega

/-! ### What the encoder writes -/

namespace UdmZint4State

/-- The bits that have been written. -/
def bits (state : UdmZint4State) : List Bool :=
  Lib.BitString.bits state.buf ++ bitsMSB (8 - state.bitsLeft) (state.cur.toNat / 2 ^ state.bitsLeft)

/-- The free bits of the current byte are zero. -/
structure Wf (state : UdmZint4State) : Prop where
  bitsLeft_pos : 0 < state.bitsLeft
  bitsLeft_le : state.bitsLeft ≤ 8
  cur_mod : state.bitsLeft < 8 → state.cur.toNat % 2 ^ state.bitsLeft = 0

/-- From one state to another some bits have been written. -/
structure Writes (state state' : UdmZint4State) (l : List Bool) : Prop where
  /-- The new state is well formed. -/
  wf : state'.Wf
  bits_eq : state'.bits = state.bits ++ l
  /-- The last number is the same. -/
  prev_eq : state'.prev = state.prev

theorem Writes.trans {s s' s'' : UdmZint4State} {l l' : List Bool} (h : Writes s s' l) (h' : Writes s' s'' l') :
    Writes s s'' (l ++ l') := by
  refine ⟨h'.wf, ?_, h'.prev_eq.trans h.prev_eq⟩
  rw [h'.bits_eq, h.bits_eq, List.append_assoc]

end UdmZint4State

open UdmZint4State

theorem bits_full (prev : Int32) (buf : List UInt8) (cur : UInt8) :
    UdmZint4State.bits ⟨8, prev, buf, cur⟩ = Lib.BitString.bits buf := List.append_nil _

theorem wf_udmZint4Init : udmZint4Init.Wf := ⟨by decide, by decide, fun h => absurd h (by decide)⟩

theorem toNat_ofNat_of_lt (h : n < 256) : (UInt8.ofNat n).toNat = n := by
  rw [UInt8.toNat_ofNat', Nat.mod_eq_of_lt h]

theorem cur_eq (h : state.Wf) :
    ∃ c, (if state.bitsLeft = 8 then (0 : UInt8) else state.cur).toNat = c * 2 ^ state.bitsLeft ∧
      c < 2 ^ (8 - state.bitsLeft) ∧ state.bits = Lib.BitString.bits state.buf ++ bitsMSB (8 - state.bitsLeft) c := by
  by_cases hfull : state.bitsLeft = 8
  · refine ⟨0, by rw [if_pos hfull, Nat.zero_mul]; rfl, Nat.two_pow_pos _, ?_⟩
    rw [UdmZint4State.bits, hfull]
    rfl
  · have hlt : state.bitsLeft < 8 := lt_of_le_of_ne h.bitsLeft_le hfull
    refine ⟨state.cur.toNat / 2 ^ state.bitsLeft, ?_, ?_, rfl⟩
    · rw [if_neg hfull, Nat.div_mul_cancel (Nat.dvd_of_mod_eq_zero (h.cur_mod hlt))]
    · rw [Nat.div_lt_iff_lt_mul (Nat.two_pow_pos _), ← Nat.pow_add, Nat.sub_add_cancel h.bitsLeft_le]
      exact UInt8.toNat_lt_size _

/-- **Writing bits** puts them behind the others. -/
theorem writes_writeBits (h : state.Wf) {nbits : ℕ} (hnbits : nbits ≤ 8) (hpos : 0 < nbits)
    (hn : n < 2 ^ nbits) : Writes state (writeBits nbits n state) (bitsMSB nbits n) := by
  obtain ⟨c, hcur, hc, hbits⟩ := cur_eq h
  have hL := h.bitsLeft_le
  have hLpos := h.bitsLeft_pos
  have hn256 : n < 256 := lt_of_lt_of_le hn (Nat.pow_le_pow_right (by decide) hnbits)
  have hpow : ∀ j k : ℕ, j + k = 8 → 2 ^ j * 2 ^ k = 2 ^ 8 := fun j k hjk => by
    rw [← Nat.pow_add, hjk]
  rw [writeBits, udmZint4WriteBits]
  simp only [toNat_ofNat_of_lt hn256, hcur, Nat.shiftLeft_eq, Nat.shiftRight_eq_div_pow, ge_iff_le]
  by_cases hfits : nbits ≤ state.bitsLeft
  · rw [if_pos hfits]
    -- the number goes in front of the bits that stay free
    have hsplit : 2 ^ state.bitsLeft = 2 ^ nbits * 2 ^ (state.bitsLeft - nbits) := by
      rw [← Nat.pow_add, Nat.add_sub_cancel' hfits]
    have hsum : c * 2 ^ state.bitsLeft + n * 2 ^ (state.bitsLeft - nbits) =
        (c * 2 ^ nbits + n) * 2 ^ (state.bitsLeft - nbits) := by
      rw [hsplit]
      ring
    have hlow : c * 2 ^ nbits + n < 2 ^ (8 - state.bitsLeft + nbits) := by
      have hmul : (c + 1) * 2 ^ nbits ≤ 2 ^ (8 - state.bitsLeft) * 2 ^ nbits := Nat.mul_le_mul_right _ hc
      rw [Nat.pow_add]
      rw [Nat.add_mul, Nat.one_mul] at hmul
      omega
    have hlt : (c * 2 ^ nbits + n) * 2 ^ (state.bitsLeft - nbits) < 2 ^ 8 := by
      rw [← hpow (8 - state.bitsLeft + nbits) (state.bitsLeft - nbits) (by omega)]
      exact Nat.mul_lt_mul_of_pos_right hlow (Nat.two_pow_pos _)
    rw [hsum]
    by_cases hall : nbits = state.bitsLeft
    · rw [if_pos hall]
      refine ⟨⟨by simp, by simp, fun h => absurd h (by simp)⟩, ?_, rfl⟩
      have hbyte : bitsMSB 8 (c * 2 ^ nbits + n) = bitsMSB (8 - state.bitsLeft) c ++ bitsMSB nbits n := by
        rw [← bitsMSB_mul_add _ _ c hn, hall, Nat.sub_add_cancel hL]
      rw [hbits, bits_full, bits_append, bits_singleton, toNat_ofNat_of_lt hlt, ← hall, Nat.sub_self, Nat.pow_zero,
        Nat.mul_one, hbyte, hall, List.append_assoc]
    · rw [if_neg hall]
      refine ⟨⟨by simp only; omega, by simp only; omega, fun _ => ?_⟩, ?_, rfl⟩
      · simp only [toNat_ofNat_of_lt hlt]
        exact Nat.mul_mod_left _ _
      · rw [hbits, UdmZint4State.bits]
        simp only [toNat_ofNat_of_lt hlt]
        rw [Nat.mul_div_cancel _ (Nat.two_pow_pos _), List.append_assoc, ← bitsMSB_mul_add _ _ c hn]
        congr 2
        omega
  · rw [if_neg hfits]
    -- the number goes over into the next byte
    have hhigh : n / 2 ^ (nbits - state.bitsLeft) < 2 ^ state.bitsLeft := by
      rw [Nat.div_lt_iff_lt_mul (Nat.two_pow_pos _), ← Nat.pow_add, Nat.add_sub_cancel' (by omega)]
      exact hn
    have hlt : c * 2 ^ state.bitsLeft + n / 2 ^ (nbits - state.bitsLeft) < 256 := by
      have hmul : (c + 1) * 2 ^ state.bitsLeft ≤ 2 ^ (8 - state.bitsLeft) * 2 ^ state.bitsLeft :=
        Nat.mul_le_mul_right _ hc
      rw [hpow _ _ (by omega), Nat.add_mul, Nat.one_mul] at hmul
      omega
    have hcut : (UInt8.ofNat (n * 2 ^ (state.bitsLeft + 8 - nbits))).toNat =
        n % 2 ^ (nbits - state.bitsLeft) * 2 ^ (state.bitsLeft + 8 - nbits) := by
      rw [UInt8.toNat_ofNat', ← hpow (nbits - state.bitsLeft) (state.bitsLeft + 8 - nbits) (by omega)]
      exact Nat.mul_mod_mul_right _ _ _
    refine ⟨⟨by simp only; omega, by simp only; omega, fun _ => ?_⟩, ?_, rfl⟩
    · simp only [hcut]
      exact Nat.mul_mod_left _ _
    · have hfree : 8 - (state.bitsLeft + 8 - nbits) = nbits - state.bitsLeft := by omega
      have hnbits : bitsMSB nbits n = bitsMSB state.bitsLeft (n / 2 ^ (nbits - state.bitsLeft)) ++
          bitsMSB (nbits - state.bitsLeft) n := by
        rw [← bitsMSB_add, Nat.add_sub_cancel' (by omega)]
      rw [hbits, UdmZint4State.bits]
      simp only [hcut]
      rw [Nat.mul_div_cancel _ (Nat.two_pow_pos _), hfree, bitsMSB_mod le_rfl, bits_append, bits_singleton,
        toNat_ofNat_of_lt hlt, hnbits, List.append_assoc, List.append_assoc,
        ← List.append_assoc (bitsMSB _ c) (bitsMSB state.bitsLeft _), ← bitsMSB_mul_add _ _ c hhigh,
        Nat.sub_add_cancel hL]

theorem Writes.refl (h : state.Wf) : Writes state state [] := ⟨h, (List.append_nil _).symm, rfl⟩

theorem writes_foldl {l : List (ℕ × ℕ)} (hl : ∀ p ∈ l, 0 < p.1 ∧ p.1 ≤ 8 ∧ p.2 < 2 ^ p.1) (h : state.Wf) :
    Writes state (l.foldl (fun state p => writeBits p.1 p.2 state) state) (l.flatMap fun p => bitsMSB p.1 p.2) := by
  induction l generalizing state with
  | nil => exact Writes.refl h
  | cons p l ih =>
    obtain ⟨⟨hpos, hle, hlt⟩, hl⟩ := List.forall_mem_cons.mp hl
    have hp := writes_writeBits h hle hpos hlt
    exact hp.trans (ih hl hp.wf)

theorem and_ff (m : ℕ) : m &&& 0xff = m % 2 ^ 8 := Nat.and_two_pow_sub_one_eq_mod m 8

theorem bitsMSB_bytes (j m : ℕ) :
    bitsMSB (j + 8) m = bitsMSB j (m / 2 ^ 8) ++ bitsMSB 8 (m % 2 ^ 8) ∧
    bitsMSB (j + 16) m = bitsMSB j (m / 2 ^ 16) ++ bitsMSB 8 (m / 2 ^ 8 % 2 ^ 8) ++ bitsMSB 8 (m % 2 ^ 8) ∧
    bitsMSB (j + 24) m = bitsMSB j (m / 2 ^ 24) ++ bitsMSB 8 (m / 2 ^ 16 % 2 ^ 8) ++ bitsMSB 8 (m / 2 ^ 8 % 2 ^ 8) ++
      bitsMSB 8 (m % 2 ^ 8) := by
  have h8 := bitsMSB_add j 8 m
  have h16 := bitsMSB_add j 16 m
  have h24 := bitsMSB_add j 24 m
  have hlow16 := bitsMSB_add 8 8 m
  have hlow24 := bitsMSB_add 8 16 m
  simp only [bitsMSB_mod le_rfl]
  refine ⟨h8, ?_, ?_⟩
  · rw [h16, hlow16, List.append_assoc]
  · rw [h24, hlow24, hlow16, List.append_assoc, List.append_assoc]

theorem writes_blockBits {k m : ℕ} {l : List (ℕ × ℕ)} (hbits : blockBits k m = l.flatMap fun p => bitsMSB p.1 p.2)
    (hl : ∀ p ∈ l, 0 < p.1 ∧ p.1 ≤ 8 ∧ p.2 < 2 ^ p.1) {state : UdmZint4State} (h : state.Wf) :
    Writes state (l.foldl (fun state p => writeBits p.1 p.2 state) state) (blockBits k m) := by
  rw [hbits]
  exact writes_foldl hl h

/-- **Writing a number** puts its bits behind the others. -/
theorem udmZint4_spec (h : state.Wf) (next : Int32) :
    (udmZint4 state next).Wf ∧ (udmZint4 state next).prev = next ∧
      (udmZint4 state next).bits = state.bits ++ codeBits (next - state.prev).toUInt32.toNat := by
  have hstate : UdmZint4State.Wf { state with prev := next } := ⟨h.1, h.2, h.3⟩
  suffices hsuff : Writes { state with prev := next } (udmZint4 state next)
      (codeBits (next - state.prev).toUInt32.toNat) from ⟨hsuff.wf, hsuff.prev_eq, hsuff.bits_eq⟩
  have hlt : (next - state.prev).toUInt32.toNat < 2 ^ 32 := UInt32.toNat_lt _
  unfold udmZint4 codeBits zint4Blocks
  simp only [and_ff, Nat.shiftRight_eq_div_pow]
  generalize (next - state.prev).toUInt32.toNat = n at hlt
  split_ifs with h1 h2 h3 h4 h5 h6 h7
  · apply @writes_blockBits 1 n [(5, n)]
    · simp [blockBits, bitsMSB, Nat.testBit_lt_two_pow (show n < 2 ^ 4 by omega)]
    · simp
      omega
    · exact hstate
  · apply @writes_blockBits 2 (n - 0x10) [(2, 2), (8, n - 0x10)]
    · simp [blockBits]
      rfl
    · simp
      omega
    · exact hstate
  · apply @writes_blockBits 3 (n - 0x110) [(3, 6), (4, (n - 0x110) / 2 ^ 8), (8, (n - 0x110) % 2 ^ 8)]
    · simp [blockBits, (bitsMSB_bytes 4 (n - 0x110)).1]
      rfl
    · simp
      omega
    · exact hstate
  · apply @writes_blockBits 4 (n - 0x1110) [(4, 0xe), (8, (n - 0x1110) / 2 ^ 8), (8, (n - 0x1110) % 2 ^ 8)]
    · simp [blockBits, (bitsMSB_bytes 8 (n - 0x1110)).1]
      rfl
    · simp
      omega
    · exact hstate
  · apply @writes_blockBits 5 (n - 0x11110) [(5, 0x1e),
      (4, (n - 0x11110) / 2 ^ 16), (8, (n - 0x11110) / 2 ^ 8 % 2 ^ 8), (8, (n - 0x11110) % 2 ^ 8)]
    · simp [blockBits, (bitsMSB_bytes 4 (n - 0x11110)).2.1]
      rfl
    · simp
      omega
    · exact hstate
  · apply @writes_blockBits 6 (n - 0x111110) [(6, 0x3e),
      (8, (n - 0x111110) / 2 ^ 16), (8, (n - 0x111110) / 2 ^ 8 % 2 ^ 8), (8, (n - 0x111110) % 2 ^ 8)]
    · simp [blockBits, (bitsMSB_bytes 8 (n - 0x111110)).2.1]
      rfl
    · simp
      omega
    · exact hstate
  · apply @writes_blockBits 7 (n - 0x1111110) [(7, 0x7e), (4, (n - 0x1111110) / 2 ^ 24),
      (8, (n - 0x1111110) / 2 ^ 16 % 2 ^ 8), (8, (n - 0x1111110) / 2 ^ 8 % 2 ^ 8), (8, (n - 0x1111110) % 2 ^ 8)]
    · simp [blockBits, (bitsMSB_bytes 4 (n - 0x1111110)).2.2]
      rfl
    · simp
      omega
    · exact hstate
  · apply @writes_blockBits 8 (n - 0x11111110) [(8, 0xfe), (8, (n - 0x11111110) / 2 ^ 24),
      (8, (n - 0x11111110) / 2 ^ 16 % 2 ^ 8), (8, (n - 0x11111110) / 2 ^ 8 % 2 ^ 8), (8, (n - 0x11111110) % 2 ^ 8)]
    · simp [blockBits, (bitsMSB_bytes 8 (n - 0x11111110)).2.2]
      rfl
    · simp
      omega
    · exact hstate

/-- The differences of a list of numbers. -/
def zint4Deltas : Int32 → List Int32 → List ℕ
  | _, [] => []
  | prev, next :: l => (next - prev).toUInt32.toNat :: zint4Deltas next l

theorem foldl_udmZint4 (h : state.Wf) (l : List Int32) :
    (l.foldl udmZint4 state).Wf ∧
      (l.foldl udmZint4 state).bits = state.bits ++ (zint4Deltas state.prev l).flatMap codeBits := by
  induction l generalizing state with
  | nil => exact ⟨h, (List.append_nil _).symm⟩
  | cons next l ih =>
    obtain ⟨hwf, hprev, hbits⟩ := udmZint4_spec h next
    obtain ⟨hwf', hbits'⟩ := ih hwf
    refine ⟨hwf', ?_⟩
    rw [List.foldl_cons, hbits', hbits, hprev, zint4Deltas, List.flatMap_cons, List.append_assoc]

/-- **The end of the string**: at least forty ones. -/
theorem bits_udmZint4Finalize (h : state.Wf) :
    ∃ t, 40 ≤ t ∧ bits (udmZint4Finalize state) = state.bits ++ List.replicate t true := by
  have hend : bits [0xff, 0xff, 0xff, 0xff, 0xff] = List.replicate 40 true := by decide
  rw [udmZint4Finalize]
  by_cases hleft : state.bitsLeft < 8
  · rw [if_pos hleft, bits_append, hend]
    refine ⟨state.bitsLeft + 40, by omega, ?_⟩
    have hw := (writes_writeBits h (n := 0xff) le_rfl (by decide) (by decide)).bits_eq
    have hlen : (writeBits 8 0xff state).bitsLeft = state.bitsLeft := by
      rw [writeBits, udmZint4WriteBits, if_neg (by omega)]
      exact Nat.add_sub_cancel _ _
    have hones : bitsMSB 8 0xff = List.replicate state.bitsLeft true ++ List.replicate (8 - state.bitsLeft) true := by
      rw [← List.replicate_add, Nat.add_sub_cancel' h.bitsLeft_le]
      exact bitsMSB_ones 8
    -- the ones that went over into the next byte are cut off
    rw [UdmZint4State.bits, hlen, hones, ← List.append_assoc] at hw
    have hbuf := (List.append_inj' hw (by rw [length_bitsMSB, List.length_replicate])).1
    rw [hbuf, List.append_assoc, List.replicate_add]
  · have hfull : state.bitsLeft = 8 := le_antisymm h.bitsLeft_le (by omega)
    rw [if_neg hleft, bits_append, hend]
    refine ⟨40, le_rfl, ?_⟩
    rw [UdmZint4State.bits, hfull, Nat.sub_self, bitsMSB, List.append_nil]

theorem bits_zint4Encode (l : List Int32) :
    ∃ t, 40 ≤ t ∧ bits (zint4Encode l) = (zint4Deltas 0 l).flatMap codeBits ++ List.replicate t true := by
  obtain ⟨hwf, hbits⟩ := foldl_udmZint4 wf_udmZint4Init l
  obtain ⟨t, ht, hend⟩ := bits_udmZint4Finalize hwf
  exact ⟨t, ht, by rw [zint4Encode, hend, hbits]; rfl⟩

/-! ### What the decoder reads -/

namespace UdmDezint4State

/-- The bits that are still to be read. -/
def bits (st : UdmDezint4State) : List Bool := bitsMSB st.bitIdx st.nextByte ++ Lib.BitString.bits st.buf.tail

/-- There is a current byte with bits to be read. -/
structure Wf (st : UdmDezint4State) : Prop where
  buf_ne_nil : st.buf ≠ []
  bitIdx_pos : 0 < st.bitIdx
  bitIdx_le : st.bitIdx ≤ 8

end UdmDezint4State

theorem nextByte_lt (st : UdmDezint4State) : st.nextByte < 2 ^ 8 := UInt8.toNat_lt_size _

theorem advance_spec {st : UdmDezint4State} (h : st.buf ≠ []) {l : List Bool} (hl : l ≠ [])
    (hbits : Lib.BitString.bits st.buf.tail = l) (bitIdx : ℕ) :
    ∃ st', st.advance bitIdx = some st' ∧ st'.buf ≠ [] ∧ st'.bitIdx = bitIdx ∧
      l = bitsMSB 8 st'.nextByte ++ Lib.BitString.bits st'.buf.tail := by
  obtain ⟨buf, idx⟩ := st
  rcases buf with _ | ⟨b, _ | ⟨b', rest⟩⟩
  · exact absurd rfl h
  · exact absurd hbits.symm hl
  · exact ⟨⟨b' :: rest, bitIdx⟩, rfl, by simp, rfl, by rw [← hbits]; exact bits_cons b' rest⟩

theorem testBit_of_bits {st : UdmDezint4State} (h : st.Wf) {l : List Bool} (hbits : st.bits = x :: l) :
    x = st.nextByte.testBit (st.bitIdx - 1) ∧ bitsMSB (st.bitIdx - 1) st.nextByte ++ bits st.buf.tail = l := by
  obtain ⟨k, hk⟩ := Nat.exists_eq_succ_of_ne_zero h.bitIdx_pos.ne'
  rw [UdmDezint4State.bits, hk, bitsMSB, List.cons_append] at hbits
  obtain ⟨hx, hrest⟩ := List.cons.inj hbits
  rw [hk, Nat.succ_sub_one]
  exact ⟨hx.symm, hrest⟩

/-- **Reading a bit.** -/
theorem setBitIdx_spec {st : UdmDezint4State} (h : st.Wf) {l : List Bool} (hl : l ≠ []) (hbits : st.bits = x :: l) :
    ∃ st', st.setBitIdx (st.bitIdx - 1) = some st' ∧ st'.Wf ∧ st'.bits = l := by
  have hrest := (testBit_of_bits h hbits).2
  obtain ⟨hne, hpos, hle⟩ := h
  rw [UdmDezint4State.setBitIdx]
  by_cases hzero : st.bitIdx - 1 = 0
  · rw [if_pos hzero]
    rw [hzero, bitsMSB, List.nil_append] at hrest
    obtain ⟨st', hadv, hne', hidx, hst'⟩ := advance_spec hne hl hrest 8
    exact ⟨st', hadv, ⟨hne', by omega, by omega⟩, by rw [hst', UdmDezint4State.bits, hidx]⟩
  · rw [if_neg hzero]
    exact ⟨_, rfl, ⟨hne, Nat.pos_of_ne_zero hzero, by simp only; omega⟩, hrest⟩

theorem and_one_shiftLeft (n i : ℕ) : n &&& (1 <<< i) ≠ 0 ↔ n.testBit i = true := by
  rw [Nat.one_shiftLeft, Nat.and_two_pow]
  cases n.testBit i <;> simp

/-- **Reading the number of blocks.** -/
theorem countBlocks_blocks {left k : ℕ} (hleft : left ≤ 8) (hk : k < left) {st : UdmDezint4State} (h : st.Wf)
    {l : List Bool} (hl : l ≠ []) (hbits : st.bits = List.replicate k true ++ false :: l) :
    ∃ st', countBlocks left st = some (some (9 - left + k, st')) ∧ st'.Wf ∧ st'.bits = l := by
  induction k generalizing left st with
  | zero =>
    obtain ⟨left, rfl⟩ := Nat.exists_eq_succ_of_ne_zero (Nat.ne_zero_of_lt hk)
    have hbit := (testBit_of_bits h hbits).1
    obtain ⟨st', hst', hwf, hrest⟩ := setBitIdx_spec h hl hbits
    have hzero : ¬ (st.nextByte &&& (1 <<< (st.bitIdx - 1)) ≠ 0) := by
      rw [and_one_shiftLeft, ← hbit]
      exact Bool.false_ne_true
    refine ⟨st', ?_, hwf, hrest⟩
    rw [countBlocks]
    simp only [if_neg hzero, hst', Option.map_some]
    rw [show 9 - left.succ + 0 = 8 - left by omega]
  | succ k ih =>
    obtain ⟨left, rfl⟩ := Nat.exists_eq_succ_of_ne_zero (Nat.ne_zero_of_lt hk)
    rw [List.replicate_succ, List.cons_append] at hbits
    have hbit := (testBit_of_bits h hbits).1
    obtain ⟨st', hst', hwf, hrest⟩ := setBitIdx_spec h (by simp) hbits
    have hone : st.nextByte &&& (1 <<< (st.bitIdx - 1)) ≠ 0 := by
      rw [and_one_shiftLeft, ← hbit]
    obtain ⟨st'', hcount, hwf'', hbits''⟩ := @ih left (by omega) (by omega) st' hwf hrest
    refine ⟨st'', ?_, hwf'', hbits''⟩
    rw [countBlocks]
    simp only [if_pos hone, hst', Option.bind_some, hcount]
    rw [if_neg (by omega), show 9 - left.succ + (k + 1) = 9 - left + k by omega]

/-- **Reading the end**: as many ones as are too many. -/
theorem countBlocks_end {left : ℕ} {st : UdmDezint4State} (h : st.Wf) {l : List Bool}
    (hbits : st.bits = List.replicate left true ++ l) : countBlocks left st = some none := by
  induction left generalizing st with
  | zero => rfl
  | succ left ih =>
    rw [List.replicate_succ, List.cons_append] at hbits
    have hbit := (testBit_of_bits h hbits).1
    have hone : st.nextByte &&& (1 <<< (st.bitIdx - 1)) ≠ 0 := by
      rw [and_one_shiftLeft, ← hbit]
    rw [countBlocks]
    simp only [if_pos hone]
    by_cases hzero : left = 0
    · rw [if_pos hzero]
    · have hmore : List.replicate left true ++ l ≠ [] := by
        simp [hzero]
      obtain ⟨st', hst', hwf, hrest⟩ := setBitIdx_spec h hmore hbits
      rw [if_neg hzero, hst', Option.bind_some, ih hwf hrest]

/-! ### Blocks -/

theorem block_inside {n j v : ℕ} (hv : v < 2 ^ 4) {s l : List Bool}
    (hbits : bitsMSB (4 + j) n ++ s = bitsMSB 4 v ++ l) : (n >>> j) &&& 0xf = v ∧ bitsMSB j n ++ s = l := by
  have hmod : (n >>> j) &&& 0xf = n / 2 ^ j % 2 ^ 4 := by
    rw [Nat.shiftRight_eq_div_pow]
    exact Nat.and_two_pow_sub_one_eq_mod _ 4
  rw [bitsMSB_add, ← bitsMSB_mod le_rfl, List.append_assoc] at hbits
  obtain ⟨heq, hrest⟩ := eq_of_bitsMSB_append (Nat.mod_lt _ (by decide)) hv hbits
  exact ⟨hmod.trans heq, hrest⟩

theorem block_across {n n' i j k v : ℕ} (hij : i + j = 4) (hjk : j + k = 8) (hn' : n' < 2 ^ 8) (hv : v < 2 ^ 4)
    {s l : List Bool} (hbits : bitsMSB i n ++ (bitsMSB 8 n' ++ s) = bitsMSB 4 v ++ l) :
    n % 2 ^ i * 2 ^ j + n' / 2 ^ k = v ∧ bitsMSB k n' ++ s = l := by
  have hhigh : n' / 2 ^ k < 2 ^ j := by
    rw [Nat.div_lt_iff_lt_mul (Nat.two_pow_pos _), ← Nat.pow_add, hjk]
    exact hn'
  have hlt : n % 2 ^ i * 2 ^ j + n' / 2 ^ k < 2 ^ 4 := by
    have hmul : (n % 2 ^ i + 1) * 2 ^ j ≤ 2 ^ i * 2 ^ j := Nat.mul_le_mul_right _ (Nat.mod_lt _ (Nat.two_pow_pos _))
    rw [← Nat.pow_add, hij, Nat.add_mul, Nat.one_mul] at hmul
    omega
  have hsplit : bitsMSB i n ++ (bitsMSB 8 n' ++ s) =
      bitsMSB 4 (n % 2 ^ i * 2 ^ j + n' / 2 ^ k) ++ (bitsMSB k n' ++ s) := by
    rw [← hjk, bitsMSB_add j k n', ← hij, bitsMSB_mul_add i j _ hhigh, bitsMSB_mod le_rfl, List.append_assoc,
      List.append_assoc]
  rw [hsplit] at hbits
  exact eq_of_bitsMSB_append hlt hv hbits

theorem readBlock_inside {st : UdmDezint4State} {j : ℕ} (hpos : 0 < j) (hle : j ≤ 4) (h : st.bitIdx = 4 + j) :
    readBlock st = some ((st.nextByte >>> j) &&& 0xf, { st with bitIdx := j }) := by
  interval_cases j <;> simp [readBlock, h]

theorem readBlock_across {st : UdmDezint4State} {i j k : ℕ} (hpos : 0 < i) (hij : i + j = 4) (hjk : j + k = 8)
    (hj : 0 < j) (h : st.bitIdx = i) {st' : UdmDezint4State} (hadv : st.advance k = some st') :
    readBlock st = some (st.nextByte % 2 ^ i * 2 ^ j + st'.nextByte / 2 ^ k, st') := by
  have hn' := nextByte_lt st'
  have hmask : ∀ x m : ℕ, x &&& (2 ^ m - 1) = x % 2 ^ m := Nat.and_two_pow_sub_one_eq_mod
  have h1 := hmask st.nextByte 1
  have h2 := hmask st.nextByte 2
  have h3 := hmask st.nextByte 3
  have h1' := hmask (st'.nextByte >>> 7) 2
  have h2' := hmask (st'.nextByte >>> 6) 3
  have h3' := hmask (st'.nextByte >>> 5) 4
  rw [Nat.shiftRight_eq_div_pow] at h1' h2' h3'
  obtain rfl : j = 4 - i := by omega
  obtain rfl : k = 4 + i := by omega
  have hi : i = 1 ∨ i = 2 ∨ i = 3 := by omega
  obtain rfl | rfl | rfl := hi
  · simp only [readBlock, h, hadv, Option.map_some, Nat.shiftLeft_eq, Nat.shiftRight_eq_div_pow]
    simp at h1 h3' ⊢
    omega
  · simp only [readBlock, h, hadv, Option.map_some, Nat.shiftLeft_eq, Nat.shiftRight_eq_div_pow]
    simp at h2 h2' ⊢
    omega
  · simp only [readBlock, h, hadv, Option.map_some, Nat.shiftLeft_eq, Nat.shiftRight_eq_div_pow]
    simp at h3 h1' ⊢
    omega

/-- **Reading a block.** -/
theorem readBlock_spec {st : UdmDezint4State} (h : st.Wf) {v : ℕ} (hv : v < 2 ^ 4) {l : List Bool} (hl : l ≠ [])
    (hbits : st.bits = bitsMSB 4 v ++ l) : ∃ st', readBlock st = some (v, st') ∧ st'.Wf ∧ st'.bits = l := by
  obtain ⟨hne, hpos, hle⟩ := h
  rw [UdmDezint4State.bits] at hbits
  by_cases hin : 4 < st.bitIdx
  · -- four bits and more
    have hidx : st.bitIdx = 4 + (st.bitIdx - 4) := by omega
    rw [hidx] at hbits
    obtain ⟨hval, hrest⟩ := block_inside hv hbits
    rw [readBlock_inside (by omega) (by omega) hidx, hval]
    exact ⟨_, rfl, ⟨hne, by simp only; omega, by simp only; omega⟩, hrest⟩
  · by_cases hfour : st.bitIdx = 4
    · -- just four bits
      rw [hfour] at hbits
      obtain ⟨hval, hrest⟩ := @block_inside st.nextByte 0 v hv _ _ hbits
      obtain ⟨st', hadv, hne', hidx, hst'⟩ := advance_spec hne hl hrest 8
      refine ⟨st', ?_, ⟨hne', by omega, by omega⟩, by rw [hst', UdmDezint4State.bits, hidx]⟩
      rw [← hval]
      simp [readBlock, hfour, hadv]
    · -- fewer than four bits
      have htail : bits st.buf.tail ≠ [] := by
        intro hnil
        have hlen := congrArg List.length hbits
        rw [hnil, List.append_nil, List.length_append, length_bitsMSB, length_bitsMSB] at hlen
        omega
      obtain ⟨st', hadv, hne', hidx, hst'⟩ := advance_spec hne htail rfl (4 + st.bitIdx)
      rw [hst'] at hbits
      obtain ⟨hval, hrest⟩ := @block_across st.nextByte st'.nextByte st.bitIdx (4 - st.bitIdx) (4 + st.bitIdx) v (by omega)
        (by omega) (nextByte_lt st') hv _ _ hbits
      refine ⟨st', ?_, ⟨hne', by omega, by omega⟩, by rw [← hrest, UdmDezint4State.bits, hidx]⟩
      rw [readBlock_across hpos (j := 4 - st.bitIdx) (by omega) (by omega) (by omega) rfl hadv, hval]

theorem zint4Base_succ (k : ℕ) : zint4Base (k + 1 + 1) = 16 ^ (k + 1) + zint4Base (k + 1) := by
  induction k with
  | zero => rfl
  | succ k ih =>
    have hbase : ∀ j, zint4Base (j + 1 + 1) = (zint4Base (j + 1) + 1) * 16 := fun _ => rfl
    have hk := hbase k
    rw [hbase (k + 1), ih, Nat.pow_succ 16 (k + 1)]
    omega

theorem shiftLeft_four (x : UInt32) : x <<< 4 = x * 16 := by
  apply UInt32.toNat_inj.mp
  rw [UInt32.toNat_shiftLeft, UInt32.toNat_mul, Nat.shiftLeft_eq]
  rfl

theorem ofNat_pow (k : ℕ) : UInt32.ofNat (16 ^ k) = 16 ^ k := by
  induction k with
  | zero => rfl
  | succ k ih =>
    rw [Nat.pow_succ, UInt32.ofNat_mul, ih, UInt32.pow_succ]
    rfl

theorem next_block (next v rest p : UInt32) :
    (next + v + 1) * 16 * p + rest = next * (p * 16) + ((v + 1) * (p * 16) + rest) := by
  grind

/-- **Reading the blocks**: the sum of the blocks so far, those behind, and the numbers of fewer blocks. -/
theorem readBlocks_spec {k m : ℕ} (hm : m < 16 ^ (k + 1)) {next : UInt32} {st : UdmDezint4State} (h : st.Wf)
    {l : List Bool} (hl : l ≠ []) (hbits : st.bits = bitsMSB (4 * (k + 1)) m ++ l) :
    ∃ st', readBlocks k next st = some (next * 16 ^ k + .ofNat (m + zint4Base (k + 1)), st') ∧ st'.Wf ∧
      st'.bits = l := by
  induction k generalizing m next st with
  | zero =>
    obtain ⟨st', hread, hwf, hrest⟩ := readBlock_spec h (by simpa using hm) hl hbits
    refine ⟨st', ?_, hwf, hrest⟩
    rw [readBlocks, hread]
    simp [zint4Base]
  | succ k ih =>
    have hsplit : bitsMSB (4 * (k + 1 + 1)) m =
        bitsMSB 4 (m / 16 ^ (k + 1)) ++ bitsMSB (4 * (k + 1)) (m % 16 ^ (k + 1)) := by
      have hpow : 16 ^ (k + 1) = 2 ^ (4 * (k + 1)) := by
        rw [Nat.pow_mul]
      rw [Nat.mul_add 4 (k + 1) 1, Nat.add_comm, bitsMSB_add, hpow, bitsMSB_mod le_rfl]
    rw [hsplit, List.append_assoc] at hbits
    have hv : m / 16 ^ (k + 1) < 2 ^ 4 := by
      rw [Nat.div_lt_iff_lt_mul (Nat.pow_pos (by decide)), Nat.mul_comm]
      exact hm
    obtain ⟨st', hread, hwf, hrest⟩ := readBlock_spec h hv (by simp [hl]) hbits
    obtain ⟨st'', hreads, hwf'', hrest''⟩ := @ih (m % 16 ^ (k + 1)) (Nat.mod_lt _ (Nat.pow_pos (by decide)))
      ((next + .ofNat (m / 16 ^ (k + 1)) + 1) <<< 4) st' hwf hrest
    refine ⟨st'', ?_, hwf'', hrest''⟩
    have hsum : m + zint4Base (k + 1 + 1) =
        (m / 16 ^ (k + 1) + 1) * 16 ^ (k + 1) + (m % 16 ^ (k + 1) + zint4Base (k + 1)) := by
      have hm := Nat.div_add_mod' m (16 ^ (k + 1))
      rw [zint4Base_succ, Nat.add_mul, Nat.one_mul]
      omega
    rw [readBlocks, hread, Option.bind_some, hreads, hsum, shiftLeft_four, next_block]
    simp only [UInt32.ofNat_add, UInt32.ofNat_mul, ofNat_pow, UInt32.pow_succ]
    rfl

/-! ### The round trip -/

/-- **Reading a number.** -/
theorem read_codeBits (hn : n < 2 ^ 32) {st : UdmDezint4State} (h : st.Wf) {l : List Bool} (hl : l ≠ [])
    (hbits : st.bits = codeBits n ++ l) :
    ∃ nblocks st' st'', countBlocks 8 st = some (some (nblocks, st')) ∧
      readBlocks (nblocks - 1) 0 st' = some (.ofNat n, st'') ∧ st''.Wf ∧ st''.bits = l := by
  obtain ⟨hpos, hle, hbase, hlt⟩ := zint4Blocks_spec hn
  unfold codeBits blockBits at hbits
  generalize zint4Blocks n = k at hpos hle hbase hlt hbits
  obtain ⟨k, rfl⟩ := Nat.exists_eq_succ_of_ne_zero (Nat.ne_zero_of_lt hpos)
  rw [List.append_assoc, List.cons_append] at hbits
  obtain ⟨st', hcount, hwf, hrest⟩ := countBlocks_blocks le_rfl (by simp; omega) h (by simp [hl]) hbits
  obtain ⟨st'', hread, hwf', hrest'⟩ := @readBlocks_spec k _ hlt 0 st' hwf l hl hrest
  refine ⟨_, st', st'', hcount, ?_, hwf', hrest'⟩
  rw [show 9 - 8 + (k.succ - 1) - 1 = k by omega, hread, Nat.sub_add_cancel hbase]
  simp

theorem length_codeBits (hn : n < 2 ^ 32) : 5 ≤ (codeBits n).length := by
  obtain ⟨hpos, -⟩ := zint4Blocks_spec hn
  simp only [codeBits, blockBits, List.length_append, List.length_replicate, List.length_cons, length_bitsMSB]
  omega

theorem add_toInt32 (prev next : Int32) : prev + (UInt32.ofNat (next - prev).toUInt32.toNat).toInt32 = next := by
  rw [UInt32.ofNat_toNat, Int32.toInt32_toUInt32]
  grind

theorem dezint4Loop_spec {l : List Int32} {prev : Int32} {st : UdmDezint4State} (h : st.Wf) {t : ℕ} (ht : 40 ≤ t)
    (hbits : st.bits = (zint4Deltas prev l).flatMap codeBits ++ List.replicate t true) {fuel : ℕ}
    (hfuel : st.bits.length ≤ fuel) : dezint4Loop fuel prev st = some l := by
  induction l generalizing prev st fuel with
  | nil =>
    have hend : countBlocks 8 st = some none := by
      apply @countBlocks_end 8 st h (List.replicate (t - 8) true)
      rw [hbits, ← List.replicate_add, Nat.add_sub_cancel' (by omega)]
      rfl
    have hlen : st.bits.length = t := by
      rw [hbits]
      exact List.length_replicate
    obtain ⟨fuel, rfl⟩ := Nat.exists_eq_succ_of_ne_zero (show fuel ≠ 0 by omega)
    rw [dezint4Loop, hend]
  | cons next l ih =>
    have hn : (next - prev).toUInt32.toNat < 2 ^ 32 := UInt32.toNat_lt _
    rw [zint4Deltas, List.flatMap_cons, List.append_assoc] at hbits
    have hmore : (zint4Deltas next l).flatMap codeBits ++ List.replicate t true ≠ [] := by
      intro hnil
      have hlen := congrArg List.length hnil
      rw [List.length_append, List.length_replicate, List.length_nil] at hlen
      omega
    obtain ⟨nblocks, st', st'', hcount, hread, hwf, hrest⟩ := read_codeBits hn h hmore hbits
    have hlen := length_codeBits hn
    rw [hbits, List.length_append] at hfuel
    obtain ⟨fuel, rfl⟩ := Nat.exists_eq_succ_of_ne_zero (show fuel ≠ 0 by omega)
    have hl := @ih next st'' hwf hrest fuel (by rw [hrest]; omega)
    rw [dezint4Loop, hcount]
    simp only [hread, add_toInt32, hl, Option.map_some]

/-- **The round trip of zint4**: every list of numbers is decoded from its string. -/
theorem udmDezint4_zint4Encode (l : List Int32) : udmDezint4 (zint4Encode l) = some l := by
  obtain ⟨t, ht, hbits⟩ := bits_zint4Encode l
  have hend : ∃ s, zint4Encode l = s ++ [0xff, 0xff, 0xff, 0xff, 0xff] := ⟨_, rfl⟩
  obtain ⟨s, hs⟩ := hend
  have hlen : (zint4Encode l).length = s.length + 5 := by
    rw [hs, List.length_append]
    rfl
  have hdrop : (zint4Encode l).drop ((zint4Encode l).length - 5) = [0xff, 0xff, 0xff, 0xff, 0xff] := by
    rw [hlen, Nat.add_sub_cancel, hs]
    exact List.drop_left
  have hne : zint4Encode l ≠ [] := List.ne_nil_of_length_pos (by omega)
  have hstart : UdmDezint4State.bits ⟨zint4Encode l, 8⟩ = bits (zint4Encode l) := by
    obtain ⟨b, rest, hcons⟩ := List.exists_cons_of_ne_nil hne
    rw [hcons, bits_cons]
    rfl
  rw [udmDezint4, if_neg (by omega), if_neg (by rw [hdrop]; exact fun h => h rfl)]
  apply dezint4Loop_spec ⟨hne, Nat.succ_pos 7, le_rfl⟩ ht
  · rw [hstart, hbits]
  · rw [hstart, length_bits]

end MnoGoSearch.Utils
