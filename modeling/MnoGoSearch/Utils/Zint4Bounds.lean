import MnoGoSearch.Utils.Zint4

/-!
# The decoder of zint4 on any data

`udm_dezint4` on strings that no encoder has made, as they may come from the database. It only looks at its five
last bytes before it begins, and stops at eight ones. `exists_udmDezint4` says that these bytes keep it inside the
string, and that the numbers fit in the memory that `UdmBlobModeInflateOrSelf` (`dbmode-blob.c`) has for them.
-/

namespace MnoGoSearch.Utils

open Lib.BitString

/-- The memory of `UdmBlobModeInflateOrSelf` for a string of `len` bytes, when it already has `sizeTotal`. -/
def zint4Room (sizeTotal len : ℕ) : ℕ := if sizeTotal < len * 7 then len * 7 else sizeTotal

/-- What is left of a string that ends with forty ones: they are still all there, or there is nothing else. -/
structure Padded (l : List Bool) : Prop where
  /-- The end of the list can be read. -/
  eight : 8 ≤ l.length
  /-- The last forty bits, as far as they are there. -/
  ones : ∀ i (h : i < l.length), l.length ≤ i + 40 → l[i] = true

theorem exists_bitsMSB (l : List Bool) : ∃ m < 2 ^ l.length, bitsMSB l.length m = l := by
  induction l with
  | nil => exact ⟨0, Nat.one_pos, rfl⟩
  | cons x l ih =>
    obtain ⟨m, hm, hbits⟩ := ih
    have hx : ∃ b < 2 ^ 1, bitsMSB 1 b = [x] := by
      cases x
      · exact ⟨0, by omega, rfl⟩
      · exact ⟨1, by omega, rfl⟩
    obtain ⟨b, hb, hbit⟩ := hx
    refine ⟨b * 2 ^ l.length + m, ?_, ?_⟩
    · have hmul : (b + 1) * 2 ^ l.length ≤ 2 ^ 1 * 2 ^ l.length := Nat.mul_le_mul_right _ hb
      rw [← Nat.pow_add, Nat.add_mul, Nat.one_mul] at hmul
      rw [List.length_cons, Nat.add_comm l.length 1]
      omega
    · rw [List.length_cons, Nat.add_comm l.length 1, bitsMSB_mul_add 1 l.length b hm, hbit, hbits]
      rfl

theorem ones_or_zero (n : ℕ) (l : List Bool) (h : n ≤ l.length) :
    (∃ rest, l = List.replicate n true ++ rest) ∨ ∃ k < n, ∃ rest, l = List.replicate k true ++ false :: rest := by
  induction n generalizing l with
  | zero => exact .inl ⟨l, rfl⟩
  | succ n ih =>
    obtain ⟨x, l, rfl⟩ := List.exists_cons_of_length_pos (Nat.lt_of_lt_of_le (Nat.succ_pos n) h)
    cases x with
    | false => exact .inr ⟨0, Nat.succ_pos n, l, rfl⟩
    | true =>
      rcases ih l (Nat.le_of_succ_le_succ h) with ⟨rest, rfl⟩ | ⟨k, hk, rest, rfl⟩
      · exact .inl ⟨rest, rfl⟩
      · exact .inr ⟨k + 1, Nat.succ_lt_succ hk, rest, rfl⟩

theorem Padded.forty_le {k : ℕ} {rest : List Bool} (h : Padded (List.replicate k true ++ false :: rest)) :
    40 ≤ rest.length := by
  by_contra hshort
  have hone := h.ones k (by simp) (by simp; omega)
  rw [List.getElem_append_right (by simp)] at hone
  simp at hone

theorem Padded.of_append {l l' : List Bool} (h : Padded (l ++ l')) (hlen : 8 ≤ l'.length) : Padded l' := by
  refine ⟨hlen, fun i hi hlast => ?_⟩
  have hone := h.ones (l.length + i) (by rw [List.length_append]; omega) (by rw [List.length_append]; omega)
  rwa [List.getElem_append_right (by omega), getElem_congr_idx (Nat.add_sub_cancel_left _ _)] at hone

/-- **The loop** reads inside the string, and takes five bits or more for each number. -/
theorem exists_dezint4Loop {prev : Int32} {st : UdmDezint4State} (h : st.Wf) (hpad : Padded st.bits) {fuel : ℕ}
    (hfuel : st.bits.length ≤ fuel) : ∃ l, dezint4Loop fuel prev st = some l ∧ 5 * l.length ≤ st.bits.length := by
  induction fuel generalizing prev st with
  | zero => exact absurd (hpad.eight.trans hfuel) (Nat.not_succ_le_zero 7)
  | succ fuel ih =>
    rw [dezint4Loop]
    rcases ones_or_zero 8 st.bits hpad.eight with ⟨rest, hbits⟩ | ⟨k, hk, rest, hbits⟩
    · exact ⟨[], by rw [countBlocks_end h hbits], Nat.zero_le _⟩
    · have hforty : 40 ≤ rest.length := by
        rw [hbits] at hpad
        exact hpad.forty_le
      -- the bits of the blocks, at most 32
      obtain ⟨m, hm, hblocks⟩ := exists_bitsMSB (rest.take (4 * (k + 1)))
      rw [List.length_take_of_le (by omega)] at hm hblocks
      have hrest : rest = bitsMSB (4 * (k + 1)) m ++ rest.drop (4 * (k + 1)) := by
        rw [hblocks, List.take_append_drop]
      have hlt : m < 16 ^ (k + 1) := by rwa [Nat.pow_mul] at hm
      have hdrop : 8 ≤ (rest.drop (4 * (k + 1))).length := by
        rw [List.length_drop]
        omega
      have hne : rest ≠ [] := List.ne_nil_of_length_pos (by omega)
      obtain ⟨st', hcount, hwf, hst'⟩ := countBlocks_blocks le_rfl hk h hne hbits
      obtain ⟨st'', hread, hwf', hst''⟩ := @readBlocks_spec k m hlt 0 st' hwf _ (List.ne_nil_of_length_pos (by omega))
        (hst'.trans hrest)
      have hpad' : Padded st''.bits := by
        have hread : st.bits = (List.replicate k true ++ false :: bitsMSB (4 * (k + 1)) m) ++ rest.drop (4 * (k + 1)) := by
          rw [hbits, List.append_assoc, List.cons_append, ← hrest]
        rw [hst'']
        exact (hread ▸ hpad).of_append hdrop
      have hlen : st.bits.length = k + 1 + 4 * (k + 1) + st''.bits.length := by
        rw [hst'', hbits, List.length_append, List.length_replicate, List.length_cons, List.length_drop]
        omega
      obtain ⟨l, hl, hle⟩ := @ih (prev + (0 * 16 ^ k + UInt32.ofNat (m + zint4Base (k + 1))).toInt32) st'' hwf' hpad'
        (by omega)
      refine ⟨(prev + (0 * 16 ^ k + UInt32.ofNat (m + zint4Base (k + 1))).toInt32) :: l, ?_, ?_⟩
      · rw [hcount]
        dsimp only
        rw [show 9 - 8 + k - 1 = k by omega, hread]
        dsimp only
        rw [hl]
        rfl
      · rw [List.length_cons]
        omega

theorem padded_bits {buf s : List UInt8} (h : buf = s ++ [0xff, 0xff, 0xff, 0xff, 0xff]) : Padded (bits buf) := by
  have hend : bits [0xff, 0xff, 0xff, 0xff, 0xff] = List.replicate 40 true := rfl
  have hbits : bits buf = bits s ++ List.replicate 40 true := by rw [h, bits_append, hend]
  rw [hbits]
  refine ⟨?_, fun i hi hlast => ?_⟩
  · rw [List.length_append, List.length_replicate]
    omega
  · rw [List.length_append, List.length_replicate] at hlast
    rw [List.getElem_append_right (by omega), List.getElem_replicate]

/-- **Any data is decoded** without reading outside of the string, and the numbers fit. -/
theorem exists_udmDezint4 (buf : List UInt8) (h : 5 ≤ buf.length) (sizeTotal : ℕ) :
    ∃ l, udmDezint4 buf = some l ∧ 4 * l.length ≤ zint4Room sizeTotal buf.length := by
  have hroom : buf.length * 7 ≤ zint4Room sizeTotal buf.length := by
    rw [zint4Room]
    split_ifs <;> omega
  rw [udmDezint4, if_neg (by omega)]
  by_cases hend : buf.drop (buf.length - 5) = [0xff, 0xff, 0xff, 0xff, 0xff]
  · rw [if_neg (not_not_intro hend)]
    have hbuf : buf = buf.take (buf.length - 5) ++ [0xff, 0xff, 0xff, 0xff, 0xff] := by
      rw [← hend, List.take_append_drop]
    have hne : buf ≠ [] := List.ne_nil_of_length_pos (by omega)
    have hstart : UdmDezint4State.bits ⟨buf, 8⟩ = bits buf := by
      obtain ⟨b, rest, rfl⟩ := List.exists_cons_of_ne_nil hne
      rw [bits_cons]
      rfl
    have hlen := length_bits buf
    obtain ⟨l, hl, hle⟩ := @exists_dezint4Loop 0 ⟨buf, 8⟩ ⟨hne, Nat.succ_pos 7, le_rfl⟩ (hstart ▸ padded_bits hbuf)
      (8 * buf.length) (by rw [hstart, hlen])
    refine ⟨l, hl, le_trans ?_ hroom⟩
    rw [hstart, hlen] at hle
    omega
  · rw [if_pos hend]
    exact ⟨[], rfl, Nat.zero_le _⟩

/-- Ten bytes that end like a list. -/
theorem exists_udmDezint4_ten :
    ∃ l, udmDezint4 [0x80, 0x00, 0x7f, 0x12, 0x34, 0xff, 0xff, 0xff, 0xff, 0xff] = some l ∧ 4 * l.length ≤ zint4Room 0 10 :=
  exists_udmDezint4 [0x80, 0x00, 0x7f, 0x12, 0x34, 0xff, 0xff, 0xff, 0xff, 0xff] (by decide) 0

end MnoGoSearch.Utils
