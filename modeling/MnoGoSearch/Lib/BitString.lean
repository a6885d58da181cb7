import Mathlib.Data.List.Basic
import Mathlib.Data.Nat.Bitwise

/-!
# Strings of bits

Numbers and strings of bytes as lists of bits, the high bit first.
-/

namespace MnoGoSearch.Lib.BitString

/-- The low `k` bits of a number, the high bit first. -/
def bitsMSB : ℕ → ℕ → List Bool
  | 0, _ => []
  | k + 1, n => n.testBit k :: bitsMSB k n

/-- The bits of a string of bytes. -/
def bits (s : List UInt8) : List Bool := s.flatMap fun b => bitsMSB 8 b.toNat

@[simp] theorem length_bitsMSB (k n : ℕ) : (bitsMSB k n).length = k := by
  induction k with
  | zero => rfl
  | succ k ih => rw [bitsMSB, List.length_cons, ih]

theorem length_bits (s : List UInt8) : (bits s).length = 8 * s.length := by
  induction s with
  | nil => rfl
  | cons b s ih =>
    rw [bits, List.flatMap_cons, ← bits, List.length_append, length_bitsMSB, ih, List.length_cons]
    omega

theorem bits_append (s s' : List UInt8) : bits (s ++ s') = bits s ++ bits s' := List.flatMap_append

theorem bits_cons (b : UInt8) (s : List UInt8) : bits (b :: s) = bitsMSB 8 b.toNat ++ bits s := List.flatMap_cons

theorem bits_singleton (b : UInt8) : bits [b] = bitsMSB 8 b.toNat := by
  rw [bits_cons]
  exact List.append_nil _

theorem bitsMSB_mod {j k : ℕ} (h : k ≤ j) (n : ℕ) : bitsMSB k (n % 2 ^ j) = bitsMSB k n := by
  induction k with
  | zero => rfl
  | succ k ih =>
    rw [bitsMSB, bitsMSB, ih (by omega), Nat.testBit_mod_two_pow, decide_eq_true (by omega), Bool.true_and]

theorem bitsMSB_add (j k n : ℕ) : bitsMSB (j + k) n = bitsMSB j (n / 2 ^ k) ++ bitsMSB k n := by
  induction j with
  | zero => rw [Nat.zero_add, bitsMSB, List.nil_append]
  | succ j ih =>
    rw [Nat.add_right_comm, bitsMSB, ih, bitsMSB, List.cons_append, ← Nat.shiftRight_eq_div_pow, Nat.testBit_shiftRight,
      Nat.add_comm k j]

theorem bitsMSB_mul_add (j k a : ℕ) {b : ℕ} (hb : b < 2 ^ k) :
    bitsMSB (j + k) (a * 2 ^ k + b) = bitsMSB j a ++ bitsMSB k b := by
  have hdiv : (a * 2 ^ k + b) / 2 ^ k = a := by
    rw [Nat.mul_comm, Nat.mul_add_div (Nat.two_pow_pos k), Nat.div_eq_of_lt hb, Nat.add_zero]
  have hmod : (a * 2 ^ k + b) % 2 ^ k = b := by
    rw [Nat.mul_comm, Nat.mul_add_mod, Nat.mod_eq_of_lt hb]
  rw [bitsMSB_add, hdiv, ← bitsMSB_mod le_rfl (a * 2 ^ k + b), hmod]

theorem testBit_eq_of_bitsMSB {k m n : ℕ} (h : bitsMSB k m = bitsMSB k n) {i : ℕ} (hi : i < k) :
    m.testBit i = n.testBit i := by
  induction k with
  | zero => exact absurd hi (Nat.not_lt_zero i)
  | succ k ih =>
    obtain ⟨hbit, hlow⟩ := List.cons.inj h
    cases Nat.lt_succ_iff_lt_or_eq.mp hi with
    | inl hlt => exact ih hlow hlt
    | inr heq => rw [heq, hbit]

theorem bitsMSB_inj {k m n : ℕ} (h : bitsMSB k m = bitsMSB k n) : m % 2 ^ k = n % 2 ^ k := by
  apply Nat.eq_of_testBit_eq
  intro i
  rw [Nat.testBit_mod_two_pow, Nat.testBit_mod_two_pow]
  by_cases hi : i < k
  · rw [testBit_eq_of_bitsMSB h hi]
  · rw [decide_eq_false hi, Bool.false_and, Bool.false_and]

theorem eq_of_bitsMSB_append {k m n : ℕ} (hm : m < 2 ^ k) (hn : n < 2 ^ k) {l l' : List Bool}
    (h : bitsMSB k m ++ l = bitsMSB k n ++ l') : m = n ∧ l = l' := by
  obtain ⟨hbits, hrest⟩ := List.append_inj h (by rw [length_bitsMSB, length_bitsMSB])
  have hmod := bitsMSB_inj hbits
  rw [Nat.mod_eq_of_lt hm, Nat.mod_eq_of_lt hn] at hmod
  exact ⟨hmod, hrest⟩

theorem bitsMSB_ones (k : ℕ) : bitsMSB k (2 ^ k - 1) = List.replicate k true := by
  induction k with
  | zero => rfl
  | succ k ih =>
    have hk : 2 ^ (k + 1) - 1 = 1 * 2 ^ k + (2 ^ k - 1) := by
      have := Nat.two_pow_pos k
      rw [Nat.pow_succ]
      omega
    have hlt : 2 ^ k - 1 < 2 ^ k := Nat.sub_lt (Nat.two_pow_pos k) Nat.one_pos
    rw [hk, Nat.add_comm k 1, bitsMSB_mul_add 1 k 1 hlt, ih, List.replicate_add]
    rfl

end MnoGoSearch.Lib.BitString
