import Mathlib.Data.List.Basic
import Mathlib.Algebra.Order.Ring.Nat
import Mathlib.Tactic.Ring

/-!
# Little-endian numbers

Numbers of a fixed width, the low byte first. A byte that is missing at the end of a string
is read as zero.
-/

namespace MnoGoSearch.Lib.LittleEndian

/-- The bytes of a number, the low byte first. -/
def putLE : ℕ → ℕ → List UInt8
  | 0, _ => []
  | k + 1, n => .ofNat (n % 256) :: putLE k (n / 256)

/-- The number in the first bytes of a string. -/
def getLE : ℕ → List UInt8 → ℕ
  | 0, _ => 0
  | k + 1, s => (s.headD 0).toNat + 256 * getLE k s.tail

@[simp] theorem length_putLE (k n : ℕ) : (putLE k n).length = k := by
  induction k generalizing n with
  | zero => rfl
  | succ k ih => rw [putLE, List.length_cons, ih]

theorem toNat_ofNat_mod (n : ℕ) : (UInt8.ofNat (n % 256)).toNat = n % 256 := by
  rw [UInt8.toNat_ofNat']
  exact Nat.mod_mod _ _

theorem getLE_putLE (k n : ℕ) (rest : List UInt8) : getLE k (putLE k n ++ rest) = n % 256 ^ k := by
  induction k generalizing n with
  | zero => rw [getLE, Nat.pow_zero, Nat.mod_one]
  | succ k ih =>
    rw [putLE, getLE, List.cons_append, List.headD_cons, List.tail_cons, ih, toNat_ofNat_mod, Nat.pow_succ',
      Nat.mod_mul]

theorem getLE_lt (k : ℕ) (s : List UInt8) : getLE k s < 256 ^ k := by
  induction k generalizing s with
  | zero =>
    rw [getLE]
    decide
  | succ k ih =>
    have hb : (s.headD 0).toNat < 256 := UInt8.toNat_lt_size _
    have hk := ih s.tail
    rw [getLE, Nat.pow_succ']
    omega

theorem getLE_add (j k : ℕ) (s : List UInt8) : getLE (j + k) s = getLE j s + 256 ^ j * getLE k (s.drop j) := by
  induction j generalizing s with
  | zero => simp [getLE]
  | succ j ih =>
    rw [Nat.add_right_comm, getLE, ih, getLE, List.drop_tail, Nat.pow_succ']
    ring

theorem getLE_mod (j k : ℕ) (s : List UInt8) : getLE (j + k) s % 256 ^ j = getLE j s := by
  rw [getLE_add, Nat.add_mul_mod_self_left, Nat.mod_eq_of_lt (getLE_lt j s)]

theorem getLE_div (j k : ℕ) (s : List UInt8) : getLE (j + k) s / 256 ^ j = getLE k (s.drop j) := by
  rw [getLE_add, Nat.add_mul_div_left _ _ (Nat.pow_pos (by decide)), Nat.div_eq_of_lt (getLE_lt j s), Nat.zero_add]

end MnoGoSearch.Lib.LittleEndian
