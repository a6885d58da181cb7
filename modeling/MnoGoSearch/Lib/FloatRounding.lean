import Mathlib.Data.Int.Log
import Mathlib.Data.Rat.Floor
import Mathlib.Algebra.Ring.Int.Parity
import Mathlib.Tactic.Linarith

/-!
# Rounding to binary floating point

`round p q` is the number nearest to `q` with a mantissa of `p` bits, the even one if two are equally near. The
exponent is not bounded: a value that is neither too large nor too small for a format is rounded as the format rounds
it. `float` is the rounding of the single precision. Only 0 is rounded to 0 (`round_eq_zero_iff`).
-/

namespace MnoGoSearch.Lib.FloatRounding

/-- The nearest integer, or the even one of two. -/
def roundEven (q : ℚ) : ℤ := if q - ⌊q⌋ < 1 / 2 ∨ q - ⌊q⌋ = 1 / 2 ∧ Even ⌊q⌋ then ⌊q⌋ else ⌊q⌋ + 1

/-- The value of the last bit of the mantissa. -/
def ulp (p : ℕ) (q : ℚ) : ℚ := 2 ^ (Int.log 2 |q| - p + 1)

/-- The nearest number with `p` bits. -/
def round (p : ℕ) (q : ℚ) : ℚ := roundEven (q / ulp p q) * ulp p q

/-- Single precision. -/
def float (q : ℚ) : ℚ := round 24 q

/-- The quotient of two numbers, if the divisor is not 0. -/
def floatDiv (x y : ℚ) : Option ℚ := if y = 0 then none else some (float (x / y))

theorem ulp_pos (p : ℕ) (q : ℚ) : 0 < ulp p q := zpow_pos (by norm_num) _

theorem roundEven_zero : roundEven 0 = 0 := by
  rw [roundEven, Int.floor_zero, if_pos]
  norm_num

variable {q : ℚ}

theorem roundEven_ne_zero (h : 1 ≤ |q|) : roundEven q ≠ 0 := by
  have hfloor := Int.floor_le q
  rcases le_abs.mp h with hpos | hneg
  · have hone : (1 : ℤ) ≤ ⌊q⌋ := Int.le_floor.mpr (by exact_mod_cast hpos)
    unfold roundEven
    split <;> omega
  · have hone : ⌊q⌋ ≤ -1 := by
      have hcast : (⌊q⌋ : ℚ) ≤ ((-1 : ℤ) : ℚ) := by
        push_cast
        linarith
      exact_mod_cast hcast
    rcases lt_or_eq_of_le hone with hlt | heq
    · unfold roundEven
      split <;> omega
    · -- `-1` is an integer already
      have hq : q - ⌊q⌋ < 1 / 2 := by
        rw [heq]
        push_cast
        linarith
      rw [roundEven, if_pos (.inl hq)]
      omega

theorem round_zero (p : ℕ) : round p 0 = 0 := by
  rw [round, zero_div, roundEven_zero, Int.cast_zero, zero_mul]

/-- **Only 0 is rounded to 0.** -/
theorem round_eq_zero_iff {p : ℕ} (hp : 0 < p) : round p q = 0 ↔ q = 0 := by
  constructor
  · intro h
    by_contra hq
    have hulp := ulp_pos p q
    rcases mul_eq_zero.mp h with hround | hzero
    · refine roundEven_ne_zero ?_ (Int.cast_eq_zero.mp hround)
      rw [abs_div, abs_of_pos hulp, le_div_iff₀ hulp, one_mul]
      have hlog : (2 : ℚ) ^ Int.log 2 |q| ≤ |q| := by
        exact_mod_cast Int.zpow_log_le_self (by norm_num) (abs_pos.mpr hq)
      refine le_trans ?_ hlog
      unfold ulp
      exact zpow_le_zpow_right₀ (by norm_num) (by omega)
    · exact hulp.ne' hzero
  · rintro rfl
    exact round_zero p

theorem float_zero : float 0 = 0 := round_zero 24

theorem float_eq_zero_iff : float q = 0 ↔ q = 0 := round_eq_zero_iff (by norm_num)

theorem floatDiv_zero {y : ℚ} (hy : y ≠ 0) : floatDiv 0 y = some 0 := by
  rw [floatDiv, if_neg hy, zero_div, float_zero]

end MnoGoSearch.Lib.FloatRounding
