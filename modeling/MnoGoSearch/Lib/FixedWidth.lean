import Mathlib

/-!
# Numbers of a fixed width

`fixedDigits d b w n` are the `w` last digits of `n` in base `b`, each written as `d` says. If `d` keeps the order of
the digits, the lexicographic order of these texts is the order of the numbers (`fixedDigits_lt_iff`).
-/

namespace MnoGoSearch.Lib.FixedWidth

variable {α : Type*} {d : ℕ → α} {b : ℕ}

/-- The `w` last digits of `n`, the last one at the end. -/
def fixedDigits (d : ℕ → α) (b : ℕ) : ℕ → ℕ → List α
  | 0, _ => []
  | w + 1, n => fixedDigits d b w (n / b) ++ [d (n % b)]

@[simp] theorem length_fixedDigits (w n : ℕ) : (fixedDigits d b w n).length = w := by
  induction w generalizing n with
  | zero => rfl
  | succ w ih => rw [fixedDigits, List.length_append, ih, List.length_singleton]

variable [LinearOrder α]

theorem append_singleton_lt_iff {l l' : List α} (h : l.length = l'.length) (x y : α) :
    l ++ [x] < l' ++ [y] ↔ l < l' ∨ l = l' ∧ x < y := by
  induction l generalizing l' with
  | nil =>
    obtain rfl := List.eq_nil_of_length_eq_zero h.symm
    rw [List.nil_append, List.nil_append, List.cons_lt_cons_iff]
    simp
  | cons a l ih =>
    obtain ⟨c, l', rfl⟩ := List.exists_cons_of_length_eq_add_one h.symm
    rw [List.cons_append, List.cons_append, List.cons_lt_cons_iff, List.cons_lt_cons_iff,
      ih (Nat.succ.inj h), List.cons.injEq]
    grind

/-- **Order.** The texts of two numbers that fit in the width are in the order of the numbers. -/
theorem fixedDigits_lt_iff (hb : 0 < b) (hd : ∀ i < b, ∀ j < b, (d i < d j ↔ i < j)) {w n m : ℕ}
    (hn : n < b ^ w) (hm : m < b ^ w) : fixedDigits d b w n < fixedDigits d b w m ↔ n < m := by
  induction w generalizing n m with
  | zero =>
    rw [Nat.pow_zero, Nat.lt_one_iff] at hn hm
    simp [fixedDigits, hn, hm]
  | succ w ih =>
    have hlt := @ih (n / b) (m / b) (Nat.div_lt_of_lt_mul (by rwa [Nat.mul_comm]))
      (Nat.div_lt_of_lt_mul (by rwa [Nat.mul_comm]))
    have hgt := @ih (m / b) (n / b) (Nat.div_lt_of_lt_mul (by rwa [Nat.mul_comm]))
      (Nat.div_lt_of_lt_mul (by rwa [Nat.mul_comm]))
    -- as the order is total, equal texts have equal numbers
    have heq : fixedDigits d b w (n / b) = fixedDigits d b w (m / b) ↔ n / b = m / b := by
      constructor
      · intro h
        rw [h] at hlt hgt
        have h1 := hlt.not.mp (lt_irrefl _)
        have h2 := hgt.not.mp (lt_irrefl _)
        omega
      · intro h
        rw [h]
    rw [fixedDigits, fixedDigits, append_singleton_lt_iff (by simp), hlt, heq,
      hd _ (Nat.mod_lt n hb) _ (Nat.mod_lt m hb)]
    have hn' := Nat.div_add_mod n b
    have hm' := Nat.div_add_mod m b
    have hnb := Nat.mod_lt n hb
    have hmb := Nat.mod_lt m hb
    constructor
    · rintro (hq | ⟨hq, hr⟩)
      · have hmul := Nat.mul_le_mul_left b hq
        rw [Nat.mul_succ] at hmul
        omega
      · rw [hq] at hn'
        omega
    · intro h
      rcases Nat.lt_or_ge (n / b) (m / b) with hq | hq
      · exact .inl hq
      · have hq' := le_antisymm (Nat.div_le_div_right h.le) hq
        rw [hq'] at hn'
        exact .inr ⟨hq', by omega⟩

end MnoGoSearch.Lib.FixedWidth
