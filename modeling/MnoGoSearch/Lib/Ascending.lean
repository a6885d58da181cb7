import Mathlib.Data.Int.Order.Basic
import Mathlib.Data.List.Pairwise
import Mathlib.Order.Lattice

/-!
# Ascending integers

Lists of integers `a :: l` where each number is greater than the one before: how far they
reach, where a number is not the successor of the one before it, and their differences.
-/

namespace MnoGoSearch.Lib.Ascending

variable {a : ℤ} {l : List ℤ}

theorem tail_of_ascending {b : ℤ} (h : (a :: b :: l).Pairwise (· < ·)) : a < b ∧ (b :: l).Pairwise (· < ·) := by
  obtain ⟨hlt, htail⟩ := List.pairwise_cons.mp h
  exact ⟨hlt b (by simp), htail⟩

theorem add_length_le_getLastD (h : (a :: l).Pairwise (· < ·)) : a + l.length ≤ l.getLastD a := by
  induction l generalizing a with
  | nil => simp
  | cons b l ih =>
    obtain ⟨hlt, htail⟩ := tail_of_ascending h
    have hb := ih htail
    rw [List.getLastD_cons, List.length_cons]
    omega

/-- How often a number is not the successor of the one before. -/
def breaks : ℤ → List ℤ → ℕ
  | _, [] => 0
  | a, b :: l => (if b = a + 1 then 0 else 1) + breaks b l

theorem breaks_le_length (a : ℤ) (l : List ℤ) : breaks a l ≤ l.length := by
  induction l generalizing a with
  | nil => exact le_rfl
  | cons b l ih =>
    have hb := ih b
    rw [breaks, List.length_cons]
    split <;> omega

theorem breaks_eq_zero (h : (a :: l).Pairwise (· < ·)) (hlast : l.getLastD a ≤ a + l.length) : breaks a l = 0 := by
  induction l generalizing a with
  | nil => rfl
  | cons b l ih =>
    obtain ⟨hlt, htail⟩ := tail_of_ascending h
    have hb := add_length_le_getLastD htail
    rw [List.getLastD_cons, List.length_cons] at hlast
    have hsucc : b = a + 1 := by omega
    rw [breaks, if_pos hsucc, ih htail (by omega)]

/-- The differences of neighbours, beginning at `a`. -/
def differences : ℤ → List ℤ → List ℤ
  | _, [] => []
  | a, b :: l => (b - a) :: differences b l

theorem differences_pos (h : (a :: l).Pairwise (· < ·)) : ∀ d ∈ differences a l, 0 < d := by
  induction l generalizing a with
  | nil => simp [differences]
  | cons b l ih =>
    obtain ⟨hlt, htail⟩ := tail_of_ascending h
    exact List.forall_mem_cons.mpr ⟨by omega, ih htail⟩

theorem differences_lt {bound : ℤ} (ha : 0 ≤ a) (h : (a :: l).Pairwise (· < ·)) (hl : ∀ b ∈ l, b < bound) :
    ∀ d ∈ differences a l, d < bound := by
  induction l generalizing a with
  | nil => simp [differences]
  | cons b l ih =>
    obtain ⟨hlt, htail⟩ := tail_of_ascending h
    obtain ⟨hb, hl⟩ := List.forall_mem_cons.mp hl
    exact List.forall_mem_cons.mpr ⟨by omega, ih (by omega) htail hl⟩

theorem le_foldl_max (m : ℤ) (l : List ℤ) : m ≤ l.foldl max m ∧ ∀ d ∈ l, d ≤ l.foldl max m := by
  induction l generalizing m with
  | nil => simp
  | cons d l ih =>
    obtain ⟨hm, hl⟩ := ih (max m d)
    rw [List.foldl_cons]
    exact ⟨(le_max_left m d).trans hm, List.forall_mem_cons.mpr ⟨(le_max_right m d).trans hm, hl⟩⟩

end MnoGoSearch.Lib.Ascending
