import Mathlib.Data.List.Basic
import Mathlib.Logic.Function.Basic

/-!
# Compaction in place

A loop that looks at the windows of an array from the left to the right and writes, for each window that passes a test,
the next element of the result into the same array. The window that begins at `k` reaches to `k + w` at most, and no
more results than windows are written, so no window is written to before it is looked at: the loop does what it would
do with the result in an array of its own (`compact_eq`). The new element may keep something of the one that it
replaces.
-/

namespace MnoGoSearch.Lib.Compaction

variable {α : Type} (test : (ℕ → α) → ℕ → Bool) (put : (ℕ → α) → ℕ → α → α)

/-- One window: the array and the place of the next result. -/
def step (s : (ℕ → α) × ℕ) (k : ℕ) : (ℕ → α) × ℕ :=
  if test s.1 k then (Function.update s.1 s.2 (put s.1 k (s.1 s.2)), s.2 + 1) else s

/-- The windows that begin in front of `m`. -/
def compact (A : ℕ → α) (m : ℕ) : (ℕ → α) × ℕ := (List.range m).foldl (step test put) (A, 0)

/-- The windows that pass the test. -/
def starts (A : ℕ → α) (m : ℕ) : List ℕ := (List.range m).filter fun k => test A k

/-- The test and the new element depend on the window only. -/
def Local (w : ℕ) : Prop :=
  ∀ (A B : ℕ → α) (k : ℕ), (∀ i, k ≤ i → i ≤ k + w → A i = B i) → test A k = test B k ∧ put A k = put B k

theorem length_starts_le (A : ℕ → α) (m : ℕ) : (starts test A m).length ≤ m :=
  Nat.le_trans (List.length_filter_le _ _) (Nat.le_of_eq List.length_range)

theorem starts_succ (A : ℕ → α) (m : ℕ) :
    starts test A (m + 1) = starts test A m ++ if test A m then [m] else [] := by
  rw [starts, List.range_succ, List.filter_append, ← starts]
  cases h : test A m with
  | true => simp [h]
  | false => simp [h]

variable {test put}

/-- **Compaction in place is compaction.** -/
theorem compact_eq {w : ℕ} (hlocal : Local test put w) (A : ℕ → α) (m : ℕ) :
    (compact test put A m).2 = (starts test A m).length ∧
      (∀ i, (starts test A m).length ≤ i → (compact test put A m).1 i = A i) ∧
      ∀ i s, (starts test A m)[i]? = some s → (compact test put A m).1 i = put A s (A i) := by
  induction m with
  | zero => exact ⟨rfl, fun i _ => rfl, fun i s h => by simp [starts] at h⟩
  | succ m ih =>
    obtain ⟨hto, hrest, hdone⟩ := ih
    have hle := length_starts_le test A m
    obtain ⟨htest, hput⟩ := hlocal (compact test put A m).1 A m fun i hi _ => hrest i (Nat.le_trans hle hi)
    have hstep : compact test put A (m + 1) = step test put (compact test put A m) m := by
      rw [compact, List.range_succ, List.foldl_append]
      rfl
    rw [hstep, step, htest, starts_succ]
    cases h : test A m with
    | false => simpa using ⟨hto, hrest, hdone⟩
    | true =>
      simp only [if_pos, hto, hput]
      refine ⟨by simp, fun i hi => ?_, fun i s hs => ?_⟩
      · rw [List.length_append, List.length_singleton] at hi
        rw [Function.update_of_ne (by omega)]
        exact hrest i (by omega)
      · rcases Nat.lt_trichotomy i (starts test A m).length with hi | hi | hi
        · rw [List.getElem?_append_left hi] at hs
          rw [Function.update_of_ne (by omega)]
          exact hdone i s hs
        · subst hi
          rw [List.getElem?_append_right (Nat.le_refl _), Nat.sub_self] at hs
          obtain rfl : m = s := by simpa using hs
          rw [Function.update_self, hrest _ (Nat.le_refl _)]
        · rw [List.getElem?_eq_none (by simp; omega)] at hs
          cases hs

end MnoGoSearch.Lib.Compaction
