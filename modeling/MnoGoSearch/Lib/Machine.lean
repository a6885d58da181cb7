import Mathlib.Data.List.Basic
import Mathlib.Data.List.Infix

/-!
# Deterministic machines

A machine takes one step after another, and a step may report an event. A run of some steps
has the list of the events it reports. Since there is one step at most from a state, two runs
from one state are one run of which the shorter is the beginning.
-/

namespace MnoGoSearch.Lib.Machine

variable {C E : Type*} {m n : ℕ}

/-- A run of `n` steps, and its events. -/
inductive Steps (step : C → Option (Option E × C)) : ℕ → C → List E → C → Prop
  | zero (c : C) : Steps step 0 c [] c
  | succ {n : ℕ} {c c' c'' : C} {e : Option E} {T : List E} (h : step c = some (e, c')) (hs : Steps step n c' T c'') :
      Steps step (n + 1) c (e.toList ++ T) c''

variable {step : C → Option (Option E × C)} {T' T : List E} {c c' c'' : C}

theorem Steps.event {e : E} (h : step c = some (some e, c'))
    (hs : Steps step n c' T c'') : Steps step (n + 1) c (e :: T) c'' := .succ h hs

theorem Steps.silent (h : step c = some (none, c'))
    (hs : Steps step n c' T c'') : Steps step (n + 1) c T c'' := .succ h hs

theorem Steps.trans (h : Steps step m c T c') (h' : Steps step n c' T' c'') :
    Steps step (m + n) c (T ++ T') c'' := by
  induction h with
  | zero c => simpa using h'
  | succ hstep _ ih =>
    rw [List.append_assoc, Nat.add_right_comm]
    exact .succ hstep (ih h')

/-- **Two runs from one state**: the longer one goes on where the shorter one ends. -/
theorem Steps.split (h : Steps step m c T c') (h' : Steps step n c T' c'')
    (hle : m ≤ n) : ∃ T2, Steps step (n - m) c' T2 c'' ∧ T' = T ++ T2 := by
  induction h generalizing n T' with
  | zero c => exact ⟨T', by simpa using h', rfl⟩
  | @succ m c c1 c' e T hstep hs ih =>
    cases h' with
    | zero => omega
    | @succ n _ c2 _ e' T' hstep' hs' =>
      have heq : (e, c1) = (e', c2) := Option.some.inj (hstep.symm.trans hstep')
      obtain ⟨rfl, rfl⟩ := Prod.mk.inj heq
      obtain ⟨T2, hrest, rfl⟩ := ih hs' (by omega)
      exact ⟨T2, by rwa [Nat.add_sub_add_right], by rw [List.append_assoc]⟩

theorem Steps.prefix_of_le (h : Steps step m c T c')
    (h' : Steps step n c T' c'') (hle : m ≤ n) : T <+: T' := by
  obtain ⟨T2, -, rfl⟩ := h.split h' hle
  exact List.prefix_append T T2

theorem Steps.le_of_halted (h : Steps step m c T c') (h' : Steps step n c T' c'')
    (hhalted : step c' = none) : n ≤ m := by
  by_contra hlt
  obtain ⟨T2, hrest, -⟩ := h.split h' (by omega)
  obtain ⟨k, hk⟩ : ∃ k, n - m = k + 1 := ⟨n - m - 1, by omega⟩
  rw [hk] at hrest
  cases hrest with
  | succ hstep _ => exact absurd (hhalted.symm.trans hstep) (by simp)

theorem Steps.eq_of_halted (h : Steps step m c T c')
    (h' : Steps step n c T' c'') (hhalted : step c' = none) (hhalted' : step c'' = none) : T = T' ∧ c' = c'' := by
  have hm := h.le_of_halted h' hhalted
  have hn := h'.le_of_halted h hhalted'
  obtain ⟨T2, hrest, rfl⟩ := h.split h' (by omega)
  rw [Nat.sub_eq_zero_of_le hm] at hrest
  cases hrest with
  | zero => exact ⟨(List.append_nil T).symm, rfl⟩

end MnoGoSearch.Lib.Machine
