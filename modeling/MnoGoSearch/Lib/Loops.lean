import Mathlib.Data.Option.Basic
import Mathlib.Data.List.Basic

/-!
# Loops that may fail

A loop over a list whose rounds are computed in `Option`. `foldlM_visits` is the rule for a loop that must not fail
and leaves something behind in every round, and `foldlM_store` that for a loop that stores something in every round.
-/

namespace MnoGoSearch.Lib.Loops

variable {σ α : Type*} {f : σ → α → Option σ} {P : σ → Prop} {R : σ → σ → Prop} {Q : α → σ → Prop}

variable {l : List α} {s : σ}

/-- **A loop over a list.** Every round keeps `P`, goes on along `R` and brings about `Q` of its element, and `Q` is not
lost along `R`: the loop does not fail, and in the end `Q` holds of all elements. -/
theorem foldlM_visits (hrefl : ∀ s, R s s) (htrans : ∀ s t u, R s t → R t u → R s u)
    (hmono : ∀ a s t, R s t → Q a s → Q a t)
    (hstep : ∀ a ∈ l, ∀ s, P s → ∃ t, f s a = some t ∧ P t ∧ R s t ∧ Q a t) (hs : P s) :
    ∃ t, l.foldlM f s = some t ∧ P t ∧ R s t ∧ ∀ a ∈ l, Q a t := by
  induction l generalizing s with
  | nil => exact ⟨s, rfl, hs, hrefl s, fun a ha => absurd ha List.not_mem_nil⟩
  | cons a l ih =>
    obtain ⟨t, hft, hPt, hRt, hQt⟩ := hstep a List.mem_cons_self s hs
    obtain ⟨u, hfu, hPu, hRu, hQu⟩ := ih (fun b hb => hstep b (List.mem_cons_of_mem a hb)) hPt
    refine ⟨u, ?_, hPu, htrans s t u hRt hRu, List.forall_mem_cons.mpr ⟨hmono a t u hRu hQt, hQu⟩⟩
    rw [List.foldlM_cons, hft]
    exact hfu

theorem foldlM_eq_none (hstep : ∀ a ∈ l, ∀ s, P s → ∀ t, f s a = some t → P t) {a : α} (ha : a ∈ l)
    (hfail : ∀ s, P s → f s a = none) (hs : P s) : l.foldlM f s = none := by
  induction l generalizing s with
  | nil => exact absurd ha List.not_mem_nil
  | cons b l ih =>
    rw [List.foldlM_cons]
    rcases List.mem_cons.mp ha with rfl | ha
    · rw [hfail s hs]
      rfl
    · cases hb : f s b with
      | none => rfl
      | some t =>
        exact ih (fun c hc => hstep c (List.mem_cons_of_mem b hc)) ha (hstep b List.mem_cons_self s hs t hb)

theorem isSome_foldlM_iff {G : α → Prop} (hstep : ∀ a ∈ l, ∀ s, (f s a).isSome ↔ G a) :
    (l.foldlM f s).isSome ↔ ∀ a ∈ l, G a := by
  induction l generalizing s with
  | nil => simp
  | cons a l ih =>
    obtain ⟨ha, hl⟩ := List.forall_mem_cons.mp hstep
    rw [List.foldlM_cons, List.forall_mem_cons, ← ha s]
    cases hf : f s a with
    | none => simp
    | some t => simpa using ih hl

/-! ### Arrays with room for some elements -/

/-- An array of `m` elements: what has no room is dropped. -/
def store {α : Type*} (m : ℕ) (Res : List α) (x : α) : List α := if Res.length < m then Res ++ [x] else Res

theorem foldl_store (m : ℕ) (l : List α) (Res : List α) : l.foldl (store m) Res = Res ++ l.take (m - Res.length) := by
  induction l generalizing Res with
  | nil => simp
  | cons x l ih =>
    rw [List.foldl_cons, ih, store]
    split_ifs with h
    · obtain ⟨k, hk⟩ := Nat.exists_eq_add_of_lt h
      have hroom : m - Res.length = k + 1 := by omega
      have hrest : m - (Res ++ [x]).length = k := by
        rw [List.length_append, List.length_singleton]
        omega
      rw [hroom, hrest, List.take_succ_cons, List.append_assoc, List.singleton_append]
    · rw [Nat.sub_eq_zero_of_le (Nat.not_lt.mp h), List.take_zero, List.take_zero]

theorem foldlM_store {β : Type*} (m : ℕ) {f : List β → α → Option (List β)} (items : α → List β)
    (hstep : ∀ a ∈ l, ∀ Res, f Res a = some ((items a).foldl (store m) Res)) (Res : List β) :
    l.foldlM f Res = some ((l.flatMap items).foldl (store m) Res) := by
  induction l generalizing Res with
  | nil => rfl
  | cons a l ih =>
    obtain ⟨ha, hl⟩ := List.forall_mem_cons.mp hstep
    rw [List.foldlM_cons, ha Res, List.flatMap_cons, List.foldl_append]
    exact ih hl _

end MnoGoSearch.Lib.Loops
