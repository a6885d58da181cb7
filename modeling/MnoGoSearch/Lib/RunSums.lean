import MnoGoSearch.Lib.Runs
import Mathlib.Algebra.BigOperators.Group.Finset.Basic
import Mathlib.Algebra.Order.Group.Nat
import Mathlib.Data.Multiset.AddSub

/-!
# What is made of runs

What a loop over the runs of a sorted list makes of them, as a sum over the keys of the list: there it does not matter
in which order the keys stand. With it two loops are compared that walk the same elements under two keys, a coarse one
and a fine one.
-/

namespace MnoGoSearch.Lib.Runs

variable {α β κ : Type} [LinearOrder κ] {key : α → κ} {l : List α}

theorem runs_filter (hl : l.Pairwise fun x y => key x ≤ key y) {p : α → Bool}
    (hp : ∀ a ∈ l, ∀ b ∈ l, key a = key b → p a = p b) :
    runs key (l.filter p) = (runs key l).filter fun g => g.all p := by
  have hflat : ((runs key l).filter fun g => g.all p).flatten = l.filter p := by
    have hgroups : ∀ gs : List (List α), (∀ g ∈ gs, ∀ a ∈ g, ∀ b ∈ g, p a = p b) →
        (gs.filter fun g => g.all p).flatten = gs.flatten.filter p := by
      intro gs hgs
      induction gs with
      | nil => rfl
      | cons g gs ih =>
        obtain ⟨hg, hrest⟩ := List.forall_mem_cons.mp hgs
        rw [List.flatten_cons, List.filter_append, ← ih hrest]
        by_cases hall : g.all p = true
        · rw [List.filter_cons_of_pos (p := fun g : List α => g.all p) hall, List.flatten_cons,
            List.filter_eq_self.mpr (List.all_eq_true.mp hall)]
        · have hnone : g.filter p = [] := by
            rw [List.filter_eq_nil_iff]
            intro a ha hpa
            exact hall (List.all_eq_true.mpr fun b hb => (hg b hb a ha).trans hpa)
          rw [List.filter_cons_of_neg (p := fun g : List α => g.all p) hall, hnone, List.nil_append]
    rw [hgroups, flatten_runs]
    intro g hg a ha b hb
    have hmem : ∀ x ∈ g, x ∈ l := fun x hx => by
      rw [← flatten_runs key l]
      exact List.mem_flatten.mpr ⟨g, hg, hx⟩
    exact hp a (hmem a ha) b (hmem b hb) (key_eq_of_mem_runs key hg ha hb)
  rw [← hflat]
  refine runs_flatten key (fun g hg => ne_nil_of_mem_runs key (List.mem_filter.mp hg).1) ?_ ?_
  · exact fun g hg a ha b hb => key_eq_of_mem_runs key (List.mem_filter.mp hg).1 ha hb
  · exact ((pairwise_runs key hl).imp fun hlt a ha b hb => (hlt a ha b hb).ne).filter _

/-- **A loop over runs** as a sum over the keys. -/
theorem coe_flatMap_runs (hl : l.Pairwise fun x y => key x ≤ key y) (h : List α → List β) :
    (((runs key l).flatMap h : List β) : Multiset β) =
      ∑ k ∈ (l.map key).toFinset, (h (l.filter fun x => key x = k) : Multiset β) := by
  induction hn : l.length using Nat.strongRecOn generalizing l with
  | ind n ih =>
    cases l with
    | nil => rfl
    | cons a l =>
      have hrest := (List.pairwise_cons.mp hl).2.filter (fun x => decide (key x ≠ key a))
      have hlen : (l.filter fun x => key x ≠ key a).length < n := by
        rw [← hn, List.length_cons]
        exact Nat.lt_succ_of_le (List.length_filter_le _ _)
      have hkeys : ((a :: l).map key).toFinset =
          insert (key a) ((l.filter fun x => key x ≠ key a).map key).toFinset := by
        ext k
        by_cases hk : k = key a
        · simp [hk]
        · simp only [List.map_cons, List.toFinset_cons, Finset.mem_insert, hk, false_or, List.mem_toFinset,
            List.mem_map, List.mem_filter, decide_eq_true_eq]
          constructor
          · rintro ⟨x, hx, rfl⟩
            exact ⟨x, ⟨hx, hk⟩, rfl⟩
          · rintro ⟨x, ⟨hx, -⟩, rfl⟩
            exact ⟨x, hx, rfl⟩
      have hnot : key a ∉ ((l.filter fun x => key x ≠ key a).map key).toFinset := by
        simp
      rw [runs_cons key hl, List.flatMap_cons, ← Multiset.coe_add, ih _ hlen hrest rfl, hkeys,
        Finset.sum_insert hnot]
      congr 1
      · rw [List.filter_cons_of_pos (by simp)]
      · refine Finset.sum_congr rfl fun k hk => ?_
        have hne : k ≠ key a := fun heq => hnot (heq ▸ hk)
        rw [List.filter_cons_of_neg (by simpa using hne.symm), List.filter_filter]
        congr 3
        funext x
        by_cases hx : key x = k <;> simp [hx, hne]

theorem length_runs (hl : l.Pairwise fun x y => key x ≤ key y) : (runs key l).length = (l.map key).toFinset.card := by
  have hsum := congrArg Multiset.card (coe_flatMap_runs hl fun _ => [()])
  rw [Multiset.coe_card, Multiset.card_sum] at hsum
  simpa using hsum

theorem length_flatMap_runs {h : List α → List β} (hh : ∀ g ∈ runs key l, (h g).length + 1 = g.length) :
    ((runs key l).flatMap h).length + (runs key l).length = l.length := by
  have hflat := congrArg List.length (flatten_runs key l)
  rw [List.length_flatten] at hflat
  rw [List.length_flatMap, ← hflat]
  generalize runs key l = gs at hh
  induction gs with
  | nil => rfl
  | cons g gs ih =>
    obtain ⟨hg, hgs⟩ := List.forall_mem_cons.mp hh
    have hrest := ih hgs
    simp only [List.map_cons, List.sum_cons, List.length_cons] at hrest ⊢
    omega

theorem perm_flatMap_filter {τ : Type} [DecidableEq τ] {ts : List τ} (hts : ts.Nodup) (f : α → τ) {l : List α}
    (hl : ∀ a ∈ l, f a ∈ ts) : (ts.flatMap fun t => l.filter fun a => f a = t).Perm l := by
  induction ts generalizing l with
  | nil =>
    rw [List.eq_nil_iff_forall_not_mem.mpr fun a ha => absurd (hl a ha) List.not_mem_nil]
    exact List.Perm.nil
  | cons t ts ih =>
    obtain ⟨hnot, hts⟩ := List.nodup_cons.mp hts
    -- the kinds behind the first one see only what is not of the first one
    have hrest : (ts.flatMap fun t' => l.filter fun a => f a = t') =
        ts.flatMap fun t' => (l.filter fun a => !decide (f a = t)).filter fun a => f a = t' := by
      refine List.flatMap_congr fun t' ht' => ?_
      rw [List.filter_filter]
      refine List.filter_congr fun a _ => ?_
      by_cases ha : f a = t'
      · have hne : f a ≠ t := fun heq => hnot (heq ▸ ha ▸ ht')
        simp [ha, ha ▸ hne]
      · simp [ha]
    have hmem : ∀ a ∈ l.filter fun a => !decide (f a = t), f a ∈ ts := by
      intro a ha
      obtain ⟨hal, hne⟩ := List.mem_filter.mp ha
      exact (List.mem_cons.mp (hl a hal)).resolve_left (by simpa using hne)
    rw [List.flatMap_cons, hrest]
    exact ((ih hts hmem).append_left _).trans (List.filter_append_perm _ l)

end MnoGoSearch.Lib.Runs
