import Mathlib

/-!
# Runs of equal keys

Loops that walk a list sorted by some key and handle the elements of one key together:
`runs key l` cuts the list where the key changes. On a sorted list every key has one run,
and that run is the sublist of all elements with this key (`mem_runs_iff`).
-/

namespace MnoGoSearch.Lib.Runs

variable {α κ : Type} [LinearOrder κ] (key : α → κ)

/-- Put one element before the runs of what follows it. -/
def push (a : α) : List (List α) → List (List α)
  | (b :: g) :: gs => if key a = key b then (a :: b :: g) :: gs else [a] :: (b :: g) :: gs
  | gs => [a] :: gs

/-- The runs of equal keys. -/
def runs : List α → List (List α)
  | [] => []
  | a :: l => push key a (runs l)

@[simp] theorem runs_nil : runs key ([] : List α) = [] := rfl

theorem flatten_push (a : α) (gs : List (List α)) : (push key a gs).flatten = a :: gs.flatten := by
  rcases gs with _ | ⟨_ | ⟨b, g⟩, gs⟩
  · rfl
  · rfl
  · rw [push]
    split <;> rfl

theorem flatten_runs (l : List α) : (runs key l).flatten = l := by
  induction l with
  | nil => rfl
  | cons a l ih => rw [runs, flatten_push, ih]

variable {l : List α} {gs : List (List α)}

theorem ne_nil_of_mem_runs {g : List α} (h : g ∈ runs key l) : g ≠ [] := by
  induction l generalizing g with
  | nil => simp at h
  | cons a l ih =>
    rw [runs, push.eq_def] at h
    split at h
    · rename_i b g' gs hrest
      split at h
      · rcases List.mem_cons.mp h with rfl | h
        · simp
        · exact ih (hrest ▸ List.mem_cons_of_mem _ h)
      · rcases List.mem_cons.mp h with rfl | h
        · simp
        · exact ih (hrest ▸ h)
    · rcases List.mem_cons.mp h with rfl | h
      · simp
      · exact ih h

theorem key_eq_of_mem_runs {g : List α} (hg : g ∈ runs key l) {a b : α} (ha : a ∈ g) (hb : b ∈ g) :
    key a = key b := by
  induction l generalizing g a b with
  | nil => simp at hg
  | cons c l ih =>
    rw [runs, push.eq_def] at hg
    split at hg
    · rename_i d g' gs hrest
      have hd : ∀ e ∈ d :: g', key e = key d := fun e he => ih (hrest ▸ List.mem_cons_self) he List.mem_cons_self
      split at hg
      · rename_i hkey
        rcases List.mem_cons.mp hg with rfl | hg
        · have hall : ∀ e ∈ c :: d :: g', key e = key d := List.forall_mem_cons.mpr ⟨hkey, hd⟩
          exact (hall a ha).trans (hall b hb).symm
        · exact ih (hrest ▸ List.mem_cons_of_mem _ hg) ha hb
      · rcases List.mem_cons.mp hg with rfl | hg
        · rw [List.mem_singleton.mp ha, List.mem_singleton.mp hb]
        · exact ih (hrest ▸ hg) ha hb
    · rcases List.mem_cons.mp hg with rfl | hg
      · rw [List.mem_singleton.mp ha, List.mem_singleton.mp hb]
      · exact ih hg ha hb

theorem runs_cons {a : α} (h : (a :: l).Pairwise fun x y => key x ≤ key y) :
    runs key (a :: l) =
      (a :: l.filter fun x => key x = key a) :: runs key (l.filter fun x => key x ≠ key a) := by
  induction l generalizing a with
  | nil => rfl
  | cons b l ih =>
    have hbl := (List.pairwise_cons.mp h).2
    have hab : key a ≤ key b := (List.pairwise_cons.mp h).1 b (by simp)
    have hb : ∀ x ∈ l, key b ≤ key x := (List.pairwise_cons.mp hbl).1
    rw [runs, ih hbl, push]
    by_cases hkey : key a = key b
    · rw [if_pos hkey, List.filter_cons_of_pos (by simp [hkey]), List.filter_cons_of_neg (by simp [hkey]), hkey]
    · -- all that follows lies above `a`, so its run is `a` alone
      have hne : ∀ x ∈ b :: l, key x ≠ key a := by
        intro x hx heq
        rcases List.mem_cons.mp hx with rfl | hx
        · exact hkey heq.symm
        · exact hkey (le_antisymm hab (heq ▸ hb x hx))
      have hnone : (b :: l).filter (fun x => key x = key a) = [] := by
        simpa [List.filter_eq_nil_iff] using hne
      have hall : (b :: l).filter (fun x => key x ≠ key a) = b :: l := by
        simpa [List.filter_eq_self] using hne
      rw [if_neg hkey, hnone, hall, ih hbl]

theorem runs_cons_span (a : α) (l : List α) :
    runs key (a :: l) = (a :: l.takeWhile fun x => key x = key a) :: runs key (l.dropWhile fun x => key x = key a) := by
  induction l generalizing a with
  | nil => rfl
  | cons b l ih =>
    rw [runs, ih b, push]
    by_cases hkey : key a = key b
    · rw [if_pos hkey, List.takeWhile_cons_of_pos (by simp [hkey]), List.dropWhile_cons_of_pos (by simp [hkey]), hkey]
    · have hba : ¬ key b = key a := fun h => hkey h.symm
      rw [if_neg hkey, List.takeWhile_cons_of_neg (by simpa using hba), List.dropWhile_cons_of_neg (by simpa using hba),
        ih b]

theorem exists_runs_cons (b : α) (l : List α) :
    ∃ g gs, ∀ b', key b' = key b → runs key (b' :: l) = (b' :: g) :: gs := by
  rcases hrest : runs key l with _ | ⟨_ | ⟨c, g⟩, gs⟩
  · exact ⟨[], [], fun b' _ => by rw [runs, hrest, push]; simp⟩
  · exact absurd rfl (ne_nil_of_mem_runs key (hrest ▸ List.mem_cons_self))
  · by_cases hkey : key b = key c
    · exact ⟨c :: g, gs, fun b' hb' => by rw [runs, hrest, push, if_pos (hb'.trans hkey)]⟩
    · exact ⟨[], (c :: g) :: gs, fun b' hb' => by rw [runs, hrest, push, if_neg (hb' ▸ hkey)]⟩

theorem pairwise_runs (h : l.Pairwise fun x y => key x ≤ key y) :
    (runs key l).Pairwise fun g g' => ∀ a ∈ g, ∀ b ∈ g', key a < key b := by
  induction hn : l.length using Nat.strongRecOn generalizing l with
  | ind n ih =>
    cases l with
    | nil => simp
    | cons a l =>
      have hle := (List.pairwise_cons.mp h).1
      have hrest := (List.pairwise_cons.mp h).2.filter (fun x => decide (key x ≠ key a))
      have hlen : (l.filter fun x => key x ≠ key a).length < n := by
        rw [← hn, List.length_cons]
        exact Nat.lt_succ_of_le (List.length_filter_le _ _)
      rw [runs_cons key h, List.pairwise_cons]
      refine ⟨fun g hg b hb c hc => ?_, ih _ hlen hrest rfl⟩
      have hbkey : key b = key a := by
        rcases List.mem_cons.mp hb with rfl | hb
        · rfl
        · simpa using (List.mem_filter.mp hb).2
      have hcmem : c ∈ l.filter fun x => key x ≠ key a := by
        rw [← flatten_runs key (l.filter fun x => key x ≠ key a)]
        exact List.mem_flatten.mpr ⟨g, hg, hc⟩
      obtain ⟨hcl, hcne⟩ := List.mem_filter.mp hcmem
      rw [hbkey]
      exact lt_of_le_of_ne (hle c hcl) (Ne.symm (by simpa using hcne))

/-- **The runs of a sorted list**: one for every key that occurs, with all its elements. -/
theorem mem_runs_iff (h : l.Pairwise fun x y => key x ≤ key y) (g : List α) :
    g ∈ runs key l ↔ ∃ a ∈ l, g = l.filter fun x => key x = key a := by
  induction hn : l.length using Nat.strongRecOn generalizing l with
  | ind n ih =>
    cases l with
    | nil => simp
    | cons a l =>
      have hrest := (List.pairwise_cons.mp h).2.filter (fun x => decide (key x ≠ key a))
      have hlen : (l.filter fun x => key x ≠ key a).length < n := by
        rw [← hn, List.length_cons]
        exact Nat.lt_succ_of_le (List.length_filter_le _ _)
      have hself : (a :: l).filter (fun x => key x = key a) = a :: l.filter fun x => key x = key a :=
        List.filter_cons_of_pos (by simp)
      have hother : ∀ b ∈ l, key b ≠ key a → (a :: l).filter (fun x => key x = key b) =
          (l.filter fun x => key x ≠ key a).filter fun x => key x = key b := by
        intro b _ hb
        rw [List.filter_cons_of_neg (by simpa using hb.symm), List.filter_filter]
        refine List.filter_congr fun x _ => ?_
        by_cases hx : key x = key b <;> simp [hx, hb]
      rw [runs_cons key h, List.mem_cons, ih _ hlen hrest rfl]
      constructor
      · rintro (rfl | ⟨b, hb, rfl⟩)
        · exact ⟨a, by simp, hself.symm⟩
        · have hmem := List.mem_filter.mp hb
          have hne : key b ≠ key a := by simpa using hmem.2
          exact ⟨b, List.mem_cons_of_mem _ hmem.1, (hother b hmem.1 hne).symm⟩
      · rintro ⟨b, hb, rfl⟩
        by_cases hkey : key b = key a
        · exact Or.inl (by rw [hkey, hself])
        · have hbl : b ∈ l := (List.mem_cons.mp hb).resolve_left (fun h => hkey (h ▸ rfl))
          exact Or.inr ⟨b, List.mem_filter.mpr ⟨hbl, by simpa using hkey⟩, hother b hbl hkey⟩

theorem runs_append {g : List α} (hne : g ≠ []) (hkey : ∀ a ∈ g, ∀ b ∈ g, key a = key b)
    (hother : ∀ a ∈ g, ∀ b ∈ l, key a ≠ key b) : runs key (g ++ l) = g :: runs key l := by
  induction g with
  | nil => exact absurd rfl hne
  | cons a g ih =>
    rw [List.cons_append, runs]
    cases g with
    | nil =>
      have hl := flatten_runs key l
      rw [List.nil_append]
      rcases hrest : runs key l with _ | ⟨_ | ⟨b, g⟩, gs⟩
      · rfl
      · exact absurd rfl (ne_nil_of_mem_runs key (hrest ▸ List.mem_cons_self))
      · rw [hrest] at hl
        have hb : b ∈ l := hl ▸ List.mem_cons_self
        rw [push, if_neg (hother a List.mem_cons_self b hb)]
    | cons b g =>
      rw [ih (List.cons_ne_nil _ _) (fun c hc d hd => hkey c (List.mem_cons_of_mem _ hc) d (List.mem_cons_of_mem _ hd))
        fun c hc => hother c (List.mem_cons_of_mem _ hc)]
      rw [push, if_pos (hkey a List.mem_cons_self b (List.mem_cons_of_mem _ List.mem_cons_self))]

/-- Groups of equal keys are the runs of the list that they make, if no two have a key in common. -/
theorem runs_flatten (hne : ∀ g ∈ gs, g ≠ []) (hkey : ∀ g ∈ gs, ∀ a ∈ g, ∀ b ∈ g, key a = key b)
    (hother : gs.Pairwise fun g g' => ∀ a ∈ g, ∀ b ∈ g', key a ≠ key b) : runs key gs.flatten = gs := by
  induction gs with
  | nil => rfl
  | cons g gs ih =>
    obtain ⟨hg, hgs⟩ := List.forall_mem_cons.mp hne
    obtain ⟨hgkey, hgskey⟩ := List.forall_mem_cons.mp hkey
    obtain ⟨hcons, htail⟩ := List.pairwise_cons.mp hother
    rw [List.flatten_cons, runs_append key hg hgkey, ih hgs hgskey htail]
    intro a ha b hb
    obtain ⟨g', hg', hb⟩ := List.mem_flatten.mp hb
    exact hcons g' hg' a ha b hb

theorem length_dedup_flatten (hkey : ∀ g ∈ gs, ∀ a ∈ g, ∀ b ∈ g, key a = key b)
    (hother : gs.Pairwise fun g g' => ∀ a ∈ g, ∀ b ∈ g', key a ≠ key b) :
    (gs.flatten.map key).dedup.length = (gs.map fun g => if g.isEmpty then 0 else 1).sum := by
  induction gs with
  | nil => rfl
  | cons g gs ih =>
    obtain ⟨hgkey, hgskey⟩ := List.forall_mem_cons.mp hkey
    obtain ⟨hcons, htail⟩ := List.pairwise_cons.mp hother
    rw [List.flatten_cons, List.map_append, List.dedup_append, List.map_cons, List.sum_cons, ← ih hgskey htail]
    cases g with
    | nil => rw [List.map_nil, List.nil_union, List.isEmpty_nil, if_pos rfl, Nat.zero_add]
    | cons a g =>
      have hrep : (a :: g).map key = List.replicate (g.length + 1) (key a) := by
        rw [List.eq_replicate_iff]
        refine ⟨by simp, fun k hk => ?_⟩
        obtain ⟨b, hb, rfl⟩ := List.mem_map.mp hk
        exact hgkey b hb a List.mem_cons_self
      have hdisj : List.Disjoint ((a :: g).map key) (gs.flatten.map key).dedup := by
        intro k hk hk'
        obtain ⟨b, hb, rfl⟩ := List.mem_map.mp hk
        obtain ⟨c, hc, hcb⟩ := List.mem_map.mp (List.mem_dedup.mp hk')
        obtain ⟨g', hg', hc⟩ := List.mem_flatten.mp hc
        exact hcons g' hg' b hb c hc hcb.symm
      rw [hdisj.union_eq, List.length_append, hrep, List.replicate_dedup (Nat.succ_ne_zero _)]
      rfl

end MnoGoSearch.Lib.Runs
