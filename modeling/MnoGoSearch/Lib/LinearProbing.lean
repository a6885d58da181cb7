import Mathlib.Data.List.Nodup
import Mathlib.Data.List.Perm.Basic
import Mathlib.Data.List.Range
import Mathlib.Data.Nat.Find
import Mathlib.Data.Nat.ModEq
import Mathlib.Logic.Function.Basic
import Mathlib.Order.Nat

/-!
# Linear probing

A table of `n` slots. An element goes to the first free slot from its home position on, also
where an element of the same key has been put before. The elements of a key are found by the
walk from their home position to the first free slot: `filter_walk_perm` says that a table that
is not full gives every key all its elements back.
-/

namespace MnoGoSearch.Lib.LinearProbing

variable {α κ : Type} {p n : ℕ}

/-- The first free position from `pos` on, among `fuel`. -/
def firstFree (slot : ℕ → Option α) (n : ℕ) : ℕ → ℕ → ℕ
  | 0, pos => pos
  | fuel + 1, pos => if (slot pos).isSome then firstFree slot n fuel ((pos + 1) % n) else pos

/-- Insert an element with the home position `h`. -/
def insert (n : ℕ) (slot : ℕ → Option α) (h : ℕ) (a : α) : ℕ → Option α :=
  Function.update slot (firstFree slot n n (h % n)) (some a)

/-- Insert elements one after the other. -/
def insertAll (n : ℕ) (home : α → ℕ) (slot : ℕ → Option α) (l : List α) : ℕ → Option α :=
  l.foldl (fun slot a => insert n slot (home a) a) slot

/-- The elements from `pos` on up to a free slot, `fuel` at most. -/
def walk (slot : ℕ → Option α) (n : ℕ) : ℕ → ℕ → List α
  | 0, _ => []
  | fuel + 1, pos =>
    match slot pos with
    | none => []
    | some a => a :: walk slot n fuel ((pos + 1) % n)

/-- A walk of `fuel` steps from `pos` comes to a free slot. -/
def Stops (slot : ℕ → Option α) (n : ℕ) : ℕ → ℕ → Prop
  | 0, _ => False
  | fuel + 1, pos => slot pos = none ∨ Stops slot n fuel ((pos + 1) % n)

/-- The elements of the table. -/
def elements (slot : ℕ → Option α) (n : ℕ) : List α := (List.range n).filterMap slot

/-- The slots from the position `h` up to the offset `d` are taken. -/
def Taken (slot : ℕ → Option α) (n h d : ℕ) : Prop := ∀ i < d, slot ((h + i) % n) ≠ none

/-- The table holds the elements `l`, each on the walk from its home position. -/
structure Holds (n : ℕ) (home : α → ℕ) (slot : ℕ → Option α) (l : List α) : Prop where
  /-- Nothing is lost or invented. -/
  perm : (elements slot n).Perm l
  /-- An element is reached from its home. -/
  reach : ∀ p < n, ∀ a, slot p = some a → ∃ d < n, (home a + d) % n = p ∧ Taken slot n (home a) d

variable {slot : ℕ → Option α} {home : α → ℕ} {l : List α}

/-! ## Walking round the table -/

theorem rotate_perm (hn : 0 < n) (h : ℕ) : ((List.range n).map fun i => (h + i) % n).Perm (List.range n) := by
  have hinj : ∀ i ∈ List.range n, ∀ j ∈ List.range n, (h + i) % n = (h + j) % n → i = j := by
    intro i hi j hj heq
    have hmod : i % n = j % n := Nat.ModEq.add_left_cancel' h heq
    rwa [Nat.mod_eq_of_lt (List.mem_range.mp hi), Nat.mod_eq_of_lt (List.mem_range.mp hj)] at hmod
  have hnodup := List.Nodup.map_on hinj List.nodup_range
  refine (List.subperm_of_subset hnodup ?_).perm_of_length_le (by simp)
  intro p hp
  obtain ⟨i, -, rfl⟩ := List.mem_map.mp hp
  exact List.mem_range.mpr (Nat.mod_lt _ hn)

theorem elements_perm (hn : 0 < n) (h : ℕ) :
    (elements slot n).Perm ((List.range n).filterMap fun i => slot ((h + i) % n)) := by
  have := (rotate_perm hn h).filterMap slot
  rw [List.filterMap_map] at this
  exact this.symm

theorem exists_offset (h : ℕ) (hp : p < n) : ∃ d < n, (h + d) % n = p := by
  have hmem := (rotate_perm (by omega) h).symm.subset (List.mem_range.mpr hp)
  obtain ⟨d, hd, rfl⟩ := List.mem_map.mp hmem
  exact ⟨d, List.mem_range.mp hd, rfl⟩

theorem exists_free (hlt : (elements slot n).length < n) : ∃ p < n, slot p = none := by
  by_contra hall
  push Not at hall
  have hlen : (elements slot n).length = n := by
    rw [elements, List.length_filterMap_eq_countP, List.countP_eq_length.mpr, List.length_range]
    intro p hp
    exact Option.isSome_iff_ne_none.mpr (hall p (List.mem_range.mp hp))
  omega

theorem exists_first (hlt : (elements slot n).length < n) (h : ℕ) :
    ∃ d < n, slot ((h + d) % n) = none ∧ Taken slot n h d := by
  obtain ⟨p, hp, hfree⟩ := exists_free hlt
  obtain ⟨d, hd, rfl⟩ := exists_offset h hp
  have hex : ∃ d, slot ((h + d) % n) = none := ⟨d, hfree⟩
  classical
  exact ⟨Nat.find hex, lt_of_le_of_lt (Nat.find_min' hex hfree) hd, Nat.find_spec hex, fun i hi => Nat.find_min hex hi⟩

theorem firstFree_eq {h d : ℕ} (hd : d < n) (hfree : slot ((h + d) % n) = none) (htaken : Taken slot n h d) :
    firstFree slot n n (h % n) = (h + d) % n := by
  suffices hs : ∀ fuel i, i ≤ d → d - i < fuel → firstFree slot n fuel ((h + i) % n) = (h + d) % n from
    hs n 0 (Nat.zero_le d) (by omega)
  intro fuel
  induction fuel with
  | zero =>
    intro i _ hlt
    omega
  | succ fuel ih =>
    intro i hi hfuel
    rw [firstFree]
    cases Nat.eq_or_lt_of_le hi with
    | inl heq =>
      subst heq
      rw [hfree]
      rfl
    | inr hlt =>
      rw [if_pos (Option.isSome_iff_ne_none.mpr (htaken i hlt)), Nat.mod_add_mod, Nat.add_assoc]
      exact ih (i + 1) hlt (by omega)

/-! ## Insertion -/

theorem holds_nil (hempty : ∀ p, slot p = none) : Holds n home slot [] where
  perm := by
    have hnil : elements slot n = [] := List.filterMap_eq_nil_iff.mpr fun p _ => hempty p
    rw [hnil]
  reach p _ a ha := by
    rw [hempty p] at ha
    cases ha

theorem elements_update (hp : p < n) (hfree : slot p = none) (a : α) :
    (elements (Function.update slot p (some a)) n).Perm (a :: elements slot n) := by
  obtain ⟨l1, l2, hsplit⟩ := List.append_of_mem (List.mem_range.mpr hp)
  have hnodup : (List.range n).Nodup := List.nodup_range
  rw [hsplit, List.nodup_middle, List.nodup_cons] at hnodup
  have hother : ∀ l : List ℕ, p ∉ l → l.filterMap (Function.update slot p (some a)) = l.filterMap slot := by
    intro l hl
    refine List.filterMap_congr fun q hq => Function.update_of_ne ?_ _ _
    rintro rfl
    exact hl hq
  have h1 : p ∉ l1 := fun h => hnodup.1 (List.mem_append_left _ h)
  have h2 : p ∉ l2 := fun h => hnodup.1 (List.mem_append_right _ h)
  rw [elements, elements, hsplit, List.filterMap_append, List.filterMap_append,
    List.filterMap_cons_some (Function.update_self p (some a) slot), List.filterMap_cons_none hfree, hother l1 h1,
    hother l2 h2]
  exact List.perm_middle

theorem Holds.insert (h : Holds n home slot l) (hlt : l.length < n) (a : α) :
    Holds n home (insert n slot (home a) a) (a :: l) := by
  have hlen : (elements slot n).length < n := by rwa [h.perm.length_eq]
  obtain ⟨d, hd, hfree, htaken⟩ := exists_first hlen (home a)
  have hpos : (home a + d) % n < n := Nat.mod_lt _ (by omega)
  rw [LinearProbing.insert, firstFree_eq hd hfree htaken]
  -- a slot that was taken stays so
  have hkeep : ∀ b e, Taken slot n b e →
      Taken (Function.update slot ((home a + d) % n) (some a)) n b e := by
    intro b e hb i hi
    by_cases hq : (b + i) % n = (home a + d) % n
    · rw [hq, Function.update_self]
      exact Option.some_ne_none a
    · rw [Function.update_of_ne hq]
      exact hb i hi
  refine ⟨(elements_update hpos hfree a).trans (h.perm.cons a), fun p hp b hb => ?_⟩
  by_cases hpq : p = (home a + d) % n
  · subst hpq
    rw [Function.update_self] at hb
    cases hb
    exact ⟨d, hd, rfl, hkeep _ _ htaken⟩
  · rw [Function.update_of_ne hpq] at hb
    obtain ⟨e, he, hoff, hreach⟩ := h.reach p hp b hb
    exact ⟨e, he, hoff, hkeep _ _ hreach⟩

/-- **The table after a sequence of insertions holds the elements.** -/
theorem insertAll_spec (hempty : ∀ p, slot p = none) (hlen : l.length ≤ n) :
    Holds n home (insertAll n home slot l) l := by
  suffices hs : ∀ rest pre slot, Holds n home slot pre → pre.length + rest.length ≤ n →
      Holds n home (insertAll n home slot rest) (rest.reverse ++ pre) by
    have h := hs l [] slot (holds_nil hempty) (by simpa using hlen)
    rw [List.append_nil] at h
    exact ⟨h.perm.trans (List.reverse_perm l), h.reach⟩
  intro rest
  induction rest with
  | nil => exact fun pre slot h _ => h
  | cons a rest ih =>
    intro pre slot h hle
    rw [List.length_cons] at hle
    have hput := h.insert (by omega) a
    have := ih (a :: pre) _ hput (by rw [List.length_cons]; omega)
    rwa [List.reverse_cons, List.append_assoc, List.singleton_append]

/-! ## The walk -/

theorem walk_eq {h d fuel : ℕ} (hfuel : d < fuel) (hfree : slot ((h + d) % n) = none) (htaken : Taken slot n h d) :
    walk slot n fuel (h % n) = (List.range d).filterMap fun i => slot ((h + i) % n) := by
  suffices hs : ∀ fuel i, i ≤ d → d - i < fuel →
      walk slot n fuel ((h + i) % n) = (List.range' i (d - i)).filterMap fun i => slot ((h + i) % n) by
    have h0 := hs fuel 0 (Nat.zero_le d) (by omega)
    rwa [Nat.sub_zero, ← List.range_eq_range'] at h0
  intro fuel
  induction fuel with
  | zero =>
    intro i _ hlt
    omega
  | succ fuel ih =>
    intro i hi hlt
    rw [walk]
    cases Nat.eq_or_lt_of_le hi with
    | inl heq =>
      subst heq
      rw [hfree, Nat.sub_self]
      rfl
    | inr hid =>
      obtain ⟨a, ha⟩ := Option.ne_none_iff_exists'.mp (htaken i hid)
      have hcons : ((i :: List.range' (i + 1) (d - (i + 1))).filterMap fun i => slot ((h + i) % n)) =
          a :: (List.range' (i + 1) (d - (i + 1))).filterMap fun i => slot ((h + i) % n) :=
        List.filterMap_cons_some ha
      rw [ha, show d - i = (d - (i + 1)) + 1 by omega, List.range'_succ, hcons]
      dsimp only
      rw [Nat.mod_add_mod, Nat.add_assoc, ih (i + 1) hid (by omega)]

theorem stops_of_lt (hlt : (elements slot n).length < n) (h : ℕ) : Stops slot n n (h % n) := by
  obtain ⟨d, hd, hfree, -⟩ := exists_first hlt h
  suffices hs : ∀ fuel i, i ≤ d → d - i < fuel → Stops slot n fuel ((h + i) % n) from hs n 0 (Nat.zero_le d) (by omega)
  intro fuel
  induction fuel with
  | zero =>
    intro i _ hlt
    omega
  | succ fuel ih =>
    intro i hi hlt
    cases Nat.eq_or_lt_of_le hi with
    | inl heq =>
      subst heq
      exact Or.inl hfree
    | inr hid =>
      have hnext := ih (i + 1) hid (by omega)
      rw [← Nat.add_assoc, ← Nat.mod_add_mod] at hnext
      exact Or.inr hnext

/-- **A table that is not full gives every key all its elements back**: they are on the walk from the home position
of the key. -/
theorem filter_walk_perm {l : List α} (h : Holds n home slot l) (hlt : l.length < n) {p : α → Bool} {pos : ℕ}
    (hp : ∀ a ∈ l, p a = true → home a = pos) : ((walk slot n n (pos % n)).filter p).Perm (l.filter p) := by
  have hlen : (elements slot n).length < n := by rwa [h.perm.length_eq]
  obtain ⟨d, hd, hfree, htaken⟩ := exists_first hlen pos
  rw [walk_eq hd hfree htaken]
  have hall : (elements slot n).Perm ((List.range n).filterMap fun i => slot ((pos + i) % n)) :=
    elements_perm (by omega) pos
  rw [show n = d + (n - d) by omega, List.range_add, List.filterMap_append] at hall
  rw [← show n = d + (n - d) by omega] at hall
  -- behind the free slot there is no element of the key
  have hrest : (((List.range (n - d)).map (d + ·)).filterMap fun i => slot ((pos + i) % n)).filter p = [] := by
    rw [List.filter_eq_nil_iff]
    intro a ha hpa
    obtain ⟨i, hi, hslot⟩ := List.mem_filterMap.mp ha
    obtain ⟨j, hj, rfl⟩ := List.mem_map.mp hi
    have hpos : (pos + (d + j)) % n < n := Nat.mod_lt _ (by omega)
    have hmem : a ∈ l :=
      h.perm.subset (List.mem_filterMap.mpr ⟨_, List.mem_range.mpr hpos, hslot⟩)
    obtain ⟨e, he, hoff, hreach⟩ := h.reach _ hpos a hslot
    rw [hp a hmem hpa] at hoff hreach
    have hjn := List.mem_range.mp hj
    have hmod : e % n = (d + j) % n := Nat.ModEq.add_left_cancel' pos hoff
    rw [Nat.mod_eq_of_lt he, Nat.mod_eq_of_lt (by omega)] at hmod
    cases Nat.eq_zero_or_pos j with
    | inl hj0 =>
      subst hj0
      rw [Nat.add_zero, hfree] at hslot
      cases hslot
    | inr hjpos => exact hreach d (by omega) hfree
  have hfilter := (h.perm.symm.trans hall).filter p
  rw [List.filter_append, hrest, List.append_nil] at hfilter
  exact hfilter.symm

end MnoGoSearch.Lib.LinearProbing
