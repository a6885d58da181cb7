import Mathlib.Data.List.Nodup
import Mathlib.Data.List.Perm.Basic
import Mathlib.Logic.Function.Basic
import Mathlib.Logic.Equiv.Basic

/-!
# Shell sort

Insertion sort of the elements that are `h` places apart, for one gap `h` after the other.
An array is a function of the index. `before x y` says that `x` has to stand before `y`;
elements neither of which has to stand before the other come in an order that depends on
the gaps. Whatever the gaps are, the elements stay the same (`perm_sort`); when the last gap
is 1 the result is in order (`sorted_sort`); nothing moves when no element has to stand
before another (`sort_eq_self`); and elements that compare alike are sorted alike
(`sort_comp`).
-/

namespace MnoGoSearch.Lib.ShellSort

variable {α : Type} (before : α → α → Bool)

/-- Bring `dat` to its place among the elements `p - h`, `p - 2h`, …; `p` is the place that is
free for it now. -/
def sift (h : ℕ) (dat : α) : ℕ → (ℕ → α) → ℕ → ℕ → α
  | 0, a, p => Function.update a p dat
  | fuel + 1, a, p =>
    if h ≤ p ∧ before dat (a (p - h)) then sift h dat fuel (Function.update a p (a (p - h))) (p - h)
    else Function.update a p dat

/-- One pass with the gap `h` over the first `num` elements. -/
def pass (num : ℕ) (a : ℕ → α) (h : ℕ) : ℕ → α :=
  (List.range' h (num - h)).foldl (fun a j => sift before h (a j) j a j) a

/-- A pass for each gap. -/
def sort (num : ℕ) (gaps : List ℕ) (a : ℕ → α) : ℕ → α := gaps.foldl (pass before num) a

/-! ## Nothing is lost -/

variable {num : ℕ}

theorem perm_update_swap {p q : ℕ} (hp : p < num) (hq : q < num) (a : ℕ → α) (dat : α) :
    ((List.range num).map (Function.update (Function.update a p (a q)) q dat)).Perm
      ((List.range num).map (Function.update a p dat)) := by
  have hswap : Function.update (Function.update a p (a q)) q dat = Function.update a p dat ∘ Equiv.swap p q := by
    funext i
    by_cases hi : i = q
    · subst hi
      simp
    · by_cases hip : i = p
      · subst hip
        simp [Function.update_of_ne hi, Function.update_of_ne (Ne.symm hi)]
      · simp [Function.update_of_ne hi, Function.update_of_ne hip, Equiv.swap_apply_of_ne_of_ne hip hi]
  rw [hswap, ← List.map_map]
  apply List.Perm.map
  rw [List.perm_ext_iff_of_nodup (List.nodup_range.map (Equiv.injective _)) List.nodup_range]
  intro i
  simp only [List.mem_map, List.mem_range]
  constructor
  · rintro ⟨j, hj, rfl⟩
    by_cases hjp : j = p
    · simpa [hjp] using hq
    · by_cases hjq : j = q
      · simpa [hjq] using hp
      · rwa [Equiv.swap_apply_of_ne_of_ne hjp hjq]
  · intro hi
    refine ⟨Equiv.swap p q i, ?_, Equiv.swap_apply_self p q i⟩
    by_cases hip : i = p
    · simpa [hip] using hq
    · by_cases hiq : i = q
      · simpa [hiq] using hp
      · rwa [Equiv.swap_apply_of_ne_of_ne hip hiq]

theorem perm_sift (h : ℕ) (dat : α) {num fuel p : ℕ} (a : ℕ → α) (hp : p < num) :
    ((List.range num).map (sift before h dat fuel a p)).Perm ((List.range num).map (Function.update a p dat)) := by
  induction fuel generalizing a p with
  | zero => exact List.Perm.refl _
  | succ fuel ih =>
    rw [sift]
    split
    · exact (ih _ (by omega)).trans (perm_update_swap hp (by omega) a dat)
    · exact List.Perm.refl _

theorem perm_foldl_sift (h num : ℕ) (js : List ℕ) (hjs : ∀ j ∈ js, j < num) (a : ℕ → α) :
    ((List.range num).map (js.foldl (fun a j => sift before h (a j) j a j) a)).Perm ((List.range num).map a) := by
  induction js generalizing a with
  | nil => exact List.Perm.refl _
  | cons j js ih =>
    rw [List.foldl_cons]
    refine (ih (fun i hi => hjs i (List.mem_cons_of_mem _ hi)) _).trans ?_
    have hj := @perm_sift _ before h (a j) num j j a (hjs j List.mem_cons_self)
    rwa [Function.update_eq_self] at hj

theorem perm_pass (num h : ℕ) (a : ℕ → α) :
    ((List.range num).map (pass before num a h)).Perm ((List.range num).map a) := by
  apply perm_foldl_sift
  intro j hj
  have := List.mem_range'_1.mp hj
  omega

/-- **The result has the elements of the array.** -/
theorem perm_sort (num : ℕ) (gaps : List ℕ) (a : ℕ → α) :
    ((List.range num).map (sort before num gaps a)).Perm ((List.range num).map a) := by
  induction gaps generalizing a with
  | nil => exact List.Perm.refl _
  | cons h gaps ih => exact (ih (pass before num a h)).trans (perm_pass before num h a)

/-! ## Elements that compare alike -/

section Comp

variable {before} {β : Type} {before' : β → β → Bool} {f : α → β} {S : α → Prop}
  (hS : ∀ x y, S x → S y → before' (f x) (f y) = before x y)

include hS

theorem sift_comp {h : ℕ} {dat : α} {fuel p : ℕ} {a : ℕ → α} (hdat : S dat) (ha : ∀ i ≤ p, S (a i)) :
    sift before' h (f dat) fuel (f ∘ a) p = f ∘ sift before h dat fuel a p := by
  induction fuel generalizing a p with
  | zero => exact (Function.comp_update f a p dat).symm
  | succ fuel ih =>
    rw [sift, sift, Function.comp_apply, hS _ _ hdat (ha (p - h) (Nat.sub_le p h))]
    split
    · rw [← Function.comp_update]
      refine ih fun i hi => ?_
      by_cases hip : i = p
      · rw [hip, Function.update_self]
        exact ha _ (Nat.sub_le p h)
      · rw [Function.update_of_ne hip]
        exact ha i (by omega)
    · exact (Function.comp_update f a p dat).symm

theorem foldl_sift_comp {h : ℕ} {js : List ℕ} (hjs : ∀ j ∈ js, j < num) {a : ℕ → α}
    (ha : ∀ i < num, S (a i)) :
    js.foldl (fun b j => sift before' h (b j) j b j) (f ∘ a) =
      f ∘ js.foldl (fun a j => sift before h (a j) j a j) a := by
  induction js generalizing a with
  | nil => rfl
  | cons j js ih =>
    have hj := hjs j List.mem_cons_self
    rw [List.foldl_cons, List.foldl_cons, Function.comp_apply,
      sift_comp hS (ha j hj) fun i hi => ha i (by omega)]
    refine ih (fun i hi => hjs i (List.mem_cons_of_mem _ hi)) fun i hi => ?_
    have hperm := @perm_sift _ before h (a j) num j j a hj
    rw [Function.update_eq_self] at hperm
    obtain ⟨k, hk, hik⟩ := List.mem_map.mp (hperm.subset (List.mem_map_of_mem (List.mem_range.mpr hi)))
    rw [← hik]
    exact ha k (List.mem_range.mp hk)

/-- **Elements that compare alike are sorted alike.** -/
theorem sort_comp {num : ℕ} (gaps : List ℕ) {a : ℕ → α} (ha : ∀ i < num, S (a i)) :
    sort before' num gaps (f ∘ a) = f ∘ sort before num gaps a := by
  induction gaps generalizing a with
  | nil => rfl
  | cons h gaps ih =>
    have hjs : ∀ j ∈ List.range' h (num - h), j < num := by
      intro j hj
      have := List.mem_range'_1.mp hj
      omega
    have hpass : pass before' num (f ∘ a) h = f ∘ pass before num a h := foldl_sift_comp hS hjs ha
    change sort before' num gaps (pass before' num (f ∘ a) h) = f ∘ sort before num gaps (pass before num a h)
    rw [hpass]
    refine ih fun i hi => ?_
    obtain ⟨k, hk, hik⟩ :=
      List.mem_map.mp ((perm_pass before num h a).subset (List.mem_map_of_mem (List.mem_range.mpr hi)))
    rw [← hik]
    exact ha k (List.mem_range.mp hk)

end Comp

/-! ## Nothing moves without need -/

variable {a : ℕ → α}

theorem sift_eq_self {h : ℕ} {dat : α} {fuel : ℕ} {p : ℕ}
    (hdat : ∀ i ≤ p, before dat (a i) = false) : sift before h dat fuel a p = Function.update a p dat := by
  cases fuel with
  | zero => rfl
  | succ fuel => rw [sift, if_neg (by simp [hdat (p - h) (Nat.sub_le p h)])]

theorem foldl_sift_eq_self {h : ℕ} (ha : ∀ i < num, ∀ j < num, before (a i) (a j) = false)
    (js : List ℕ) (hjs : ∀ j ∈ js, j < num) : js.foldl (fun a j => sift before h (a j) j a j) a = a := by
  induction js with
  | nil => rfl
  | cons j js ih =>
    have hj := hjs j List.mem_cons_self
    rw [List.foldl_cons, sift_eq_self before fun i hi => ha j hj i (by omega), Function.update_eq_self]
    exact ih fun i hi => hjs i (List.mem_cons_of_mem _ hi)

/-- **No element has to stand before another: the array stays as it is.** -/
theorem sort_eq_self {gaps : List ℕ}
    (ha : ∀ i < num, ∀ j < num, before (a i) (a j) = false) : sort before num gaps a = a := by
  rw [sort]
  induction gaps with
  | nil => rfl
  | cons h gaps ih =>
    have hpass : pass before num a h = a := by
      apply foldl_sift_eq_self before ha
      intro j hj
      have := List.mem_range'_1.mp hj
      omega
    rw [List.foldl_cons, hpass, ih]

/-! ## The last gap sorts -/

/-- The elements up to the index `j` are in order. -/
def SortedTo (a : ℕ → α) (j : ℕ) : Prop := ∀ x y, x < y → y ≤ j → before (a y) (a x) = false

/-- The elements up to the index `j` are in order but for the free place `p`, and those behind
it have to stand behind `dat`. -/
def SortedExcept (a : ℕ → α) (p j : ℕ) (dat : α) : Prop :=
  (∀ x y, x < y → y ≤ j → x ≠ p → y ≠ p → before (a y) (a x) = false) ∧
    ∀ y, p < y → y ≤ j → before (a y) dat = false

section Order

variable {before} (asymm : ∀ x y, before x y = true → before y x = false)
  (trans : ∀ x y z, before y x = false → before z y = false → before z x = false)

include asymm trans

theorem sortedTo_sift {dat : α} {fuel p j : ℕ} (hfuel : p ≤ fuel) (hpj : p ≤ j)
    (h : SortedExcept before a p j dat) : SortedTo before (sift before 1 dat fuel a p) j := by
  -- at the end of the loop everything in front of the free place may stand before `dat`
  have hend : ∀ {b : ℕ → α} {p : ℕ}, SortedExcept before b p j dat →
      (∀ x < p, before dat (b x) = false) → SortedTo before (Function.update b p dat) j := by
    intro b p hb hfront x y hxy hyj
    by_cases hy : y = p
    · subst hy
      rw [Function.update_self, Function.update_of_ne (by omega)]
      exact hfront x hxy
    · rw [Function.update_of_ne hy]
      by_cases hx : x = p
      · subst hx
        rw [Function.update_self]
        exact hb.2 y hxy hyj
      · rw [Function.update_of_ne hx]
        exact hb.1 x y hxy hyj hx hy
  induction fuel generalizing a p with
  | zero => exact hend h fun x hx => absurd hx (by omega)
  | succ fuel ih =>
    rw [sift]
    split
    · rename_i hif
      obtain ⟨hp, hbefore⟩ := hif
      refine ih (by omega) (by omega) ⟨fun x y hxy hyj hx hy => ?_, fun y hy hyj => ?_⟩
      · by_cases hyp : y = p
        · subst hyp
          rw [Function.update_self, Function.update_of_ne (by omega)]
          exact h.1 x (y - 1) (by omega) (by omega) (by omega) (by omega)
        · rw [Function.update_of_ne hyp]
          by_cases hxp : x = p
          · subst hxp
            rw [Function.update_self]
            exact h.1 (x - 1) y (by omega) hyj (by omega) hyp
          · rw [Function.update_of_ne hxp]
            exact h.1 x y hxy hyj hxp hyp
      · by_cases hyp : y = p
        · subst hyp
          rw [Function.update_self]
          exact asymm _ _ hbefore
        · rw [Function.update_of_ne hyp]
          exact h.2 y (by omega) hyj
    · rename_i hif
      apply hend h
      intro x hx
      have hlast : before dat (a (p - 1)) = false := by
        by_contra hne
        exact hif ⟨by omega, by simpa using hne⟩
      by_cases hxp : x = p - 1
      · rwa [hxp]
      · exact trans _ _ _ (h.1 x (p - 1) (by omega) (by omega) (by omega) (by omega)) hlast

theorem sortedTo_pass (num : ℕ) (a : ℕ → α) : SortedTo before (pass before num a 1) (num - 1) := by
  have hloop : ∀ k (b : ℕ → α) (j : ℕ), SortedTo before b j →
      SortedTo before ((List.range' (j + 1) k).foldl (fun a i => sift before 1 (a i) i a i) b) (j + k) := by
    intro k
    induction k with
    | zero => exact fun b j hb => hb
    | succ k ih =>
      intro b j hb
      rw [List.range'_succ, List.foldl_cons, show j + (k + 1) = (j + 1) + k by omega]
      apply ih
      apply sortedTo_sift asymm trans (Nat.le_refl _) (Nat.le_refl _)
      exact ⟨fun x y hxy hyj hx hy => hb x y hxy (by omega), fun y hy hyj => absurd hyj (by omega)⟩
  have h0 : SortedTo before a 0 := fun x y hxy hy => absurd hxy (by omega)
  have h := hloop (num - 1) a 0 h0
  rwa [Nat.zero_add, Nat.zero_add] at h

/-- **With the gap 1 at the end the result is in order.** -/
theorem sorted_sort (num : ℕ) (gaps : List ℕ) (a : ℕ → α) :
    ((List.range num).map (sort before num (gaps ++ [1]) a)).Pairwise fun x y => before y x = false := by
  rw [sort, List.foldl_append, List.foldl_cons, List.foldl_nil, List.pairwise_map]
  have h := sortedTo_pass asymm trans num (gaps.foldl (pass before num) a)
  refine List.pairwise_lt_range.imp_of_mem fun {x y} _ hy hxy => h x y hxy ?_
  have := List.mem_range.mp hy
  omega

end Order

end MnoGoSearch.Lib.ShellSort
