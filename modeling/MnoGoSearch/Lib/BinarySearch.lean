import Mathlib

/-!
# Binary search

`bsearch` of the C library: an array, a key and a comparison of the key with an element.
The array is a list, cut at its middle element. `bsearch_isSome_iff` says that on a list in
the order of the comparison (`Searchable`) the search succeeds exactly when some element
matches; what it finds matches in any case. `upperBound` is the halving that looks for the
place where a property stops holding; what it finds is the length of the longest prefix with
the property.
-/

namespace MnoGoSearch.Lib.BinarySearch

variable {κ α : Type} (cmp : κ → α → Ordering)

/-- The search, halving at most `fuel` times. -/
def search (key : κ) : ℕ → List α → Option α
  | 0, _ => none
  | fuel + 1, l =>
    match l.drop (l.length / 2) with
    | [] => none
    | m :: right =>
      match cmp key m with
      | .eq => some m
      | .lt => search key fuel (l.take (l.length / 2))
      | .gt => search key fuel right

/-- `bsearch`. -/
def bsearch (key : κ) (l : List α) : Option α := search cmp key l.length l

/-- The list is in the order of the comparison, as far as `key` can tell: first what is
below the key, then what matches, then what is above. -/
def Searchable (key : κ) (l : List α) : Prop :=
  l.Pairwise fun x y => (cmp key x = .lt → cmp key y = .lt) ∧ (cmp key y = .gt → cmp key x = .gt)

theorem search_some {key : κ} {fuel : ℕ} {l : List α} {x : α} (h : search cmp key fuel l = some x) :
    x ∈ l ∧ cmp key x = .eq := by
  induction fuel generalizing l with
  | zero => simp [search] at h
  | succ fuel ih =>
    rw [search] at h
    split at h
    · simp at h
    · rename_i m right hdrop
      have hsub : ∀ y ∈ m :: right, y ∈ l := fun y hy => List.drop_subset _ _ (hdrop ▸ hy)
      split at h
      · rename_i hm
        obtain rfl := Option.some.inj h
        exact ⟨hsub m (by simp), hm⟩
      · obtain ⟨hx, hc⟩ := ih h
        exact ⟨List.take_subset _ _ hx, hc⟩
      · obtain ⟨hx, hc⟩ := ih h
        exact ⟨hsub x (List.mem_cons_of_mem _ hx), hc⟩

theorem search_none {key : κ} {fuel : ℕ} {l : List α} (hfuel : l.length ≤ fuel)
    (hl : Searchable cmp key l) (h : search cmp key fuel l = none) {x : α} (hx : x ∈ l) : cmp key x ≠ .eq := by
  induction fuel generalizing l with
  | zero =>
    obtain rfl := List.length_eq_zero_iff.mp (Nat.le_zero.mp hfuel)
    simp at hx
  | succ fuel ih =>
    have hlen : 0 < l.length := List.length_pos_of_mem hx
    rw [search] at h
    split at h
    · rename_i hdrop
      have := congrArg List.length hdrop
      simp only [List.length_drop, List.length_nil] at this
      omega
    · rename_i m right hdrop
      have hsplit : l = l.take (l.length / 2) ++ m :: right := by rw [← hdrop, List.take_append_drop]
      have hright : (l.take (l.length / 2)).length + right.length < l.length := by
        have := congrArg List.length hsplit
        simp only [List.length_append, List.length_cons] at this
        omega
      have hhalf : (l.take (l.length / 2)).length ≤ fuel := by
        rw [List.length_take]
        omega
      have hl' := hl
      rw [Searchable, hsplit, List.pairwise_append, List.pairwise_cons] at hl'
      obtain ⟨htake, ⟨hm, hr⟩, hcross⟩ := hl'
      rw [hsplit] at hx
      split at h
      · simp at h
      · -- the key is below the middle: what is behind the middle is above the key too
        rename_i hlt
        rcases List.mem_append.mp hx with hx | hx
        · exact ih hhalf htake h hx
        · rcases List.mem_cons.mp hx with rfl | hx
          · simp [hlt]
          · simp [(hm x hx).1 hlt]
      · rename_i hgt
        rcases List.mem_append.mp hx with hx | hx
        · simp [(hcross x hx m (by simp)).2 hgt]
        · rcases List.mem_cons.mp hx with rfl | hx
          · simp [hgt]
          · exact ih (by omega) hr h hx

/-- **Binary search decides whether an ordered list holds a match.** -/
theorem bsearch_isSome_iff {key : κ} {l : List α} (hl : Searchable cmp key l) :
    (bsearch cmp key l).isSome = true ↔ ∃ x ∈ l, cmp key x = .eq := by
  constructor
  · intro h
    obtain ⟨x, hx⟩ := Option.isSome_iff_exists.mp h
    exact ⟨x, search_some cmp hx⟩
  · rintro ⟨x, hx, heq⟩
    by_contra h
    exact search_none cmp (Nat.le_refl _) hl (Option.not_isSome_iff_eq_none.mp h) hx heq

theorem searchable_compare {α : Type} [LinearOrder α] (key : α) {l : List α} (hl : l.Pairwise (· ≤ ·)) :
    Searchable compare key l := by
  refine hl.imp fun {x y} hxy => ⟨fun h => ?_, fun h => ?_⟩
  · exact compare_lt_iff_lt.mpr (lt_of_lt_of_le (compare_lt_iff_lt.mp h) hxy)
  · exact compare_gt_iff_gt.mpr (lt_of_le_of_lt hxy (compare_gt_iff_gt.mp h))

theorem bsearch_zipIdx_some {key : κ} {l : List α} {x : α} {i : ℕ}
    (h : bsearch (fun k (y : α × ℕ) => cmp k y.1) key l.zipIdx = some (x, i)) : l[i]? = some x ∧ cmp key x = .eq := by
  obtain ⟨hmem, heq⟩ := search_some _ h
  exact ⟨List.mk_mem_zipIdx_iff_getElem?.mp hmem, heq⟩

theorem bsearch_zipIdx_none {key : κ} {l : List α} (hl : Searchable cmp key l)
    (h : bsearch (fun k (y : α × ℕ) => cmp k y.1) key l.zipIdx = none) {x : α} (hx : x ∈ l) : cmp key x ≠ .eq := by
  have hzip : Searchable (fun k (y : α × ℕ) => cmp k y.1) key l.zipIdx := by
    have hmap : (l.zipIdx.map Prod.fst).Pairwise fun x y =>
        (cmp key x = .lt → cmp key y = .lt) ∧ (cmp key y = .gt → cmp key x = .gt) := by
      rwa [List.zipIdx_map_fst]
    exact List.pairwise_map.mp hmap
  obtain ⟨i, hi⟩ := List.getElem?_of_mem hx
  exact search_none _ (Nat.le_refl _) hzip h (List.mk_mem_zipIdx_iff_getElem?.mpr hi)

/-- The search sees nothing but the comparisons: it goes the same way through the images of the elements. -/
theorem search_map {β : Type} {cmp' : κ → β → Ordering} {key : κ} {f : α → β} (hf : ∀ x, cmp' key (f x) = cmp key x)
    (fuel : ℕ) (l : List α) : search cmp' key fuel (l.map f) = (search cmp key fuel l).map f := by
  induction fuel generalizing l with
  | zero => rfl
  | succ fuel ih =>
    rw [search, search, List.length_map, ← List.map_drop]
    cases l.drop (l.length / 2) with
    | nil => rfl
    | cons m right =>
      simp only [List.map_cons, hf]
      cases cmp key m with
      | eq => rfl
      | lt => rw [← List.map_take, ih]
      | gt => exact ih right

theorem bsearch_zipIdx_congr {key : κ} {l l' : List α} (h : l.map (cmp key) = l'.map (cmp key)) :
    (bsearch (fun k (y : α × ℕ) => cmp k y.1) key l.zipIdx).map Prod.snd =
      (bsearch (fun k (y : α × ℕ) => cmp k y.1) key l'.zipIdx).map Prod.snd := by
  have himage : ∀ l : List α,
      (bsearch (fun k (y : α × ℕ) => cmp k y.1) key l.zipIdx).map Prod.snd =
        (bsearch (fun _ (o : Ordering × ℕ) => o.1) key (l.map (cmp key)).zipIdx).map Prod.snd := by
    intro l
    have hmap : (l.map (cmp key)).zipIdx = l.zipIdx.map (Prod.map (cmp key) id) := List.zipIdx_map
    have hsearch := @search_map κ (α × ℕ) (fun k y => cmp k y.1) (Ordering × ℕ) (fun _ o => o.1) key
      (Prod.map (cmp key) id) (fun x => rfl) l.zipIdx.length l.zipIdx
    rw [bsearch, bsearch, hmap, List.length_map, hsearch, Option.map_map]
    rfl
  rw [himage, himage, h]

/-! ## The end of a prefix -/

section UpperBound

variable {α : Type} (p : α → Bool)

/-- Halve the list at most `fuel` times: behind the middle where the property holds, in
front of it where it does not. -/
def partitionPoint : ℕ → List α → ℕ
  | 0, _ => 0
  | fuel + 1, l =>
    match l.drop (l.length / 2) with
    | [] => 0
    | m :: right =>
      if p m then l.length / 2 + 1 + partitionPoint fuel right
      else partitionPoint fuel (l.take (l.length / 2))

theorem partitionPoint_le (fuel : ℕ) (l : List α) : partitionPoint p fuel l ≤ l.length := by
  induction fuel generalizing l with
  | zero => exact Nat.zero_le _
  | succ fuel ih =>
    rw [partitionPoint]
    split
    · exact Nat.zero_le _
    · rename_i m right hdrop
      have hlen := congrArg List.length hdrop
      rw [List.length_drop, List.length_cons] at hlen
      have hright := ih right
      have hleft := ih (l.take (l.length / 2))
      rw [List.length_take] at hleft
      split_ifs
      · omega
      · omega

/-- The place where the property stops holding. -/
def upperBound (l : List α) : ℕ := partitionPoint p l.length l

theorem partitionPoint_eq {fuel : ℕ} {l : List α} (hfuel : l.length ≤ fuel)
    (hl : l.Pairwise fun x y => p y = true → p x = true) : partitionPoint p fuel l = (l.takeWhile p).length := by
  induction fuel generalizing l with
  | zero =>
    obtain rfl := List.length_eq_zero_iff.mp (Nat.le_zero.mp hfuel)
    rfl
  | succ fuel ih =>
    rw [partitionPoint]
    split
    · rename_i hdrop
      have hlen := congrArg List.length hdrop
      simp only [List.length_drop, List.length_nil] at hlen
      obtain rfl := List.length_eq_zero_iff.mp (show l.length = 0 by omega)
      rfl
    · rename_i m right hdrop
      have hsplit : l = l.take (l.length / 2) ++ m :: right := by rw [← hdrop, List.take_append_drop]
      have hlen := congrArg List.length hsplit
      simp only [List.length_append, List.length_cons] at hlen
      have hhalf : (l.take (l.length / 2)).length = l.length / 2 := by
        rw [List.length_take]
        omega
      have hl' := hl
      rw [hsplit, List.pairwise_append, List.pairwise_cons] at hl'
      obtain ⟨htake, ⟨-, hright⟩, hcross⟩ := hl'
      cases hm : p m with
      | true =>
        -- the whole left half has the property
        have hleft : ∀ x ∈ l.take (l.length / 2), p x = true := fun x hx => hcross x hx m (by simp) hm
        conv_rhs => rw [hsplit]
        rw [List.takeWhile_append_of_pos hleft, List.takeWhile_cons_of_pos hm, if_pos rfl,
          ih (by omega) hright, List.length_append, List.length_cons, hhalf]
        omega
      | false =>
        conv_rhs => rw [hsplit]
        rw [if_neg (by simp), ih (by omega) htake, List.takeWhile_append]
        split
        · rw [List.takeWhile_cons_of_neg (by simp [hm]), List.append_nil]
          assumption
        · rfl

/-- Wherever the search stops, the property holds of the element before, and not of the one behind. -/
theorem partitionPoint_between {fuel : ℕ} {l : List α} (hfuel : l.length ≤ fuel) :
    (∀ i x, i + 1 = partitionPoint p fuel l → l[i]? = some x → p x = true) ∧
      ∀ x, l[partitionPoint p fuel l]? = some x → p x = false := by
  induction fuel generalizing l with
  | zero =>
    obtain rfl := List.length_eq_zero_iff.mp (Nat.le_zero.mp hfuel)
    simp
  | succ fuel ih =>
    rw [partitionPoint]
    split
    · rename_i hdrop
      have hlen := congrArg List.length hdrop
      simp only [List.length_drop, List.length_nil] at hlen
      obtain rfl := List.length_eq_zero_iff.mp (show l.length = 0 by omega)
      simp
    · rename_i m right hdrop
      have hsplit : l = l.take (l.length / 2) ++ m :: right := by rw [← hdrop, List.take_append_drop]
      have hlen := congrArg List.length hsplit
      simp only [List.length_append, List.length_cons] at hlen
      have hhalf : (l.take (l.length / 2)).length = l.length / 2 := by
        rw [List.length_take]
        omega
      have hmiddle : l[l.length / 2]? = some m := by rw [← List.head?_drop, hdrop, List.head?_cons]
      have hright : ∀ i, l[l.length / 2 + 1 + i]? = right[i]? := by
        intro i
        rw [Nat.add_assoc, ← List.getElem?_drop, hdrop, Nat.add_comm, List.getElem?_cons_succ]
      cases hm : p m with
      | true =>
        obtain ⟨hbefore, hbehind⟩ := @ih right (by omega)
        rw [if_pos rfl]
        refine ⟨fun i x hi hx => ?_, fun x hx => hbehind x (by rwa [hright] at hx)⟩
        rcases Nat.eq_zero_or_pos (partitionPoint p fuel right) with hzero | hpos
        · obtain rfl : i = l.length / 2 := by omega
          rw [hmiddle] at hx
          cases hx
          exact hm
        · refine hbefore (i - (l.length / 2 + 1)) x (by omega) ?_
          rwa [← hright, show l.length / 2 + 1 + (i - (l.length / 2 + 1)) = i by omega]
      | false =>
        have hle := partitionPoint_le p fuel (l.take (l.length / 2))
        rw [hhalf] at hle
        obtain ⟨hbefore, hbehind⟩ := @ih (l.take (l.length / 2)) (by omega)
        rw [if_neg (by simp)]
        refine ⟨fun i x hi hx => hbefore i x hi ?_, fun x hx => ?_⟩
        · rwa [List.getElem?_take_of_lt (by omega)]
        · rcases Nat.lt_or_eq_of_le hle with hlt | heq
          · exact hbehind x (by rwa [List.getElem?_take_of_lt hlt])
          · rw [heq, hmiddle] at hx
            cases hx
            exact hm

/-- **The bound cuts the list at the end of the prefix with the property.** -/
theorem upperBound_eq {l : List α} (hl : l.Pairwise fun x y => p y = true → p x = true) :
    upperBound p l = (l.takeWhile p).length :=
  partitionPoint_eq p (Nat.le_refl _) hl

theorem take_upperBound {l : List α} (hl : l.Pairwise fun x y => p y = true → p x = true) :
    l.take (upperBound p l) = l.takeWhile p := by
  have h := @List.take_left _ (l.takeWhile p) (l.dropWhile p)
  rwa [List.takeWhile_append_dropWhile, ← upperBound_eq p hl] at h

theorem drop_upperBound {l : List α} (hl : l.Pairwise fun x y => p y = true → p x = true) :
    l.drop (upperBound p l) = l.dropWhile p := by
  have h := @List.drop_left _ (l.takeWhile p) (l.dropWhile p)
  rwa [List.takeWhile_append_dropWhile, ← upperBound_eq p hl] at h

end UpperBound

theorem pairwise_insert_upperBound {α β : Type} [LinearOrder β] (f : α → β) {l : List α} (x : α)
    (hl : l.Pairwise fun a b => f a ≤ f b) :
    (l.take (upperBound (fun y => decide (f y ≤ f x)) l) ++
      x :: l.drop (upperBound (fun y => decide (f y ≤ f x)) l)).Pairwise fun a b => f a ≤ f b := by
  have hmono : l.Pairwise fun a b => decide (f b ≤ f x) = true → decide (f a ≤ f x) = true :=
    hl.imp fun hab hb => by simpa using le_trans hab (by simpa using hb)
  rw [take_upperBound _ hmono, drop_upperBound _ hmono, List.pairwise_append, List.pairwise_cons]
  have hbelow : ∀ a ∈ l.takeWhile fun y => decide (f y ≤ f x), f a ≤ f x :=
    fun a ha => by simpa using List.mem_takeWhile_imp ha
  have habove : ∀ b ∈ l.dropWhile fun y => decide (f y ≤ f x), f x ≤ f b := by
    intro b hb
    have hne := List.ne_nil_of_mem hb
    have hhead := List.head_dropWhile_not (fun y => decide (f y ≤ f x)) hne
    have hsub := hl.sublist (List.dropWhile_sublist fun y => decide (f y ≤ f x))
    have hle : f ((l.dropWhile fun y => decide (f y ≤ f x)).head hne) ≤ f b := by
      generalize hd : (l.dropWhile fun y => decide (f y ≤ f x)) = d at *
      cases d with
      | nil => exact absurd rfl hne
      | cons c d =>
        rcases List.mem_cons.mp hb with rfl | hb
        · exact le_rfl
        · exact List.rel_of_pairwise_cons hsub hb
    exact le_trans (le_of_lt (by simpa using hhead)) hle
  refine ⟨hl.sublist (List.takeWhile_sublist _), ⟨habove, hl.sublist (List.dropWhile_sublist _)⟩, ?_⟩
  intro a ha b hb
  rcases List.mem_cons.mp hb with rfl | hb
  · exact hbelow a ha
  · exact le_trans (hbelow a ha) (habove b hb)

end MnoGoSearch.Lib.BinarySearch
