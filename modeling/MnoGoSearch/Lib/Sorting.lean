import Mathlib.Data.List.Sort
import Mathlib.Data.List.TakeWhile
import Mathlib.Tactic.SplitIfs

/-!
# Sorting with `qsort`

`qsort` orders an array by a comparison and leaves open in which order equal elements come.
`QSort le` is a function that sorts: what is proved about any of them holds of the C
library's, whichever it is. `QSort.but` is a sorting function that orders the equal elements of
one list in another way; with it a result is shown to depend on that order.
-/

namespace MnoGoSearch.Lib.Sorting

/-- A sorting function: it permutes its list into the order `le`. -/
structure QSort {α : Type} (le : α → α → Prop) where
  sort : List α → List α
  /-- Nothing is lost or invented. -/
  perm : ∀ l, (sort l).Perm l
  sorted : ∀ l, (sort l).Pairwise le

/-- The sorting functions exist: merge sort is one, for every total preorder. -/
def mergeSort {α : Type} (le : α → α → Prop) [DecidableRel le] (trans : ∀ a b c, le a b → le b c → le a c)
    (total : ∀ a b, le a b ∨ le b a) : QSort le where
  sort l := l.mergeSort fun a b => decide (le a b)
  perm l := List.mergeSort_perm l _
  sorted l := by
    have h := @List.pairwise_mergeSort α (fun a b => decide (le a b)) (by simpa using trans)
      (by simpa using total) l
    simpa using h

/-- Insertion sort is another, which evaluates by structural recursion. -/
def insertionSort {α : Type} (le : α → α → Prop) [DecidableRel le]
    (trans : ∀ a b c, le a b → le b c → le a c) (total : ∀ a b, le a b ∨ le b a) : QSort le where
  sort l := l.insertionSort le
  perm l := List.perm_insertionSort le l
  sorted l :=
    have : Std.Total le := ⟨total⟩
    have : IsTrans α le := ⟨trans⟩
    List.pairwise_insertionSort le l

/-- A sorting function that differs on one list only. -/
def QSort.but {α : Type} [DecidableEq α] {le : α → α → Prop} (S : QSort le) {l m : List α} (hperm : m.Perm l)
    (hm : m.Pairwise le) : QSort le where
  sort k := if k = l then m else S.sort k
  perm k := by
    split_ifs with hk
    · rwa [hk]
    · exact S.perm k
  sorted k := by
    split_ifs with hk
    · exact hm
    · exact S.sorted k

/-- A sorting function for a finer order. -/
def QSort.coarsen {α : Type} {le le' : α → α → Prop} (S : QSort le) (h : ∀ a b, le a b → le' a b) : QSort le' where
  sort := S.sort
  perm := S.perm
  sorted l := List.Pairwise.imp (h _ _) (S.sorted l)

variable {α : Type}

variable {le : α → α → Prop}

theorem QSort.length_sort (S : QSort le) (l : List α) : (S.sort l).length = l.length :=
  (S.perm l).length_eq

@[simp] theorem QSort.sort_nil (S : QSort le) : S.sort [] = [] :=
  (S.perm []).eq_nil

@[simp] theorem QSort.but_sort_self [DecidableEq α] (S : QSort le) {l m : List α}
    (hperm : m.Perm l) (hm : m.Pairwise le) : (S.but hperm hm).sort l = m := if_pos rfl

theorem QSort.but_sort_of_ne [DecidableEq α] (S : QSort le) {l m k : List α}
    (hperm : m.Perm l) (hm : m.Pairwise le) (hk : k ≠ l) : (S.but hperm hm).sort k = S.sort k := if_neg hk

/-! ## Lists in the order of a key -/

section Key

variable {α β : Type} [LinearOrder β] {f : α → β}

variable {l m : List α} {y x : α} {i n : ℕ} {k : β}

theorem map_eq_of_perm (hperm : l.Perm m) (hl : l.Pairwise fun a b => f a ≤ f b)
    (hm : m.Pairwise fun a b => f a ≤ f b) : l.map f = m.map f := by
  refine (hperm.map f).eq_of_pairwise (fun a b _ _ => le_antisymm) ?_ ?_
  · exact List.pairwise_map.mpr hl
  · exact List.pairwise_map.mpr hm

theorem take_eq_take {l m : List α} (hperm : l.Perm m) (hl : l.Pairwise fun a b => f a ≤ f b)
    (hm : m.Pairwise fun a b => f a ≤ f b) {n : ℕ}
    (hn : ∀ x ∈ m.take n, ∀ y ∈ m, f y = f x → y = x) : l.take n = m.take n := by
  have hkeys := map_eq_of_perm hperm hl hm
  apply List.ext_getElem
  · simp [hperm.length_eq]
  · intro i hi hi'
    have hil : i < l.length := by
      rw [List.length_take] at hi
      omega
    have him : i < m.length := hperm.length_eq ▸ hil
    rw [List.getElem_take, List.getElem_take]
    apply hn
    · rw [← List.getElem_take (h := hi')]
      exact List.getElem_mem hi'
    · exact hperm.mem_iff.mp (List.getElem_mem hil)
    · have h := congrArg (fun k => k[i]?) hkeys
      simpa [hil, him] using h

theorem eq_of_perm {l m : List α} (hf : ∀ a ∈ m, ∀ b ∈ m, f a = f b → a = b) (hperm : l.Perm m)
    (hl : l.Pairwise fun a b => f a ≤ f b) (hm : m.Pairwise fun a b => f a ≤ f b) : l = m :=
  hperm.eq_of_pairwise
    (fun a b ha hb hab hba => hf a (hperm.mem_iff.mp ha) b hb (le_antisymm hab hba)) hl hm

theorem countP_lt_of_mem_take (hl : l.Pairwise fun a b => f a ≤ f b)
    (hx : x ∈ l.take n) : l.countP (fun y => decide (f y < f x)) < n := by
  obtain ⟨i, hi, rfl⟩ := List.getElem_of_mem hx
  rw [List.getElem_take]
  have hil : i < l.length := by
    rw [List.length_take] at hi
    omega
  have hdrop : (l.drop i).countP (fun y => decide (f y < f l[i])) = 0 := by
    rw [List.countP_eq_zero]
    intro y hy
    rw [List.drop_eq_getElem_cons hil] at hy
    have hs := hl.sublist (List.drop_sublist i l)
    rw [List.drop_eq_getElem_cons hil, List.pairwise_cons] at hs
    rcases List.mem_cons.mp hy with rfl | hy
    · simp
    · simpa using hs.1 y hy
  have htake : (l.take i).countP (fun y => decide (f y < f l[i])) ≤ i :=
    le_trans List.countP_le_length (List.length_take_le i l)
  have hsum := @List.countP_append _ (fun y => decide (f y < f l[i])) (l.take i) (l.drop i)
  rw [List.take_append_drop] at hsum
  rw [List.length_take] at hi
  omega

theorem exists_split (hl : l.Pairwise fun a b => f a ≤ f b) (k : β) :
    ∃ A B C, l = A ++ B ++ C ∧ (∀ a ∈ A, f a < k) ∧ (∀ b ∈ B, f b = k) ∧ ∀ c ∈ C, k < f c := by
  induction l with
  | nil => exact ⟨[], [], [], rfl, by simp, by simp, by simp⟩
  | cons x l ih =>
    obtain ⟨hx, hrest⟩ := List.pairwise_cons.mp hl
    rcases lt_trichotomy (f x) k with hlt | heq | hgt
    · obtain ⟨A, B, C, rfl, hA, hB, hC⟩ := ih hrest
      exact ⟨x :: A, B, C, rfl, List.forall_mem_cons.mpr ⟨hlt, hA⟩, hB, hC⟩
    · obtain ⟨A, B, C, rfl, hA, hB, hC⟩ := ih hrest
      -- nothing behind `x` is below the key
      have hnil : A = [] := by
        refine List.eq_nil_iff_forall_not_mem.mpr fun y hy => ?_
        have hle := hx y (by simp [hy])
        rw [heq] at hle
        exact absurd (hA y hy) (not_lt.mpr hle)
      subst hnil
      exact ⟨[], x :: B, C, rfl, by simp, List.forall_mem_cons.mpr ⟨heq, hB⟩, hC⟩
    · exact ⟨[], [], x :: l, rfl, by simp, by simp,
        List.forall_mem_cons.mpr ⟨hgt, fun y hy => lt_of_lt_of_le hgt (hx y hy)⟩⟩

omit [LinearOrder β] in
theorem filter_split [DecidableEq β] {A B C : List α} (hA : ∀ a ∈ A, f a ≠ k) (hB : ∀ b ∈ B, f b = k)
    (hC : ∀ c ∈ C, f c ≠ k) : (A ++ B ++ C).filter (fun a => f a = k) = B := by
  have hA0 : (A.filter fun a => f a = k) = [] := List.filter_eq_nil_iff.mpr (by simpa using hA)
  have hB0 : (B.filter fun a => f a = k) = B := List.filter_eq_self.mpr (by simpa using hB)
  have hC0 : (C.filter fun a => f a = k) = [] := List.filter_eq_nil_iff.mpr (by simpa using hC)
  rw [List.filter_append, List.filter_append, hA0, hB0, hC0, List.nil_append, List.append_nil]

theorem getElem?_middle {A B C : List α} (hi : i < B.length) : (A ++ B ++ C)[A.length + i]? = B[i]? := by
  rw [List.append_assoc, List.getElem?_append_right (Nat.le_add_right _ _), Nat.add_sub_cancel_left,
    List.getElem?_append_left hi]

omit [LinearOrder β] in
theorem exists_middle {A B C : List α} (hA : ∀ a ∈ A, f a ≠ k) (hC : ∀ c ∈ C, f c ≠ k)
    (hi : (A ++ B ++ C)[i]? = some x) (hx : f x = k) : ∃ j < B.length, i = A.length + j := by
  rcases Nat.lt_or_ge i A.length with hlt | hge
  · rw [List.append_assoc, List.getElem?_append_left hlt] at hi
    exact absurd hx (hA x (List.mem_of_getElem? hi))
  · obtain ⟨j, rfl⟩ := Nat.exists_eq_add_of_le hge
    refine ⟨j, ?_, rfl⟩
    by_contra hj
    rw [List.append_assoc, List.getElem?_append_right hge, Nat.add_sub_cancel_left,
      List.getElem?_append_right (by omega)] at hi
    exact absurd hx (hC x (List.mem_of_getElem? hi))

theorem pairwise_swap {pre post : List α} (hxy : f x = f y)
    (h : (pre ++ x :: y :: post).Pairwise fun a b => f a ≤ f b) :
    (pre ++ y :: x :: post).Pairwise fun a b => f a ≤ f b := by
  simp only [List.pairwise_append, List.pairwise_cons, List.mem_cons, forall_eq_or_imp] at h ⊢
  obtain ⟨hpre, ⟨⟨-, hx⟩, hy, hpost⟩, hcross⟩ := h
  refine ⟨hpre, ⟨⟨le_of_eq hxy.symm, hy⟩, hx, hpost⟩, fun a ha => ?_⟩
  obtain ⟨hax, hay, hap⟩ := hcross a ha
  exact ⟨hay, hax, hap⟩

/-- Two elements with one key, and fewer than `n` elements below them: neighbours with one key
are found among the first. -/
theorem exists_neighbours (hl : l.Pairwise fun a b => f a ≤ f b) (hx : x ∈ l)
    (hy : y ∈ l) (hxy : x ≠ y) (hf : f y = f x) :
    ∃ pre a b post, l = pre ++ a :: b :: post ∧ f a = f b ∧
      pre.length ≤ l.countP fun z => decide (f z < f x) := by
  have hsplit := List.takeWhile_append_dropWhile (p := fun z => decide (f z < f x)) (l := l)
  have hmem : ∀ z ∈ l, f z = f x → z ∈ l.dropWhile fun z => decide (f z < f x) := by
    intro z hz hfz
    rw [← hsplit] at hz
    rcases List.mem_append.mp hz with hz | hz
    · have := List.mem_takeWhile_imp hz
      simp [hfz] at this
    · exact hz
  have hlen : (l.takeWhile fun z => decide (f z < f x)).length ≤ l.countP fun z => decide (f z < f x) := by
    have h := (List.takeWhile_sublist (l := l) fun z => decide (f z < f x)).countP_le
      (p := fun z => decide (f z < f x))
    rwa [List.countP_eq_length.mpr fun z hz => by simpa using List.mem_takeWhile_imp hz] at h
  have hnot := List.head_dropWhile_not (l := l) fun z => decide (f z < f x)
  have hsorted := hl.sublist (List.dropWhile_sublist fun z => decide (f z < f x))
  have hxm := hmem x hx rfl
  have hym := hmem y hy hf
  generalize hd : (l.dropWhile fun z => decide (f z < f x)) = d at *
  match d, hxm, hym with
  | [a], hxm, hym =>
    rw [List.mem_singleton] at hxm hym
    exact absurd (hxm.trans hym.symm) hxy
  | a :: b :: post, hxm, hym =>
    refine ⟨_, a, b, post, hsplit.symm, ?_, hlen⟩
    -- no element from `a` on is below `x`, and one that is not `a` has its key
    have ha : f x ≤ f a := not_lt.mp (decide_eq_false_iff_not.mp (hnot (by simp)))
    have hab : f a ≤ f b := List.rel_of_pairwise_cons hsorted (by simp)
    have hb : f b ≤ f x := by
      have hle : ∀ z ∈ a :: b :: post, z ≠ a → f b ≤ f z := by
        intro z hz hza
        rcases List.mem_cons.mp hz with rfl | hz
        · exact absurd rfl hza
        · rcases List.mem_cons.mp hz with rfl | hz
          · exact le_rfl
          · exact List.rel_of_pairwise_cons (List.pairwise_cons.mp hsorted).2 hz
      by_cases hxa : x = a
      · exact hf ▸ hle y hym (hxa ▸ hxy.symm)
      · exact hle x hxm hxa
    exact le_antisymm hab (le_trans hb ha)

theorem const_of_take_eq_drop {l : List β} (hl : l.Pairwise (· ≤ ·)) {k : ℕ} (hn : 0 < n) (hk : 0 < k)
    (hlen : n + k = l.length) (h : l.take n = l.drop k) : ∀ x ∈ l, ∀ y ∈ l, x = y := by
  have hpos : 0 < l.length := by omega
  have hstep : ∀ j (hj : j < l.length) (hjk : j + k < l.length), l[j] = l[j + k] := by
    intro j hj hjk
    have hget := congrArg (fun m => m[j]?) h
    simp only [List.getElem?_take, show j < n by omega, if_true, List.getElem?_drop] at hget
    rw [List.getElem?_eq_getElem hj, Nat.add_comm, List.getElem?_eq_getElem hjk] at hget
    exact Option.some.inj hget
  have hle := List.pairwise_iff_getElem.mp hl
  have hconst : ∀ i (hi : i < l.length), l[i] = l[0] := by
    intro i
    induction i using Nat.strong_induction_on with
    | _ i ih =>
      intro hi
      by_cases hik : i < k
      · apply le_antisymm
        · have h0 := hstep 0 hpos (by omega)
          simp only [Nat.zero_add] at h0
          rw [h0]
          exact hle i k hi (by omega) hik
        · rcases Nat.eq_zero_or_pos i with rfl | hi0
          · exact le_rfl
          · exact hle 0 i hpos hi hi0
      · have hs := hstep (i - k) (by omega) (by omega)
        simp only [Nat.sub_add_cancel (not_lt.mp hik)] at hs
        rw [← hs]
        exact ih (i - k) (by omega) (by omega)
  intro x hx y hy
  obtain ⟨i, hi, rfl⟩ := List.getElem_of_mem hx
  obtain ⟨j, hj, rfl⟩ := List.getElem_of_mem hy
  rw [hconst i hi, hconst j hj]

theorem filter_eq_take_countP (hl : l.Pairwise fun a b => f a ≤ f b) (t : β) :
    l.filter (fun a => decide (f a ≤ t)) = l.take (l.countP fun a => decide (f a ≤ t)) := by
  induction l with
  | nil => rfl
  | cons a l ih =>
    obtain ⟨ha, hl⟩ := List.pairwise_cons.mp hl
    by_cases hat : f a ≤ t
    · rw [List.filter_cons_of_pos (by simpa using hat), List.countP_cons_of_pos (by simpa using hat),
        List.take_succ_cons, ih hl]
    · have hnone : ∀ b ∈ l, ¬ f b ≤ t := fun b hb hbt => hat (le_trans (ha b hb) hbt)
      rw [List.filter_cons_of_neg (by simpa using hat), List.countP_cons_of_neg (by simpa using hat),
        List.countP_eq_zero.mpr (by simpa using hnone), List.take_zero, List.filter_eq_nil_iff]
      simpa using hnone

/-- Where no two neighbours with one key are cut apart, every order of the elements has the
same elements behind the cut. -/
theorem perm_drop_of_countP (hperm : l.Perm m) (hl : l.Pairwise fun a b => f a ≤ f b)
    (hm : m.Pairwise fun a b => f a ≤ f b) (t : β) :
    (l.drop (m.countP fun a => decide (f a ≤ t))).Perm (m.drop (m.countP fun a => decide (f a ≤ t))) := by
  have hfilter := hperm.filter fun a => decide (f a ≤ t)
  rw [filter_eq_take_countP hl, filter_eq_take_countP hm, hperm.countP_eq] at hfilter
  generalize (m.countP fun a => decide (f a ≤ t)) = c at *
  have hboth := hperm
  rw [← List.take_append_drop c l, ← List.take_append_drop c m] at hboth
  exact (List.perm_append_left_iff _).mp ((hfilter.append_right _).symm.trans hboth)

theorem countP_take (hl : l.Pairwise fun a b => f a ≤ f b) (t : β) (hn : (l.countP fun a => decide (f a ≤ t)) ≤ n) :
    (l.take n).countP (fun a => decide (f a ≤ t)) = l.countP fun a => decide (f a ≤ t) := by
  apply le_antisymm ((List.take_sublist n l).countP_le)
  have hsub : (l.filter fun a => decide (f a ≤ t)).Sublist (l.take n) := by
    rw [filter_eq_take_countP hl]
    exact List.take_sublist_take_left hn
  calc l.countP (fun a => decide (f a ≤ t))
      = (l.filter fun a => decide (f a ≤ t)).countP (fun a => decide (f a ≤ t)) := by
        rw [List.countP_filter]
        simp
    _ ≤ (l.take n).countP (fun a => decide (f a ≤ t)) := hsub.countP_le

theorem countP_le_of_ne (hl : l.Pairwise fun a b => f a ≤ f b) (hi : i + 1 < l.length)
    (hne : f l[i] ≠ f l[i + 1]) : (l.countP fun a => decide (f a ≤ f l[i])) = i + 1 := by
  have hle := List.pairwise_iff_getElem.mp hl
  have hlt : f l[i] < f l[i + 1] := lt_of_le_of_ne (hle i (i + 1) (by omega) hi (by omega)) hne
  have hsum := @List.countP_append _ (fun a => decide (f a ≤ f l[i])) (l.take (i + 1)) (l.drop (i + 1))
  rw [List.take_append_drop] at hsum
  have htake : (l.take (i + 1)).countP (fun a => decide (f a ≤ f l[i])) = i + 1 := by
    rw [List.countP_eq_length.mpr, List.length_take]
    · omega
    · intro a ha
      obtain ⟨j, hj, rfl⟩ := List.getElem_of_mem ha
      rw [List.length_take] at hj
      rw [List.getElem_take, decide_eq_true_eq]
      rcases Nat.eq_or_lt_of_le (show j ≤ i by omega) with rfl | hji
      · exact le_rfl
      · exact hle j i (by omega) (by omega) hji
  have hdrop : (l.drop (i + 1)).countP (fun a => decide (f a ≤ f l[i])) = 0 := by
    rw [List.countP_eq_zero]
    intro a ha
    obtain ⟨j, hj, rfl⟩ := List.getElem_of_mem ha
    rw [List.length_drop] at hj
    rw [List.getElem_drop, decide_eq_true_eq, not_le]
    rcases Nat.eq_zero_or_pos j with rfl | hj0
    · exact hlt
    · exact lt_of_lt_of_le hlt (hle (i + 1) (i + 1 + j) hi (by omega) (by omega))
  omega

theorem neighbours_ne_iff (hl : l.Pairwise fun a b => f a ≤ f b) (hi : i + 1 < l.length) :
    f l[i] ≠ f l[i + 1] ↔ ∀ x ∈ l, (l.countP fun a => decide (f a < f x)) < i + 1 →
      (l.countP fun a => decide (f a ≤ f x)) ≤ i + 1 := by
  constructor
  · intro hne x hx hlt
    by_contra hgt
    have hcount := countP_le_of_ne hl hi hne
    have hx' : f l[i] < f x := by
      by_contra hle
      have := List.countP_mono_left (l := l) (p := fun a => decide (f a ≤ f x))
        (q := fun a => decide (f a ≤ f l[i])) fun a _ ha => by
          simpa using le_trans (by simpa using ha) (not_lt.mp hle)
      omega
    have := List.countP_mono_left (l := l) (p := fun a => decide (f a ≤ f l[i]))
      (q := fun a => decide (f a < f x)) fun a _ ha => by
        simpa using lt_of_le_of_lt (by simpa using ha) hx'
    omega
  · intro h heq
    have hmem : l[i] ∈ l.take (i + 1) := List.mem_take_iff_getElem.mpr ⟨i, by omega, rfl⟩
    have hcount := h l[i] (List.getElem_mem _) (countP_lt_of_mem_take hl hmem)
    have hall : (l.take (i + 2)).countP (fun a => decide (f a ≤ f l[i])) = i + 2 := by
      rw [List.countP_eq_length.mpr, List.length_take]
      · omega
      · intro a ha
        obtain ⟨j, hj, rfl⟩ := List.getElem_of_mem ha
        rw [List.length_take] at hj
        rw [List.getElem_take, decide_eq_true_eq, heq]
        rcases Nat.eq_or_lt_of_le (show j ≤ i + 1 by omega) with rfl | hji
        · exact le_rfl
        · exact List.pairwise_iff_getElem.mp hl j (i + 1) (by omega) hi hji
    have := (List.take_sublist (i + 2) l).countP_le (p := fun a => decide (f a ≤ f l[i]))
    omega

end Key

end MnoGoSearch.Lib.Sorting
