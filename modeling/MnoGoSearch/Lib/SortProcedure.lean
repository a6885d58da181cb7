import MnoGoSearch.Lib.Sorting
import Mathlib.Data.List.FinRange

/-!
# Sorting procedures

A sorting function of the C library sees the elements through the comparison only. A
`SortProc` is such a procedure: from the outcomes of the comparisons of the elements, taken by
their places, it makes a permutation of the places. So it does the same to two arrays whose
comparisons come out alike (`sort_map`), whatever else is in them.
-/

namespace MnoGoSearch.Lib.Sorting

/-- A sorting procedure. `le i j` says that the comparison of the elements at the places `i` and
`j` is not positive. -/
structure SortProc where
  /-- The places in the order of the result. -/
  places : (n : ℕ) → (Fin n → Fin n → Bool) → List (Fin n)
  perm : ∀ n le, (places n le).Perm (List.finRange n)
  /-- In order, if the comparison is one. -/
  sorted : ∀ n le, (∀ i j k, le i j = true → le j k = true → le i k = true) →
    (∀ i j, le i j = true ∨ le j i = true) → (places n le).Pairwise fun i j => le i j = true

namespace SortProc

variable {α β : Type} (P : SortProc)

/-- Sort a list. -/
def sort (le : α → α → Bool) (l : List α) : List α :=
  (P.places l.length fun i j => le (l.get i) (l.get j)).map l.get

theorem perm_sort (le : α → α → Bool) (l : List α) : (P.sort le l).Perm l := by
  have h := (P.perm l.length fun i j => le (l.get i) (l.get j)).map l.get
  rwa [List.map_get_finRange] at h

theorem places_cast {n m : ℕ} (h : n = m) (le : Fin m → Fin m → Bool) :
    P.places n (fun i j => le (i.cast h) (j.cast h)) = (P.places m le).map (Fin.cast h.symm) := by
  subst h
  simp

/-- **Elements that compare alike are sorted alike.** -/
theorem sort_map {le : α → α → Bool} {le' : β → β → Bool} {f : α → β} {l : List α}
    (h : ∀ a ∈ l, ∀ b ∈ l, le' (f a) (f b) = le a b) : P.sort le' (l.map f) = (P.sort le l).map f := by
  have hlen : (l.map f).length = l.length := List.length_map f
  have hget : ∀ i : Fin (l.map f).length, (l.map f).get i = f (l.get (i.cast hlen)) := by
    intro i
    simp
  have hle : (fun i j => le' ((l.map f).get i) ((l.map f).get j)) =
      fun i j => le (l.get (i.cast hlen)) (l.get (j.cast hlen)) := by
    funext i j
    rw [hget, hget, h _ (List.get_mem _ _) _ (List.get_mem _ _)]
  rw [sort, sort, hle, places_cast P hlen fun i j => le (l.get i) (l.get j), List.map_map, List.map_map]
  refine List.map_congr_left fun i _ => ?_
  rw [Function.comp_apply, hget]
  rfl

theorem sort_congr {le le' : α → α → Bool} {l : List α} (h : ∀ a ∈ l, ∀ b ∈ l, le' a b = le a b) :
    P.sort le' l = P.sort le l := by
  have h' := P.sort_map (f := id) h
  rwa [List.map_id, List.map_id] at h'

theorem pairwise_sort {le : α → α → Bool} {l : List α}
    (trans : ∀ a ∈ l, ∀ b ∈ l, ∀ c ∈ l, le a b = true → le b c = true → le a c = true)
    (total : ∀ a ∈ l, ∀ b ∈ l, le a b = true ∨ le b a = true) : (P.sort le l).Pairwise fun a b => le a b = true := by
  rw [sort, List.pairwise_map]
  exact P.sorted l.length (fun i j => le (l.get i) (l.get j))
    (fun i j k => trans _ (l.get_mem i) _ (l.get_mem j) _ (l.get_mem k))
    fun i j => total _ (l.get_mem i) _ (l.get_mem j)

/-- The procedure as a sorting function for one order. -/
def qsort (le : α → α → Prop) [DecidableRel le] (trans : ∀ a b c, le a b → le b c → le a c)
    (total : ∀ a b, le a b ∨ le b a) : QSort le where
  sort := P.sort fun a b => decide (le a b)
  perm := P.perm_sort _
  sorted l := by
    have h := @pairwise_sort _ P (fun a b => decide (le a b)) l
      (fun a _ b _ c _ hab hbc => by simpa using trans _ _ _ (of_decide_eq_true hab) (of_decide_eq_true hbc))
      fun a _ b _ => by simpa using total _ _
    exact List.Pairwise.imp of_decide_eq_true h

/-- Insertion sort of the places, which `start` lists at the beginning. -/
def insertion (start : (n : ℕ) → List (Fin n)) (hstart : ∀ n, (start n).Perm (List.finRange n)) : SortProc where
  places n le := (start n).insertionSort fun i j => le i j = true
  perm n _ := (List.perm_insertionSort _ _).trans (hstart n)
  sorted n le trans total :=
    have : Std.Total fun i j : Fin n => le i j = true := ⟨total⟩
    have : IsTrans (Fin n) fun i j => le i j = true := ⟨trans⟩
    List.pairwise_insertionSort _ _

/-- Equal elements stay in their order. -/
def forward : SortProc := insertion List.finRange fun _ => List.Perm.refl _

/-- Equal elements come in the reverse order. -/
def backward : SortProc := insertion (fun n => (List.finRange n).reverse) fun _ => List.reverse_perm _

theorem forward_sort_pair {le : α → α → Bool} (a b : α) :
    forward.sort le [a, b] = if le a b then [a, b] else [b, a] := by
  change ([0, 1].insertionSort fun i j : Fin 2 => le ([a, b].get i) ([a, b].get j) = true).map [a, b].get = _
  cases h : le a b with
  | true => simp [List.insertionSort, h]
  | false => simp [List.insertionSort, List.orderedInsert, h]

end SortProc

end MnoGoSearch.Lib.Sorting
