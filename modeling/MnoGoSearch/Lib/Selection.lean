import MnoGoSearch.Lib.BinarySearch
import Mathlib

/-!
# Selecting the best

Of a long array the best elements are wanted in order. A sorted array of the best so far is
kept; an element that is not worse than its last one is put into its place, found by halving,
and the last one takes the place of the element. `smaller x y` says that `x` is not better
than `y`. `selectTop_spec` says what is left in the end: the best in order, and behind them
the others.
-/

namespace MnoGoSearch.Lib.Selection

open MnoGoSearch.Lib.BinarySearch

variable {α : Type} (smaller : α → α → Bool)

/-- Offer an element to the best so far: the new best, and what is not among them. -/
def offer (top : List α) (curr : α) : List α × α :=
  match top.getLast? with
  | none => (top, curr)
  | some last =>
    if smaller curr last then (top, curr)
    else
      let right := upperBound (fun middle => smaller curr middle) top.dropLast
      (top.dropLast.take right ++ curr :: top.dropLast.drop right, last)

/-- Offer all elements of an array, one after the other. -/
def selectTop : List α → List α → List α × List α
  | top, [] => (top, [])
  | top, curr :: items =>
    let rest := selectTop (offer smaller top curr).1 items
    (rest.1, (offer smaller top curr).2 :: rest.2)

section Order

variable {smaller} {β : Type} [LinearOrder β] {f : α → β} (hf : ∀ x y, smaller x y = decide (f y ≤ f x))

include hf

variable {top : List α}

/-- One offer: nothing is lost, the best stay in order, and what is not among them is not
better than they are. -/
theorem offer_spec (htop : top.Pairwise fun a b => f a ≤ f b) (curr : α) :
    ((offer smaller top curr).1 ++ [(offer smaller top curr).2]).Perm (top ++ [curr]) ∧
      (offer smaller top curr).1.Pairwise (fun a b => f a ≤ f b) ∧
      (∀ t ∈ (offer smaller top curr).1, f t ≤ f (offer smaller top curr).2) ∧
      (offer smaller top curr).1.length = top.length := by
  rcases List.eq_nil_or_concat top with rfl | ⟨front, last, rfl⟩
  · exact ⟨List.Perm.refl _, List.Pairwise.nil, fun t ht => absurd ht List.not_mem_nil, rfl⟩
  · simp only [List.concat_eq_append] at htop ⊢
    rw [List.pairwise_append] at htop
    obtain ⟨hfront, -, hlast⟩ := htop
    have hlast' : ∀ t ∈ front, f t ≤ f last := fun t ht => hlast t ht last (by simp)
    simp only [offer, List.getLast?_concat, List.dropLast_concat, hf]
    by_cases hcurr : f last ≤ f curr
    · simp only [hcurr, decide_true, if_true]
      refine ⟨List.Perm.refl _, ?_, ?_, trivial⟩
      · exact List.pairwise_append.mpr ⟨hfront, List.pairwise_singleton _ _, hlast⟩
      · intro t ht
        rcases List.mem_append.mp ht with ht | ht
        · exact le_trans (hlast' t ht) hcurr
        · rwa [List.mem_singleton.mp ht]
    · simp only [hcurr, decide_false, Bool.false_eq_true, if_false]
      generalize hr : upperBound (fun middle => decide (f middle ≤ f curr)) front = r
      have hsorted := pairwise_insert_upperBound f curr hfront
      rw [hr] at hsorted
      have hperm : (front.take r ++ curr :: front.drop r).Perm (front ++ [curr]) := by
        have h := @List.perm_middle _ curr (front.take r) (front.drop r)
        rw [List.take_append_drop] at h
        exact h.trans (List.perm_append_singleton curr front).symm
      refine ⟨?_, hsorted, ?_, ?_⟩
      · have h := hperm.append_right [last]
        refine h.trans ?_
        rw [List.append_assoc, List.append_assoc]
        exact (List.Perm.swap last curr []).append_left front
      · intro t ht
        have ht' := hperm.mem_iff.mp ht
        rcases List.mem_append.mp ht' with ht' | ht'
        · exact hlast' t ht'
        · rw [List.mem_singleton.mp ht']
          exact le_of_lt (not_le.mp hcurr)
      · simpa using hperm.length_eq

theorem le_of_mem_offer {curr : α} {b : β} (htop : ∀ t ∈ top, f t ≤ b) :
    ∀ t ∈ (offer smaller top curr).1, f t ≤ b := by
  rcases List.eq_nil_or_concat top with rfl | ⟨front, last, rfl⟩
  · exact htop
  · simp only [List.concat_eq_append] at htop ⊢
    simp only [offer, List.getLast?_concat, List.dropLast_concat, hf]
    by_cases hcurr : f last ≤ f curr
    · simpa only [hcurr, decide_true, if_true] using htop
    · simp only [hcurr, decide_false, Bool.false_eq_true, if_false]
      intro t ht
      rcases List.mem_append.mp ht with ht | ht
      · exact htop t (List.mem_append_left _ (List.mem_of_mem_take ht))
      · rcases List.mem_cons.mp ht with rfl | ht
        · exact le_trans (le_of_lt (not_le.mp hcurr)) (htop last (by simp))
        · exact htop t (List.mem_append_left _ (List.mem_of_mem_drop ht))

theorem le_of_mem_selectTop {top items : List α} {b : β} (htop : ∀ t ∈ top, f t ≤ b) :
    ∀ t ∈ (selectTop smaller top items).1, f t ≤ b := by
  induction items generalizing top with
  | nil => exact htop
  | cons curr items ih => exact ih (le_of_mem_offer hf htop)

/-- **The best in order, and behind them all the others.** -/
theorem selectTop_spec (htop : top.Pairwise fun a b => f a ≤ f b) (items : List α) :
    ((selectTop smaller top items).1 ++ (selectTop smaller top items).2).Perm (top ++ items) ∧
      (selectTop smaller top items).1.Pairwise (fun a b => f a ≤ f b) ∧
      (∀ t ∈ (selectTop smaller top items).1, ∀ r ∈ (selectTop smaller top items).2, f t ≤ f r) ∧
      (selectTop smaller top items).1.length = top.length := by
  induction items generalizing top with
  | nil => exact ⟨List.Perm.refl _, htop, fun t _ r hr => absurd hr List.not_mem_nil, rfl⟩
  | cons curr items ih =>
    obtain ⟨hperm, hsorted, hle, hlen⟩ := offer_spec hf htop curr
    obtain ⟨ihperm, ihsorted, ihle, ihlen⟩ := ih hsorted
    have hreplaced := @le_of_mem_selectTop _ _ _ _ _ hf _ items _ hle
    rw [selectTop]
    generalize offer smaller top curr = o at *
    generalize selectTop smaller o.1 items = s at *
    refine ⟨?_, ihsorted, ?_, ihlen.trans hlen⟩
    · have h : (s.1 ++ o.2 :: s.2).Perm (o.2 :: (o.1 ++ items)) :=
        List.perm_middle.trans (ihperm.cons o.2)
      refine h.trans ?_
      rw [← List.singleton_append, ← List.append_assoc]
      refine ((List.perm_append_comm.trans hperm).append_right items).trans ?_
      rw [List.append_assoc, List.singleton_append]
    · intro t ht r hr
      rcases List.mem_cons.mp hr with rfl | hr
      · exact hreplaced t ht
      · exact ihle t ht r hr

end Order

end MnoGoSearch.Lib.Selection
