import Mathlib

/-!
# Orders by several keys

A sort by keys leaves elements with equal keys in any order. `WeakOrder r` says that `r` tells which of two elements
has to stand first, by one key or by several: `WeakOrder.lex` is the order by one key and then by others.
-/

namespace MnoGoSearch.Lib.Keys

variable {α β : Type}

/-- Elements that `r` does not tell apart are tied, and ties are transitive. -/
structure WeakOrder (r : α → α → Prop) : Prop where
  /-- No two elements have to stand in front of each other. -/
  asymm : ∀ {x y}, r x y → ¬r y x
  /-- What need not stand in front of what need not stand in front. -/
  negTrans : ∀ {x y z}, ¬r x y → ¬r y z → ¬r x z

/-- First by `r`; those that are tied by `s`. -/
def Lex (r s : α → α → Prop) (x y : α) : Prop := r x y ∨ ¬r y x ∧ s x y

theorem WeakOrder.of_key [LinearOrder β] (f : α → β) : WeakOrder fun x y => f x < f y where
  asymm h := not_lt_of_gt h
  negTrans hxy hyz := not_lt_of_ge ((le_of_not_gt hyz).trans (le_of_not_gt hxy))

theorem WeakOrder.swap {r : α → α → Prop} (h : WeakOrder r) : WeakOrder fun x y => r y x where
  asymm hyx := h.asymm hyx
  negTrans hyx hzy := h.negTrans hzy hyx

theorem WeakOrder.empty : WeakOrder fun _ _ : α => False := ⟨fun h => h.elim, fun _ _ h => h⟩

/-- **By one order, and then by another.** -/
theorem WeakOrder.lex {r s : α → α → Prop} (hr : WeakOrder r) (hs : WeakOrder s) : WeakOrder (Lex r s) where
  asymm := by
    rintro x y (hxy | ⟨hnyx, hsxy⟩) (hyx | ⟨hnxy, hsyx⟩)
    · exact hr.asymm hxy hyx
    · exact hnxy hxy
    · exact hnyx hyx
    · exact hs.asymm hsxy hsyx
  negTrans := by
    rintro x y z hxy hyz (hxz | ⟨hnzx, hsxz⟩)
    · exact hr.negTrans (fun h => hxy (.inl h)) (fun h => hyz (.inl h)) hxz
    · have hnxy : ¬r x y := fun h => hxy (.inl h)
      have hnyz : ¬r y z := fun h => hyz (.inl h)
      -- the keys of `r` are tied, so those of `s` decide
      have hnyx : ¬r y x := hr.negTrans hnyz hnzx
      have hnzy : ¬r z y := hr.negTrans hnzx hnxy
      have hsxy : ¬s x y := fun h => hxy (.inr ⟨hnyx, h⟩)
      have hsyz : ¬s y z := fun h => hyz (.inr ⟨hnzy, h⟩)
      exact hs.negTrans hsxy hsyz hsxz

end MnoGoSearch.Lib.Keys
