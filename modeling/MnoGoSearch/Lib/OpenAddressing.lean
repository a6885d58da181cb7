import Mathlib.Data.Finset.Card
import Mathlib.Data.Finset.Range
import Mathlib.Logic.Function.Basic
import Mathlib.Order.Nat
import Mathlib.Order.WellFounded
import Mathlib.Data.Nat.Find

/-!
# Hash tables with open addressing

A table of `n` slots with linear probing. A slot whose key is 0 is free; an element goes to
the first free slot from `key % n` on, and is joined to an element of the same key that it
meets on the way. Elements are never taken out.

`putAll_spec` describes the table after any sequence of insertions that leaves a slot free:
every key that occurred has one slot, which holds the join of its elements in the order of
their insertion, and all other slots are free.
-/

namespace MnoGoSearch.Lib.OpenAddressing

variable {α : Type} (key : α → ℕ) (join : α → α → α)

/-- The first position from `pos` on, among `fuel`, that is free or holds key `k`. -/
def probe (slot : ℕ → α) (n k : ℕ) : ℕ → ℕ → Option ℕ
  | 0, _ => none
  | fuel + 1, pos =>
    if key (slot pos) = 0 ∨ key (slot pos) = k then some pos else probe slot n k fuel ((pos + 1) % n)

/-- Insert an element. A full table that does not hold the key stays as it is. -/
def put (n : ℕ) (slot : ℕ → α) (a : α) : ℕ → α :=
  match probe key slot n (key a) n (key a % n) with
  | none => slot
  | some pos => Function.update slot pos (if key (slot pos) = 0 then a else join (slot pos) a)

/-- Insert elements one after another. -/
def putAll (n : ℕ) (slot : ℕ → α) (l : List α) : ℕ → α := l.foldl (put key join n) slot

/-- The join of a list of elements, from the left. -/
def joinAll : List α → Option α
  | [] => none
  | a :: l => some (l.foldl join a)

theorem joinAll_concat (l : List α) (a : α) :
    joinAll join (l ++ [a]) = some ((joinAll join l).elim a fun b => join b a) := by
  cases l with
  | nil => rfl
  | cons b l => simp [joinAll, List.foldl_append]

/-- Key `k` is found from its home position on: it has a slot, and the slots before it on the
way are taken by other keys. -/
def Found (slot : ℕ → α) (n k : ℕ) : Prop :=
  ∃ d < n, key (slot ((k + d) % n)) = k ∧ ∀ i < d, key (slot ((k + i) % n)) ≠ 0 ∧ key (slot ((k + i) % n)) ≠ k

/-- The state of the table after the insertion of `l`. -/
structure Holds (n : ℕ) (slot : ℕ → α) (l : List α) : Prop where
  /-- A taken slot holds the join of the elements of its key. -/
  content : ∀ p < n, key (slot p) ≠ 0 →
    some (slot p) = joinAll join (l.filter fun a => key a = key (slot p))
  /-- Every key inserted can be found. -/
  found : ∀ a ∈ l, Found key slot n (key a)
  inj : ∀ p < n, ∀ q < n, key (slot p) ≠ 0 → key (slot p) = key (slot q) → p = q
  /-- There are no more taken slots than insertions. -/
  card : ((Finset.range n).filter fun p => key (slot p) ≠ 0).card ≤ l.length

/-! ### Probing -/

variable {key join} {n : ℕ} {slot : ℕ → α}

theorem probe_eq_some {k d : ℕ} (hd : d < n) (hstop : key (slot ((k + d) % n)) = 0 ∨ key (slot ((k + d) % n)) = k)
    (hwalk : ∀ i < d, key (slot ((k + i) % n)) ≠ 0 ∧ key (slot ((k + i) % n)) ≠ k) :
    probe key slot n k n (k % n) = some ((k + d) % n) := by
  suffices h : ∀ fuel i, i ≤ d → d - i < fuel → probe key slot n k fuel ((k + i) % n) = some ((k + d) % n) from
    h n 0 (Nat.zero_le d) (by omega)
  intro fuel
  induction fuel with
  | zero => intro i _ h; omega
  | succ fuel ih =>
    intro i hi hfuel
    rw [probe]
    rcases Nat.eq_or_lt_of_le hi with rfl | hlt
    · rw [if_pos hstop]
    · have hw := hwalk i hlt
      rw [if_neg (by tauto), Nat.mod_add_mod, Nat.add_assoc]
      exact ih (i + 1) hlt (by omega)

theorem exists_offset (k : ℕ) {p : ℕ} (hp : p < n) : ∃ d < n, (k + d) % n = p := by
  refine ⟨(p + (n - k % n)) % n, Nat.mod_lt _ (by omega), ?_⟩
  have hk : k % n < n := Nat.mod_lt _ (by omega)
  rw [← Nat.mod_add_mod]
  calc (k % n + (p + (n - k % n)) % n) % n = (k % n + (p + (n - k % n))) % n := by rw [Nat.add_mod_mod]
    _ = (p + n) % n := by congr 1; omega
    _ = p := by rw [Nat.add_mod_right, Nat.mod_eq_of_lt hp]

variable {l : List α} {a : α}

/-- While a slot is free, probing for a key ends: at the slot of the key, or, when the table
does not hold it, at a free slot behind slots of other keys. -/
theorem exists_stop (h : Holds key join n slot l) (hlt : l.length < n) (k : ℕ) :
    ∃ d < n, (key (slot ((k + d) % n)) = 0 ∨ key (slot ((k + d) % n)) = k) ∧
      ∀ i < d, key (slot ((k + i) % n)) ≠ 0 ∧ key (slot ((k + i) % n)) ≠ k := by
  have hfree : ∃ p < n, key (slot p) = 0 := by
    by_contra hall
    push Not at hall
    have hfull : (Finset.range n).filter (fun p => key (slot p) ≠ 0) = Finset.range n :=
      Finset.filter_true_of_mem fun p hp => hall p (Finset.mem_range.mp hp)
    have := h.card
    rw [hfull, Finset.card_range] at this
    omega
  obtain ⟨p, hp, hkey⟩ := hfree
  obtain ⟨d, hd, rfl⟩ := exists_offset k hp
  have hex : ∃ d, key (slot ((k + d) % n)) = 0 ∨ key (slot ((k + d) % n)) = k := ⟨d, Or.inl hkey⟩
  classical
  refine ⟨Nat.find hex, lt_of_le_of_lt (Nat.find_min' hex (Or.inl hkey)) hd, Nat.find_spec hex, fun i hi => ?_⟩
  have := Nat.find_min hex hi
  tauto

/-! ### Insertion -/

theorem holds_nil (hempty : ∀ p < n, key (slot p) = 0) : Holds key join n slot [] where
  content p hp h := absurd (hempty p hp) h
  found := by simp
  inj p hp _ _ h := absurd (hempty p hp) h
  card := by
    have : (Finset.range n).filter (fun p => key (slot p) ≠ 0) = ∅ := by
      rw [Finset.filter_eq_empty_iff]
      intro p hp h
      exact h (hempty p (Finset.mem_range.mp hp))
    simp [this]

theorem Found.update {k p : ℕ} {b : α} (h : Found key slot n k) (hk : k ≠ 0)
    (hp : key (slot p) = key b ∨ key (slot p) = 0 ∧ key b ≠ k) : Found key (Function.update slot p b) n k := by
  obtain ⟨d, hd, hkey, hwalk⟩ := h
  have hslot : ∀ q, key (slot q) ≠ 0 → key (Function.update slot p b q) = key (slot q) := by
    intro q hq
    by_cases hqp : q = p
    · subst hqp
      rcases hp with hp | hp
      · rw [Function.update_self, hp]
      · exact absurd hp.1 hq
    · rw [Function.update_of_ne hqp]
  refine ⟨d, hd, ?_, fun i hi => ?_⟩
  · rw [hslot _ (by rw [hkey]; exact hk), hkey]
  · rw [hslot _ (hwalk i hi).1]
    exact hwalk i hi

theorem not_found_of_free {k d : ℕ} (hk : k ≠ 0) (hfree : key (slot ((k + d) % n)) = 0)
    (hwalk : ∀ i < d, key (slot ((k + i) % n)) ≠ 0 ∧ key (slot ((k + i) % n)) ≠ k) : ¬ Found key slot n k := by
  rintro ⟨d', -, hkey, hwalk'⟩
  rcases Nat.lt_trichotomy d d' with hlt | rfl | hlt
  · exact (hwalk' d hlt).1 hfree
  · exact hk (hkey.symm.trans hfree)
  · exact (hwalk d' hlt).2 hkey

theorem Holds.found_of_slot (h : Holds key join n slot l) {q : ℕ} (hq : q < n)
    (hne : key (slot q) ≠ 0) : Found key slot n (key (slot q)) := by
  have hc := h.content q hq hne
  cases hfil : l.filter fun a => key a = key (slot q) with
  | nil =>
    rw [hfil] at hc
    simp [joinAll] at hc
  | cons c rest =>
    have hmem := List.mem_filter.mp (hfil ▸ List.mem_cons_self : c ∈ l.filter fun a => key a = key (slot q))
    exact of_decide_eq_true hmem.2 ▸ h.found c hmem.1

/-- What one insertion does: one slot, free or of the same key, gets the join of all elements
of the key, and it is the only slot of the key. -/
theorem Holds.exists_update (hjoin : ∀ a b, key (join a b) = key a) (h : Holds key join n slot l)
    (hlt : l.length < n) (ha : key a ≠ 0) :
    ∃ p b, p < n ∧ put key join n slot a = Function.update slot p b ∧ key b = key a ∧
      (key (slot p) = 0 ∧ ¬ Found key slot n (key a) ∨ key (slot p) = key a) ∧
      (∀ q < n, key (slot q) = key a → q = p) ∧
      some b = joinAll join ((l ++ [a]).filter fun c => key c = key a) ∧
      Found key (Function.update slot p b) n (key a) := by
  obtain ⟨d, hd, hstop, hwalk⟩ := exists_stop h hlt (key a)
  have hprobe := probe_eq_some hd hstop hwalk
  have hpos : (key a + d) % n < n := Nat.mod_lt _ (by omega)
  have hput : put key join n slot a = Function.update slot ((key a + d) % n)
      (if key (slot ((key a + d) % n)) = 0 then a else join (slot ((key a + d) % n)) a) := by
    rw [put, hprobe]
  have hfil : (l ++ [a]).filter (fun c => key c = key a) = l.filter (fun c => key c = key a) ++ [a] := by
    rw [List.filter_append, List.filter_cons_of_pos (by simp), List.filter_nil]
  have hfound : ∀ b, key b = key a → Found key (Function.update slot ((key a + d) % n) b) n (key a) := by
    intro b hb
    refine ⟨d, hd, by rw [Function.update_self, hb], fun i hi => ?_⟩
    have hne : (key a + i) % n ≠ (key a + d) % n := by
      intro heq
      have := hwalk i hi
      rw [heq] at this
      tauto
    rw [Function.update_of_ne hne]
    exact hwalk i hi
  by_cases hfree : key (slot ((key a + d) % n)) = 0
  · have hnot := not_found_of_free ha hfree hwalk
    refine ⟨_, a, hpos, by rw [hput, if_pos hfree], rfl, Or.inl ⟨hfree, hnot⟩, fun q hq hkey => ?_, ?_, hfound a rfl⟩
    · exact absurd (hkey ▸ h.found_of_slot hq (by rw [hkey]; exact ha)) hnot
    · have hnone : l.filter (fun c => key c = key a) = [] := by
        rw [List.filter_eq_nil_iff]
        intro c hc hkey
        exact hnot (of_decide_eq_true hkey ▸ h.found c hc)
      rw [hfil, hnone]
      rfl
  · have hsame := hstop.resolve_left hfree
    refine ⟨_, join (slot ((key a + d) % n)) a, hpos, by rw [hput, if_neg hfree], by rw [hjoin, hsame],
      Or.inr hsame, fun q hq hkey => ?_, ?_, hfound _ (by rw [hjoin, hsame])⟩
    · exact h.inj q hq _ hpos (by rw [hkey]; exact ha) (hkey.trans hsame.symm)
    · have hc := h.content _ hpos hfree
      rw [hsame] at hc
      rw [hfil, joinAll_concat, ← hc, Option.elim_some]

theorem Holds.put (hjoin : ∀ a b, key (join a b) = key a) (h : Holds key join n slot l)
    (hlt : l.length < n) (ha : key a ≠ 0) (hl : ∀ b ∈ l, key b ≠ 0) :
    Holds key join n (put key join n slot a) (l ++ [a]) := by
  obtain ⟨p, b, hp, hput, hb, hold, honly, hnew, hfound⟩ := h.exists_update hjoin hlt ha
  rw [hput]
  have hother : ∀ q < n, q ≠ p → key (slot q) ≠ key a := fun q hq hqp hkey => hqp (honly q hq hkey)
  refine ⟨fun q hq hne => ?_, fun c hc => ?_, fun q hq r hr hne hqr => ?_, ?_⟩
  · by_cases hqp : q = p
    · rw [hqp, Function.update_self, hb]
      exact hnew
    · rw [Function.update_of_ne hqp] at hne ⊢
      rw [List.filter_append, List.filter_cons_of_neg (by simpa using (hother q hq hqp).symm), List.filter_nil,
        List.append_nil]
      exact h.content q hq hne
  · rcases List.mem_append.mp hc with hc | hc
    · by_cases hkey : key c = key a
      · rw [hkey]
        exact hfound
      · refine (h.found c hc).update (hl c hc) ?_
        rcases hold with ⟨hfree, -⟩ | hsame
        · exact Or.inr ⟨hfree, by rw [hb]; exact Ne.symm hkey⟩
        · exact Or.inl (hsame.trans hb.symm)
    · rw [List.mem_singleton] at hc
      rw [hc]
      exact hfound
  · by_cases hqp : q = p
    · by_cases hrp : r = p
      · rw [hqp, hrp]
      · rw [hqp, Function.update_self, Function.update_of_ne hrp, hb] at hqr
        exact absurd hqr.symm (hother r hr hrp)
    · by_cases hrp : r = p
      · rw [hrp, Function.update_self, Function.update_of_ne hqp, hb] at hqr
        exact absurd hqr (hother q hq hqp)
      · rw [Function.update_of_ne hqp] at hne hqr
        rw [Function.update_of_ne hrp] at hqr
        exact h.inj q hq r hr hne hqr
  · have hsub : (Finset.range n).filter (fun q => key (Function.update slot p b q) ≠ 0) ⊆
        insert p ((Finset.range n).filter fun q => key (slot q) ≠ 0) := by
      intro q hq
      obtain ⟨hqn, hqk⟩ := Finset.mem_filter.mp hq
      by_cases hqp : q = p
      · exact Finset.mem_insert.mpr (Or.inl hqp)
      · rw [Function.update_of_ne hqp] at hqk
        exact Finset.mem_insert.mpr (Or.inr (Finset.mem_filter.mpr ⟨hqn, hqk⟩))
    have hcard := Finset.card_le_card hsub
    have hins := Finset.card_insert_le p ((Finset.range n).filter fun q => key (slot q) ≠ 0)
    have := h.card
    rw [List.length_append, List.length_singleton]
    omega

/-- **The table after a sequence of insertions.** -/
theorem putAll_spec (hjoin : ∀ a b, key (join a b) = key a) (hempty : ∀ p < n, key (slot p) = 0)
    (hl : ∀ a ∈ l, key a ≠ 0) (hlen : l.length ≤ n) : Holds key join n (putAll key join n slot l) l := by
  suffices h : ∀ rest pre slot, Holds key join n slot pre → (∀ a ∈ pre ++ rest, key a ≠ 0) →
      (pre ++ rest).length ≤ n → Holds key join n (putAll key join n slot rest) (pre ++ rest) from
    h l [] slot (holds_nil hempty) hl hlen
  intro rest
  induction rest with
  | nil =>
    intro pre slot h _ _
    simpa [putAll] using h
  | cons a rest ih =>
    intro pre slot h hne hlen
    have hput := h.put hjoin (by simp at hlen; omega) (hne a (by simp)) fun b hb => hne b (by simp [hb])
    have hcat : pre ++ a :: rest = pre ++ [a] ++ rest := by simp
    rw [hcat] at hne hlen ⊢
    exact ih (pre ++ [a]) _ hput hne hlen

/-- What holds of all slots at the beginning, of all elements, and of joins of such, holds of
all slots. -/
theorem putAll_forall {P : α → Prop} (hslot : ∀ p, P (slot p)) (hjoin : ∀ a b, P a → P (join a b))
    (hl : ∀ a ∈ l, P a) : ∀ p, P (putAll key join n slot l p) := by
  induction l generalizing slot with
  | nil => exact hslot
  | cons a l ih =>
    refine ih ?_ fun b hb => hl b (List.mem_cons_of_mem _ hb)
    intro p
    rw [put]
    cases probe key slot n (key a) n (key a % n) with
    | none => exact hslot p
    | some pos =>
      by_cases hp : p = pos
      · simp only [hp, Function.update_self]
        split
        · exact hl a List.mem_cons_self
        · exact hjoin _ _ (hslot pos)
      · simp only [Function.update_of_ne hp]
        exact hslot p

end MnoGoSearch.Lib.OpenAddressing
