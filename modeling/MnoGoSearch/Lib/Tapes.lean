import Mathlib

/-!
# Merging sorted tapes

A tape is what is left of a sorted array, with at least one record. As long as there are two
tapes, the smallest of their first records is written. A tape that is at its end is replaced by
the last tape. `perm_mergeTapes` and `pairwise_mergeTapes` say what is written: every record,
in order.
-/

namespace MnoGoSearch.Lib.Tapes

/-- A tape with at least one record. -/
structure Tape (α : Type) where
  cur : α
  rest : List α
  deriving DecidableEq

variable {α : Type}

/-- All records of a tape. -/
def Tape.toList (t : Tape α) : List α := t.cur :: t.rest

/-- The tape of a list, if it has a record. -/
def ofList : List α → Option (Tape α)
  | [] => none
  | s :: ss => some ⟨s, ss⟩

theorem toList_of_ofList {l : List α} {t : Tape α} (h : ofList l = some t) : t.toList = l := by
  cases l with
  | nil => contradiction
  | cons s ss => exact congrArg Tape.toList (Option.some.inj h).symm

theorem eq_nil_of_ofList {l : List α} (h : ofList l = none) : l = [] := by
  cases l with
  | nil => rfl
  | cons s ss => contradiction

/-- All records of all tapes. -/
def content (ts : List (Tape α)) : List α := ts.flatMap Tape.toList

/-- The tape with the smallest record among `best`, the tape number `min`, and the tapes from `i` on. -/
def minTape (lt : α → α → Bool) (best : Tape α) (min : ℕ) : ℕ → List (Tape α) → Tape α × ℕ
  | _, [] => (best, min)
  | i, t :: ts => if lt t.cur best.cur then minTape lt t i (i + 1) ts else minTape lt best min (i + 1) ts

/-- The tapes after the current record of the tape number `min` is written. -/
def advance (ts : List (Tape α)) (best : Tape α) (min : ℕ) : List (Tape α) :=
  match ofList best.rest with
  | some t => ts.set min t
  | none => (ts.set min (ts.getLast?.getD best)).dropLast

/-! ### The tapes after one record -/

theorem perm_dropLast_set {l : List α} {a : α} (hlast : l.getLast? = some a) {i : ℕ} (hi : i < l.length) :
    (l.set i a).dropLast.Perm (l.eraseIdx i) := by
  obtain ⟨front, rfl⟩ := List.getLast?_eq_some_iff.mp hlast
  rw [List.length_append, List.length_singleton] at hi
  rcases Nat.lt_or_ge i front.length with hlt | hge
  · rw [List.set_append_left _ _ hlt, List.dropLast_concat, List.eraseIdx_append_of_lt_length hlt]
    exact (List.set_perm_cons_eraseIdx hlt a).trans (List.perm_append_singleton a _).symm
  · obtain rfl : i = front.length := by omega
    rw [List.set_append_right _ _ (Nat.le_refl _), List.eraseIdx_append_of_length_le (Nat.le_refl _)]
    simp

theorem mem_content {ts : List (Tape α)} {t : Tape α} {s : α} (ht : t ∈ ts) (hs : s ∈ t.toList) : s ∈ content ts :=
  List.mem_flatMap.mpr ⟨t, ht, hs⟩

theorem perm_advance {ts : List (Tape α)} {best : Tape α} {min : ℕ} (hmin : ts[min]? = some best) :
    (advance ts best min).Perm ((ofList best.rest).toList ++ ts.eraseIdx min) := by
  obtain ⟨hlt, -⟩ := List.getElem?_eq_some_iff.mp hmin
  rw [advance]
  cases ofList best.rest with
  | some t => exact List.set_perm_cons_eraseIdx hlt t
  | none =>
    obtain ⟨a, ha⟩ := Option.isSome_iff_exists.mp
      (List.getLast?_isSome.mpr (List.ne_nil_of_length_pos (Nat.lt_of_le_of_lt (Nat.zero_le min) hlt)))
    rw [ha, Option.getD_some]
    exact perm_dropLast_set ha hlt

theorem content_ofList (l : List α) : content (ofList l).toList = l := by
  cases l with
  | nil => rfl
  | cons s ss => exact List.append_nil _

theorem perm_content_advance {ts : List (Tape α)} {best : Tape α} {min : ℕ} (hmin : ts[min]? = some best) :
    (content ts).Perm (best.cur :: content (advance ts best min)) := by
  obtain ⟨hlt, hget⟩ := List.getElem?_eq_some_iff.mp hmin
  have hts : (content ts).Perm (best.cur :: (best.rest ++ content (ts.eraseIdx min))) := by
    have h := (List.getElem_cons_eraseIdx_perm hlt).symm.flatMap_right Tape.toList
    rwa [hget, List.flatMap_cons] at h
  have hadvance : (content (advance ts best min)).Perm (best.rest ++ content (ts.eraseIdx min)) := by
    have h := (perm_advance hmin).flatMap_right Tape.toList
    rwa [List.flatMap_append, ← content, ← content, ← content, content_ofList] at h
  exact hts.trans (hadvance.symm.cons _)

/-! ### The smallest tape -/

theorem getElem?_minTape_aux (lt : α → α → Bool) {pre : List (Tape α)} (ts : List (Tape α)) {best : Tape α} {min : ℕ}
    (hbest : (pre ++ ts)[min]? = some best) :
    (pre ++ ts)[(minTape lt best min pre.length ts).2]? = some (minTape lt best min pre.length ts).1 := by
  induction ts generalizing pre best min with
  | nil => exact hbest
  | cons t ts ih =>
    have happend : pre ++ t :: ts = (pre ++ [t]) ++ ts := by rw [List.append_assoc, List.singleton_append]
    have hlen : (pre ++ [t]).length = pre.length + 1 := by rw [List.length_append, List.length_singleton]
    rw [minTape, happend, ← hlen]
    split_ifs
    · refine ih ?_
      rw [List.append_assoc, List.getElem?_append_right (Nat.le_refl _), Nat.sub_self]
      rfl
    · exact ih (happend ▸ hbest)

theorem getElem?_minTape (lt : α → α → Bool) (t : Tape α) (ts : List (Tape α)) :
    (t :: ts)[(minTape lt t 0 1 ts).2]? = some (minTape lt t 0 1 ts).1 :=
  @getElem?_minTape_aux α lt [t] ts t 0 rfl

/-- The merge: the smallest current record is written, and the last tape is copied. -/
def mergeTapes (lt : α → α → Bool) : List (Tape α) → List α
  | [] => []
  | [t] => t.toList
  | t :: u :: ts =>
    let m := minTape lt t 0 1 (u :: ts)
    m.1.cur :: mergeTapes lt (advance (t :: u :: ts) m.1 m.2)
termination_by ts => (content ts).length
decreasing_by
  have h := (perm_content_advance (getElem?_minTape lt t (u :: ts))).length_eq
  rw [List.length_cons] at h
  omega

/-! ### What is written -/

theorem perm_mergeTapes (lt : α → α → Bool) (ts : List (Tape α)) : (mergeTapes lt ts).Perm (content ts) := by
  fun_induction mergeTapes lt ts with
  | case1 => exact List.Perm.refl _
  | case2 t => exact List.Perm.of_eq (List.append_nil _).symm
  | case3 t u ts m ih => exact (ih.cons m.1.cur).trans (perm_content_advance (getElem?_minTape lt t (u :: ts))).symm

section

variable {β : Type} [LinearOrder β] {f : α → β} {lt : α → α → Bool} (hlt : ∀ x y, lt x y = decide (f x < f y))

/-- Every tape is in order. -/
def Sorted (f : α → β) (ts : List (Tape α)) : Prop := ∀ t ∈ ts, t.toList.Pairwise fun a b => f a ≤ f b

theorem Sorted.advance {ts : List (Tape α)} (h : Sorted f ts) {best : Tape α} {min : ℕ}
    (hmin : ts[min]? = some best) : Sorted f (advance ts best min) := by
  intro t ht
  rcases List.mem_append.mp ((perm_advance hmin).mem_iff.mp ht) with ht | ht
  · have hbest := h best (List.mem_of_getElem? hmin)
    rw [Tape.toList, List.pairwise_cons] at hbest
    rw [toList_of_ofList (Option.mem_toList.mp ht)]
    exact hbest.2
  · exact h t (List.mem_of_mem_eraseIdx ht)

theorem le_content {ts : List (Tape α)} (h : Sorted f ts) {b : β} (hb : ∀ t ∈ ts, b ≤ f t.cur) :
    ∀ s ∈ content ts, b ≤ f s := by
  intro s hs
  obtain ⟨t, ht, hs⟩ := List.mem_flatMap.mp hs
  rcases List.mem_cons.mp hs with rfl | hs
  · exact hb t ht
  · exact (hb t ht).trans (List.rel_of_pairwise_cons (h t ht) hs)

include hlt

theorem minTape_le (ts : List (Tape α)) (best : Tape α) (min i : ℕ) :
    f (minTape lt best min i ts).1.cur ≤ f best.cur ∧ ∀ t ∈ ts, f (minTape lt best min i ts).1.cur ≤ f t.cur := by
  induction ts generalizing best min i with
  | nil => exact ⟨le_rfl, fun t ht => absurd ht List.not_mem_nil⟩
  | cons t ts ih =>
    rw [minTape, hlt]
    split_ifs with ht
    · obtain ⟨h1, h2⟩ := ih t i (i + 1)
      exact ⟨h1.trans (of_decide_eq_true ht).le, List.forall_mem_cons.mpr ⟨h1, h2⟩⟩
    · obtain ⟨h1, h2⟩ := ih best min (i + 1)
      have hle : f best.cur ≤ f t.cur := not_lt.mp fun h => ht (decide_eq_true h)
      exact ⟨h1, List.forall_mem_cons.mpr ⟨h1.trans hle, h2⟩⟩

/-- **The records are written in order.** -/
theorem pairwise_mergeTapes {ts : List (Tape α)} (h : Sorted f ts) :
    (mergeTapes lt ts).Pairwise fun a b => f a ≤ f b := by
  fun_induction mergeTapes lt ts with
  | case1 => exact List.Pairwise.nil
  | case2 t => exact h t List.mem_cons_self
  | case3 t u ts m ih =>
    have hmin := getElem?_minTape lt t (u :: ts)
    refine List.pairwise_cons.mpr ⟨fun s hs => ?_, ih (h.advance hmin)⟩
    have hle := minTape_le hlt (u :: ts) t 0 1
    refine le_content h (List.forall_mem_cons.mpr hle) s ?_
    rw [(perm_content_advance hmin).mem_iff]
    exact List.mem_cons_of_mem _ ((perm_mergeTapes lt _).mem_iff.mp hs)

end

end MnoGoSearch.Lib.Tapes
