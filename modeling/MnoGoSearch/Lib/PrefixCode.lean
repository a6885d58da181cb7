import Mathlib

/-!
# Codes for lists of numbers

A list is written as the codes of its elements one after another, and read back by taking
one code after another from the front. `Code get put` says that a reader `get` recognises
the codes of `put` whatever follows them; then `scan` and `scanN` read back whole lists.

Ascending numbers are written as differences: `deltas` and `sums` are inverse to each other.
-/

namespace MnoGoSearch.Lib.PrefixCode

section Scan

variable {α β γ : Type}

/-- Read values until the string ends or no value can be read. A reader returns a value and
how many symbols it took. -/
def scan (get : List β → Option (γ × ℕ)) : ℕ → List β → List γ
  | 0, _ => []
  | fuel + 1, s =>
    if s.isEmpty then []
    else
      match get s with
      | none => []
      | some (v, n) => v :: scan get fuel (s.drop n)

/-- Read this many values; what is left of the string. -/
def scanN (get : List β → Option (γ × ℕ)) : ℕ → List β → Option (List γ × List β)
  | 0, s => some ([], s)
  | n + 1, s =>
    match get s with
    | none => none
    | some (v, k) => (scanN get n (s.drop k)).map fun r => (v :: r.1, r.2)

/-- `get` reads what `put` has written, whatever follows it, as the value `val`. -/
structure Code (get : List β → Option (γ × ℕ)) (put : α → List β) (val : α → γ) (Valid : α → Prop) : Prop where
  ne_nil : ∀ {a}, Valid a → put a ≠ []
  /-- A code is read, and no more than that. -/
  get_put : ∀ {a}, Valid a → ∀ rest, get (put a ++ rest) = some (val a, (put a).length)

variable {get : List β → Option (γ × ℕ)} {put : α → List β} {val : α → γ} {Valid : α → Prop} {l : List α}

theorem length_flatMap_pos (h : Code get put val Valid) {a : α} (ha : Valid a) : 0 < (put a).length :=
  List.length_pos_iff.mpr (h.ne_nil ha)

theorem scan_flatMap (h : Code get put val Valid) (hl : ∀ a ∈ l, Valid a) {fuel : ℕ}
    (hfuel : (l.flatMap put).length ≤ fuel) : scan get fuel (l.flatMap put) = l.map val := by
  induction l generalizing fuel with
  | nil => cases fuel <;> rfl
  | cons a l ih =>
    have ha : Valid a := hl a (by simp)
    have hpos := length_flatMap_pos h ha
    rw [List.flatMap_cons, List.length_append] at hfuel
    cases fuel with
    | zero => omega
    | succ fuel =>
      have hne : ((a :: l).flatMap put).isEmpty = false := by
        simp [List.flatMap_cons, h.ne_nil ha]
      rw [scan, hne, List.flatMap_cons, h.get_put ha]
      simp only [Bool.false_eq_true, if_false, List.drop_left, List.map_cons]
      rw [ih (fun b hb => hl b (by simp [hb])) (by omega)]

theorem scanN_flatMap (h : Code get put val Valid) (hl : ∀ a ∈ l, Valid a) (rest : List β) :
    scanN get l.length (l.flatMap put ++ rest) = some (l.map val, rest) := by
  induction l with
  | nil => rfl
  | cons a l ih =>
    rw [List.length_cons, scanN, List.flatMap_cons, List.append_assoc, h.get_put (hl a (by simp))]
    simp only [List.drop_left]
    rw [ih fun b hb => hl b (by simp [hb])]
    rfl

end Scan

section Differences

/-- The differences of neighbours, beginning at `p`. -/
def deltas : ℕ → List ℕ → List ℕ
  | _, [] => []
  | p, x :: l => (x - p) :: deltas x l

/-- The running sums, beginning at `p`. -/
def sums : ℕ → List ℕ → List ℕ
  | _, [] => []
  | p, d :: l => (p + d) :: sums (p + d) l

@[simp] theorem length_deltas (p : ℕ) (l : List ℕ) : (deltas p l).length = l.length := by
  induction l generalizing p with
  | nil => rfl
  | cons x l ih => rw [deltas, List.length_cons, ih, List.length_cons]

@[simp] theorem length_sums (p : ℕ) (l : List ℕ) : (sums p l).length = l.length := by
  induction l generalizing p with
  | nil => rfl
  | cons d l ih => rw [sums, List.length_cons, ih, List.length_cons]

variable {p : ℕ} {l : List ℕ}

theorem sums_deltas (h : (p :: l).Pairwise (· ≤ ·)) : sums p (deltas p l) = l := by
  induction l generalizing p with
  | nil => rfl
  | cons x l ih =>
    have hx : p ≤ x := (List.pairwise_cons.mp h).1 x (by simp)
    rw [deltas, sums, Nat.add_sub_cancel' hx, ih (List.pairwise_cons.mp h).2]

theorem sums_append (p : ℕ) (l l' : List ℕ) : sums p (l ++ l') = sums p l ++ sums (p + l.sum) l' := by
  induction l generalizing p with
  | nil => simp [sums]
  | cons d l ih => rw [List.cons_append, sums, ih, sums, List.sum_cons, Nat.add_assoc, List.cons_append]

theorem sum_deltas (h : (p :: l).Pairwise (· ≤ ·)) : p + (deltas p l).sum = (p :: l).getLast (by simp) := by
  induction l generalizing p with
  | nil => simp [deltas]
  | cons x l ih =>
    have hx : p ≤ x := (List.pairwise_cons.mp h).1 x (by simp)
    have hlast := ih (List.pairwise_cons.mp h).2
    rw [deltas, List.sum_cons, List.getLast_cons (by simp), ← hlast]
    omega

theorem mem_deltas (h : (p :: l).Pairwise (· < ·)) {d : ℕ} (hd : d ∈ deltas p l) : 0 < d ∧ ∃ x ∈ l, d ≤ x := by
  induction l generalizing p with
  | nil => simp [deltas] at hd
  | cons x l ih =>
    have hx : p < x := (List.pairwise_cons.mp h).1 x (by simp)
    rw [deltas, List.mem_cons] at hd
    cases hd with
    | inl heq => exact ⟨by omega, x, by simp, by omega⟩
    | inr hd =>
      obtain ⟨hpos, y, hy, hle⟩ := ih (List.pairwise_cons.mp h).2 hd
      exact ⟨hpos, y, by simp [hy], hle⟩

end Differences

end MnoGoSearch.Lib.PrefixCode
