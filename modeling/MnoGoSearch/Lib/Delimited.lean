import Mathlib.Data.List.Infix
import Mathlib.Data.List.TakeWhile

/-!
# Names in front of a delimiter

A name is read as the longest run of characters of one kind, up to some length, and counts only if a delimiter follows.
The run is the text up to the delimiter exactly where all characters of that text are of the kind and it is short enough.
-/

namespace MnoGoSearch.Lib.Delimited

variable {α : Type*} {f : α → Bool} {k : ℕ}

/-- The run of characters with `f` at the beginning, `k` of them at most. -/
def boundedRun (f : α → Bool) (k : ℕ) (s : List α) : List α := (s.take k).takeWhile f

theorem boundedRun_isPrefix (f : α → Bool) (k : ℕ) (s : List α) : boundedRun f k s <+: s :=
  (List.takeWhile_prefix f).trans (List.take_prefix k s)

theorem length_boundedRun_le (f : α → Bool) (k : ℕ) (s : List α) : (boundedRun f k s).length ≤ k :=
  (List.takeWhile_prefix f).length_le.trans (List.length_take_le k s)

variable {s a n : List α} {d : α}

theorem of_mem_boundedRun {c : α} (h : c ∈ boundedRun f k s) : f c = true := List.mem_takeWhile_imp h

theorem boundedRun_append (hn : ∀ c ∈ n, f c = true) (hlen : n.length ≤ k) (hd : f d = false)
    (rest : List α) : boundedRun f k (n ++ d :: rest) = n := by
  have htake : (n ++ d :: rest).take k = n ++ (d :: rest).take (k - n.length) := by
    rw [List.take_append, List.take_of_length_le hlen]
  rw [boundedRun, htake, List.takeWhile_append_of_pos hn]
  cases k - n.length with
  | zero => simp
  | succ j => simp [hd]

theorem boundedRun_append_of_false {e : α} (he : f e = false) (k : ℕ) (a s : List α) :
    boundedRun f k (a ++ e :: s) = boundedRun f k a := by
  rw [boundedRun, boundedRun]
  induction a generalizing k with
  | nil => cases k <;> simp [he]
  | cons c a ih =>
    cases k with
    | zero => rfl
    | succ k =>
      rw [List.cons_append, List.take_succ_cons, List.take_succ_cons, List.takeWhile_cons, List.takeWhile_cons, ih]

/-- What stands at a place does not change if another character than the one that is asked for follows the text. -/
theorem head_drop_append {e : α} (hed : e ≠ d) (hk : k ≤ a.length) (s : List α) :
    ((a ++ e :: s).drop k).head? = some d ↔ (a.drop k).head? = some d := by
  rw [List.drop_append_of_le_length hk]
  cases a.drop k with
  | nil => simp [hed]
  | cons c t => simp

theorem eq_boundedRun_append (h : (s.drop (boundedRun f k s).length).head? = some d) :
    ∃ t, s = boundedRun f k s ++ d :: t := by
  obtain ⟨t, ht⟩ := boundedRun_isPrefix f k s
  have hdrop {a : List α} (ha : a ++ t = s) : s.drop a.length = t := by
    rw [← ha, List.drop_left]
  rw [hdrop ht] at h
  cases t with
  | nil => exact absurd h (by simp)
  | cons c t =>
    rw [List.head?_cons, Option.some.injEq] at h
    exact ⟨t, by rw [← h, ht]⟩

theorem takeWhile_ne_append [DecidableEq α] (ha : d ∉ a) (s : List α) : (a ++ d :: s).takeWhile (· ≠ d) = a := by
  have hpos : ∀ c ∈ a, decide (c ≠ d) = true := fun c hc => decide_eq_true fun h => ha (h ▸ hc)
  rw [List.takeWhile_append_of_pos hpos, List.takeWhile_cons_of_neg (by simp), List.append_nil]

/-- **The delimiter follows the run** exactly where the text in front of it has only characters of the kind, and is short
enough. -/
theorem head_drop_boundedRun_iff (hd : f d = false) (hn : d ∉ n) (rest : List α) :
    ((n ++ d :: rest).drop (boundedRun f k (n ++ d :: rest)).length).head? = some d ↔
      (∀ c ∈ n, f c = true) ∧ n.length ≤ k := by
  classical
  constructor
  · intro h
    obtain ⟨t, ht⟩ := eq_boundedRun_append h
    have hnot : d ∉ boundedRun f k (n ++ d :: rest) := by
      intro hmem
      rw [of_mem_boundedRun hmem] at hd
      exact Bool.noConfusion hd
    have hval : n = boundedRun f k (n ++ d :: rest) := by
      conv_lhs => rw [← takeWhile_ne_append hn rest, ht]
      exact takeWhile_ne_append hnot t
    rw [hval]
    exact ⟨fun c hc => of_mem_boundedRun hc, length_boundedRun_le f k _⟩
  · rintro ⟨hall, hlen⟩
    rw [boundedRun_append hall hlen hd, List.drop_left, List.head?_cons]

theorem head_drop_ne (h : d ∉ s) (j : ℕ) : (s.drop j).head? ≠ some d := fun hd =>
  h (List.mem_of_mem_drop (List.mem_of_mem_head? hd))

end MnoGoSearch.Lib.Delimited
