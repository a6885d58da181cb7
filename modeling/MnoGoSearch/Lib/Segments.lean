import Mathlib.Data.List.Basic
import Mathlib.Data.List.Infix
import Mathlib.Tactic.Common

/-!
# Segments

A list cut at a separator, as a path is cut at its slashes: `(s.splitOn sep)`. A segment is inside
where a separator stands on both its sides. `Cut` takes segments from the inside, `Trunc` from the
end; what is true of segments is kept by both. `rewriteAll` is the loop that looks for a pattern
with `strstr` and changes the place, until the pattern is gone.
-/

namespace MnoGoSearch.Lib.Segments

variable {α : Type} {sep : α}

/-! ## Taking away -/

/-- What stands between two separators is taken away, with one of them. -/
def Cut (sep : α) (s s' : List α) : Prop := ∃ A Y B, s = A ++ sep :: (Y ++ sep :: B) ∧ s' = A ++ sep :: B

/-- What stands behind a separator is taken away. -/
def Trunc (sep : α) (s s' : List α) : Prop := ∃ A Y, s = A ++ sep :: Y ∧ s' = A ++ [sep]

variable {s : List α}

theorem cut_of_getElem? {k e : ℕ} (hk : s[k]? = some sep) (he : s[e]? = some sep) (hlt : k < e) :
    Cut sep s (s.take k ++ s.drop e) := by
  obtain ⟨hk, hk'⟩ := List.getElem?_eq_some_iff.mp hk
  obtain ⟨he, he'⟩ := List.getElem?_eq_some_iff.mp he
  have hdrop : s.drop e = sep :: s.drop (e + 1) := by rw [List.drop_eq_getElem_cons he, he']
  refine ⟨s.take k, (s.drop (k + 1)).take (e - (k + 1)), s.drop (e + 1), ?_, by rw [hdrop]⟩
  have hrest : s.drop (k + 1) = (s.drop (k + 1)).take (e - (k + 1)) ++ sep :: s.drop (e + 1) := by
    rw [← hdrop]
    conv_lhs => rw [← List.take_append_drop (e - (k + 1)) (s.drop (k + 1)), List.drop_drop]
    rw [show k + 1 + (e - (k + 1)) = e by omega]
  rw [← hrest, ← hk', ← List.drop_eq_getElem_cons hk, List.take_append_drop]

theorem trunc_of_getElem? {k : ℕ} (hk : s[k]? = some sep) : Trunc sep s (s.take (k + 1)) := by
  obtain ⟨hk, hk'⟩ := List.getElem?_eq_some_iff.mp hk
  refine ⟨s.take k, s.drop (k + 1), ?_, ?_⟩
  · rw [← hk', ← List.drop_eq_getElem_cons hk, List.take_append_drop]
  · rw [List.take_add_one, List.getElem?_eq_getElem hk, hk']
    rfl

variable {s' : List α}

theorem Cut.length_lt (h : Cut sep s s') : s'.length < s.length := by
  obtain ⟨A, Y, B, rfl, rfl⟩ := h
  simp only [List.length_append, List.length_cons]
  omega

theorem Cut.head? (h : Cut sep s s') : s'.head? = s.head? := by
  obtain ⟨A, Y, B, rfl, rfl⟩ := h
  cases A <;> rfl

theorem Trunc.head? (h : Trunc sep s s') : s'.head? = s.head? := by
  obtain ⟨A, Y, rfl, rfl⟩ := h
  cases A <;> rfl

variable [DecidableEq α]

/-! ## Cutting at a separator -/

/-- The segments with a separator on both sides. -/
def inner (sep : α) (s : List α) : List (List α) := (s.splitOn sep).tail.dropLast

theorem inner_append (A B : List α) : inner sep (A ++ sep :: B) = (A.splitOn sep).tail ++ (B.splitOn sep).dropLast := by
  rw [inner, List.splitOn_append_cons_self, List.tail_append_of_ne_nil (List.splitOn_ne_nil _ _),
    List.dropLast_append_of_ne_nil (List.splitOn_ne_nil _ _)]

theorem tail_splitOn_append (A B : List α) :
    ((A ++ sep :: B).splitOn sep).tail = (A.splitOn sep).tail ++ B.splitOn sep := by
  rw [List.splitOn_append_cons_self, List.tail_append_of_ne_nil (List.splitOn_ne_nil _ _)]

theorem exists_of_splitOn {s : List α} : ∀ {l1 l2 : List (List α)}, s.splitOn sep = l1 ++ l2 → l1 ≠ [] → l2 ≠ [] →
    ∃ A B, s = A ++ sep :: B ∧ A.splitOn sep = l1 ∧ B.splitOn sep = l2 := by
  induction s with
  | nil =>
    intro l1 l2 h h1 h2
    have hlen := congrArg List.length h
    have h1 := List.length_pos_iff.mpr h1
    have h2 := List.length_pos_iff.mpr h2
    rw [List.splitOn_nil, List.length_append, List.length_singleton] at hlen
    omega
  | cons c s ih =>
    intro l1 l2 h h1 h2
    rw [List.splitOn_cons_eq_if_modifyHead] at h
    by_cases hc : c = sep
    · subst hc
      rw [if_pos (beq_self_eq_true c)] at h
      rcases l1 with _ | ⟨g, l1⟩
      · exact absurd rfl h1
      · obtain ⟨rfl, hrest⟩ := List.cons.inj h
        rcases l1 with _ | ⟨g', l1⟩
        · exact ⟨[], s, rfl, List.splitOn_nil c, hrest⟩
        · obtain ⟨A, B, rfl, hA, hB⟩ := ih hrest (List.cons_ne_nil _ _) h2
          refine ⟨c :: A, B, rfl, ?_, hB⟩
          rw [List.splitOn_cons_eq_if_modifyHead, if_pos (beq_self_eq_true c), hA]
    · rw [if_neg (by simpa using hc)] at h
      obtain ⟨g, gs, hg⟩ := List.exists_cons_of_ne_nil (List.splitOn_ne_nil sep s)
      rw [hg, List.modifyHead_cons] at h
      rcases l1 with _ | ⟨g', l1⟩
      · exact absurd rfl h1
      · obtain ⟨rfl, hrest⟩ := List.cons.inj h
        obtain ⟨A, B, rfl, hA, hB⟩ := @ih (g :: l1) l2 (by rw [hg, hrest]; rfl) (List.cons_ne_nil _ _) h2
        refine ⟨c :: A, B, rfl, ?_, hB⟩
        rw [List.splitOn_cons_eq_if_modifyHead, if_neg (by simpa using hc), hA, List.modifyHead_cons]

variable {g w : List α}

theorem not_mem_of_mem_splitOn (h : g ∈ s.splitOn sep) : sep ∉ g := by
  induction s generalizing g with
  | nil =>
    rw [List.splitOn_nil, List.mem_singleton] at h
    simp [h]
  | cons c s ih =>
    rw [List.splitOn_cons_eq_if_modifyHead] at h
    obtain ⟨g', gs, hg⟩ := List.exists_cons_of_ne_nil (List.splitOn_ne_nil sep s)
    by_cases hc : c = sep
    · rw [if_pos (by simpa using hc)] at h
      rcases List.mem_cons.mp h with rfl | h
      · simp
      · exact ih h
    · rw [if_neg (by simpa using hc), hg, List.modifyHead_cons] at h
      rw [hg] at ih
      rcases List.mem_cons.mp h with rfl | h
      · have := ih (List.mem_cons_self)
        simp [this, Ne.symm hc]
      · exact ih (List.mem_cons_of_mem _ h)

theorem eq_of_splitOn_singleton (h : s.splitOn sep = [g]) : s = g := by
  induction s generalizing g with
  | nil =>
    rw [List.splitOn_nil] at h
    exact List.singleton_inj.mp h
  | cons c s ih =>
    rw [List.splitOn_cons_eq_if_modifyHead] at h
    obtain ⟨g', gs, hg⟩ := List.exists_cons_of_ne_nil (List.splitOn_ne_nil sep s)
    split_ifs at h
    · exact absurd (List.cons.inj h).2 (List.splitOn_ne_nil sep s)
    · rw [hg, List.modifyHead_cons] at h
      obtain ⟨rfl, rfl⟩ := List.cons.inj h
      rw [ih hg]

theorem mem_inner_iff : g ∈ inner sep s ↔ sep ∉ g ∧ ∃ A B, s = A ++ sep :: (g ++ sep :: B) := by
  constructor
  · intro h
    refine ⟨not_mem_of_mem_splitOn (List.mem_of_mem_tail (List.mem_of_mem_dropLast h)), ?_⟩
    obtain ⟨f, gs, hs⟩ := List.exists_cons_of_ne_nil (List.splitOn_ne_nil sep s)
    rw [inner, hs, List.tail_cons] at h
    rcases List.eq_nil_or_concat gs with rfl | ⟨gs, last, rfl⟩
    · simp at h
    · rw [List.concat_eq_append, List.dropLast_concat] at h
      obtain ⟨l1, l2, rfl⟩ := List.append_of_mem h
      have hsplit : s.splitOn sep = (f :: l1) ++ (g :: (l2 ++ [last])) := by simp [hs]
      obtain ⟨A, B, rfl, -, hB⟩ := exists_of_splitOn hsplit (List.cons_ne_nil _ _) (List.cons_ne_nil _ _)
      obtain ⟨C, D, rfl, hC, -⟩ := @exists_of_splitOn _ sep _ B [g] (l2 ++ [last]) hB (List.cons_ne_nil _ _) (by simp)
      exact ⟨A, D, by rw [eq_of_splitOn_singleton hC]⟩
  · rintro ⟨hg, A, B, rfl⟩
    rw [inner_append, List.splitOn_append_cons_self_of_not_mem hg,
      List.dropLast_cons_of_ne_nil (List.splitOn_ne_nil _ _)]
    simp

/-- A segment is the last of several exactly when a separator stands before it and the list ends behind it. -/
theorem getLast?_tail_splitOn_iff :
    (s.splitOn sep).tail.getLast? = some g ↔ sep ∉ g ∧ ∃ A, s = A ++ sep :: g := by
  constructor
  · intro h
    have hmem : g ∈ s.splitOn sep := List.mem_of_mem_tail (List.mem_of_getLast? h)
    refine ⟨not_mem_of_mem_splitOn hmem, ?_⟩
    obtain ⟨f, gs, hs⟩ := List.exists_cons_of_ne_nil (List.splitOn_ne_nil sep s)
    rw [hs, List.tail_cons] at h
    obtain ⟨gs', rfl⟩ := List.getLast?_eq_some_iff.mp h
    obtain ⟨A, B, rfl, -, hB⟩ := @exists_of_splitOn _ sep _ s (f :: gs') [g] hs (List.cons_ne_nil _ _)
      (List.cons_ne_nil _ _)
    exact ⟨A, by rw [eq_of_splitOn_singleton hB]⟩
  · rintro ⟨hg, A, rfl⟩
    rw [tail_splitOn_append, List.splitOn_eq_singleton hg, List.getLast?_append_of_ne_nil _ (List.cons_ne_nil _ _)]
    rfl

theorem mem_tail_splitOn_iff :
    g ∈ (s.splitOn sep).tail ↔ g ∈ inner sep s ∨ (s.splitOn sep).tail.getLast? = some g := by
  rw [inner]
  rcases List.eq_nil_or_concat (s.splitOn sep).tail with h | ⟨gs, last, h⟩
  · simp [h]
  · rw [h, List.concat_eq_append, List.dropLast_concat, List.getLast?_concat, List.mem_append, List.mem_singleton,
      Option.some.injEq, eq_comm]

/-! ## The segments that are left -/

theorem Cut.subset (h : Cut sep s s') : s'.splitOn sep ⊆ s.splitOn sep := by
  obtain ⟨A, Y, B, rfl, rfl⟩ := h
  rw [List.splitOn_append_cons_self, List.splitOn_append_cons_self, List.splitOn_append_cons_self]
  exact List.append_subset.mpr ⟨List.subset_append_left _ _,
    List.subset_append_of_subset_right _ (List.subset_append_right _ _)⟩

theorem Cut.tail_subset (h : Cut sep s s') : (s'.splitOn sep).tail ⊆ (s.splitOn sep).tail := by
  obtain ⟨A, Y, B, rfl, rfl⟩ := h
  rw [tail_splitOn_append, tail_splitOn_append, List.splitOn_append_cons_self]
  exact List.append_subset.mpr ⟨List.subset_append_left _ _,
    List.subset_append_of_subset_right _ (List.subset_append_right _ _)⟩

theorem Cut.inner_subset (h : Cut sep s s') : inner sep s' ⊆ inner sep s := by
  obtain ⟨A, Y, B, rfl, rfl⟩ := h
  rw [inner_append, inner_append, List.splitOn_append_cons_self,
    List.dropLast_append_of_ne_nil (List.splitOn_ne_nil _ _)]
  exact List.append_subset.mpr ⟨List.subset_append_left _ _,
    List.subset_append_of_subset_right _ (List.subset_append_right _ _)⟩

theorem Cut.getLast? (h : Cut sep s s') : (s'.splitOn sep).tail.getLast? = (s.splitOn sep).tail.getLast? := by
  obtain ⟨A, Y, B, rfl, rfl⟩ := h
  rw [tail_splitOn_append, tail_splitOn_append, List.splitOn_append_cons_self,
    List.getLast?_append_of_ne_nil _ (List.splitOn_ne_nil _ _),
    List.getLast?_append_of_ne_nil _ (List.append_ne_nil_of_right_ne_nil _ (List.splitOn_ne_nil _ _)),
    List.getLast?_append_of_ne_nil _ (List.splitOn_ne_nil _ _)]

theorem Trunc.subset (h : Trunc sep s s') : ∀ g ∈ s'.splitOn sep, g ∈ s.splitOn sep ∨ g = [] := by
  obtain ⟨A, Y, rfl, rfl⟩ := h
  intro g hg
  rw [List.splitOn_append_cons_self, List.splitOn_nil] at hg
  rw [List.splitOn_append_cons_self]
  rcases List.mem_append.mp hg with hg | hg
  · exact Or.inl (List.mem_append_left _ hg)
  · exact Or.inr (List.mem_singleton.mp hg)

theorem Trunc.inner_subset (h : Trunc sep s s') : inner sep s' ⊆ inner sep s := by
  obtain ⟨A, Y, rfl, rfl⟩ := h
  rw [inner_append, inner_append, List.splitOn_nil]
  simp

theorem Trunc.getLast? (h : Trunc sep s s') : (s'.splitOn sep).tail.getLast? = some [] := by
  obtain ⟨A, Y, rfl, rfl⟩ := h
  rw [tail_splitOn_append, List.splitOn_nil, List.getLast?_append_of_ne_nil _ (List.cons_ne_nil _ _)]
  rfl

/-! ## Looking for a pattern -/

/-- `strstr`: the first place of a pattern. -/
def strstr (s w : List α) : Option ℕ := (List.range (s.length + 1)).find? fun d => w.isPrefixOf (s.drop d)

theorem strstr_some {d : ℕ} (h : strstr s w = some d) : ∃ A B, s = A ++ (w ++ B) ∧ A.length = d := by
  have hp := @List.find?_some _ (fun d => w.isPrefixOf (s.drop d)) _ _ h
  obtain ⟨B, hB⟩ := List.isPrefixOf_iff_prefix.mp hp
  have hd := List.mem_range.mp (List.mem_of_find?_eq_some h)
  refine ⟨s.take d, B, ?_, ?_⟩
  · rw [hB, List.take_append_drop]
  · rw [List.length_take]
    omega

theorem getElem?_of_strstr {d i : ℕ} (h : strstr s w = some d) (hi : i < w.length) : s[d + i]? = w[i]? := by
  obtain ⟨A, B, rfl, rfl⟩ := strstr_some h
  rw [List.getElem?_append_right (Nat.le_add_right _ _), Nat.add_sub_cancel_left, List.getElem?_append_left hi]

theorem strstr_eq_none_iff : strstr s w = none ↔ ∀ A B, s ≠ A ++ (w ++ B) := by
  rw [strstr, List.find?_eq_none]
  constructor
  · rintro h A B rfl
    refine h A.length (List.mem_range.mpr (by simp only [List.length_append]; omega)) ?_
    rw [List.drop_left]
    exact List.isPrefixOf_iff_prefix.mpr ⟨B, rfl⟩
  · intro h d _ hp
    obtain ⟨B, hB⟩ := List.isPrefixOf_iff_prefix.mp hp
    exact h (s.take d) B (by rw [hB, List.take_append_drop])

/-- Change the first place of the pattern, until there is none. -/
def rewriteAll (w : List α) (f : List α → ℕ → List α) : ℕ → List α → List α
  | 0, s => s
  | fuel + 1, s =>
    match strstr s w with
    | none => s
    | some d => rewriteAll w f fuel (f s d)

/-- **Where every change makes the list shorter, the pattern is gone in the end**, and what every change keeps is
kept. -/
theorem rewriteAll_spec {w : List α} {f : List α → ℕ → List α} {P : List α → Prop} (hw : w ≠ [])
    (hf : ∀ s d, P s → strstr s w = some d → P (f s d) ∧ (f s d).length < s.length) {fuel : ℕ} {s : List α}
    (hfuel : s.length ≤ fuel) (hs : P s) : P (rewriteAll w f fuel s) ∧ strstr (rewriteAll w f fuel s) w = none := by
  induction fuel generalizing s with
  | zero =>
    obtain rfl := List.length_eq_zero_iff.mp (Nat.le_zero.mp hfuel)
    refine ⟨hs, strstr_eq_none_iff.mpr fun A B h => ?_⟩
    rw [rewriteAll] at h
    obtain ⟨-, hwB⟩ := List.append_eq_nil_iff.mp h.symm
    exact hw (List.append_eq_nil_iff.mp hwB).1
  | succ fuel ih =>
    rw [rewriteAll]
    cases hd : strstr s w with
    | none => exact ⟨hs, hd⟩
    | some d =>
      obtain ⟨hP, hlt⟩ := hf s d hs hd
      exact ih (by omega) hP

theorem rewriteAll_eq_self {f : List α → ℕ → List α} {fuel : ℕ} (h : strstr s w = none) :
    rewriteAll w f fuel s = s := by
  cases fuel with
  | zero => rfl
  | succ fuel => rw [rewriteAll, h]

theorem strstr_segment_eq_none_iff {s g : List α} (hg : sep ∉ g) :
    strstr s (sep :: (g ++ [sep])) = none ↔ g ∉ inner sep s := by
  rw [strstr_eq_none_iff, mem_inner_iff]
  constructor
  · rintro h ⟨-, A, B, hs⟩
    exact h A B (by rw [hs]; simp)
  · intro h A B hs
    exact h ⟨hg, A, B, by rw [hs]; simp⟩

end MnoGoSearch.Lib.Segments
