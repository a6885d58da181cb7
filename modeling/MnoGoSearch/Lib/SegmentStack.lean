import MnoGoSearch.Lib.Segments

/-!
# Segments on a stack

A loop that looks for the first segment of some kind between two separators and changes what is in
front of it, until there is none, reads the segments from the left to the right: those it has passed
are on a stack, and one of that kind changes the stack. `rewriteAll_run` says so for any change that
works on the stack.
-/

namespace MnoGoSearch.Lib.Segments

variable {α : Type} {sep : α}

/-! ## Putting segments together -/

/-- Every segment behind a separator. -/
def join (sep : α) (gs : List (List α)) : List α := gs.flatMap (sep :: ·)

@[simp] theorem join_nil : join sep [] = [] := rfl

@[simp] theorem join_cons (g : List α) (gs : List (List α)) : join sep (g :: gs) = sep :: (g ++ join sep gs) := rfl

@[simp] theorem join_append (gs gs' : List (List α)) : join sep (gs ++ gs') = join sep gs ++ join sep gs' :=
  List.flatMap_append

/-- What has been passed: the text in front of the first separator, and the segments, the last one on top. -/
abbrev Passed (α : Type) : Type := List α × List (List α)

/-- The list again: what has been passed, and the segments behind. -/
def text (sep : α) (σ : Passed α) (gs : List (List α)) : List α := σ.1 ++ join sep (σ.2.reverse ++ gs)

theorem text_push (h : List α) (st : List (List α)) (g : List α) (gs : List (List α)) :
    text sep (h, g :: st) gs = text sep (h, st) (g :: gs) := by
  rw [text, text]
  simp

theorem text_eq_append (σ : Passed α) (gs : List (List α)) : text sep σ gs = text sep σ [] ++ join sep gs := by
  rw [text, text]
  simp

/-- No segment has a separator inside. -/
def Plain (sep : α) (gs : List (List α)) : Prop := ∀ g ∈ gs, sep ∉ g

variable {g : List α} {gs : List (List α)}

theorem plain_cons : Plain sep (g :: gs) ↔ sep ∉ g ∧ Plain sep gs :=
  List.forall_mem_cons

theorem plain_append {gs' : List (List α)} : Plain sep (gs ++ gs') ↔ Plain sep gs ∧ Plain sep gs' :=
  List.forall_mem_append

theorem plain_reverse : Plain sep gs.reverse ↔ Plain sep gs := by
  simp [Plain]

/-- What has been passed when the loop looks for the segment `g`. -/
structure Clean (sep : α) (g : List α) (σ : Passed α) : Prop where
  head : sep ∉ σ.1
  /-- No separators in the segments. -/
  plain : Plain sep σ.2
  /-- The segment that is looked for is gone. -/
  gone : g ∉ σ.2

variable {x : List α} {σ : Passed α}

theorem Clean.push (h : Clean sep g σ) (hx : sep ∉ x) (hne : x ≠ g) :
    Clean sep g (σ.1, x :: σ.2) where
  head := h.head
  plain := plain_cons.mpr ⟨hx, h.plain⟩
  gone := fun hmem => (List.mem_cons.mp hmem).elim (fun heq => hne heq.symm) h.gone

variable [DecidableEq α]

variable {h s : List α} {op : Passed α → Passed α}

theorem splitOn_join (hh : sep ∉ h) (hgs : Plain sep gs) : (h ++ join sep gs).splitOn sep = h :: gs := by
  induction gs generalizing h with
  | nil => rw [join_nil, List.append_nil, List.splitOn_eq_singleton hh]
  | cons g gs ih =>
    obtain ⟨hg, hgs⟩ := plain_cons.mp hgs
    rw [join_cons, List.splitOn_append_cons_self_of_not_mem hh, ih hg hgs]

theorem eq_join_of_splitOn (hs : s.splitOn sep = h :: gs) : s = h ++ join sep gs := by
  induction gs generalizing s h with
  | nil => rw [eq_of_splitOn_singleton hs, join_nil, List.append_nil]
  | cons g gs ih =>
    obtain ⟨A, B, rfl, hA, hB⟩ := @exists_of_splitOn _ sep _ s [h] (g :: gs) hs (List.cons_ne_nil _ _)
      (List.cons_ne_nil _ _)
    rw [eq_of_splitOn_singleton hA, ih hB, join_cons]

theorem plain_splitOn (hs : s.splitOn sep = h :: gs) : Plain sep gs := fun g hg =>
  not_mem_of_mem_splitOn (by rw [hs]; exact List.mem_cons_of_mem _ hg)

/-! ## The first place of a segment -/

theorem strstr_eq_some {w A B : List α} (hs : s = A ++ (w ++ B))
    (hfirst : ∀ A' B', s = A' ++ (w ++ B') → A.length ≤ A'.length) : strstr s w = some A.length := by
  cases hd : strstr s w with
  | none => exact absurd hs (strstr_eq_none_iff.mp hd A B)
  | some d =>
    obtain ⟨A', B', hs', rfl⟩ := strstr_some hd
    have hle := hfirst A' B' hs'
    -- a place that is found is not behind another one
    have hlt : ¬ A.length < A'.length := by
      intro hlt
      rw [strstr, List.find?_range_eq_some] at hd
      have hbefore := hd.2.2 A.length hlt
      rw [hs, List.drop_left, List.isPrefixOf_iff_prefix.mpr ⟨B, rfl⟩] at hbefore
      cases hbefore
    rw [Nat.le_antisymm hle (Nat.not_lt.mp hlt)]

/-- **Where a segment that has not been passed is found first.** -/
theorem strstr_text {g' : List α} (hh : sep ∉ σ.1) (hst : Plain sep σ.2)
    (hnot : g ∉ σ.2) (hgs : Plain sep (g :: g' :: gs)) :
    strstr (text sep σ (g :: g' :: gs)) (sep :: (g ++ [sep])) = some (text sep σ []).length := by
  have hs : text sep σ (g :: g' :: gs) = text sep σ [] ++ (sep :: (g ++ [sep]) ++ (g' ++ join sep gs)) := by
    rw [text_eq_append]
    simp
  have hg : sep ∉ g := (plain_cons.mp hgs).1
  refine strstr_eq_some hs fun A' B' hs' => ?_
  by_contra hlt
  -- an earlier place would be inside of what has been passed
  have hprefix : A' ++ [sep] <+: text sep σ [] := by
    have h1 : A' ++ [sep] <+: text sep σ (g :: g' :: gs) := ⟨g ++ sep :: B', by rw [hs']; simp⟩
    have h2 : text sep σ [] <+: text sep σ (g :: g' :: gs) := ⟨_, hs.symm⟩
    refine List.prefix_of_prefix_length_le h1 h2 ?_
    rw [List.length_append, List.length_singleton]
    omega
  obtain ⟨C, hC⟩ := hprefix
  have hpassed : σ.1 :: σ.2.reverse = A'.splitOn sep ++ C.splitOn sep := by
    rw [← List.splitOn_append_cons_self, ← splitOn_join hh (plain_reverse.mpr hst)]
    congr 1
    rw [text, List.append_nil] at hC
    rw [← hC]
    simp
  have hrest : C ++ sep :: (g ++ sep :: (g' ++ join sep gs)) = g ++ sep :: B' := by
    have heq : A' ++ sep :: (C ++ sep :: (g ++ sep :: (g' ++ join sep gs))) = A' ++ sep :: (g ++ sep :: B') := by
      rw [hs, ← hC] at hs'
      simpa using hs'
    exact (List.cons.inj (List.append_cancel_left heq)).2
  have hsplit := congrArg (List.splitOn sep) hrest
  rw [List.splitOn_append_cons_self, List.splitOn_append_cons_self_of_not_mem hg,
    List.splitOn_append_cons_self_of_not_mem hg] at hsplit
  obtain ⟨x, xs, hx⟩ := List.exists_cons_of_ne_nil (List.splitOn_ne_nil sep C)
  rw [hx] at hsplit hpassed
  obtain ⟨rfl, -⟩ := List.cons.inj hsplit
  -- the segment is one of those that have been passed
  obtain ⟨y, ys, hy⟩ := List.exists_cons_of_ne_nil (List.splitOn_ne_nil sep A')
  rw [hy, List.cons_append] at hpassed
  have hmem : x ∈ σ.2.reverse := by
    rw [(List.cons.inj hpassed).2]
    simp
  exact hnot (List.mem_reverse.mp hmem)

theorem strstr_text_last {σ : Passed α} {g x : List α} (hh : sep ∉ σ.1) (hst : Plain sep σ.2) (hnot : g ∉ σ.2)
    (hg : sep ∉ g) (hx : sep ∉ x) : strstr (text sep σ [x]) (sep :: (g ++ [sep])) = none := by
  have hplain : Plain sep (σ.2.reverse ++ [x]) :=
    plain_append.mpr ⟨plain_reverse.mpr hst, plain_cons.mpr ⟨hx, by simp [Plain]⟩⟩
  rw [strstr_segment_eq_none_iff hg, inner, text, splitOn_join hh hplain, List.tail_cons, List.dropLast_concat]
  simpa using hnot

/-! ## The loop -/

/-- Read the segments: one that is `g` and has another one behind it changes what has been passed. -/
def run (g : List α) (op : Passed α → Passed α) : Passed α → List (List α) → Passed α
  | σ, [] => σ
  | σ, [x] => (σ.1, x :: σ.2)
  | σ, x :: y :: gs => if x = g then run g op (op σ) (y :: gs) else run g op (σ.1, x :: σ.2) (y :: gs)

/-- **The loop over the list is the run over the segments.** -/
theorem rewriteAll_run {g : List α} {f : List α → ℕ → List α} {op : Passed α → Passed α} (hg : sep ∉ g)
    (hop : ∀ σ y gs, Clean sep g σ → Plain sep (y :: gs) →
      f (text sep σ (g :: y :: gs)) (text sep σ []).length = text sep (op σ) (y :: gs))
    (hclean : ∀ σ, Clean sep g σ → Clean sep g (op σ))
    (hle : ∀ σ, Clean sep g σ → (text sep (op σ) []).length ≤ (text sep σ []).length) {gs : List (List α)}
    (hgs : Plain sep gs) {σ : Passed α} (hσ : Clean sep g σ) (hne : gs ≠ []) {fuel : ℕ}
    (hfuel : (text sep σ gs).length ≤ fuel) :
    rewriteAll (sep :: (g ++ [sep])) f fuel (text sep σ gs) = text sep (run g op σ gs) [] := by
  induction gs generalizing σ fuel with
  | nil => exact absurd rfl hne
  | cons x gs ih =>
    obtain ⟨hx, hplain⟩ := plain_cons.mp hgs
    rcases gs with _ | ⟨y, gs⟩
    · rw [rewriteAll_eq_self (strstr_text_last hσ.head hσ.plain hσ.gone hg hx), run, text_push]
    · rw [run]
      by_cases hxg : x = g
      · subst hxg
        have hlen : (text sep σ (x :: y :: gs)).length = (text sep σ []).length + (join sep (x :: y :: gs)).length := by
          rw [text_eq_append, List.length_append]
        have hlen' : (text sep (op σ) (y :: gs)).length = (text sep (op σ) []).length + (join sep (y :: gs)).length := by
          rw [text_eq_append, List.length_append]
        have hjoin : (join sep (x :: y :: gs)).length = x.length + 1 + (join sep (y :: gs)).length := by
          rw [join_cons, List.length_cons, List.length_append]
          omega
        have hshort := hle σ hσ
        obtain ⟨fuel, rfl⟩ := Nat.exists_eq_add_of_le' (show 1 ≤ fuel by omega)
        rw [if_pos rfl, rewriteAll, strstr_text hσ.head hσ.plain hσ.gone hgs]
        dsimp only
        rw [hop σ y gs hσ hplain]
        exact ih hplain (hclean σ hσ) (List.cons_ne_nil _ _) (by omega)
      · rw [if_neg hxg, ← text_push]
        refine ih hplain (hσ.push hx hxg) (List.cons_ne_nil _ _) ?_
        rw [text_push]
        exact hfuel

theorem clean_run (hclean : ∀ σ, Clean sep g σ → Clean sep g (op σ))
    (hgs : Plain sep gs) (hσ : Clean sep g σ) (hne : gs ≠ []) :
    ∃ h st last, run g op σ gs = (h, last :: st) ∧ gs.getLast? = some last ∧ Clean sep g (h, st) := by
  induction gs generalizing σ with
  | nil => exact absurd rfl hne
  | cons x gs ih =>
    obtain ⟨hx, hplain⟩ := plain_cons.mp hgs
    rcases gs with _ | ⟨y, gs⟩
    · exact ⟨σ.1, σ.2, x, rfl, rfl, hσ⟩
    · rw [run, List.getLast?_cons_cons]
      by_cases hxg : x = g
      · rw [if_pos hxg]
        exact ih hplain (hclean σ hσ) (List.cons_ne_nil _ _)
      · rw [if_neg hxg]
        exact ih hplain (hσ.push hx hxg) (List.cons_ne_nil _ _)

theorem run_cons (hne : gs ≠ []) :
    run g op σ (x :: gs) = if x = g then run g op (op σ) gs else run g op (σ.1, x :: σ.2) gs := by
  obtain ⟨y, gs, rfl⟩ := List.exists_cons_of_ne_nil hne
  rw [run]

theorem run_id {st : List (List α)} : run g id (h, st) (gs ++ [x]) = (h, x :: ((gs.filter (· ≠ g)).reverse ++ st)) := by
  induction gs generalizing st with
  | nil => rfl
  | cons y gs ih =>
    rw [List.cons_append, run_cons (by simp), id_eq]
    by_cases hy : y = g
    · rw [if_pos hy, ih, List.filter_cons_of_neg (by simpa using hy)]
    · rw [if_neg hy, ih, List.filter_cons_of_pos (by simpa using hy), List.reverse_cons, List.append_assoc]
      rfl

/-- **The loop that drops segments.** -/
theorem rewriteAll_filter {g : List α} {f : List α → ℕ → List α} (hg : sep ∉ g)
    (hf : ∀ A B, f (A ++ sep :: (g ++ sep :: B)) A.length = A ++ sep :: B) {h : List α} (hh : sep ∉ h)
    {gs : List (List α)} {x : List α} (hgs : Plain sep (gs ++ [x])) {fuel : ℕ}
    (hfuel : (h ++ join sep (gs ++ [x])).length ≤ fuel) :
    rewriteAll (sep :: (g ++ [sep])) f fuel (h ++ join sep (gs ++ [x])) = h ++ join sep (gs.filter (· ≠ g) ++ [x]) := by
  have hrun := @rewriteAll_run _ sep _ g f id hg (fun σ y gs _ _ => ?_) (fun σ hσ => hσ) (fun σ _ => le_rfl) (gs ++ [x]) hgs
    (h, []) ⟨hh, by simp [Plain], List.not_mem_nil⟩ (by simp) fuel hfuel
  · rw [run_id] at hrun
    simpa [text] using hrun
  · have htext : text sep σ (g :: y :: gs) = text sep σ [] ++ sep :: (g ++ sep :: (y ++ join sep gs)) := by
      rw [text_eq_append σ (g :: y :: gs)]
      rfl
    rw [htext, hf, id_eq, text_eq_append σ (y :: gs)]
    rfl

theorem mem_run (hop : ∀ σ, (op σ).2 ⊆ σ.2) {y : List α} (hy : y ∈ (run g op σ gs).2) : y ∈ σ.2 ∨ y ∈ gs := by
  induction gs generalizing σ with
  | nil => exact Or.inl hy
  | cons x gs ih =>
    rcases gs with _ | ⟨z, gs⟩
    · exact (List.mem_cons.mp hy).elim (fun h => Or.inr (by simp [h])) Or.inl
    · rw [run] at hy
      split_ifs at hy
      · exact (ih hy).imp (fun h => hop σ h) (List.mem_cons_of_mem _)
      · rcases ih hy with h | h
        · exact (List.mem_cons.mp h).elim (fun h => Or.inr (by simp [h])) Or.inl
        · exact Or.inr (List.mem_cons_of_mem _ h)

end MnoGoSearch.Lib.Segments
