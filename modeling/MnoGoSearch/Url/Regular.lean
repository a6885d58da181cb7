import MnoGoSearch.Url.DotSegments
import Mathlib

/-!
# Regular paths

Where `UdmURLNormalizePath` (`url.c`) has the result of the general algorithm for dot segments, applied to the
path with one slash for several ones: no `..` goes back over a `.` or an empty segment while a segment of another
kind stands before that, and the path does not come down to `/..` or to `/.`. The code also writes `~` for `%7E`.
-/

namespace MnoGoSearch.Url

open Lib Lib.Segments

/-! ## Slashes and tildes -/

/-- `%7E` is `~`. -/
@[grind =] def tilde : List UInt8 → List UInt8
  | 0x25 :: 0x37 :: 0x45 :: s => 0x7E :: tilde s
  | c :: s => c :: tilde s
  | [] => []

variable {s g x : List UInt8} {c : UInt8} {init st gs : List (List UInt8)}

theorem exists_of_append {B t : List UInt8} (h7 : c ≠ 0x37) (hE : c ≠ 0x45)
    (h : s ++ c :: B = 0x37 :: 0x45 :: t) : ∃ s', s = 0x37 :: 0x45 :: s' := by
  rcases s with _ | ⟨a, _ | ⟨b, s⟩⟩
  · exact absurd (List.cons.inj h).1 h7
  · exact absurd (List.cons.inj (List.cons.inj h).2).1 hE
  · obtain ⟨rfl, hrest⟩ := List.cons.inj h
    obtain ⟨rfl, -⟩ := List.cons.inj hrest
    exact ⟨s, rfl⟩

theorem tilde_append {A B : List UInt8} {c : UInt8} (h7 : c ≠ 0x37) (hE : c ≠ 0x45) :
    tilde (A ++ c :: B) = tilde A ++ tilde (c :: B) := by
  induction A using tilde.induct with
  | case1 s ih =>
    simp only [List.cons_append, tilde]
    rw [ih]
  | case2 a s hne ih =>
    rw [List.cons_append, tilde, tilde, ih, List.cons_append]
    · exact hne
    · intro t ha ht
      obtain ⟨s', hs'⟩ := exists_of_append h7 hE ht
      exact hne s' ha hs'
  | case3 => rfl

theorem tilde_slash (s : List UInt8) : tilde (0x2F :: s) = 0x2F :: tilde s := by
  rw [tilde]
  intro t h
  exact absurd h (by decide)

theorem tilde_tilde (s : List UInt8) : tilde (0x7E :: s) = 0x7E :: tilde s := by
  rw [tilde]
  intro t h
  exact absurd h (by decide)

theorem tilde_eq_self (h : strstr s [0x25, 0x37, 0x45] = none) : tilde s = s := by
  rw [strstr_eq_none_iff] at h
  induction s using tilde.induct with
  | case1 s _ => exact absurd rfl (h [] s)
  | case2 a s hne ih =>
    rw [tilde, ih fun A B hs => h (a :: A) B (by rw [hs]; rfl)]
    exact hne
  | case3 => rfl

theorem replaceTilde_spec (s : List UInt8) :
    replaceTilde s = tilde s ∧ strstr (replaceTilde s) [0x25, 0x37, 0x45] = none := by
  have hstep : ∀ t d, tilde t = tilde s → strstr t [0x25, 0x37, 0x45] = some d →
      tilde (t.take d ++ 0x7E :: t.drop (d + 3)) = tilde s ∧ (t.take d ++ 0x7E :: t.drop (d + 3)).length < t.length := by
    intro t d ht hd
    obtain ⟨A, B, rfl, rfl⟩ := strstr_some hd
    have hdrop : (A ++ ([0x25, 0x37, 0x45] ++ B)).drop (A.length + 3) = B := by simp [List.drop_append]
    rw [List.take_left, hdrop]
    refine ⟨?_, by simp only [List.length_append, List.length_cons]; omega⟩
    rw [← ht, tilde_append (by decide) (by decide), tilde_tilde]
    exact (@tilde_append A (0x37 :: 0x45 :: B) 0x25 (by decide) (by decide)).symm
  have hspec := @rewriteAll_spec _ _ [0x25, 0x37, 0x45] (fun t d => t.take d ++ 0x7E :: t.drop (d + 3))
    (fun t => tilde t = tilde s) (List.cons_ne_nil _ _) hstep s.length s le_rfl rfl
  exact ⟨by rw [← hspec.1]; exact (tilde_eq_self hspec.2).symm, hspec.2⟩

theorem tilde_join {h : List UInt8} (gs : List (List UInt8)) :
    tilde (h ++ join 0x2F gs) = tilde h ++ join 0x2F (gs.map tilde) := by
  induction gs generalizing h with
  | nil => simp
  | cons g gs ih =>
    rw [join_cons, tilde_append (by decide) (by decide), tilde_slash, ih, List.map_cons, join_cons]

theorem mem_tilde (h : c ∈ tilde s) : c ∈ s ∨ c = 0x7E := by
  induction s using tilde.induct with
  | case1 s ih =>
    rw [tilde] at h
    rcases List.mem_cons.mp h with h | h
    · exact Or.inr h
    · exact (ih h).imp_left fun hs => by simp [hs]
  | case2 a s hne ih =>
    rw [tilde] at h
    · rcases List.mem_cons.mp h with rfl | h
      · exact Or.inl List.mem_cons_self
      · exact (ih h).imp_left (List.mem_cons_of_mem _)
    · exact hne
  | case3 => cases h

theorem eq_of_tilde_dots (h : ∀ c ∈ tilde s, c = 0x2E) : tilde s = s := by
  induction s using tilde.induct with
  | case1 s _ =>
    rw [tilde] at h
    exact absurd (h 0x7E List.mem_cons_self) (by decide)
  | case2 a s hne ih =>
    rw [tilde] at h ⊢
    · rw [ih fun c hc => h c (List.mem_cons_of_mem _ hc)]
    · exact hne
    · exact hne
  | case3 => rfl

theorem collapseSlashes_join (hgs : Plain 0x2F (gs ++ [x])) :
    collapseSlashes (join 0x2F (gs ++ [x])) = join 0x2F (gs.filter (· ≠ []) ++ [x]) := by
  -- a segment is copied up to the next slash
  have hcopy : ∀ (g t : List UInt8), (0x2F : UInt8) ∉ g →
      collapseSlashes (g ++ 0x2F :: t) = g ++ collapseSlashes (0x2F :: t) := by
    intro g t hg
    induction g with
    | nil => rfl
    | cons c g ih =>
      obtain ⟨hc, hg⟩ := not_or.mp (mt List.mem_cons.mpr hg)
      have hne : g ++ 0x2F :: t ≠ [] := by simp
      obtain ⟨d, s, hds⟩ := List.exists_cons_of_ne_nil hne
      have hih := ih hg
      rw [List.cons_append, hds] at *
      rw [collapseSlashes, if_neg fun h => hc h.1.symm, hih, List.cons_append]
  have hlast : ∀ g : List UInt8, (0x2F : UInt8) ∉ g → collapseSlashes g = g := by
    intro g hg
    induction g with
    | nil => rfl
    | cons c g ih =>
      obtain ⟨hc, hg⟩ := not_or.mp (mt List.mem_cons.mpr hg)
      rcases g with _ | ⟨d, g⟩
      · rfl
      · rw [collapseSlashes, if_neg fun h => hc h.1.symm, ih hg]
  have hslash : ∀ (g t : List UInt8), (0x2F : UInt8) ∉ g → g ≠ [] →
      collapseSlashes (0x2F :: (g ++ t)) = 0x2F :: collapseSlashes (g ++ t) := by
    intro g t hg hne
    obtain ⟨c, g, rfl⟩ := List.exists_cons_of_ne_nil hne
    rw [List.cons_append, collapseSlashes, if_neg fun h => hg (by rw [h.2]; exact List.mem_cons_self)]
  induction gs with
  | nil =>
    obtain ⟨hx, -⟩ := plain_cons.mp hgs
    rcases hnil : x with _ | ⟨c, t⟩
    · rfl
    · rw [← hnil]
      have hsl := hslash x [] hx (by rw [hnil]; exact List.cons_ne_nil _ _)
      rw [List.append_nil, hlast x hx] at hsl
      simpa using hsl
  | cons g gs ih =>
    obtain ⟨hg, hrest⟩ := plain_cons.mp hgs
    have hih := ih hrest
    obtain ⟨y, ys, hy⟩ := List.exists_cons_of_ne_nil (show gs ++ [x] ≠ [] by simp)
    rw [List.cons_append, join_cons, hy, join_cons]
    rw [hy, join_cons] at hih
    by_cases hnil : g = []
    · rw [List.filter_cons_of_neg (by simpa using hnil), ← hih, hnil, List.nil_append, collapseSlashes, if_pos ⟨rfl, rfl⟩]
    · rw [List.filter_cons_of_pos (by simpa using hnil), List.cons_append, join_cons, ← hih, hslash _ _ hg hnil, hcopy _ _ hg]

/-! ## Regular paths -/

/-- A segment that stands for itself. -/
def Ordinary (g : List UInt8) : Prop := g ≠ [] ∧ g ≠ [0x2E]

instance : DecidablePred Ordinary := fun g => inferInstanceAs (Decidable (g ≠ [] ∧ g ≠ [0x2E]))

/-- A `..` goes back over an ordinary segment, or there is none. -/
def Meets (st : List (List UInt8)) : Prop := (∃ t ∈ st.head?, Ordinary t) ∨ ∀ t ∈ st, ¬ Ordinary t

instance (st : List (List UInt8)) : Decidable (Meets st) := by
  have : Decidable (∃ t ∈ st.head?, Ordinary t) :=
    match st with
    | [] => isFalse (by simp)
    | t :: _ => decidable_of_iff (Ordinary t) (by simp)
  exact instDecidableOr

/-- The segments of a path, with those that the first pass has on its stack: every `..` goes back over an ordinary
segment or there is none, and the path comes down neither to `/..` nor to `/.`. -/
def Regular : List (List UInt8) → List (List UInt8) → Prop
  | _, [] => True
  | st, [g] => (g = [0x2E, 0x2E] → st ≠ [] ∧ Meets st) ∧ (g = [0x2E] → ∃ x ∈ st, x ≠ [0x2E])
  | st, g :: y :: gs =>
    if g = [0x2E, 0x2E] then Meets st ∧ Regular (goBack ([], st)).2 (y :: gs) else Regular (g :: st) (y :: gs)

/-- Whether a path is regular can be computed. -/
def decidableRegular : (st gs : List (List UInt8)) → Decidable (Regular st gs)
  | _, [] => isTrue trivial
  | st, [g] =>
    inferInstanceAs (Decidable ((g = [0x2E, 0x2E] → st ≠ [] ∧ Meets st) ∧ (g = [0x2E] → ∃ x ∈ st, x ≠ [0x2E])))
  | st, g :: y :: gs =>
    have := decidableRegular (goBack ([], st)).2 (y :: gs)
    have := decidableRegular (g :: st) (y :: gs)
    inferInstanceAs (Decidable
      (if g = [0x2E, 0x2E] then Meets st ∧ Regular (goBack ([], st)).2 (y :: gs) else Regular (g :: st) (y :: gs)))

instance (st gs : List (List UInt8)) : Decidable (Regular st gs) := decidableRegular st gs

theorem regular_cons (hne : gs ≠ []) :
    Regular st (g :: gs) ↔
      if g = [0x2E, 0x2E] then Meets st ∧ Regular (goBack ([], st)).2 gs else Regular (g :: st) gs := by
  obtain ⟨y, gs, rfl⟩ := List.exists_cons_of_ne_nil hne
  rw [Regular]

/-- The ordinary segments. -/
def ordinary (st : List (List UInt8)) : List (List UInt8) := st.filter fun g => Ordinary g

theorem ordinary_cons_of_pos (hg : Ordinary g) (st : List (List UInt8)) :
    ordinary (g :: st) = g :: ordinary st := List.filter_cons_of_pos (by simpa using hg)

theorem ordinary_cons_of_neg (hg : ¬ Ordinary g) (st : List (List UInt8)) :
    ordinary (g :: st) = ordinary st := List.filter_cons_of_neg (by simpa using hg)

theorem ordinary_eq_nil (h : ∀ t ∈ st, ¬ Ordinary t) : ordinary st = [] :=
  List.filter_eq_nil_iff.mpr fun t ht => by simpa using h t ht

theorem ordinary_dropEmpty (h : List UInt8) (st : List (List UInt8)) : ordinary (dropEmpty h st) = ordinary st := by
  have hnil : ¬ Ordinary [] := fun h => h.1 rfl
  induction st with
  | nil => rfl
  | cons t st ih =>
    rcases t with _ | ⟨c, t⟩
    · rw [dropEmpty]
      split_ifs with hroot
      · rw [hroot.2]
      · rw [ih, ordinary_cons_of_neg hnil]
    · rfl

theorem goBack_root (st : List (List UInt8)) : goBack ([], st) = ([], (goBack ([], st)).2) := by
  cases st <;> rfl

/-- **Both algorithms go back over the same segment.** -/
theorem ordinary_goBack (h : Meets st) : ordinary (goBack ([], st)).2 = (ordinary st).tail := by
  rcases h with ⟨t, ht, hord⟩ | hnone
  · obtain ⟨st, rfl⟩ := List.head?_eq_some_iff.mp ht
    rw [goBack, ordinary_dropEmpty, ordinary_cons_of_pos hord, List.tail_cons]
  · rw [ordinary_eq_nil hnone, ordinary_eq_nil fun t ht => hnone t (goBack_subset ([], st) ht)]
    rfl

theorem ordinary_tail (h : Meets st) : ordinary st.tail = (ordinary st).tail := by
  rcases h with ⟨t, ht, hord⟩ | hnone
  · obtain ⟨st, rfl⟩ := List.head?_eq_some_iff.mp ht
    rw [ordinary_cons_of_pos hord, List.tail_cons, List.tail_cons]
  · rw [ordinary_eq_nil hnone, ordinary_eq_nil fun t ht => hnone t (List.mem_of_mem_tail ht)]
    rfl

/-- **Up to the last segment, the first pass has the ordinary segments of the general algorithm.** -/
theorem run_regular (h : Regular st (init ++ [x])) :
    ∃ st', run [0x2E, 0x2E] goBack ([], st) (init ++ [x]) = ([], x :: st') ∧ Regular st' [x] ∧
      dotSegments (ordinary st) (init.filter (· ≠ []) ++ [x]) = dotSegments (ordinary st') [x] := by
  induction init generalizing st with
  | nil => exact ⟨st, rfl, h, rfl⟩
  | cons g init ih =>
    have hne : init ++ [x] ≠ [] := by simp
    have hne' : init.filter (· ≠ []) ++ [x] ≠ [] := by simp
    rw [List.cons_append, regular_cons hne] at h
    rw [List.cons_append, run_cons hne]
    by_cases hdots : g = [0x2E, 0x2E]
    · subst hdots
      rw [if_pos rfl] at h ⊢
      rw [goBack_root, List.filter_cons_of_pos (by decide), List.cons_append, dotSegments_cons hne', if_neg (by decide),
        if_pos rfl, ← ordinary_goBack h.1]
      exact ih h.2
    · rw [if_neg hdots] at h ⊢
      obtain ⟨st', hrun, hreg, hseg⟩ := ih h
      refine ⟨st', hrun, hreg, ?_⟩
      rw [← hseg]
      by_cases hnil : g = []
      · rw [List.filter_cons_of_neg (by simpa using hnil), ordinary_cons_of_neg fun hord => hord.1 hnil]
      · rw [List.filter_cons_of_pos (by simpa using hnil), List.cons_append, dotSegments_cons hne']
        by_cases hdot : g = [0x2E]
        · rw [if_pos hdot, ordinary_cons_of_neg fun hord => hord.2 hdot]
        · rw [if_neg hdot, if_neg hdots, ordinary_cons_of_pos ⟨hnil, hdot⟩]

theorem lastPasses_text {h : List UInt8} (hhead : (0x2F : UInt8) ∉ h)
    (hst : Plain 0x2F (x :: st)) :
    removeSlashes (removeTrailingDot (removeDots (text 0x2F (h, x :: st) []))) =
      h ++ join 0x2F ((ordinary st).reverse ++ [if x = [0x2E] ∧ (h ≠ [] ∨ ∃ y ∈ st, y ≠ [0x2E]) then [] else x]) := by
  obtain ⟨hx, hst⟩ := plain_cons.mp hst
  have hone : ∀ {y : List UInt8}, (0x2F : UInt8) ∉ y → Plain 0x2F [y] := fun hy => plain_cons.mpr ⟨hy, by simp [Plain]⟩
  have hrev : Plain 0x2F st.reverse := plain_reverse.mpr hst
  have hfilter : Plain 0x2F (st.reverse.filter (· ≠ [0x2E])) := fun y hy => hrev y (List.mem_of_mem_filter hy)
  have htext : text 0x2F (h, x :: st) [] = h ++ join 0x2F (st.reverse ++ [x]) := by simp [text]
  rw [htext, removeDots_join hhead (plain_append.mpr ⟨hrev, hone hx⟩),
    removeTrailingDot_join hhead (plain_append.mpr ⟨hfilter, hone hx⟩), removeSlashes_join hhead]
  · have hcond : (x = [0x2E] ∧ ¬ (h = [] ∧ st.reverse.filter (· ≠ [0x2E]) = [])) ↔
        x = [0x2E] ∧ (h ≠ [] ∨ ∃ y ∈ st, y ≠ [0x2E]) := by
      simp [List.filter_eq_nil_iff, imp_iff_not_or]
    have hord : (st.reverse.filter (· ≠ [0x2E])).filter (· ≠ []) = (ordinary st).reverse := by
      rw [List.filter_filter, ordinary, ← List.filter_reverse]
      apply List.filter_congr
      intro y _
      rw [Bool.eq_iff_iff, @decide_eq_true_iff (Ordinary y)]
      simp [Ordinary]
    rw [hord, if_congr hcond rfl rfl]
  · refine plain_append.mpr ⟨hfilter, hone ?_⟩
    split_ifs
    · exact List.not_mem_nil
    · exact hx

/-- **The code removes the dot segments of a regular path as the general algorithm does.** -/
theorem normalizePath_join (hplain : Plain 0x2F (init ++ [x]))
    (h : Regular [] (init ++ [x])) :
    normalizePath (join 0x2F (init ++ [x])) =
      some (tilde (join 0x2F (dotSegments [] (init.filter (· ≠ []) ++ [x])))) := by
  have hhead : (0x2F : UInt8) ∉ ([] : List UInt8) := List.not_mem_nil
  obtain ⟨st, hrun, ⟨hdotdot, hdot⟩, hseg⟩ := run_regular h
  obtain ⟨h', st', last, hrun', hclean, -⟩ := run_goBack hhead hplain (by simp)
  rw [hrun] at hrun'
  cases hrun'
  have hx : (0x2F : UInt8) ∉ x := hplain x (by simp)
  have hst : Plain 0x2F (x :: st) := plain_cons.mpr ⟨hx, hclean.plain⟩
  have hfirst := @removeDotDots_text [] hhead _ hplain (by simp)
  rw [List.nil_append, hrun] at hfirst
  have hseg : dotSegments [] (init.filter (· ≠ []) ++ [x]) = dotSegments (ordinary st) [x] := hseg
  rw [normalizePath, hfirst, removeTrailingDotDot_text hhead hst, hseg]
  by_cases hup : x = [0x2E, 0x2E]
  · -- the last segment goes back over one
    obtain ⟨hne, hmeets⟩ := hdotdot hup
    obtain ⟨t, st, rfl⟩ := List.exists_cons_of_ne_nil hne
    have hst' : Plain 0x2F ([] :: st) := plain_cons.mpr ⟨hhead, (plain_cons.mp (plain_cons.mp hst).2).2⟩
    have htail := ordinary_tail hmeets
    rw [List.tail_cons] at htail
    rw [upAtEnd, if_pos hup, Option.map_some, Option.map_some, lastPasses_text hhead hst', List.nil_append,
      (replaceTilde_spec _).1, dotSegments,
      if_neg fun h => absurd h.1 (List.cons_ne_nil _ _).symm, hup, if_neg (show ([0x2E, 0x2E] : List UInt8) ≠ [0x2E] by decide),
      if_pos rfl, htail, List.reverse_cons]
  · rw [upAtEnd_of_ne hup, Option.map_some, Option.map_some, lastPasses_text hhead hst, List.nil_append,
      (replaceTilde_spec _).1, dotSegments]
    by_cases hx1 : x = [0x2E]
    · rw [if_pos ⟨hx1, Or.inr (hdot hx1)⟩, if_pos hx1, List.reverse_cons]
    · rw [if_neg fun h => hx1 h.1, if_neg hx1, if_neg hup, List.reverse_cons]

/-! ## The whole -/

/-- Each loop of the passes ends because its pattern is gone. -/
structure LoopsEnd (s : List UInt8) : Prop where
  /-- There is no `/../`. -/
  dotDots : strstr (removeDotDots s) [0x2F, 0x2E, 0x2E, 0x2F] = none
  /-- There is no `/./`. -/
  dots : strstr (removeDots s) [0x2F, 0x2E, 0x2F] = none
  /-- There is no `//`. -/
  slashes : strstr (removeSlashes s) [0x2F, 0x2F] = none
  /-- There is no `%7E`. -/
  tildes : strstr (replaceTilde s) [0x25, 0x37, 0x45] = none

theorem strstr_rewriteAll_drop {w : List UInt8} {k : ℕ} (hpos : 0 < k) (hle : k ≤ w.length) (s : List UInt8) :
    strstr (rewriteAll w (fun t d => t.take d ++ t.drop (d + k)) s.length s) w = none := by
  refine (@rewriteAll_spec _ _ w (fun t d => t.take d ++ t.drop (d + k)) (fun _ => True)
    (List.ne_nil_of_length_pos (hpos.trans_le hle)) (fun t d _ hd => ⟨trivial, ?_⟩) s.length s le_rfl trivial).2
  have hend := add_le_of_strstr hd
  rw [List.length_append, List.length_take, List.length_drop]
  omega

/-- **The loops end, for every string.** -/
theorem loopsEnd (s : List UInt8) : LoopsEnd s where
  dotDots := by
    refine (@rewriteAll_spec _ _ [0x2F, 0x2E, 0x2E, 0x2F] removeDotDot (fun _ => True) (List.cons_ne_nil _ _)
      (fun t d _ hd => ⟨trivial, ?_⟩) s.length s le_rfl trivial).2
    have hend := add_le_of_strstr hd
    have hle := (skipSlashes_le t (skipNonSlashes t (d - 1))).trans (skipNonSlashes_le t (d - 1))
    simp only [List.length_cons, List.length_nil] at hend
    rw [removeDotDot]
    split_ifs
    · rw [List.length_append, List.length_take, List.length_drop]
      omega
    · rw [List.length_drop]
      omega
  dots := @strstr_rewriteAll_drop [0x2F, 0x2E, 0x2F] 2 Nat.two_pos (Nat.le_succ 2) s
  slashes := @strstr_rewriteAll_drop [0x2F, 0x2F] 1 Nat.one_pos (Nat.le_succ 1) s
  tildes := (replaceTilde_spec s).2

theorem mem_dotSegments {st gs : List (List UInt8)} (hst : ∀ g ∈ st, g ≠ [0x2E] ∧ g ≠ [0x2E, 0x2E]) :
    ∀ g ∈ dotSegments st gs, (g ≠ [0x2E] ∧ g ≠ [0x2E, 0x2E]) ∧ (g ∈ st ∨ g ∈ gs ∨ g = []) := by
  have hpush : ∀ {st : List (List UInt8)} {x : List UInt8}, (∀ g ∈ st, g ≠ [0x2E] ∧ g ≠ [0x2E, 0x2E]) →
      x ≠ [0x2E] ∧ x ≠ [0x2E, 0x2E] → ∀ g ∈ x :: st, g ≠ [0x2E] ∧ g ≠ [0x2E, 0x2E] := fun hst hx =>
    List.forall_mem_cons.mpr ⟨hx, hst⟩
  have htail : ∀ g ∈ st.tail, g ∈ st := fun g hg => List.mem_of_mem_tail hg
  induction gs generalizing st with
  | nil =>
    intro g hg
    have hmem := List.mem_reverse.mp hg
    exact ⟨hst g hmem, Or.inl hmem⟩
  | cons y gs ih =>
    by_cases hnil : gs = []
    · subst hnil
      rw [dotSegments]
      split_ifs with h1 h2
      · intro g hg
        have hmem := List.mem_reverse.mp hg
        exact ⟨hpush hst (by decide) g hmem, (List.mem_cons.mp hmem).elim (fun h => Or.inr (Or.inr h)) Or.inl⟩
      · intro g hg
        have hmem := List.mem_reverse.mp hg
        exact ⟨hpush (fun g hg => hst g (htail g hg)) (by decide) g hmem,
          (List.mem_cons.mp hmem).elim (fun h => Or.inr (Or.inr h)) fun h => Or.inl (htail g h)⟩
      · intro g hg
        have hmem := List.mem_reverse.mp hg
        exact ⟨hpush hst ⟨h1, h2⟩ g hmem, (List.mem_cons.mp hmem).elim (fun h => Or.inr (Or.inl (by simp [h]))) Or.inl⟩
    · rw [dotSegments_cons hnil]
      split_ifs with h1 h2
      · intro g hg
        obtain ⟨hdots, hmem⟩ := ih hst htail g hg
        exact ⟨hdots, hmem.imp_right fun h => h.imp_left (List.mem_cons_of_mem _)⟩
      · intro g hg
        obtain ⟨hdots, hmem⟩ := ih (fun g hg => hst g (htail g hg)) (fun g hg => List.mem_of_mem_tail hg) g hg
        exact ⟨hdots, hmem.imp (htail g) fun h => h.imp_left (List.mem_cons_of_mem _)⟩
      · intro g hg
        obtain ⟨hdots, hmem⟩ := ih (hpush hst ⟨h1, h2⟩) (fun g hg => List.mem_of_mem_tail hg) g hg
        refine ⟨hdots, ?_⟩
        rcases hmem with hmem | hmem | hmem
        · exact (List.mem_cons.mp hmem).elim (fun h => Or.inr (Or.inl (by simp [h]))) Or.inl
        · exact Or.inr (Or.inl (List.mem_cons_of_mem _ hmem))
        · exact Or.inr (Or.inr hmem)

theorem noDots_tilde (hplain : Plain 0x2F gs) (hdots : ∀ g ∈ gs, g ≠ [0x2E] ∧ g ≠ [0x2E, 0x2E]) :
    [0x2E] ∉ (tilde (join 0x2F gs)).splitOn 0x2F ∧ [0x2E, 0x2E] ∉ (tilde (join 0x2F gs)).splitOn 0x2F := by
  have hhead : (0x2F : UInt8) ∉ ([] : List UInt8) := List.not_mem_nil
  have htilde : tilde (join 0x2F gs) = [] ++ join 0x2F (gs.map tilde) := @tilde_join [] gs
  have hplain' : Plain 0x2F (gs.map tilde) := by
    intro g hg hslash
    obtain ⟨g', hg', rfl⟩ := List.mem_map.mp hg
    exact (mem_tilde hslash).elim (hplain g' hg') fun h => absurd h (by decide)
  have hsame : ∀ {t : List UInt8}, (∀ c ∈ t, c = 0x2E) → t ∈ gs.map tilde → t ∈ gs := by
    intro t ht hmem
    obtain ⟨g, hg, rfl⟩ := List.mem_map.mp hmem
    rwa [eq_of_tilde_dots ht]
  rw [htilde, splitOn_join hhead hplain']
  constructor
  · intro hmem
    rcases List.mem_cons.mp hmem with h | h
    · cases h
    · exact (hdots _ (hsame (by simp) h)).1 rfl
  · intro hmem
    rcases List.mem_cons.mp hmem with h | h
    · cases h
    · exact (hdots _ (hsame (by simp) h)).2 rfl

/-- `UdmURLNormalizePath` has the result of the general algorithm for dot segments, applied to the path with one slash
for several ones. -/
def RemovesDots (s : List UInt8) : Prop := udmURLNormalizePath s = some (removeDotSegments (collapseSlashes s))

/-- `~` is written for `%7E`, a `.` or an empty segment before a `..` is gone back over, and `/..` and `/.` are not
handled. -/
theorem not_removesDots :
    ¬ RemovesDots (bytes "/%7Eu") ∧ ¬ RemovesDots (bytes "/a/./../b") ∧ ¬ RemovesDots (bytes "/a//../b") ∧
      ¬ RemovesDots (bytes "/..") ∧ ¬ RemovesDots (bytes "/.") := by
  simp only [RemovesDots]
  decide +kernel

/-- **On a regular path, `UdmURLNormalizePath` ends, stays inside of the string, and removes the dot segments as the
general algorithm does.** -/
theorem udmURLNormalizePath_regular {s : List UInt8} (hroot : s.head? = some 0x2F) (hquery : (0x3F : UInt8) ∉ s)
    (h : Regular [] (s.splitOn 0x2F).tail) :
    udmURLNormalizePath s = some (tilde (removeDotSegments (collapseSlashes s))) ∧
      [0x2E] ∉ (tilde (removeDotSegments (collapseSlashes s))).splitOn 0x2F ∧
      [0x2E, 0x2E] ∉ (tilde (removeDotSegments (collapseSlashes s))).splitOn 0x2F ∧
      (∀ t, LoopsEnd t) ∧
      ∀ before (b : Written UInt8), b.str = s →
        (udmURLNormalizePathIn before b).str = tilde (removeDotSegments (collapseSlashes s)) ∧
          b.Shrinks (udmURLNormalizePathIn before b) := by
  obtain ⟨rest, rfl⟩ := List.head?_eq_some_iff.mp hroot
  have hsplit : (0x2F :: rest).splitOn 0x2F = [] :: rest.splitOn 0x2F := by
    rw [List.splitOn_cons_eq_if_modifyHead, if_pos (beq_self_eq_true _)]
  have hplain := plain_splitOn hsplit
  have hjoin : 0x2F :: rest = join 0x2F (rest.splitOn 0x2F) := eq_join_of_splitOn hsplit
  rw [hsplit, List.tail_cons] at h
  rcases List.eq_nil_or_concat (rest.splitOn 0x2F) with hnil | ⟨init, x, hinit⟩
  · exact absurd hnil (List.splitOn_ne_nil _ _)
  rw [List.concat_eq_append] at hinit
  rw [hinit] at hplain h hjoin
  have hplain' : Plain 0x2F (init.filter (· ≠ []) ++ [x]) := by
    intro g hg
    rcases List.mem_append.mp hg with hg | hg
    · exact hplain g (List.mem_append_left _ (List.mem_of_mem_filter hg))
    · exact hplain g (List.mem_append_right _ hg)
  have hgeneral : removeDotSegments (collapseSlashes (0x2F :: rest)) =
      join 0x2F (dotSegments [] (init.filter (· ≠ []) ++ [x])) := by
    rw [hjoin, collapseSlashes_join hplain, removeDotSegments]
    exact @removeDotSegments_join [] _ (by simp [Plain]) hplain' _ le_rfl
  have hresult := normalizePath_join hplain h
  rw [← hjoin, ← hgeneral] at hresult
  have hmem := @mem_dotSegments [] (init.filter (· ≠ []) ++ [x]) (by simp)
  have hnodots := noDots_tilde (fun g hg => ?_) (fun g hg => (hmem g hg).1)
  · rw [← hgeneral] at hnodots
    refine ⟨by rw [udmURLNormalizePath_eq hquery, hresult], hnodots.1, hnodots.2, loopsEnd, fun before b hb => ?_⟩
    refine ⟨?_, shrinks_udmURLNormalizePathIn before b⟩
    rw [udmURLNormalizePathIn, hb, strchr_eq_none hquery]
    exact str_normalizePathIn (by rw [hb, hresult])
  · rcases (hmem g hg).2 with h | h | h
    · cases h
    · exact hplain' g h
    · rw [h]
      exact List.not_mem_nil

/-- `/a/b/../%7Eu/./c//d/..` is regular. -/
theorem udmURLNormalizePath_regular_home :
    udmURLNormalizePath (bytes "/a/b/../%7Eu/./c//d/..") =
      some (tilde (removeDotSegments (collapseSlashes (bytes "/a/b/../%7Eu/./c//d/..")))) :=
  (@udmURLNormalizePath_regular (bytes "/a/b/../%7Eu/./c//d/..") (by decide) (by decide) (by decide +kernel)).1

end MnoGoSearch.Url
