import MnoGoSearch.Lib.SegmentStack
import MnoGoSearch.Url.Buffers

/-!
# Dot segments

`UdmURLNormalizePath` (`url.c`) over segments: its passes read a path from the left to the right, with the
segments passed so far on a stack (`removeDotDots_text` and the lemmas behind it). The general algorithm that
removes dot segments works on such a stack too (`removeDotSegments_join`), but it never has the segments `.` and
the empty ones there.
-/

namespace MnoGoSearch.Url

open Lib Lib.Segments

/-! ## Going back -/

/-- Empty segments on the top go away; the first one of a path from the root stays. -/
def dropEmpty (h : List UInt8) : List (List UInt8) → List (List UInt8)
  | [] => []
  | [] :: st => if h = [] ∧ st = [] then [[]] else dropEmpty h st
  | (c :: t) :: st => (c :: t) :: st

/-- What a segment `..` between two slashes goes back over. -/
def goBack : Passed UInt8 → Passed UInt8
  | (_, []) => ([], [])
  | (h, _ :: st) => (h, dropEmpty h st)

theorem dropEmpty_subset (h : List UInt8) (st : List (List UInt8)) : dropEmpty h st ⊆ st := by
  induction st with
  | nil => exact List.Subset.refl _
  | cons t st ih =>
    rcases t with _ | ⟨c, t⟩
    · rw [dropEmpty]
      split_ifs with hroot
      · rw [hroot.2]
        exact List.Subset.refl _
      · exact List.subset_cons_of_subset _ ih
    · exact List.Subset.refl _

theorem goBack_subset (σ : Passed UInt8) : (goBack σ).2 ⊆ σ.2 := by
  obtain ⟨h, _ | ⟨t, st⟩⟩ := σ
  · exact List.Subset.refl _
  · exact List.subset_cons_of_subset _ (dropEmpty_subset h st)

variable {g x h B : List UInt8} {σ : Passed UInt8} {gs st : List (List UInt8)} {k : ℕ}

theorem clean_goBack (h : Clean 0x2F g σ) : Clean 0x2F g (goBack σ) where
  head := by
    obtain ⟨h', _ | ⟨t, st⟩⟩ := σ
    · exact List.not_mem_nil
    · exact h.head
  plain := fun x hx => h.plain x (goBack_subset σ hx)
  gone := fun hmem => h.gone (goBack_subset σ hmem)

@[simp] theorem text_nil (h : List UInt8) : text 0x2F (h, []) [] = h := by
  simp [text]

theorem text_cons (h : List UInt8) (t : List UInt8) (st : List (List UInt8)) :
    text 0x2F (h, t :: st) [] = text 0x2F (h, st) [] ++ 0x2F :: t := by
  simp [text]

theorem skipNonSlashes_append {A t : List UInt8} (ht : (0x2F : UInt8) ∉ t) (hk : k ≤ t.length) :
    skipNonSlashes (A ++ 0x2F :: (t ++ B)) (A.length + k) = A.length := by
  induction k with
  | zero =>
    rw [Nat.add_zero]
    rcases A with _ | ⟨a, A⟩
    · rfl
    · rw [List.length_cons, skipNonSlashes, if_pos]
      simp
  | succ k ih =>
    have hget : (A ++ 0x2F :: (t ++ B))[A.length + k + 1]? = t[k]? := by
      rw [List.getElem?_append_right (by omega), show A.length + k + 1 - A.length = k + 1 by omega,
        List.getElem?_cons_succ, List.getElem?_append_left (by omega)]
    rw [← Nat.add_assoc, skipNonSlashes, if_neg, ih (by omega)]
    rw [hget]
    exact fun h => ht (List.mem_of_getElem? h)

theorem skipNonSlashes_head (hh : (0x2F : UInt8) ∉ h) (hk : k < h.length) : skipNonSlashes (h ++ B) k = 0 := by
  induction k with
  | zero => rfl
  | succ k ih =>
    rw [skipNonSlashes, if_neg, ih (by omega)]
    rw [List.getElem?_append_left hk]
    exact fun hget => hh (List.mem_of_getElem? hget)

theorem skipSlashes_text (hh : (0x2F : UInt8) ∉ h) (hst : Plain 0x2F st) (B : List UInt8) :
    skipSlashes (text 0x2F (h, st) [] ++ B) (text 0x2F (h, st) []).length = (text 0x2F (h, dropEmpty h st) []).length := by
  have hstop : ∀ {s t : List UInt8} {p : ℕ}, p + 1 < s.length → s.length = p + 2 → s[p + 1]? ≠ some 0x2F →
      skipSlashes (s ++ t) s.length = s.length := by
    intro s t p hlt hlen hs
    rw [hlen, skipSlashes, if_neg]
    rwa [List.getElem?_append_left hlt]
  induction st generalizing B with
  | nil =>
    rw [dropEmpty, text_nil]
    rcases hlen : h.length with _ | _ | p
    · rfl
    · rfl
    · rw [← hlen]
      exact hstop (show p + 1 < h.length by omega) hlen fun hget => hh (List.mem_of_getElem? hget)
  | cons t st ih =>
    obtain ⟨ht, hrest⟩ := plain_cons.mp hst
    rcases t with _ | ⟨c, t⟩
    · rw [dropEmpty, text_cons, List.append_assoc, List.length_append, List.length_singleton]
      by_cases hroot : h = [] ∧ st = []
      · obtain ⟨rfl, rfl⟩ := hroot
        rw [if_pos ⟨rfl, rfl⟩]
        rfl
      · rw [if_neg hroot, ← ih hrest ([0x2F] ++ B)]
        have hpos : 0 < (text 0x2F (h, st) []).length := by
          rcases st with _ | ⟨t, st⟩
          · rw [text_nil]
            exact List.length_pos_of_ne_nil fun hnil => hroot ⟨hnil, rfl⟩
          · rw [text_cons, List.length_append, List.length_cons]
            omega
        obtain ⟨q, hq⟩ := Nat.exists_eq_add_of_le' hpos
        rw [hq, skipSlashes, if_pos]
        rw [List.getElem?_append_right (by omega), hq]
        simp
    · have hlen : (text 0x2F (h, (c :: t) :: st) []).length = (text 0x2F (h, st) []).length + t.length + 2 := by
        rw [text_cons, List.length_append, List.length_cons, List.length_cons]
        omega
      rw [dropEmpty]
      refine hstop (by omega) hlen fun hget => ht ?_
      rw [text_cons, List.getElem?_append_right (by omega),
        show (text 0x2F (h, st) []).length + t.length + 1 - (text 0x2F (h, st) []).length = t.length + 1 by omega,
        List.getElem?_cons_succ] at hget
      exact List.mem_of_getElem? hget

theorem isPrefix_text_dropEmpty (h : List UInt8) (st : List (List UInt8)) :
    text 0x2F (h, dropEmpty h st) [] <+: text 0x2F (h, st) [] := by
  induction st with
  | nil => exact List.prefix_refl _
  | cons t st ih =>
    rcases t with _ | ⟨c, t⟩
    · rw [dropEmpty]
      split_ifs with hroot
      · rw [hroot.2]
      · refine ih.trans ?_
        rw [text_cons]
        exact List.prefix_append _ _
    · exact List.prefix_refl _

theorem isPrefix_text_goBack (σ : Passed UInt8) : text 0x2F (goBack σ) [] <+: text 0x2F σ [] := by
  obtain ⟨h, _ | ⟨t, st⟩⟩ := σ
  · exact List.nil_prefix
  · refine (isPrefix_text_dropEmpty h st).trans ?_
    rw [text_cons]
    exact List.prefix_append _ _

/-- **Removing an entry `/../` goes back over what is on the stack.** -/
theorem removeDotDot_text (hσ : Clean 0x2F g σ) (y : List UInt8) (gs : List (List UInt8)) :
    removeDotDot (text 0x2F σ ([0x2E, 0x2E] :: y :: gs)) (text 0x2F σ []).length = text 0x2F (goBack σ) (y :: gs) := by
  have hdrop : (text 0x2F σ ([0x2E, 0x2E] :: y :: gs)).drop ((text 0x2F σ []).length + 3) = join 0x2F (y :: gs) := by
    rw [text_eq_append σ ([0x2E, 0x2E] :: y :: gs), List.drop_append]
    simp
  have hhead := hσ.head
  have hplain := hσ.plain
  obtain ⟨h, _ | ⟨t, st⟩⟩ := σ
  · -- nothing but the head has been passed
    rw [text_nil] at hdrop ⊢
    have hback : text 0x2F (goBack (h, [])) (y :: gs) = join 0x2F (y :: gs) := by
      rw [goBack, text]
      simp
    rw [removeDotDot, hback]
    split_ifs with hpos
    · have hskip : skipNonSlashes (text 0x2F (h, []) ([0x2E, 0x2E] :: y :: gs)) (h.length - 1) = 0 := by
        rw [text_eq_append, text_nil]
        exact skipNonSlashes_head hhead (Nat.sub_lt hpos Nat.one_pos)
      rw [hskip, hdrop]
      rfl
    · rw [Nat.eq_zero_of_not_pos hpos] at hdrop
      exact hdrop
  · obtain ⟨ht, hst⟩ := plain_cons.mp hplain
    have hlen : (text 0x2F (h, t :: st) []).length = (text 0x2F (h, st) []).length + t.length + 1 := by
      rw [text_cons, List.length_append, List.length_cons]
      omega
    have htext : text 0x2F (h, t :: st) ([0x2E, 0x2E] :: y :: gs) =
        text 0x2F (h, st) [] ++ 0x2F :: (t ++ join 0x2F ([0x2E, 0x2E] :: y :: gs)) := by
      rw [text_eq_append, text_cons, List.append_assoc]
      rfl
    rw [removeDotDot, if_pos (by omega), hdrop]
    have hback : skipNonSlashes (text 0x2F (h, t :: st) ([0x2E, 0x2E] :: y :: gs)) ((text 0x2F (h, t :: st) []).length - 1) =
        (text 0x2F (h, st) []).length := by
      rw [hlen, Nat.add_sub_cancel, htext]
      exact skipNonSlashes_append ht le_rfl
    rw [hback, htext, skipSlashes_text hhead hst, goBack, text_eq_append (h, dropEmpty h st) (y :: gs)]
    congr 1
    obtain ⟨B, hB⟩ := isPrefix_text_dropEmpty h st
    rw [← hB, List.append_assoc, List.take_left]

/-! ## The passes over segments -/

/-- What a trailing `..` does; there is nothing to go back over in front of a path from the root. -/
def upAtEnd : Passed UInt8 → Option (Passed UInt8)
  | (h, []) => some (h, [])
  | (h, [g]) => if g = [0x2E, 0x2E] then if h = [] then none else some ([], [[]]) else some (h, [g])
  | (h, g :: t :: st) => if g = [0x2E, 0x2E] then some (h, [] :: st) else some (h, g :: t :: st)

theorem upAtEnd_of_ne (hg : g ≠ [0x2E, 0x2E]) : upAtEnd (h, g :: st) = some (h, g :: st) := by
  cases st with
  | nil => rw [upAtEnd, if_neg hg]
  | cons t st => rw [upAtEnd, if_neg hg]

theorem clean_head {g h : List UInt8} (hh : (0x2F : UInt8) ∉ h) : Clean 0x2F g (h, []) :=
  ⟨hh, by simp [Plain], List.not_mem_nil⟩

theorem run_goBack (hh : (0x2F : UInt8) ∉ h) (hgs : Plain 0x2F gs)
    (hne : gs ≠ []) :
    ∃ h' st last, run [0x2E, 0x2E] goBack (h, []) gs = (h', last :: st) ∧ Clean 0x2F [0x2E, 0x2E] (h', st) ∧
      ∀ y ∈ last :: st, y ∈ gs := by
  obtain ⟨h', st, last, hrun, -, hclean⟩ := clean_run (fun _ => clean_goBack) hgs (@clean_head [0x2E, 0x2E] h hh) hne
  refine ⟨h', st, last, hrun, hclean, fun y hy => ?_⟩
  have hy' : y ∈ (run [0x2E, 0x2E] goBack (h, []) gs).2 := by
    rw [hrun]
    exact hy
  exact (mem_run goBack_subset hy').resolve_left List.not_mem_nil

theorem removeDotDots_text {h : List UInt8} (hh : (0x2F : UInt8) ∉ h) {gs : List (List UInt8)} (hgs : Plain 0x2F gs)
    (hne : gs ≠ []) : removeDotDots (h ++ join 0x2F gs) = text 0x2F (run [0x2E, 0x2E] goBack (h, []) gs) [] :=
  @rewriteAll_run _ 0x2F _ [0x2E, 0x2E] removeDotDot goBack (by decide) (fun _ y gs hσ _ => removeDotDot_text hσ y gs)
    (fun _ => clean_goBack) (fun σ _ => (isPrefix_text_goBack σ).length_le) gs hgs (h, []) (clean_head hh) hne _ le_rfl

theorem getLast?_text (hh : (0x2F : UInt8) ∉ h) (hst : Plain 0x2F (g :: st)) :
    ((text 0x2F (h, g :: st) []).splitOn 0x2F).tail.getLast? = some g := by
  rw [text, List.append_nil, splitOn_join hh (plain_reverse.mpr hst), List.tail_cons]
  simp

theorem removeTrailingDotDot_text (hh : (0x2F : UInt8) ∉ h) (hst : Plain 0x2F (g :: st)) :
    removeTrailingDotDot (text 0x2F (h, g :: st) []) = (upAtEnd (h, g :: st)).map (text 0x2F · []) := by
  have hlast := @drop_eq_iff (text 0x2F (h, g :: st) []) [0x2E, 0x2E] (by decide)
  simp only [List.length_cons, List.length_nil] at hlast
  rw [getLast?_text hh hst, Option.some.injEq] at hlast
  rw [removeTrailingDotDot]
  by_cases hg : g = [0x2E, 0x2E]
  · rw [if_pos (hlast.mpr hg)]
    subst hg
    rcases st with _ | ⟨t, st⟩
    · -- nothing but the head stands before it
      have htext : text 0x2F (h, [[0x2E, 0x2E]]) [] = h ++ [0x2F, 0x2E, 0x2E] := by simp [text]
      rw [htext, upAtEnd, if_pos rfl]
      rcases h with _ | ⟨c, h⟩
      · rfl
      · rw [if_neg (by simp), if_neg (List.cons_ne_nil _ _), List.length_append, List.length_cons]
        have hskip : skipNonSlashes (c :: h ++ [0x2F, 0x2E, 0x2E]) (h.length + 1 + 3 - 4) = 0 :=
          skipNonSlashes_head hh (by rw [List.length_cons]; omega)
        have hc : ¬ (c :: h ++ [0x2F, 0x2E, 0x2E])[0]? = some 0x2F := fun hget =>
          hh (by rw [Option.some.inj hget]; exact List.mem_cons_self)
        simp only [List.length_cons, List.length_nil, hskip, if_neg hc]
        rfl
    · obtain ⟨ht, -⟩ := plain_cons.mp (plain_cons.mp hst).2
      have htext : text 0x2F (h, [0x2E, 0x2E] :: t :: st) [] = text 0x2F (h, st) [] ++ 0x2F :: (t ++ [0x2F, 0x2E, 0x2E]) := by
        rw [text_cons, text_cons, List.append_assoc]
        rfl
      have hlen : (text 0x2F (h, [0x2E, 0x2E] :: t :: st) []).length = (text 0x2F (h, st) []).length + t.length + 4 := by
        rw [htext, List.length_append, List.length_cons, List.length_append]
        simp only [List.length_cons, List.length_nil]
        omega
      have hskip : skipNonSlashes (text 0x2F (h, [0x2E, 0x2E] :: t :: st) [])
          ((text 0x2F (h, [0x2E, 0x2E] :: t :: st) []).length - 4) = (text 0x2F (h, st) []).length := by
        rw [hlen, Nat.add_sub_cancel, htext]
        exact skipNonSlashes_append ht le_rfl
      rw [if_neg (by omega)]
      dsimp only
      rw [hskip, if_pos (by rw [htext, List.getElem?_append_right le_rfl, Nat.sub_self]; rfl), upAtEnd, if_pos rfl,
        Option.map_some, htext, text_cons, List.take_length_add_append]
      rfl
  · rw [if_neg fun hend => hg (hlast.mp hend), upAtEnd_of_ne hg]
    rfl

theorem removeDots_join (hh : (0x2F : UInt8) ∉ h) (hgs : Plain 0x2F (gs ++ [x])) :
    removeDots (h ++ join 0x2F (gs ++ [x])) = h ++ join 0x2F (gs.filter (· ≠ [0x2E]) ++ [x]) := by
  refine @rewriteAll_filter _ 0x2F _ [0x2E] (fun str d => str.take d ++ str.drop (d + 2)) (by decide) (fun A B => ?_) h hh
    gs x hgs _ le_rfl
  simp [List.drop_append]

theorem removeTrailingDot_join (hh : (0x2F : UInt8) ∉ h)
    (hgs : Plain 0x2F (gs ++ [x])) :
    removeTrailingDot (h ++ join 0x2F (gs ++ [x])) =
      h ++ join 0x2F (gs ++ [if x = [0x2E] ∧ ¬ (h = [] ∧ gs = []) then [] else x]) := by
  have hlast := @drop_eq_iff (h ++ join 0x2F (gs ++ [x])) [0x2E] (by decide)
  simp only [List.length_cons, List.length_nil] at hlast
  rw [splitOn_join hh hgs, List.tail_cons, List.getLast?_concat, Option.some.injEq] at hlast
  have hlen : (h ++ join 0x2F (gs ++ [x])).length = h.length + (join 0x2F gs).length + x.length + 1 := by
    simp
    omega
  have hempty : h.length + (join 0x2F gs).length = 0 ↔ h = [] ∧ gs = [] := by
    rw [Nat.add_eq_zero_iff, List.length_eq_zero_iff, List.length_eq_zero_iff]
    cases gs <;> simp
  rw [removeTrailingDot]
  by_cases hx : x = [0x2E]
  · subst hx
    rw [List.length_singleton] at hlen
    by_cases hroot : h = [] ∧ gs = []
    · rw [if_neg fun hend => absurd (hempty.mpr hroot) (by omega), if_neg fun hend => hend.2 hroot]
    · have hpos : h.length + (join 0x2F gs).length ≠ 0 := fun h0 => hroot (hempty.mp h0)
      have htext : h ++ join 0x2F (gs ++ [[0x2E]]) = (h ++ join 0x2F (gs ++ [[]])) ++ [0x2E] := by simp
      have hlen' : (h ++ join 0x2F (gs ++ [[]])).length = h.length + (join 0x2F gs).length + 1 := by
        simp
        omega
      rw [if_pos ⟨by omega, (hlast.mpr rfl).2⟩, if_pos ⟨rfl, hroot⟩, htext, List.take_left']
      simp only [List.length_append, List.length_singleton, Nat.add_sub_cancel]
  · rw [if_neg fun hend => hx (hlast.mp ⟨by omega, hend.2⟩), if_neg fun hend => hx hend.1]

theorem removeSlashes_join (hh : (0x2F : UInt8) ∉ h) (hgs : Plain 0x2F (gs ++ [x])) :
    removeSlashes (h ++ join 0x2F (gs ++ [x])) = h ++ join 0x2F (gs.filter (· ≠ []) ++ [x]) := by
  refine @rewriteAll_filter _ 0x2F _ [] (fun str d => str.take d ++ str.drop (d + 1)) List.not_mem_nil (fun A B => ?_) h hh
    gs x hgs _ le_rfl
  simp [List.drop_append]

/-! ## The general algorithm -/

/-- Take the last segment of the output away, with the slash before it. -/
def dropSegment (out : List UInt8) : List UInt8 := (out.reverse.dropWhile (· ≠ 0x2F)).tail.reverse

/-- Remove the dot segments of a path (RFC 3986, 5.2.4), at most `fuel` steps: the output buffer, and the input
buffer. -/
def removeDotSegmentsFrom : ℕ → List UInt8 → List UInt8 → List UInt8
  | 0, out, _ => out
  | fuel + 1, out, input =>
    if input = [] then out
    -- A
    else if input.take 3 = [0x2E, 0x2E, 0x2F] then removeDotSegmentsFrom fuel out (input.drop 3)
    else if input.take 2 = [0x2E, 0x2F] then removeDotSegmentsFrom fuel out (input.drop 2)
    -- B
    else if input.take 3 = [0x2F, 0x2E, 0x2F] then removeDotSegmentsFrom fuel out (input.drop 2)
    else if input = [0x2F, 0x2E] then removeDotSegmentsFrom fuel out [0x2F]
    -- C
    else if input.take 4 = [0x2F, 0x2E, 0x2E, 0x2F] then removeDotSegmentsFrom fuel (dropSegment out) (input.drop 3)
    else if input = [0x2F, 0x2E, 0x2E] then removeDotSegmentsFrom fuel (dropSegment out) [0x2F]
    -- D
    else if input = [0x2E] ∨ input = [0x2E, 0x2E] then removeDotSegmentsFrom fuel out []
    -- E
    else
      removeDotSegmentsFrom fuel (out ++ input.take 1 ++ (input.drop 1).takeWhile (· ≠ 0x2F))
        ((input.drop 1).dropWhile (· ≠ 0x2F))

/-- Remove the dot segments of a path. -/
def removeDotSegments (path : List UInt8) : List UInt8 := removeDotSegmentsFrom path.length [] path

/-- Make one slash of several ones. -/
@[grind =] def collapseSlashes : List UInt8 → List UInt8
  | [] => []
  | [c] => [c]
  | c :: d :: s => if c = 0x2F ∧ d = 0x2F then collapseSlashes (d :: s) else c :: collapseSlashes (d :: s)

/-- `removeDotSegments` over segments: those in the output, the last one on top, and those in the input. -/
def dotSegments : List (List UInt8) → List (List UInt8) → List (List UInt8)
  | st, [] => st.reverse
  | st, [g] =>
    if g = [0x2E] then ([] :: st).reverse
    else if g = [0x2E, 0x2E] then ([] :: st.tail).reverse
    else (g :: st).reverse
  | st, g :: y :: gs =>
    if g = [0x2E] then dotSegments st (y :: gs)
    else if g = [0x2E, 0x2E] then dotSegments st.tail (y :: gs)
    else dotSegments (g :: st) (y :: gs)

theorem dotSegments_cons {st : List (List UInt8)} {g : List UInt8} {gs : List (List UInt8)} (hne : gs ≠ []) :
    dotSegments st (g :: gs) =
      if g = [0x2E] then dotSegments st gs
      else if g = [0x2E, 0x2E] then dotSegments st.tail gs else dotSegments (g :: st) gs := by
  obtain ⟨y, gs, rfl⟩ := List.exists_cons_of_ne_nil hne
  rw [dotSegments]

theorem dropSegment_join (hst : Plain 0x2F st) : dropSegment (join 0x2F st.reverse) = join 0x2F st.tail.reverse := by
  rcases st with _ | ⟨t, st⟩
  · rfl
  · have ht : ∀ c ∈ t.reverse, decide (c ≠ 0x2F) = true := fun c hc => by
      simpa using fun hslash : c = 0x2F => (plain_cons.mp hst).1 (hslash ▸ List.mem_reverse.mp hc)
    have htext : (join 0x2F (t :: st).reverse).reverse = t.reverse ++ 0x2F :: (join 0x2F st.reverse).reverse := by
      simp
    rw [dropSegment, htext, List.dropWhile_append_of_pos ht, List.dropWhile_cons_of_neg (by decide), List.tail_cons,
      List.reverse_reverse, List.tail_cons]

theorem takeWhile_join (hg : (0x2F : UInt8) ∉ g) (gs : List (List UInt8)) :
    (g ++ join 0x2F gs).takeWhile (· ≠ 0x2F) = g ∧ (g ++ join 0x2F gs).dropWhile (· ≠ 0x2F) = join 0x2F gs := by
  have hne : ∀ c ∈ g, decide (c ≠ 0x2F) = true := fun c hc => by simpa using fun hslash : c = 0x2F => hg (hslash ▸ hc)
  rw [List.takeWhile_append_of_pos hne, List.dropWhile_append_of_pos hne]
  cases gs with
  | nil => exact ⟨List.append_nil g, rfl⟩
  | cons x gs =>
    rw [join_cons, List.takeWhile_cons_of_neg (by decide), List.dropWhile_cons_of_neg (by decide), List.append_nil]
    exact ⟨rfl, rfl⟩

/-- A pattern of a slash, dots and a slash stands at the front exactly when the segment there is these dots. -/
theorem take_join_iff {g w : List UInt8} (hg : (0x2F : UInt8) ∉ g) (hw : (0x2F : UInt8) ∉ w) (gs : List (List UInt8)) :
    ((join 0x2F (g :: gs)).take (w.length + 2) = 0x2F :: (w ++ [0x2F]) ↔ g = w ∧ gs ≠ []) ∧
      (join 0x2F (g :: gs) = 0x2F :: w ↔ g = w ∧ gs = []) := by
  constructor
  · rw [join_cons]
    constructor
    · intro h
      obtain ⟨B, hB⟩ : (w ++ [0x2F]) <+: g ++ join 0x2F gs := by
        have hcons : (g ++ join 0x2F gs).take (w.length + 1) = w ++ [0x2F] := (List.cons.inj h).2
        rw [← hcons]
        exact List.take_prefix _ _
      have hparts := takeWhile_join hg gs
      have hparts' := takeWhile_join hw [B]
      rw [← hB, List.append_assoc] at hparts
      have hsame : w ++ join 0x2F [B] = w ++ ([0x2F] ++ B) := by simp
      rw [hsame] at hparts'
      refine ⟨hparts.1.symm.trans hparts'.1, fun hnil => ?_⟩
      have hjoin := hparts.2.symm.trans hparts'.2
      rw [hnil] at hjoin
      cases hjoin
    · rintro ⟨rfl, hne⟩
      obtain ⟨y, gs, rfl⟩ := List.exists_cons_of_ne_nil hne
      have htext : 0x2F :: (g ++ join 0x2F (y :: gs)) = (0x2F :: (g ++ [0x2F])) ++ (y ++ join 0x2F gs) := by simp
      rw [htext]
      exact List.take_left' (by simp)
  · rw [join_cons, List.cons.injEq]
    constructor
    · rintro ⟨-, h⟩
      have hparts := takeWhile_join hg gs
      have hparts' := takeWhile_join hw []
      rw [h] at hparts
      rw [join_nil, List.append_nil] at hparts'
      refine ⟨hparts.1.symm.trans hparts'.1, ?_⟩
      have hjoin := hparts.2.symm.trans hparts'.2
      cases gs with
      | nil => rfl
      | cons x gs => cases hjoin
    · rintro ⟨rfl, rfl⟩
      exact ⟨rfl, List.append_nil g⟩

/-- **The algorithm over segments.** -/
theorem removeDotSegments_join {st gs : List (List UInt8)} (hst : Plain 0x2F st) (hgs : Plain 0x2F gs) {fuel : ℕ}
    (hfuel : (join 0x2F gs).length ≤ fuel) :
    removeDotSegmentsFrom fuel (join 0x2F st.reverse) (join 0x2F gs) = join 0x2F (dotSegments st gs) := by
  have hend : ∀ fuel (out : List UInt8), removeDotSegmentsFrom fuel out [] = out := by
    intro fuel out
    cases fuel with
    | zero => rfl
    | succ fuel => rw [removeDotSegmentsFrom, if_pos rfl]
  have hslash : ∀ fuel (out : List UInt8), 1 ≤ fuel → removeDotSegmentsFrom fuel out [0x2F] = out ++ [0x2F] := by
    intro fuel out hpos
    obtain ⟨fuel, rfl⟩ := Nat.exists_eq_add_of_le' hpos
    exact (hend fuel _).trans (List.append_nil _)
  induction gs generalizing st fuel with
  | nil => rw [join_nil, hend, dotSegments]
  | cons g gs ih =>
    obtain ⟨hg, hrest⟩ := plain_cons.mp hgs
    have hlen : (join 0x2F (g :: gs)).length = g.length + (join 0x2F gs).length + 1 := by
      rw [join_cons, List.length_cons, List.length_append]
    obtain ⟨fuel, rfl⟩ := Nat.exists_eq_add_of_le' (show 1 ≤ fuel by omega)
    obtain ⟨hdot, hdotEnd⟩ := @take_join_iff g [0x2E] hg (by decide) gs
    obtain ⟨hdotdot, hdotdotEnd⟩ := @take_join_iff g [0x2E, 0x2E] hg (by decide) gs
    simp only [List.length_cons, List.length_nil, List.cons_append, List.nil_append] at hdot hdotdot
    have hne : join 0x2F (g :: gs) ≠ [] := List.cons_ne_nil _ _
    have hA1 : (join 0x2F (g :: gs)).take 3 ≠ [0x2E, 0x2E, 0x2F] := fun h => absurd (List.cons.inj h).1 (by decide)
    have hA2 : (join 0x2F (g :: gs)).take 2 ≠ [0x2E, 0x2F] := fun h => absurd (List.cons.inj h).1 (by decide)
    have hD : ¬ (join 0x2F (g :: gs) = [0x2E] ∨ join 0x2F (g :: gs) = [0x2E, 0x2E]) := fun h =>
      h.elim (fun h => absurd (List.cons.inj h).1 (by decide)) fun h => absurd (List.cons.inj h).1 (by decide)
    rw [removeDotSegmentsFrom, if_neg hne, if_neg hA1, if_neg hA2]
    by_cases h1 : g = [0x2E]
    · subst h1
      rcases gs with _ | ⟨y, gs⟩
      · rw [if_neg fun h => (hdot.mp h).2 rfl, if_pos (hdotEnd.mpr ⟨rfl, rfl⟩), dotSegments, if_pos rfl]
        rw [hslash fuel _ (by rw [List.length_singleton] at hlen; omega), List.reverse_cons, join_append]
        rfl
      · rw [if_pos (hdot.mpr ⟨rfl, List.cons_ne_nil _ _⟩), dotSegments, if_pos rfl]
        exact ih hst hrest (by omega)
    · rw [if_neg fun h => h1 (hdot.mp h).1, if_neg fun h => h1 (hdotEnd.mp h).1]
      by_cases h2 : g = [0x2E, 0x2E]
      · subst h2
        have htail : Plain 0x2F st.tail := fun x hx => hst x (List.mem_of_mem_tail hx)
        rw [dropSegment_join hst]
        rcases gs with _ | ⟨y, gs⟩
        · rw [if_neg fun h => (hdotdot.mp h).2 rfl, if_pos (hdotdotEnd.mpr ⟨rfl, rfl⟩), dotSegments, if_neg h1, if_pos rfl]
          rw [hslash fuel _ (by simp only [List.length_cons] at hlen; omega), List.reverse_cons, join_append]
          rfl
        · rw [if_pos (hdotdot.mpr ⟨rfl, List.cons_ne_nil _ _⟩), dotSegments, if_neg h1, if_pos rfl]
          exact ih htail hrest (by simp only [List.length_cons] at hlen; omega)
      · -- the segment is moved to the output
        obtain ⟨htake, hdrop⟩ := takeWhile_join hg gs
        have hbehind : (join 0x2F (g :: gs)).drop 1 = g ++ join 0x2F gs := rfl
        have hout : join 0x2F st.reverse ++ (join 0x2F (g :: gs)).take 1 ++ g = join 0x2F (g :: st).reverse := by
          simp
        rw [if_neg fun h => h2 (hdotdot.mp h).1, if_neg fun h => h2 (hdotdotEnd.mp h).1, if_neg hD, hbehind, htake, hdrop, hout,
          ih (plain_cons.mpr ⟨hg, hst⟩) hrest (by omega)]
        rcases gs with _ | ⟨y, gs⟩
        · rw [dotSegments, dotSegments, if_neg h1, if_neg h2]
        · rw [@dotSegments_cons st g (y :: gs) (List.cons_ne_nil _ _), if_neg h1, if_neg h2]

end MnoGoSearch.Url
