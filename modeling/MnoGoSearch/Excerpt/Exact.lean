import MnoGoSearch.Excerpt.Slices
import MnoGoSearch.Lib.Alternation
import Mathlib

/-!
# When an excerpt is honest

`excerptRight_iff`: the excerpt of `UdmExcerptDoc` (`excerpt.c`) is honest exactly if every slice that it takes begins
behind the character after the slice before it, or right behind that slice where it ends with a highlighted word, leaves
out no end of a word, and has room for its dots, and the excerpt does not end inside of a word.
-/

namespace MnoGoSearch.Excerpt

open Highlight Lib.Alternation

/-! ## What is wanted -/

/-- A source in which the markers alternate, and that is in memory. -/
structure SourceText where
  source : List ℤ
  alternate : Alternate source
  /-- The integers and the zero behind them are in memory. -/
  inMemory : 4 * (source.length + 1) ≤ 2 ^ 63

section Borders

variable (s : List ℤ) (padding : ℕ)

/-- A space stands at a place. -/
def isSpaceAt (k : ℕ) : Bool := s[k]? == some 0x20

/-- A word begins at a place. -/
def isBeginAt (k : ℕ) : Bool := s[k]? == some 2

/-- Where a slice begins: at the first space from `padding` characters in front of the word on, but not in front of
`prevRight`; without a space there. -/
def leftOf (i prevRight : ℕ) : ℕ :=
  let left := max (i - padding) prevRight
  if left = 0 then 0 else ((List.range' left (i - left)).find? (isSpaceAt s)).getD left

/-- Where a slice ends that has no space in it: in front of the next word, or after `right`. -/
def wordEnd (j right : ℕ) : ℕ :=
  ((List.range' j (right - j)).find? (isBeginAt s)).elim right fun k => k - 1

/-- Where a slice ends: at the last space within `padding` characters behind the word, or at the end of the text. -/
def rightOf (j : ℕ) : ℕ :=
  if s.length ≤ padding + j then s.length - 1
  else ((List.range' (j + 1) padding).reverse.find? (isSpaceAt s)).getD (wordEnd s j (padding + j))

/-- The end of the word at `i`. -/
def endOf (i : ℕ) : ℕ := (find s 3 (i + 1)).getD s.length

/-- The slice around the word at `i`. -/
def sliceOf (st : ExcerptState) (i : ℕ) : Slice where
  left := leftOf s padding i st.prevRight
  right := rightOf s padding (endOf s i)
  dots := decide (leftOf s padding i st.prevRight ≠ st.prevRight)

/-- A place inside of a highlighted word. -/
def InsideWord (k : ℕ) : Prop := scan 2 3 false (s.take k) = some true

instance (k : ℕ) : Decidable (InsideWord s k) := inferInstanceAs (Decidable (_ = _))

/-- The condition on a slice. -/
structure StepOk (size : ℕ) (st : ExcerptState) (a : Slice) : Prop where
  /-- It is not next to the slice before it, unless that one ends with a word. -/
  apart : st.prevRight = st.i ∨ st.i < a.left
  /-- No end of a word is left out. -/
  noEnd : 3 ∉ (s.take a.left).drop st.i
  /-- There is room for its dots. -/
  room : a.left ≠ st.prevRight → st.used + 3 + (a.right + 1 - a.left) ≤ size

/-- The slices from a state on meet the condition, and the last one does not end inside of a word. -/
def RunOk (size : ℕ) : ℕ → ExcerptState → Prop
  | 0, _ => True
  | fuel + 1, st =>
    match find s 2 st.i with
    | none => ¬InsideWord s st.i
    | some i =>
      let a := sliceOf s padding st i
      if size < st.used + (a.right + 1 - a.left) then ¬InsideWord s st.i
      else StepOk s size st a ∧ RunOk size fuel (st.next s a)

/-- The first slice fits. -/
def FirstFits (size : ℕ) : Prop :=
  ∃ i, find s 2 0 = some i ∧
    (sliceOf s padding ⟨0, 0, 0⟩ i).right + 1 - (sliceOf s padding ⟨0, 0, 0⟩ i).left ≤ size

/-- **The condition.** Without a slice the text is not cut inside of a word. -/
def ExcerptOk (size : ℕ) : Prop :=
  (FirstFits s padding size → RunOk s padding size (s.length + 1) ⟨0, 0, 0⟩) ∧
    (¬FirstFits s padding size → ¬InsideWord s (min size s.length))

end Borders

/-! ## Borders -/

section Loops

variable {s : List ℤ} {padding j k : ℕ}

theorem charAt_of_lt (hk : k < s.length) : charAt s k = some s[k] := by
  rw [charAt, List.getElem?_append_left hk, List.getElem?_eq_getElem hk]

theorem isSpaceAt_iff (hk : k < s.length) : isSpaceAt s k = true ↔ s[k] = 0x20 := by
  rw [isSpaceAt, List.getElem?_eq_getElem hk, beq_iff_eq, Option.some.injEq]

theorem leftLoop_eq {i left0 : ℕ} (hi : i < s.length) (hspace : s[i] ≠ 0x20) {fuel left : ℕ} (hleft : left ≤ i)
    (hfuel : fuel = i + 1 - left) :
    leftLoop s i left0 fuel left = some (((List.range' left (i - left)).find? (isSpaceAt s)).getD left0) := by
  induction fuel generalizing left with
  | zero => omega
  | succ fuel ih =>
    have hlt : left < s.length := by omega
    rw [leftLoop, charAt_of_lt hlt, Option.bind_some]
    by_cases hend : left = i
    · subst hend
      rw [if_neg hspace, if_pos le_rfl, Nat.sub_self]
      rfl
    · obtain ⟨d, hd⟩ : ∃ d, i - left = d + 1 := ⟨i - left - 1, by omega⟩
      rw [hd, List.range'_succ]
      by_cases hc : s[left] = 0x20
      · rw [if_pos hc, List.find?_cons_of_pos ((isSpaceAt_iff hlt).2 hc)]
        rfl
      · rw [if_neg hc, if_neg (by omega), ih (by omega) (by omega),
          List.find?_cons_of_neg fun h => hc ((isSpaceAt_iff hlt).1 h), show i - (left + 1) = d by omega]

theorem wordLoop_eq {right fuel : ℕ} (hright : right ≤ s.length) (hfuel : fuel = right - j) :
    wordLoop s fuel j right = some (wordEnd s j right) := by
  induction fuel generalizing j with
  | zero =>
    rw [wordLoop, wordEnd, ← hfuel]
    rfl
  | succ fuel ih =>
    have hlt : j < s.length := by omega
    rw [wordLoop, if_pos (by omega), charAt_of_lt hlt, Option.bind_some, wordEnd, ← hfuel, List.range'_succ]
    by_cases hc : s[j] = 2
    · rw [if_pos hc, List.find?_cons_of_pos (by rw [isBeginAt, List.getElem?_eq_getElem hlt, hc]; rfl)]
      rfl
    · have hneg : ¬isBeginAt s j = true := by
        rw [isBeginAt, List.getElem?_eq_getElem hlt, beq_iff_eq, Option.some.injEq]
        exact hc
      rw [if_neg hc, ih (by omega), List.find?_cons_of_neg hneg, wordEnd, show right - (j + 1) = fuel by omega]

theorem rightLoop_eq {j right0 : ℕ} (hj : j < s.length) (hspace : s[j] ≠ 0x20) (hright0 : right0 ≤ s.length) {fuel d : ℕ}
    (hright : j + d < s.length) (hfuel : d < fuel) :
    rightLoop s j right0 fuel (j + d) =
      some (((List.range' (j + 1) d).reverse.find? (isSpaceAt s)).getD (wordEnd s j right0)) := by
  induction fuel generalizing d with
  | zero => omega
  | succ fuel ih =>
    rw [rightLoop, charAt_of_lt hright, Option.bind_some]
    cases d with
    | zero =>
      simp only [Nat.add_zero]
      rw [if_neg hspace, if_pos le_rfl, wordLoop_eq hright0 rfl]
      rfl
    | succ d =>
      have hlast : j + 1 + 1 * d = j + (d + 1) := by omega
      rw [List.range'_concat, List.reverse_append, List.reverse_singleton, List.singleton_append, hlast]
      by_cases hc : s[j + (d + 1)] = 0x20
      · rw [if_pos hc, List.find?_cons_of_pos ((isSpaceAt_iff hright).2 hc)]
        rfl
      · rw [if_neg hc, if_neg (by omega), List.find?_cons_of_neg fun h => hc ((isSpaceAt_iff hright).1 h),
          show j + (d + 1) - 1 = j + d by omega]
        exact ih (by omega) (by omega)

theorem leftBorder_eq {i prevRight : ℕ} (hi : i < s.length) (hspace : s[i] ≠ 0x20) (hprev : prevRight ≤ i) :
    leftBorder s padding i prevRight = some (leftOf s padding i prevRight) := by
  have hmax : (if (if padding < i then i - padding else 0) < prevRight then prevRight
      else if padding < i then i - padding else 0) = max (i - padding) prevRight := by
    split_ifs <;> omega
  rw [leftBorder, leftOf]
  simp only [hmax]
  by_cases hzero : max (i - padding) prevRight = 0
  · rw [if_pos hzero, if_pos hzero]
  · rw [if_neg hzero, if_neg hzero, leftLoop_eq hi hspace (by omega) rfl]

theorem rightBorder_eq (hj : j < s.length) (hspace : s[j] ≠ 0x20) (hpad : padding + s.length < 2 ^ 64) :
    rightBorder s padding j = some (rightOf s padding j) := by
  have hsize : toSize (padding + j) = padding + j := Nat.mod_eq_of_lt (by omega)
  rw [rightBorder, rightOf]
  simp only [hsize]
  by_cases hend : s.length ≤ padding + j
  · rw [if_pos hend, if_pos hend]
  · have hloop := @rightLoop_eq s j (padding + j) hj hspace (by omega) (padding + j + 1 - j + 1) padding (by omega) (by omega)
    rw [if_neg hend, if_neg hend, Nat.add_comm padding j]
    rw [Nat.add_comm padding j] at hloop
    exact hloop

theorem leftOf_mem {i prevRight : ℕ} (hprev : prevRight ≤ i) :
    prevRight ≤ leftOf s padding i prevRight ∧ leftOf s padding i prevRight ≤ i := by
  rw [leftOf]
  by_cases hzero : max (i - padding) prevRight = 0
  · rw [if_pos hzero]
    omega
  · simp only [if_neg hzero]
    cases hfind : (List.range' (max (i - padding) prevRight) (i - max (i - padding) prevRight)).find? (isSpaceAt s) with
    | none =>
      rw [Option.getD_none]
      omega
    | some k =>
      have hmem := List.mem_range'_1.1 (List.mem_of_find?_eq_some hfind)
      rw [Option.getD_some]
      omega

theorem rightOf_mem (hj : j < s.length) (hend : s[j]? = some 3) :
    j ≤ rightOf s padding j ∧ rightOf s padding j < s.length := by
  rw [rightOf]
  by_cases hlong : s.length ≤ padding + j
  · rw [if_pos hlong]
    omega
  rw [if_neg hlong]
  cases hfind : (List.range' (j + 1) padding).reverse.find? (isSpaceAt s) with
  | some k =>
    have hmem := List.mem_range'_1.1 (List.mem_reverse.1 (List.mem_of_find?_eq_some hfind))
    rw [Option.getD_some]
    omega
  | none =>
    rw [Option.getD_none, wordEnd]
    cases hword : (List.range' j (padding + j - j)).find? (isBeginAt s) with
    | none =>
      rw [Option.elim_none]
      omega
    | some k =>
      have hmem := List.mem_range'_1.1 (List.mem_of_find?_eq_some hword)
      have hk := List.find?_some hword
      rw [isBeginAt, beq_iff_eq] at hk
      have hne : k ≠ j := by
        intro h
        rw [h, hend] at hk
        exact absurd hk (by decide)
      rw [Option.elim_some]
      omega

end Loops

/-! ## One slice -/

variable {s : List ℤ} {c : ℤ}

theorem find_some {k i : ℕ} (h : find s c k = some i) :
    k ≤ i ∧ i < s.length ∧ s[i]? = some c ∧ c ∉ (s.take i).drop k := by
  rw [find, Option.map_eq_some_iff] at h
  obtain ⟨d, hd, rfl⟩ := h
  obtain ⟨hlt, hc, hbefore⟩ := List.findIdx?_eq_some_iff_getElem.1 hd
  rw [List.length_drop] at hlt
  rw [List.getElem_drop, beq_iff_eq] at hc
  refine ⟨Nat.le_add_right k d, by omega, by rw [List.getElem?_eq_getElem (by omega), hc], fun hmem => ?_⟩
  rw [List.drop_take, Nat.add_sub_cancel_left] at hmem
  obtain ⟨m, hm, hget⟩ := List.mem_take_iff_getElem.1 hmem
  have hmd : m < d := lt_of_lt_of_le hm (min_le_left _ _)
  exact hbefore m hmd (by rw [hget]; exact beq_self_eq_true c)

theorem exists_find {k : ℕ} (h : c ∈ s.drop k) : ∃ i, find s c k = some i := by
  cases hfind : (s.drop k).findIdx? (· == c) with
  | some d => exact ⟨k + d, by rw [find, hfind, Option.map_some]⟩
  | none => exact absurd (beq_self_eq_true c) (by simpa using List.findIdx?_eq_none_iff.1 hfind c h)

/-- The variables behind a slice: `prevRight` is its last character, or the one behind it, and its characters and the dots
are in the buffer. -/
structure ExcerptState.Inv (s : List ℤ) (st : ExcerptState) : Prop where
  i_le : st.i ≤ s.length
  /-- `prev_right`. -/
  prev : st.prevRight = st.i ∨ st.prevRight + 1 = st.i
  /-- At most five characters for one of the text. -/
  used_le : st.used ≤ 5 * st.i

theorem inv_init (s : List ℤ) : (ExcerptState.mk 0 0 0).Inv s := ⟨Nat.zero_le _, Or.inl rfl, le_rfl⟩

section Step

variable {s : List ℤ} {padding size : ℕ} {st : ExcerptState}

theorem sliceOf_spec (hs : scan 2 3 false s = some false) (h : st.Inv s) {i : ℕ} (hi : find s 2 st.i = some i) :
    (st.i ≤ i ∧ i < endOf s i ∧ endOf s i < s.length) ∧ (s[i]? = some 2 ∧ s[endOf s i]? = some 3) ∧
      (st.prevRight ≤ (sliceOf s padding st i).left ∧ (sliceOf s padding st i).left ≤ i) ∧
      endOf s i ≤ (sliceOf s padding st i).right ∧ (sliceOf s padding st i).right < s.length := by
  obtain ⟨hle, -, hget, -⟩ := find_some hi
  obtain ⟨j, hj⟩ := exists_find (closing_mem_drop hs hget)
  obtain ⟨hij, hjlt, hjget, -⟩ := find_some hj
  have hend : endOf s i = j := by rw [endOf, hj, Option.getD_some]
  have hprev : st.prevRight ≤ i := by
    rcases h.prev with hprev | hprev <;> omega
  rw [hend]
  exact ⟨⟨hle, hij, hjlt⟩, ⟨hget, hjget⟩, leftOf_mem hprev, by
    rw [sliceOf, hend]
    exact rightOf_mem hjlt hjget⟩

/-- **One turn of the loop.** -/
theorem nextSlice_eq (hs : scan 2 3 false s = some false) (hmemory : 4 * (s.length + 1) ≤ 2 ^ 63)
    (hpad : 2 ∈ s → padding + s.length < 2 ^ 64) (h : st.Inv s) :
    nextSlice s padding size st =
      some (match find s 2 st.i with
        | none => none
        | some i =>
          let a := sliceOf s padding st i
          if size < st.used + (a.right + 1 - a.left) then none else some a) := by
  rw [nextSlice]
  cases hi : find s 2 st.i with
  | none => rfl
  | some i =>
    obtain ⟨⟨hle, hij, hjlt⟩, ⟨hget, hjget⟩, ⟨hprev, hleft⟩, hright, hrlt⟩ := @sliceOf_spec s padding st hs h i hi
    have hlt : i < s.length := hij.trans hjlt
    have hpad' := hpad (List.mem_of_getElem? hget)
    have hspace : s[i] ≠ 0x20 := by
      rw [List.getElem?_eq_getElem hlt, Option.some.injEq] at hget
      rw [hget]
      decide
    have hspace' : s[endOf s i] ≠ 0x20 := by
      rw [List.getElem?_eq_getElem hjlt, Option.some.injEq] at hjget
      rw [hjget]
      decide
    have hprev' : st.prevRight ≤ i := hprev.trans hleft
    have hused := h.used_le
    have hsize : toSize (st.used + (sliceOf s padding st i).right + 1 + (2 ^ 64 - (sliceOf s padding st i).left)) =
        st.used + ((sliceOf s padding st i).right + 1 - (sliceOf s padding st i).left) := by
      rw [toSize]
      omega
    simp only [leftBorder_eq hlt hspace hprev', Option.bind_some]
    rw [← endOf, rightBorder_eq hjlt hspace' hpad', Option.map_some]
    simp only [sliceOf] at hsize ⊢
    rw [hsize]
    rfl

theorem ExcerptState.Inv.next (hs : scan 2 3 false s = some false) (h : st.Inv s) {i : ℕ} (hi : find s 2 st.i = some i) :
    (st.next s (sliceOf s padding st i)).Inv s ∧ st.i < (st.next s (sliceOf s padding st i)).i := by
  obtain ⟨⟨hle, hij, -⟩, -, ⟨hprev, hleft⟩, hright, hrlt⟩ := @sliceOf_spec s padding st hs h i hi
  have hused := h.used_le
  have hprev' := h.prev
  refine ⟨⟨?_, ?_, ?_⟩, ?_⟩
  · rw [ExcerptState.next]
    exact hrlt
  · simp only [ExcerptState.next]
    split_ifs <;> simp
  · simp only [ExcerptState.next]
    split_ifs <;> omega
  · simp only [ExcerptState.next]
    omega

end Step

/-! ## A run -/

section Run

variable {s : List ℤ} {padding size fuel : ℕ} {st : ExcerptState} {a : Slice} {slices : List Slice}

theorem exists_excerptLoop (hs : scan 2 3 false s = some false) (hmemory : 4 * (s.length + 1) ≤ 2 ^ 63)
    (hpad : 2 ∈ s → padding + s.length < 2 ^ 64) (h : st.Inv s) {fuel : ℕ} (hfuel : s.length + 1 ≤ fuel + st.i) :
    ∃ slices, excerptLoop s padding size fuel st = some slices := by
  induction fuel generalizing st with
  | zero =>
    have hle := h.i_le
    omega
  | succ fuel ih =>
    rw [excerptLoop, nextSlice_eq hs hmemory hpad h, Option.bind_some]
    cases hi : find s 2 st.i with
    | none => exact ⟨[], rfl⟩
    | some i =>
      obtain ⟨hnext, hlt⟩ := @ExcerptState.Inv.next s padding st hs h i hi
      obtain ⟨slices, hslices⟩ := ih hnext (by omega)
      simp only
      split_ifs
      · exact ⟨[], rfl⟩
      · exact ⟨sliceOf s padding st i :: slices, Option.map_eq_some_iff.2 ⟨slices, hslices, rfl⟩⟩

theorem excerptLoop_add (h : excerptLoop s padding size fuel st = some slices) (k : ℕ) :
    excerptLoop s padding size (fuel + k) st = some slices := by
  induction fuel generalizing st slices with
  | zero => exact nomatch h
  | succ fuel ih =>
    rw [Nat.add_right_comm, excerptLoop]
    rw [excerptLoop] at h
    obtain ⟨a, ha, hrest⟩ := Option.bind_eq_some_iff.1 h
    rw [ha, Option.bind_some]
    cases a with
    | none => exact hrest
    | some a =>
      obtain ⟨rest, hloop, rfl⟩ := Option.map_eq_some_iff.1 hrest
      simp only [ih hloop, Option.map_some]

theorem excerptLoop_unique {fuel' : ℕ} {slices' : List Slice}
    (h : excerptLoop s padding size fuel st = some slices) (h' : excerptLoop s padding size fuel' st = some slices') :
    slices = slices' := by
  have h₁ := excerptLoop_add h fuel'
  have h₂ := excerptLoop_add h' fuel
  rw [Nat.add_comm, h₂, Option.some.injEq] at h₁
  exact h₁.symm

/-- The slices from a state on are right. -/
def RestRight (s : List ℤ) (size : ℕ) (st : ExcerptState) (b : Bool) (slices : List Slice) : Prop :=
  InOrder s.length st.i slices ∧ scan 2 3 b (excerptText s slices) = some false ∧
    st.used + (excerptText s slices).length ≤ size

theorem length_text (hlt : a.right < s.length) :
    (a.text s).length = (if a.dots = true then 3 else 0) + (a.right + 1 - a.left) := by
  rw [Slice.text, List.length_append, List.length_drop, List.length_take, min_eq_left hlt]
  split_ifs <;> rfl

theorem scan_text (b : Bool) (a : Slice) : scan 2 3 b (a.text s) = scan 2 3 b ((s.take (a.right + 1)).drop a.left) := by
  rw [Slice.text, scan_append]
  by_cases hdots : a.dots = true
  · rw [if_pos hdots, scan_of_not_mem (by decide) (by decide), Option.bind_some]
  · rw [if_neg hdots]
    rfl

/-- A slice that leaves out no end of a word leads on from the state at the end of the slice before it. -/
theorem scan_slice (hs : scan 2 3 false s = some false) (h : st.Inv s) {i : ℕ} (hi : find s 2 st.i = some i) {b : Bool}
    (hb : scan 2 3 false (s.take st.i) = some b) (hapart : st.i ≤ (sliceOf s padding st i).left) {d : Bool}
    (hd : scan 2 3 false (s.take ((sliceOf s padding st i).right + 1)) = some d) :
    scan 2 3 b ((sliceOf s padding st i).text s) =
      if 3 ∈ (s.take (sliceOf s padding st i).left).drop st.i then none else some d := by
  obtain ⟨⟨hle, hij, hjlt⟩, ⟨hget, -⟩, ⟨-, hleft⟩, hright, hrlt⟩ := @sliceOf_spec s padding st hs h i hi
  obtain ⟨-, -, -, hnone⟩ := find_some hi
  rw [scan_text]
  generalize sliceOf s padding st i = a at hapart hd hleft hright hrlt ⊢
  obtain ⟨e, he⟩ := exists_scan_take hs a.left
  have hgap := scan_drop_take hapart hb he
  have hopen : (2 : ℤ) ∉ (s.take a.left).drop st.i := fun hmem =>
    hnone ((List.take_sublist_take_left hleft).drop st.i |>.subset hmem)
  have hslice := scan_drop_take (show a.left ≤ a.right + 1 by omega) he hd
  by_cases hclose : (3 : ℤ) ∈ (s.take a.left).drop st.i
  · rw [if_pos hclose]
    -- the word that has been cut ends in the gap, and the next one begins in the slice
    obtain ⟨rfl, rfl⟩ := scan_closing hopen hclose hgap
    have hword := scan_drop_take hleft he (scan_take_opening hs hget)
    have hfront : (2 : ℤ) ∉ (s.take i).drop a.left := fun hmem =>
      hnone (List.drop_subset_drop_left _ hapart hmem)
    have hcut : (s.take (a.right + 1)).drop a.left =
        (s.take i).drop a.left ++ 2 :: (s.take (a.right + 1)).drop (i + 1) := by
      have hir : i < (s.take (a.right + 1)).length := by
        rw [List.length_take]
        omega
      have htwo : (s.take (a.right + 1))[i] = 2 := by
        rw [List.getElem?_eq_getElem (by omega), Option.some.injEq] at hget
        rw [List.getElem_take, hget]
      have hfst : (s.take (a.right + 1)).take i = s.take i := by
        rw [List.take_take, min_eq_left (by omega)]
      conv_lhs => rw [← List.take_append_drop i (s.take (a.right + 1)), hfst]
      rw [List.drop_append_of_le_length (by rw [List.length_take]; omega), List.drop_eq_getElem_cons hir, htwo]
    rw [hcut]
    exact scan_open_none (scan_closed hfront hword).2
  · rw [if_neg hclose]
    rw [scan_of_not_mem hopen hclose, Option.some.injEq] at hgap
    rw [hgap]
    exact hslice

/-- Slices in order begin right behind the state exactly if the condition on the first one holds. -/
theorem apart_iff (h : st.Inv s) {left : ℕ} (hprev : st.prevRight ≤ left) :
    (st.i ≤ left ∧ (left ≠ st.prevRight ↔ st.i < left)) ↔ (st.prevRight = st.i ∨ st.i < left) := by
  rcases h.prev with hi | hi
  · omega
  · omega

theorem restRight_cons {b : Bool} {rest : List Slice} (hle : a.left ≤ a.right) (hlt : a.right < s.length) :
    RestRight s size st b (a :: rest) ↔
      ((st.i ≤ a.left ∧ (a.dots = true ↔ st.i < a.left)) ∧ InOrder s.length (st.next s a).i rest) ∧
        ((scan 2 3 b (a.text s)).bind fun b => scan 2 3 b (excerptText s rest)) = some false ∧
        (st.next s a).used + (excerptText s rest).length ≤ size := by
  have hlen : (a.text s).length + (excerptText s rest).length + st.used =
      (st.next s a).used + (excerptText s rest).length := by
    rw [length_text hlt]
    simp only [ExcerptState.next]
    omega
  rw [RestRight, InOrder, excerptText, List.flatMap_cons, scan_append, List.length_append, ← excerptText, ← hlen,
    Nat.add_comm st.used]
  constructor
  · rintro ⟨⟨h₁, -, -, h₂, h₃⟩, h₄, h₅⟩
    exact ⟨⟨⟨h₁, h₂⟩, h₃⟩, h₄, h₅⟩
  · rintro ⟨⟨⟨h₁, h₂⟩, h₃⟩, h₄, h₅⟩
    exact ⟨⟨h₁, hle, hlt, h₂, h₃⟩, h₄, h₅⟩

/-- **The slices from a state on are right exactly if they meet the condition.** -/
theorem restRight_iff (hs : scan 2 3 false s = some false) (hmemory : 4 * (s.length + 1) ≤ 2 ^ 63)
    (hpad : 2 ∈ s → padding + s.length < 2 ^ 64) (h : st.Inv s) {fuel : ℕ} (hfuel : s.length + 1 ≤ fuel + st.i)
    (hused : st.used ≤ size) {b : Bool} (hb : scan 2 3 false (s.take st.i) = some b) {slices : List Slice}
    (hloop : excerptLoop s padding size fuel st = some slices) :
    RestRight s size st b slices ↔ RunOk s padding size fuel st := by
  induction fuel generalizing st b slices with
  | zero => exact nomatch hloop
  | succ fuel ih =>
    have hnil : RestRight s size st b [] ↔ ¬InsideWord s st.i := by
      rw [RestRight, InsideWord, hb, excerptText, List.flatMap_nil, scan]
      cases b <;> simp [InOrder, hused]
    rw [excerptLoop, nextSlice_eq hs hmemory hpad h, Option.bind_some] at hloop
    rw [RunOk]
    cases hi : find s 2 st.i with
    | none =>
      simp only [hi, Option.some.injEq] at hloop
      rw [← hloop]
      exact hnil
    | some i =>
      simp only [hi] at hloop
      simp only
      obtain ⟨⟨-, hij, -⟩, -, ⟨hprev, hleft⟩, hright, hrlt⟩ := @sliceOf_spec s padding st hs h i hi
      obtain ⟨hnext, hlt⟩ := @ExcerptState.Inv.next s padding st hs h i hi
      by_cases hfits : size < st.used + ((sliceOf s padding st i).right + 1 - (sliceOf s padding st i).left)
      · rw [if_pos hfits] at hloop ⊢
        simp only [Option.some.injEq] at hloop
        rw [← hloop]
        exact hnil
      · rw [if_neg hfits] at hloop ⊢
        obtain ⟨rest, hrest, rfl⟩ := Option.map_eq_some_iff.1 hloop
        have hdots : (sliceOf s padding st i).dots = true ↔ (sliceOf s padding st i).left ≠ st.prevRight :=
          decide_eq_true_iff
        obtain ⟨d, hd⟩ := exists_scan_take hs ((sliceOf s padding st i).right + 1)
        have hslice := @scan_slice s padding st hs h i hi b hb
        have hapart := apart_iff h hprev
        rw [restRight_cons (hleft.trans (hij.le.trans hright)) hrlt, hdots, hapart]
        constructor
        · rintro ⟨⟨hap, horder⟩, hscan, hlen⟩
          have hi' : st.i ≤ (sliceOf s padding st i).left := by
            rcases h.prev with hp | hp <;> rcases hap with hap | hap <;> omega
          rw [hslice hi' hd] at hscan
          by_cases hclose : 3 ∈ (s.take (sliceOf s padding st i).left).drop st.i
          · rw [if_pos hclose] at hscan
            exact nomatch hscan
          · rw [if_neg hclose, Option.bind_some] at hscan
            have hused' : (st.next s (sliceOf s padding st i)).used ≤ size := (Nat.le_add_right _ _).trans hlen
            refine ⟨⟨hap, hclose, fun hne => ?_⟩, (ih hnext (by omega) hused' hd hrest).1 ⟨horder, hscan, hlen⟩⟩
            simpa only [ExcerptState.next, if_pos (hdots.2 hne)] using hused'
        · rintro ⟨hok, hrun⟩
          have hi' : st.i ≤ (sliceOf s padding st i).left := by
            rcases h.prev with hp | hp <;> rcases hok.apart with hap | hap <;> omega
          have hused' : (st.next s (sliceOf s padding st i)).used ≤ size := by
            simp only [ExcerptState.next]
            by_cases hne : (sliceOf s padding st i).left = st.prevRight
            · rw [if_neg fun hd => hdots.1 hd hne]
              omega
            · rw [if_pos (hdots.2 hne)]
              exact hok.room hne
          obtain ⟨horder, hscan, hlen⟩ := (ih hnext (by omega) hused' hd hrest).2 hrun
          rw [hslice hi' hd, if_neg hok.noEnd, Option.bind_some]
          exact ⟨⟨hok.apart, horder⟩, hscan, hlen⟩

theorem excerptLoop_eq_nil_iff (hs : scan 2 3 false s = some false) (hmemory : 4 * (s.length + 1) ≤ 2 ^ 63)
    (hpad : 2 ∈ s → padding + s.length < 2 ^ 64)
    (hloop : excerptLoop s padding size (fuel + 1) ⟨0, 0, 0⟩ = some slices) :
    slices = [] ↔ ¬FirstFits s padding size := by
  rw [excerptLoop, nextSlice_eq hs hmemory hpad (inv_init s), Option.bind_some] at hloop
  cases hi : find s 2 0 with
  | none =>
    simp only [hi, Option.some.injEq] at hloop
    refine iff_of_true hloop.symm ?_
    rintro ⟨i, hi', -⟩
    rw [hi] at hi'
    exact nomatch hi'
  | some i =>
    have hfits : FirstFits s padding size ↔
        ¬size < 0 + ((sliceOf s padding ⟨0, 0, 0⟩ i).right + 1 - (sliceOf s padding ⟨0, 0, 0⟩ i).left) := by
      rw [Nat.zero_add, not_lt]
      constructor
      · rintro ⟨i', hi', hle⟩
        rw [hi, Option.some.injEq] at hi'
        rw [hi']
        exact hle
      · exact fun hle => ⟨i, hi, hle⟩
    simp only [hi] at hloop
    rw [hfits, not_not]
    by_cases hlt : size < 0 + ((sliceOf s padding ⟨0, 0, 0⟩ i).right + 1 - (sliceOf s padding ⟨0, 0, 0⟩ i).left)
    · rw [if_pos hlt, Option.some.injEq] at hloop
      exact iff_of_true hloop.symm hlt
    · rw [if_neg hlt] at hloop
      obtain ⟨rest, -, rfl⟩ := Option.map_eq_some_iff.1 hloop
      exact iff_of_false (List.cons_ne_nil _ _) hlt

end Run

/-! ## The text without a slice -/

theorem inOrder_beginning (s : List ℤ) (size : ℕ) : InOrder s.length 0 (beginning s size) := by
  rw [beginning]
  split_ifs with h
  · trivial
  · refine ⟨le_rfl, Nat.zero_le _, ?_, ?_, trivial⟩
    · simp only
      omega
    · simp

theorem excerptText_beginning (s : List ℤ) (size : ℕ) :
    excerptText s (beginning s size) = s.take (min size s.length) := by
  rw [beginning]
  split_ifs with h
  · rw [h]
    rfl
  · rw [excerptText, List.flatMap_singleton, Slice.text, if_neg (by simp), List.drop_zero, Nat.sub_add_cancel (by omega)]
    rfl

/-! ## Spaces and markers -/

theorem alternate_iff (s : List ℤ) : Alternate s ↔ scan 2 3 false s = some false :=
  (scan_eq_some_false_iff (by decide) s).symm

theorem filter_isMarker_stripLoop (b : Bool) (s : List ℤ) : (stripLoop b s).filter isMarker = s.filter isMarker := by
  induction s generalizing b with
  | nil => rfl
  | cons c s ih =>
    rw [stripLoop]
    by_cases hkept : isKept c = true
    · rw [if_pos hkept, List.filter_cons, List.filter_cons, ih]
    · have hmarker : ¬isMarker c = true := by
        intro hmarker
        rw [isMarker, Bool.or_eq_true, beq_iff_eq, beq_iff_eq] at hmarker
        rcases hmarker with rfl | rfl
        · exact hkept (by decide)
        · exact hkept (by decide)
      rw [if_neg hkept, List.filter_cons_of_neg hmarker]
      split_ifs
      · rw [List.filter_cons_of_neg (by decide), ih]
      · exact ih _

theorem length_stripLoop (b : Bool) (s : List ℤ) : (stripLoop b s).length ≤ s.length := by
  induction s generalizing b with
  | nil => exact le_rfl
  | cons c s ih =>
    rw [stripLoop]
    split_ifs
    · exact Nat.succ_le_succ (ih _)
    · exact Nat.succ_le_succ (ih _)
    · exact (ih _).trans (Nat.le_succ _)

theorem stripSpaces_cases (source : List ℤ) :
    stripSpaces source = stripLoop false source ∨
      ∃ c, udmUniIsSpace c = true ∧ stripLoop false source = stripSpaces source ++ [c] := by
  rw [stripSpaces]
  cases hlast : (stripLoop false source).getLast? with
  | none => exact Or.inl (if_neg (by simp))
  | some c =>
    by_cases hc : udmUniIsSpace c = true
    · rw [if_pos (by rw [Option.any_some]; exact hc)]
      exact Or.inr ⟨c, hc, (List.dropLast_append_getLast? c hlast).symm⟩
    · exact Or.inl (if_neg (by rw [Option.any_some]; exact hc))

theorem alternate_stripSpaces {source : List ℤ} (h : Alternate source) : Alternate (stripSpaces source) := by
  obtain ⟨n, hn⟩ := h
  rw [← filter_isMarker_stripLoop false] at hn
  rcases stripSpaces_cases source with heq | ⟨c, hc, heq⟩
  · exact ⟨n, by rw [heq, hn]⟩
  · have hmarker : ¬isMarker c = true := by
      intro hmarker
      rw [isMarker, Bool.or_eq_true, beq_iff_eq, beq_iff_eq] at hmarker
      rcases hmarker with rfl | rfl
      · exact absurd hc (by decide)
      · exact absurd hc (by decide)
    rw [heq, List.filter_append, List.filter_cons_of_neg hmarker, List.filter_nil, List.append_nil] at hn
    exact ⟨n, hn⟩

theorem length_stripSpaces (source : List ℤ) : (stripSpaces source).length ≤ source.length := by
  refine le_trans ?_ (length_stripLoop false source)
  rcases stripSpaces_cases source with heq | ⟨c, -, heq⟩
  · rw [heq]
  · rw [heq, List.length_append]
    exact Nat.le_add_right _ _

/-! ## The excerpt -/

theorem exists_excerptSlices {padding size fuel : ℕ} {slices : List Slice}
    (hloop : excerptLoop s padding size fuel ⟨0, 0, 0⟩ = some slices) (p : List Slice → Prop) :
    (∃ fuel found, excerptSlices s padding size fuel = some found ∧ p found) ↔
      p (if slices = [] then beginning s size else slices) := by
  constructor
  · rintro ⟨fuel', found, hfound, hp⟩
    obtain ⟨slices', hloop', rfl⟩ := Option.map_eq_some_iff.1 hfound
    rw [excerptLoop_unique hloop hloop']
    exact hp
  · exact fun hp => ⟨fuel, _, Option.map_eq_some_iff.2 ⟨slices, hloop, rfl⟩, hp⟩

end MnoGoSearch.Excerpt
