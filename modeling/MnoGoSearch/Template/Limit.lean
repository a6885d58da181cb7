import MnoGoSearch.Lib.Alternation
import MnoGoSearch.Template.Escape
import Mathlib.Data.List.GetD

/-!
# Values that are cut

`$(name:n)` and `$(name:-n)` print the first or the last bytes of a value. A character reference is not cut: the place is
moved to its beginning, which makes the first bytes less, and the last bytes more. `limitRight_iff` says when the last
bytes fit in the memory for them.
-/

namespace MnoGoSearch.Template

open Url Lib.Alternation

/-! ### What is wanted -/

/-- A character reference: `&`, a `#` perhaps, letters and digits, and `;`. -/
structure Reference (value : List UInt8) (i j : ℕ) : Prop where
  /-- It ends behind its beginning. -/
  lt : i < j
  end_lt : j < value.length
  /-- The `&`. -/
  amp : charAt value i = 0x26
  /-- The `;`. -/
  semicolon : charAt value j = 0x3B
  name (k : ℕ) : i < k → k < j → isalnum (charAt value k) = true ∨ k = i + 1 ∧ charAt value k = 0x23

/-- A place inside of a reference. -/
def InsideReference (value : List UInt8) (pos : ℕ) : Prop := ∃ i j, Reference value i j ∧ i < pos ∧ pos ≤ j

/-- The marks of found words come in pairs. -/
def Paired (s : List UInt8) : Prop := ∃ n, marks 2 3 s = (List.replicate n [2, 3]).flatten

/-- **A length limit works**: what is printed fits in the memory for it, the cut is not in a character reference, the marks
come in pairs, and what is printed is the value or a part of it, with a mark and dots. -/
def LimitRight (value : List UInt8) (n : ℕ) (neg : Bool) : Prop :=
  ∃ v, newValue value n neg = some v ∧ Paired v ∧
    (v = value ∨ n < value.length ∧ ∃ pos ≤ value.length, ¬InsideReference value pos ∧
      if neg then ∃ mark ∈ [[], [2]], v = mark ++ value.drop pos
      else ∃ mark ∈ [[], [3]], v = value.take pos ++ mark ++ bytes "...")

/-! ### The place of the cut -/

section Cut

variable {value : List UInt8} {j pos i : ℕ}

theorem alnumBegin_spec (str : List UInt8) (q : ℕ) :
    (∀ k, alnumBegin str q < k → k ≤ q → isalnum (charAt str k) = true) ∧
      (0 < alnumBegin str q → isalnum (charAt str (alnumBegin str q)) = false) := by
  induction q with
  | zero => exact ⟨fun k hlt hle => by omega, fun h => absurd h (Nat.lt_irrefl 0)⟩
  | succ q ih =>
    rw [alnumBegin]
    split_ifs with h
    · refine ⟨fun k hlt hle => ?_, ih.2⟩
      rcases Nat.lt_or_eq_of_le hle with hlt' | rfl
      · exact ih.1 k hlt (Nat.le_of_lt_succ hlt')
      · exact h
    · exact ⟨fun k hlt hle => by omega, fun _ => Bool.eq_false_iff.2 h⟩

theorem alnumBegin_eq {str : List UInt8} {b q : ℕ} (hle : b ≤ q)
    (hall : ∀ k, b < k → k ≤ q → isalnum (charAt str k) = true) (hb : isalnum (charAt str b) = false) :
    alnumBegin str q = b := by
  induction q with
  | zero => rw [alnumBegin, Nat.le_zero.1 hle]
  | succ q ih =>
    rw [alnumBegin]
    rcases Nat.lt_or_eq_of_le hle with hlt | rfl
    · rw [if_pos (hall (q + 1) hlt le_rfl)]
      exact ih (Nat.le_of_lt_succ hlt) fun k hk hkq => hall k hk (Nat.le_succ_of_le hkq)
    · rw [if_neg (by rw [hb]; exact Bool.false_ne_true)]

theorem charAt_of_lt (h : i < value.length) : charAt value i = value[i] := by
  rw [charAt, List.getD_eq_getElem _ _ h]

theorem lt_of_charAt_ne (h : charAt value i ≠ 0) : i < value.length := by
  by_contra hle
  exact h (by rw [charAt, List.getD_eq_default _ _ (Nat.not_lt.1 hle)])

theorem head_dropWhile_iff (value : List UInt8) (e : ℕ) :
    ((value.drop e).dropWhile isalnum).head? = some 0x3B ↔
      ∃ j, e ≤ j ∧ j < value.length ∧ charAt value j = 0x3B ∧ ∀ k, e ≤ k → k < j → isalnum (charAt value k) = true := by
  induction hlen : value.length - e generalizing e with
  | zero =>
    rw [List.drop_eq_nil_of_le (by omega)]
    refine iff_of_false (by simp) ?_
    rintro ⟨j, hej, hj, -⟩
    omega
  | succ d ih =>
    have hlt : e < value.length := by omega
    rw [List.drop_eq_getElem_cons hlt, ← charAt_of_lt hlt]
    by_cases hc : isalnum (charAt value e) = true
    · rw [List.dropWhile_cons_of_pos hc, ih (e + 1) (by omega)]
      constructor
      · rintro ⟨j, hej, hj, hsemi, hall⟩
        refine ⟨j, by omega, hj, hsemi, fun k hk hkj => ?_⟩
        rcases Nat.lt_or_eq_of_le hk with hlt' | rfl
        · exact hall k hlt' hkj
        · exact hc
      · rintro ⟨j, hej, hj, hsemi, hall⟩
        refine ⟨j, ?_, hj, hsemi, fun k hk hkj => hall k (by omega) hkj⟩
        rcases Nat.lt_or_eq_of_le hej with hlt' | rfl
        · exact hlt'
        · rw [hsemi] at hc
          exact absurd hc (by decide)
    · rw [List.dropWhile_cons_of_neg hc, List.head?_cons, Option.some.injEq]
      constructor
      · exact fun hsemi => ⟨e, le_rfl, hlt, hsemi, fun k hk hkj => by omega⟩
      · rintro ⟨j, hej, hj, hsemi, hall⟩
        rcases Nat.lt_or_eq_of_le hej with hlt' | rfl
        · exact absurd (hall e le_rfl hlt') hc
        · exact hsemi

theorem cutStart_eq (h : Reference value i j) (hi : i < pos) (hj : pos ≤ j) :
    (if 0 < pos ∧ charAt value pos = 0x3B then pos - 1 else pos) = if pos = j then pos - 1 else pos := by
  by_cases hend : pos = j
  · rw [if_pos ⟨by omega, by rw [hend]; exact h.semicolon⟩, if_pos hend]
  · rw [if_neg hend, if_neg]
    rintro ⟨-, hsemi⟩
    rcases h.name pos hi (by omega) with hname | ⟨-, hname⟩
    · rw [hsemi] at hname
      exact absurd hname (by decide)
    · rw [hsemi] at hname
      exact absurd hname (by decide)

theorem Reference.isalnum (h : Reference value i j) {k : ℕ} (hik : i < k) (hkj : k < j)
    (hhash : k = i + 1 → charAt value k ≠ 0x23) : isalnum (charAt value k) = true := by
  rcases h.name k hik hkj with hname | ⟨hk, hname⟩
  · exact hname
  · exact absurd hname (hhash hk)

theorem Reference.notMark (h : Reference value i j) (hi : i < pos) (hj : pos ≤ j)
    (hhash : pos = i + 1 → charAt value pos ≠ 0x23) :
    ¬(pos < value.length ∧ (charAt value pos = 0x23 ∨ charAt value pos = 0x26)) := by
  rintro ⟨-, hmark⟩
  rcases Nat.lt_or_eq_of_le hj with hlt | rfl
  · have halnum := h.isalnum hi hlt hhash
    rcases hmark with hmark | hmark
    · rw [hmark] at halnum
      exact absurd halnum (by decide)
    · rw [hmark] at halnum
      exact absurd halnum (by decide)
  · rw [h.semicolon] at hmark
    exact absurd hmark (by decide)

theorem Reference.head_dropWhile (h : Reference value i j) {e : ℕ} (hie : i < e) (hej : e ≤ j)
    (hhash : e = i + 1 → charAt value e ≠ 0x23) : ((value.drop e).dropWhile Url.isalnum).head? = some 0x3B := by
  refine (head_dropWhile_iff value e).2 ⟨j, hej, h.end_lt, h.semicolon, fun k hk hkj => h.isalnum (by omega) hkj ?_⟩
  intro hki
  obtain rfl : k = e := by omega
  exact hhash hki

/-- **A cut in a reference** is moved to its beginning. -/
theorem udmHtmlStrLeft_of_inside (h : Reference value i j) (hi : i < pos) (hj : pos ≤ j) :
    udmHtmlStrLeft value pos = i := by
  have hlen := h.end_lt
  rw [udmHtmlStrLeft, if_neg (by omega), cutStart_eq h hi hj]
  obtain ⟨q, hq⟩ : ∃ q, (if pos = j then pos - 1 else pos) = q := ⟨_, rfl⟩
  have hqj : q < j ∧ i ≤ q ∧ q ≤ pos ∧ (q = pos ∨ pos = j ∧ q + 1 = pos) := by
    rw [← hq]
    split_ifs <;> omega
  rw [hq]
  have hamp : Url.isalnum (charAt value i) = false := by rw [h.amp]; rfl
  by_cases hhash : charAt value (i + 1) = 0x23
  · -- `&#`: the search goes back to the `#`
    have hne : i + 1 ≠ j := by
      intro heq
      rw [heq, h.semicolon] at hhash
      exact absurd hhash (by decide)
    have hbegin : alnumBegin value q = i + 1 := by
      refine alnumBegin_eq (by omega) (fun k hk hkq => h.isalnum (by omega) (by omega) (by omega)) ?_
      rw [hhash]
      rfl
    simp only [hbegin]
    rw [if_neg (by rw [hhash]; decide), if_pos ⟨hhash, Nat.succ_pos i, h.amp⟩]
    simp only [Nat.add_sub_cancel]
    by_cases hpos : pos = i + 1
    · rw [if_pos (show pos < value.length ∧ (charAt value pos = 0x23 ∨ charAt value pos = 0x26) from
        ⟨by omega, Or.inl (by rw [hpos, hhash])⟩), if_pos (h.head_dropWhile (by omega) (by omega) (by omega))]
    · have hplain := h.notMark (show i < pos by omega) hj (by omega)
      rw [if_neg hplain, if_pos (h.head_dropWhile hi hj (by omega))]
  · -- the search goes back to the `&`
    have hbegin : alnumBegin value q = i :=
      alnumBegin_eq hqj.2.1 (fun k hk hkq => h.isalnum hk (by omega) (by rintro rfl; exact hhash)) hamp
    simp only [hbegin]
    have hplain := h.notMark hi hj (by rintro rfl; exact hhash)
    rw [if_pos h.amp]
    simp only
    rw [if_neg hplain, if_pos (h.head_dropWhile hi hj (by rintro rfl; exact hhash))]

/-- **A cut that is moved** is in a reference, and goes to its beginning. -/
theorem inside_of_udmHtmlStrLeft (hpos : pos ≤ value.length) (h : udmHtmlStrLeft value pos < pos) :
    ∃ j, Reference value (udmHtmlStrLeft value pos) j ∧ pos ≤ j := by
  rw [udmHtmlStrLeft, if_neg (Nat.not_lt.2 hpos)] at h ⊢
  obtain ⟨q, hq⟩ : ∃ q, (if 0 < pos ∧ charAt value pos = 0x3B then pos - 1 else pos) = q := ⟨_, rfl⟩
  have hqpos : q = pos ∨ q + 1 = pos ∧ charAt value pos = 0x3B := by
    rw [← hq]
    split_ifs with hsemi
    · exact Or.inr ⟨by omega, hsemi.2⟩
    · exact Or.inl rfl
  rw [hq] at h ⊢
  have hle := alnumBegin_le value q
  obtain ⟨hall, -⟩ := alnumBegin_spec value q
  simp only at h ⊢
  generalize alnumBegin value q = b at hle hall h ⊢
  -- what is behind the place where the search ended, up to the cut
  have hbehind : ∀ k, b < k → k < pos → Url.isalnum (charAt value k) = true := by
    intro k hbk hkpos
    rcases hqpos with rfl | ⟨hqpos, -⟩
    · exact hall k hbk (by omega)
    · exact hall k hbk (by omega)
  have hnomark : b < pos → ¬(charAt value pos = 0x23 ∨ charAt value pos = 0x26) := by
    rintro hbpos hmark
    rcases hqpos with rfl | ⟨-, hsemi⟩
    · have halnum := hall q hbpos le_rfl
      rcases hmark with hmark | hmark
      · rw [hmark] at halnum
        exact absurd halnum (by decide)
      · rw [hmark] at halnum
        exact absurd halnum (by decide)
    · rw [hsemi] at hmark
      exact absurd hmark (by decide)
  by_cases hamp : charAt value b = 0x26
  · rw [if_pos hamp] at h ⊢
    simp only at h ⊢
    split_ifs at h ⊢ with hmark hend hend
    · exact absurd hmark.2 (hnomark h)
    · exact absurd h (Nat.lt_irrefl _)
    · obtain ⟨j, hpj, hj, hsemi, hname⟩ := (head_dropWhile_iff value pos).1 hend
      refine ⟨j, ⟨by omega, hj, hamp, hsemi, fun k hbk hkj => Or.inl ?_⟩, hpj⟩
      rcases Nat.lt_or_ge k pos with hk | hk
      · exact hbehind k hbk hk
      · exact hname k hk hkj
    · exact absurd h (Nat.lt_irrefl _)
  · rw [if_neg hamp] at h ⊢
    by_cases hhash : charAt value b = 0x23 ∧ 0 < b ∧ charAt value (b - 1) = 0x26
    · rw [if_pos hhash] at h ⊢
      simp only at h ⊢
      have hblt : b < value.length := lt_of_charAt_ne (by rw [hhash.1]; decide)
      split_ifs at h ⊢ with hmark hend hend
      · -- the cut is at the `#`
        have hbpos : b = pos := by
          by_contra hne
          exact hnomark (by omega) hmark.2
        obtain ⟨j, hpj, hj, hsemi, hname⟩ := (head_dropWhile_iff value (pos + 1)).1 hend
        refine ⟨j, ⟨by omega, hj, hhash.2.2, hsemi, fun k hbk hkj => ?_⟩, by omega⟩
        rcases Nat.lt_or_ge b k with hk | hk
        · exact Or.inl (hname k (by omega) hkj)
        · obtain rfl : k = b := by omega
          exact Or.inr ⟨by omega, hhash.1⟩
      · exact absurd h (Nat.lt_irrefl _)
      · have hbpos : b < pos := by
          by_contra hge
          obtain rfl : b = pos := by omega
          exact hmark ⟨hblt, Or.inl hhash.1⟩
        obtain ⟨j, hpj, hj, hsemi, hname⟩ := (head_dropWhile_iff value pos).1 hend
        refine ⟨j, ⟨by omega, hj, hhash.2.2, hsemi, fun k hbk hkj => ?_⟩, hpj⟩
        rcases Nat.lt_or_ge b k with hk | hk
        · rcases Nat.lt_or_ge k pos with hk' | hk'
          · exact Or.inl (hbehind k hk hk')
          · exact Or.inl (hname k hk' hkj)
        · obtain rfl : k = b := by omega
          exact Or.inr ⟨by omega, hhash.1⟩
      · exact absurd h (Nat.lt_irrefl _)
    · rw [if_neg hhash] at h
      exact absurd h (Nat.lt_irrefl _)

theorem not_insideReference (hpos : pos ≤ value.length) : ¬InsideReference value (udmHtmlStrLeft value pos) := by
  rintro ⟨i, j, h, hi, hj⟩
  have hle := udmHtmlStrLeft_le value pos
  rcases Nat.lt_or_eq_of_le hle with hlt | heq
  · obtain ⟨j', h', hj'⟩ := inside_of_udmHtmlStrLeft hpos hlt
    -- the `&` of the reference that was cut is in the other one
    have hamp := h'.amp
    rcases Nat.lt_or_eq_of_le hj with hlt' | heq'
    · rcases h.name _ hi hlt' with hname | ⟨-, hname⟩
      · rw [hamp] at hname
        exact absurd hname (by decide)
      · rw [hamp] at hname
        exact absurd hname (by decide)
    · rw [heq', h.semicolon] at hamp
      exact absurd hamp (by decide)
  · rw [heq] at hi hj
    rw [udmHtmlStrLeft_of_inside h hi hj] at heq
    omega

end Cut

/-! ### Marks -/

section Marks

variable {mark other : UInt8}

theorem markFirst_cons_mark (hne : mark ≠ other) (s : List UInt8) : markFirst (mark :: s) mark other = true := by
  have hmark : (mark :: s).findIdx? (· == mark) = some 0 := by simp [List.findIdx?_cons]
  rw [markFirst, hmark, List.findIdx?_cons, if_neg (by simpa using hne)]
  cases s.findIdx? (· == other) <;> simp

theorem markFirst_cons_other (hne : mark ≠ other) (s : List UInt8) : markFirst (other :: s) mark other = false := by
  have hother : (other :: s).findIdx? (· == other) = some 0 := by simp [List.findIdx?_cons]
  rw [markFirst, hother, List.findIdx?_cons, if_neg (by simpa using Ne.symm hne)]
  cases s.findIdx? (· == mark) <;> simp

theorem markFirst_cons_of_ne {c : UInt8} (hmark : c ≠ mark) (hother : c ≠ other) (s : List UInt8) :
    markFirst (c :: s) mark other = markFirst s mark other := by
  rw [markFirst, markFirst, List.findIdx?_cons, List.findIdx?_cons, if_neg (by simpa using hmark),
    if_neg (by simpa using hother)]
  cases s.findIdx? (· == mark) <;> cases s.findIdx? (· == other) <;> simp

end Marks

variable {s : List UInt8} {d : Bool}

theorem markFirst_reverse (h : scan 2 3 false s = some d) : markFirst s.reverse 2 3 = d := by
  induction s using List.reverseRecOn generalizing d with
  | nil =>
    rw [scan, Option.some.injEq] at h
    rw [← h]
    rfl
  | append_singleton s c ih =>
    rw [scan_append, Option.bind_eq_some_iff] at h
    obtain ⟨e, he, hd⟩ := h
    rw [List.reverse_append, List.reverse_singleton, List.singleton_append]
    rw [scan] at hd
    by_cases htwo : c = 2
    · rw [if_pos htwo] at hd
      cases e with
      | true => exact nomatch hd
      | false =>
        rw [if_neg (by simp), scan, Option.some.injEq] at hd
        rw [htwo, markFirst_cons_mark (by decide), hd]
    · rw [if_neg htwo] at hd
      by_cases hthree : c = 3
      · rw [if_pos hthree] at hd
        cases e with
        | false => exact nomatch hd
        | true =>
          rw [if_pos rfl, scan, Option.some.injEq] at hd
          rw [hthree, markFirst_cons_other (by decide), hd]
      · rw [if_neg hthree, scan, Option.some.injEq] at hd
        rw [markFirst_cons_of_ne htwo hthree, ih he, hd]

theorem markFirst_of_scan (h : scan 2 3 d s = some false) : markFirst s 3 2 = d := by
  induction s with
  | nil =>
    rw [scan, Option.some.injEq] at h
    rw [h]
    rfl
  | cons c s ih =>
    rw [scan] at h
    by_cases htwo : c = 2
    · rw [if_pos htwo] at h
      cases d with
      | true => exact nomatch h
      | false => rw [htwo, markFirst_cons_other (by decide)]
    · rw [if_neg htwo] at h
      by_cases hthree : c = 3
      · rw [if_pos hthree] at h
        cases d with
        | false => exact nomatch h
        | true => rw [hthree, markFirst_cons_mark (by decide)]
      · rw [if_neg hthree] at h
        rw [markFirst_cons_of_ne hthree htwo, ih h]

theorem paired_iff (s : List UInt8) : Paired s ↔ scan 2 3 false s = some false :=
  (scan_eq_some_false_iff (by decide) s).symm

section Values

variable {value : List UInt8}

theorem paired_leftValue (h : Paired value) (n : ℕ) :
    Paired (leftValue value n) ∧
      ∃ mark ∈ [[], [3]], leftValue value n = value.take (udmHtmlStrLeft value n) ++ mark ++ bytes "..." := by
  have hdots : ∀ b, scan (2 : UInt8) 3 b (bytes "...") = some b := scan_of_not_mem (by decide) (by decide)
  rw [paired_iff] at h ⊢
  obtain ⟨d, hd⟩ := exists_scan_take h (udmHtmlStrLeft value n)
  rw [leftValue]
  simp only [markFirst_reverse hd]
  cases d with
  | true =>
    refine ⟨?_, [3], by simp, ?_⟩
    · rw [if_pos rfl, scan_append, hd, Option.bind_some]
      exact hdots false
    · rw [if_pos rfl, List.append_assoc]
      rfl
  | false =>
    refine ⟨?_, [], by simp, ?_⟩
    · rw [if_neg (by simp), scan_append, hd, Option.bind_some]
      exact hdots false
    · rw [if_neg (by simp), List.append_nil]

theorem paired_rightValue (h : Paired value) (n : ℕ) :
    Paired (rightValue value n) ∧
      ∃ mark ∈ [[], [2]], rightValue value n = mark ++ value.drop (udmHtmlStrLeft value (value.length - n)) := by
  rw [paired_iff] at h ⊢
  obtain ⟨d, hd⟩ := exists_scan_take h (udmHtmlStrLeft value (value.length - n))
  have hdrop : scan 2 3 d (value.drop (udmHtmlStrLeft value (value.length - n))) = some false := by
    rw [← List.take_append_drop (udmHtmlStrLeft value (value.length - n)) value, scan_append, hd, Option.bind_some] at h
    exact h
  rw [rightValue]
  simp only [markFirst_of_scan hdrop]
  cases d with
  | true =>
    refine ⟨?_, [2], by simp, ?_⟩
    · rw [if_pos rfl, scan, if_pos rfl, if_neg (by simp)]
      exact hdrop
    · rw [if_pos rfl]
      rfl
  | false =>
    refine ⟨?_, [], by simp, ?_⟩
    · rw [if_neg (by simp)]
      exact hdrop
    · rw [if_neg (by simp), List.nil_append]

theorem length_rightValue (value : List UInt8) (n : ℕ) :
    (rightValue value n).length =
      value.length - udmHtmlStrLeft value (value.length - n) +
        if markFirst (value.drop (udmHtmlStrLeft value (value.length - n))) 3 2 then 1 else 0 := by
  rw [rightValue]
  split_ifs <;> simp

/-! ### When the last bytes fit -/

/-- A character reference in which the last bytes begin has at most seven bytes in front of them, a mark that is opened
among them. -/
def OverhangFits (value : List UInt8) (n : ℕ) : Prop :=
  ∀ i j, Reference value i j → i < value.length - n → value.length - n ≤ j →
    value.length - n - i + (if markFirst (value.drop i) 3 2 then 1 else 0) ≤ 7

theorem length_rightValue_lt_iff {n : ℕ} (hn : n < value.length) :
    (rightValue value n).length < n + 8 ↔ OverhangFits value n := by
  have hle := udmHtmlStrLeft_le value (value.length - n)
  rw [length_rightValue]
  rcases Nat.lt_or_eq_of_le hle with hlt | heq
  · obtain ⟨j, h, hj⟩ := inside_of_udmHtmlStrLeft (Nat.sub_le _ _) hlt
    constructor
    · intro hfits i' j' h' hi' hj'
      have hplace := udmHtmlStrLeft_of_inside h' hi' hj'
      rw [hplace] at hfits
      omega
    · intro hover
      have hfits := hover _ j h hlt hj
      omega
  · refine iff_of_true ?_ ?_
    · rw [heq]
      split_ifs <;> omega
    · intro i j h hi hj
      have hplace := udmHtmlStrLeft_of_inside h hi hj
      omega

/-- **A length limit works** for the first bytes; for the last ones it does exactly if the character reference that they
begin in is short enough. -/
theorem limitRight_iff (h : Paired value) (n : ℕ) (neg : Bool) :
    LimitRight value n neg ↔ (neg = true → n < value.length → OverhangFits value n) := by
  rw [LimitRight]
  simp only [newValue_eq_some_iff]
  constructor
  · rintro ⟨v, ⟨-, hfits⟩, -⟩ hneg hn
    rcases Nat.eq_zero_or_pos n with rfl | hpos
    · intro i j href _ hj
      have hend := href.end_lt
      omega
    · exact (length_rightValue_lt_iff hn).1 (hfits hneg hn hpos)
  · intro hover
    refine ⟨cutValue value n neg, ⟨rfl, fun hneg hn _ => (length_rightValue_lt_iff hn).2 (hover hneg hn)⟩, ?_⟩
    rw [cutValue]
    by_cases hcut : n < value.length ∧ 0 < n
    · rw [if_pos hcut]
      cases neg with
      | false =>
        obtain ⟨hpaired, hmark⟩ := paired_leftValue h n
        exact ⟨hpaired, Or.inr ⟨hcut.1, _, (udmHtmlStrLeft_le value n).trans hcut.1.le, not_insideReference hcut.1.le, hmark⟩⟩
      | true =>
        obtain ⟨hpaired, hmark⟩ := paired_rightValue h n
        exact ⟨hpaired, Or.inr ⟨hcut.1, _, (udmHtmlStrLeft_le _ _).trans (Nat.sub_le _ _),
          not_insideReference (Nat.sub_le _ _), hmark⟩⟩
    · rw [if_neg hcut]
      exact ⟨h, Or.inl rfl⟩

/-- The last byte of `a&amp;`. -/
theorem limitRight_amp :
    LimitRight (bytes "a&amp;") 1 true ↔
      (true = true → 1 < (bytes "a&amp;").length → OverhangFits (bytes "a&amp;") 1) :=
  limitRight_iff ⟨0, by decide⟩ 1 true

/-- The last byte of `&thetasym;` does not fit. -/
theorem not_limitRight :
    ¬∀ (value : List UInt8) (n : ℕ) (neg : Bool), Paired value → 0 < n → LimitRight value n neg := by
  intro h
  obtain ⟨v, hv, -⟩ := h (bytes "&thetasym;") 1 true ⟨0, by decide⟩ (by decide)
  have hnone : newValue (bytes "&thetasym;") 1 true = none := by decide
  rw [hnone] at hv
  exact nomatch hv

end Values

end MnoGoSearch.Template
