import MnoGoSearch.Sgml.Encode

/-!
# Names in wide strings

`UdmSGMLUniUnescape` (`sgml.c`). The name is copied to `sgml[]` and ends there, and the loop of `UdmSgmlToUni` goes beyond
the end of a name that it finds. What it makes of a string is right where it meets no such name and none that it takes
for another one (`uniRight_iff`).
-/

namespace MnoGoSearch.Sgml

open Lib.Delimited

/-! ## The source -/

/-- A letter. -/
def isWideLetter (u : ℤ) : Bool := (0x61 ≤ u && u ≤ 0x7A) || (0x41 ≤ u && u ≤ 0x5A)

/-- A digit. -/
def isWideDigit (u : ℤ) : Bool := 0x30 ≤ u && u ≤ 0x39

/-- An `int` as a `char`. -/
def toChar (u : ℤ) : UInt8 := UInt8.ofNat (u % 256).toNat

/-- What is written to `sgml[]`, which has room for `UDM_MAX_SGML_LEN + 1` bytes, and what was there behind it. -/
def sgmlBuffer (s : List ℤ) (garbage : List UInt8) : Option (List UInt8) :=
  if s.length ≤ maxSgmlLen then some (s.map toChar ++ 0 :: garbage) else none

/-- `atoi` of the buffer. -/
def atoiBuffer (buf : List UInt8) : ℤ := atoi (buf.takeWhile isDigit)

/-- A reference from behind the `&` on, if there is one: its character and how long it is. `none` says that memory is read
or written that is not there. -/
def uniReference (garbage : List UInt8) (s : List ℤ) : Option (Option (ℤ × ℕ)) :=
  if s.head? = some 0x23 then
    let digits := boundedRun isWideDigit (maxSgmlLen - 2) s.tail
    if (s.tail.drop digits.length).head? = some 0x3B then
      (sgmlBuffer digits garbage).map fun sgml => some (atoiBuffer sgml, digits.length + 2)
    else some none
  else
    let letters := boundedRun isWideLetter (maxSgmlLen - 1) s
    if (s.drop letters.length).head? = some 0x3B then
      ((sgmlBuffer letters garbage).bind udmSgmlToUni).map fun (c : ℕ) =>
        if c = 0 then none else some ((c : ℤ), letters.length + 1)
    else some none

/-- A character that is left in the string, and what stood for it. -/
structure Piece where
  source : List ℤ
  char : ℤ
  deriving DecidableEq

/-- The loop of `UdmSGMLUniUnescape` up to the end of the string. The first `k` characters belong to a reference. -/
def uniLoop (garbage : List UInt8) : ℕ → List ℤ → Option (List Piece)
  | _, [] => some []
  | k + 1, _ :: s => uniLoop garbage k s
  | 0, c :: s =>
    if c = 0x26 then
      (uniReference garbage s).bind fun
        | some (v, k) => (uniLoop garbage k s).map (⟨c :: s.take k, v⟩ :: ·)
        | none => (uniLoop garbage 0 s).map (⟨[c], c⟩ :: ·)
    else (uniLoop garbage 0 s).map (⟨[c], c⟩ :: ·)

/-- `UdmSGMLUniUnescape`: the characters that are left, one after the other. -/
def udmSGMLUniUnescape (garbage : List UInt8) (ustr : List ℤ) : Option (List Piece) := uniLoop garbage 0 ustr

/-! ## What is wanted -/

/-- A string, without its end. -/
abbrev WideString := { s : List ℤ // (0 : ℤ) ∉ s }

/-- A number behind `&`. -/
def isNumber (n : List ℤ) : Bool :=
  n.head? == some 0x23 && !n.tail.isEmpty && decide (n.tail.length ≤ maxSgmlLen - 2) && n.tail.all isWideDigit

/-- A text of bytes as a wide string. -/
def wide (s : List UInt8) : List ℤ := s.map fun c => (c.toNat : ℤ)

/-- A name of the table. -/
def isName (n : List ℤ) : Bool := sgmlChars.any fun p => wide p.sgml == n

/-- The length of the reference behind an `&`, with its semicolon. -/
def refLength (s : List ℤ) : Option ℕ :=
  let n := s.takeWhile (· ≠ 0x3B)
  if 0x3B ∈ s ∧ (isNumber n || isName n) = true then some (n.length + 1) else none

/-- The parts of a string. -/
inductive Segment where
  /-- A character that is kept. -/
  | kept (c : ℤ)
  | ref (text : List ℤ)

/-- The parts of a string, behind the first `k` characters. -/
def segments : ℕ → List ℤ → List Segment
  | _, [] => []
  | k + 1, _ :: s => segments k s
  | 0, c :: s =>
    if c = 0x26 then
      match refLength s with
      | some k => .ref (c :: s.take k) :: segments k s
      | none => .kept c :: segments 0 s
    else .kept c :: segments 0 s

/-- A character is right for a part of the string. -/
def Piece.Matches (x : Piece) : Segment → Prop
  | .kept c => x = ⟨[c], c⟩
  | .ref text => x.source = text ∧ x.char ≠ 0

/-- **No memory is read that is not there, and every reference is replaced by one character, and the rest is kept.** -/
def UniRight (garbage : List UInt8) (ustr : WideString) : Prop :=
  ∃ l, udmSGMLUniUnescape garbage ustr.val = some l ∧ List.Forall₂ Piece.Matches l (segments 0 ustr.val)

/-- The condition on what stands behind an `&`, up to the semicolon: a number that is short enough is not 0 as an `int`, a
name of the table has letters only and another entry comes first, and nothing else that is short enough begins with a
name. -/
def RefOk (s : List ℤ) : Prop :=
  0x3B ∈ s →
    let n := s.takeWhile (· ≠ 0x3B)
    if n.head? = some 0x23 then
      n.tail.all isWideDigit = true ∧ n.tail.length ≤ maxSgmlLen - 2 → atoi (n.tail.map toChar) ≠ 0
    else if isName n = true then
      n.all isWideLetter = true ∧ ∀ p, firstPrefix (n.map toChar) = some p → p.sgml ≠ n.map toChar
    else n.all isWideLetter = true ∧ n.length ≤ maxSgmlLen - 1 → firstPrefix (n.map toChar) = none

/-! ## The parts of a string -/

theorem toChar_natCast (c : UInt8) : toChar (c.toNat : ℤ) = c := by
  have hlt : (c.toNat : ℤ) < 256 := by exact_mod_cast c.toNat_lt
  rw [toChar, Int.emod_eq_of_lt (Int.natCast_nonneg _) hlt, Int.toNat_natCast, UInt8.ofNat_toNat]

variable {u : ℤ} {k : ℕ}

theorem exists_natCast (h : 0 ≤ u ∧ u < 256) : ∃ c : UInt8, (c.toNat : ℤ) = u :=
  ⟨toChar u, by rw [toChar, UInt8.toNat_ofNat']; omega⟩

theorem isLetter_toChar (h : isWideLetter u = true) : isLetter (toChar u) = true := by
  simp only [isWideLetter, Bool.or_eq_true, Bool.and_eq_true, decide_eq_true_eq] at h
  obtain ⟨c, rfl⟩ := exists_natCast (show 0 ≤ u ∧ u < 256 by omega)
  rw [toChar_natCast]
  simp only [isLetter, Bool.or_eq_true, Bool.and_eq_true, decide_eq_true_eq, UInt8.le_iff_toNat_le, UInt8.toNat_ofNat]
  omega

theorem isDigit_toChar (h : isWideDigit u = true) : isDigit (toChar u) = true := by
  simp only [isWideDigit, Bool.and_eq_true, decide_eq_true_eq] at h
  obtain ⟨c, rfl⟩ := exists_natCast (show 0 ≤ u ∧ u < 256 by omega)
  rw [toChar_natCast]
  simp only [isDigit, Bool.and_eq_true, decide_eq_true_eq, UInt8.le_iff_toNat_le, UInt8.toNat_ofNat]
  omega

theorem map_toChar_wide (s : List UInt8) : (wide s).map toChar = s := by
  rw [wide, List.map_map]
  exact (List.map_congr_left fun c _ => toChar_natCast c).trans (List.map_id s)

variable {n : List ℤ}

theorem isName_iff : isName n = true ↔ ∃ p ∈ sgmlChars, wide p.sgml = n := by
  rw [isName, List.any_eq_true]
  simp only [beq_iff_eq]

theorem not_mem_of_isName (h : isName n = true) {d : UInt8} (hd : (isLetter d || isDigit d) = false) :
    (d.toNat : ℤ) ∉ n := by
  obtain ⟨p, hp, rfl⟩ := isName_iff.1 h
  intro hmem
  rw [wide, List.mem_map] at hmem
  obtain ⟨c, hc, hcd⟩ := hmem
  rw [UInt8.toNat_inj.1 (Int.natCast_inj.1 hcd)] at hc
  exact not_mem_sgml hd hp hc

theorem not_mem_of_isNumber (h : isNumber n = true) : 0x26 ∉ n := by
  rw [isNumber] at h
  simp only [Bool.and_eq_true, beq_iff_eq, List.all_eq_true] at h
  obtain ⟨⟨⟨hhead, -⟩, -⟩, hall⟩ := h
  cases n with
  | nil => exact List.not_mem_nil
  | cons c n =>
    rw [List.head?_cons, Option.some.injEq] at hhead
    rw [List.mem_cons, not_or, hhead]
    exact ⟨by decide, fun hmem => Bool.noConfusion (hall 0x26 hmem : isWideDigit 0x26 = true)⟩

variable {s : List ℤ}

theorem exists_semicolon (h : 0x3B ∈ s) : ∃ n r, s = n ++ 0x3B :: r ∧ 0x3B ∉ n ∧ s.takeWhile (· ≠ 0x3B) = n := by
  obtain ⟨n, r, hs, hn⟩ := List.eq_append_cons_of_mem h
  exact ⟨n, r, hs, hn, by rw [hs, takeWhile_ne_append hn]⟩

theorem refLength_some (h : refLength s = some k) : 1 ≤ k ∧ k ≤ s.length ∧ 0x26 ∉ s.take k := by
  rw [refLength] at h
  by_cases hif : 0x3B ∈ s ∧ (isNumber (s.takeWhile (· ≠ 0x3B)) || isName (s.takeWhile (· ≠ 0x3B))) = true
  · obtain ⟨n, r, hs, hn, htake⟩ := exists_semicolon hif.1
    simp only [if_pos hif, Option.some.injEq] at h
    rw [htake] at h hif
    have hamp : (0x26 : ℤ) ∉ n := by
      rcases Bool.or_eq_true_iff.1 hif.2 with hnum | hname
      · exact not_mem_of_isNumber hnum
      · exact not_mem_of_isName (d := 0x26) hname (by decide)
    have hk : s.take k = n ++ [0x3B] := by
      rw [hs, ← h, List.take_append, List.take_of_length_le (by omega), Nat.add_sub_cancel_left]
      rfl
    refine ⟨by omega, ?_, ?_⟩
    · rw [hs, List.length_append, List.length_cons]
      omega
    · rw [hk, List.mem_append, not_or]
      exact ⟨hamp, by decide⟩
  · simp only [if_neg hif] at h
    exact nomatch h

/-! ## One reference -/

section Step

variable (garbage : List UInt8)

/-- A reference is found where it stands, and is replaced by a character. -/
def StepRight (s : List ℤ) : Prop :=
  match uniReference garbage s with
  | none => False
  | some none => refLength s = none
  | some (some (v, k)) => refLength s = some k ∧ v ≠ 0

variable {d : List ℤ}

theorem uniReference_number (hd : 0x3B ∉ d) (r : List ℤ) :
    uniReference garbage (0x23 :: d ++ 0x3B :: r) =
      some (if d.all isWideDigit = true ∧ d.length ≤ maxSgmlLen - 2 then some (atoi (d.map toChar), d.length + 2)
        else none) := by
  have hiff := head_drop_boundedRun_iff (f := isWideDigit) (k := maxSgmlLen - 2) (by decide) hd r
  rw [← List.all_eq_true] at hiff
  rw [uniReference, if_pos (by rfl)]
  simp only [List.cons_append, List.tail_cons, hiff]
  by_cases hall : d.all isWideDigit = true ∧ d.length ≤ maxSgmlLen - 2
  · have hrun : boundedRun isWideDigit (maxSgmlLen - 2) (d ++ 0x3B :: r) = d :=
      boundedRun_append (List.all_eq_true.1 hall.1) hall.2 (by decide) r
    have hroom : d.length ≤ maxSgmlLen := hall.2.trans (Nat.sub_le _ _)
    have hdigits : ∀ c ∈ d.map toChar, isDigit c = true := by
      intro c hc
      obtain ⟨u, hu, rfl⟩ := List.mem_map.1 hc
      exact isDigit_toChar (List.all_eq_true.1 hall.1 u hu)
    have hatoi : atoiBuffer (d.map toChar ++ 0 :: garbage) = atoi (d.map toChar) := by
      rw [atoiBuffer, List.takeWhile_append_of_pos hdigits, List.takeWhile_cons_of_neg (by decide), List.append_nil]
    rw [if_pos hall, if_pos hall, hrun, sgmlBuffer, if_pos hroom, Option.map_some, hatoi]
  · rw [if_neg hall, if_neg hall]

theorem uniReference_name (hhead : n.head? ≠ some 0x23) (hn : 0x3B ∉ n) (r : List ℤ) :
    uniReference garbage (n ++ 0x3B :: r) =
      if n.all isWideLetter = true ∧ n.length ≤ maxSgmlLen - 1 then
        match firstPrefix (n.map toChar) with
        | none => some none
        | some p => if p.sgml = n.map toChar then none else some (some ((p.unicode : ℤ), n.length + 1))
      else some none := by
  have hiff := head_drop_boundedRun_iff (f := isWideLetter) (k := maxSgmlLen - 1) (by decide) hn r
  rw [← List.all_eq_true] at hiff
  have hhead' : (n ++ 0x3B :: r).head? ≠ some 0x23 := by
    cases n with
    | nil => simp
    | cons c n => exact hhead
  rw [uniReference, if_neg hhead']
  simp only [hiff]
  by_cases hall : n.all isWideLetter = true ∧ n.length ≤ maxSgmlLen - 1
  · have hrun : boundedRun isWideLetter (maxSgmlLen - 1) (n ++ 0x3B :: r) = n :=
      boundedRun_append (List.all_eq_true.1 hall.1) hall.2 (by decide) r
    have hroom : n.length ≤ maxSgmlLen := hall.2.trans (Nat.sub_le _ _)
    have hzero : (0 : UInt8) ∉ n.map toChar := by
      intro hmem
      obtain ⟨u, hu, hzero⟩ := List.mem_map.1 hmem
      have hletter := isLetter_toChar (List.all_eq_true.1 hall.1 u hu)
      rw [hzero] at hletter
      exact Bool.noConfusion hletter
    rw [if_pos hall, if_pos hall, hrun, sgmlBuffer, if_pos hroom, Option.bind_some, udmSgmlToUni_cut hzero]
    cases hfirst : firstPrefix (n.map toChar) with
    | none => rfl
    | some p =>
      have hp := (sgmlChars_wellFormed (mem_of_firstPrefix hfirst).1).2.2.2
      by_cases heq : p.sgml = n.map toChar
      · simp only [if_pos heq, Option.map_none]
      · simp only [if_neg heq, Option.map_some, if_neg hp]
  · rw [if_neg hall, if_neg hall]

theorem uniReference_none (h : 0x3B ∉ s) : uniReference garbage s = some none := by
  rw [uniReference]
  by_cases hhead : s.head? = some 0x23
  · have htail : 0x3B ∉ s.tail := fun hmem => h (List.mem_of_mem_tail hmem)
    rw [if_pos hhead]
    exact if_neg (head_drop_ne htail _)
  · rw [if_neg hhead]
    exact if_neg (head_drop_ne h _)

theorem uniReference_some {v : ℤ} (h : uniReference garbage s = some (some (v, k))) : 1 ≤ k ∧ k ≤ s.length := by
  by_cases hsemi : 0x3B ∈ s
  · obtain ⟨n, r, rfl, hn, -⟩ := exists_semicolon hsemi
    have hk : k = n.length + 1 := by
      by_cases hhead : n.head? = some 0x23
      · obtain ⟨d, rfl⟩ := List.head?_eq_some_iff.1 hhead
        rw [uniReference_number garbage fun h => hn (List.mem_cons_of_mem _ h), Option.some.injEq] at h
        by_cases hall : d.all isWideDigit = true ∧ d.length ≤ maxSgmlLen - 2
        · rw [if_pos hall, Option.some.injEq, Prod.mk.injEq] at h
          exact h.2.symm
        · rw [if_neg hall] at h
          exact nomatch h
      · rw [uniReference_name garbage hhead hn] at h
        by_cases hall : n.all isWideLetter = true ∧ n.length ≤ maxSgmlLen - 1
        · rw [if_pos hall] at h
          cases hfirst : firstPrefix (n.map toChar) with
          | none =>
            rw [hfirst] at h
            exact nomatch h
          | some p =>
            rw [hfirst] at h
            by_cases heq : p.sgml = n.map toChar
            · simp only [if_pos heq, reduceCtorEq] at h
            · simp only [if_neg heq, Option.some.injEq, Prod.mk.injEq] at h
              exact h.2.symm
        · rw [if_neg hall] at h
          exact nomatch h
    rw [List.length_append, List.length_cons]
    omega
  · rw [uniReference_none garbage hsemi, Option.some.injEq] at h
    exact nomatch h

theorem refLength_append (hn : 0x3B ∉ n) (r : List ℤ) :
    refLength (n ++ 0x3B :: r) = if (isNumber n || isName n) = true then some (n.length + 1) else none := by
  have hmem : (0x3B : ℤ) ∈ n ++ 0x3B :: r := by simp
  rw [refLength]
  simp only [takeWhile_ne_append hn, hmem, true_and]

theorem atoi_nil : atoi [] = 0 := by decide

theorem stepRight_number (hd : 0x3B ∉ d) (r : List ℤ) :
    StepRight garbage (0x23 :: d ++ 0x3B :: r) ↔
      (d.all isWideDigit = true ∧ d.length ≤ maxSgmlLen - 2 → atoi (d.map toChar) ≠ 0) := by
  have hsemi : (0x3B : ℤ) ∉ 0x23 :: d := by
    rw [List.mem_cons, not_or]
    exact ⟨by decide, hd⟩
  have hname : isName (0x23 :: d) = false :=
    Bool.eq_false_iff.2 fun h => not_mem_of_isName (d := 0x23) h (by decide) List.mem_cons_self
  rw [StepRight, uniReference_number garbage hd, refLength_append hsemi, hname, Bool.or_false]
  by_cases hall : d.all isWideDigit = true ∧ d.length ≤ maxSgmlLen - 2
  · simp only [hall, and_self, true_imp_iff]
    by_cases hempty : d = []
    · rw [hempty, List.map_nil, atoi_nil]
      simp
    · have hnumber : isNumber (0x23 :: d) = true := by
        simp [isNumber, hall, hempty]
      rw [if_pos hnumber, List.length_cons]
      exact and_iff_right rfl
  · have hnumber : ¬isNumber (0x23 :: d) = true := by
      rw [isNumber]
      simp only [List.tail_cons, Bool.and_eq_true]
      exact fun h => hall ⟨h.2, of_decide_eq_true h.1.2⟩
    simp only [if_neg hall, if_neg hnumber, true_iff]
    exact fun h => absurd h hall

theorem stepRight_name (hhead : n.head? ≠ some 0x23) (hn : 0x3B ∉ n) (r : List ℤ) :
    StepRight garbage (n ++ 0x3B :: r) ↔
      if isName n = true then
        n.all isWideLetter = true ∧ ∀ p, firstPrefix (n.map toChar) = some p → p.sgml ≠ n.map toChar
      else n.all isWideLetter = true ∧ n.length ≤ maxSgmlLen - 1 → firstPrefix (n.map toChar) = none := by
  have hnumber : isNumber n = false := by
    rw [isNumber]
    simp only [beq_eq_false_iff_ne.2 hhead, Bool.false_and]
  rw [StepRight, uniReference_name garbage hhead hn, refLength_append hn, hnumber, Bool.false_or]
  by_cases hname : isName n = true
  · rw [if_pos hname, if_pos hname]
    obtain ⟨p, hp, hwide⟩ := isName_iff.1 hname
    have hsgml : n.map toChar = p.sgml := by rw [← hwide, map_toChar_wide]
    have hlen : n.length ≤ maxSgmlLen - 1 := by
      have hlen := (sgmlChars_wellFormed hp).2.1
      rw [← hsgml, List.length_map] at hlen
      exact hlen.trans (by decide)
    by_cases hletters : n.all isWideLetter = true
    · simp only [hletters, hlen, and_self, if_true, true_and]
      cases hfirst : firstPrefix (n.map toChar) with
      | none =>
        have hnot := List.find?_eq_none.1 hfirst p hp
        exact absurd (by simp [hsgml]) hnot
      | some q =>
        have hq := (sgmlChars_wellFormed (mem_of_firstPrefix hfirst).1).2.2.2
        by_cases heq : q.sgml = n.map toChar
        · simp [heq]
        · simp [heq, hq]
    · simp [hletters]
  · rw [if_neg hname, if_neg hname]
    by_cases hall : n.all isWideLetter = true ∧ n.length ≤ maxSgmlLen - 1
    · simp only [hall, and_self, true_imp_iff]
      cases firstPrefix (n.map toChar) with
      | none => simp
      | some q =>
        by_cases heq : q.sgml = n.map toChar
        · simp [heq]
        · simp [heq]
    · simp only [if_neg hall, true_iff]
      exact fun h => absurd h hall

/-- **The condition says when a step is right.** -/
theorem stepRight_iff (s : List ℤ) : StepRight garbage s ↔ RefOk s := by
  by_cases hsemi : 0x3B ∈ s
  · obtain ⟨n, r, rfl, hn, htake⟩ := exists_semicolon hsemi
    rw [RefOk, htake]
    simp only [hsemi, true_imp_iff]
    by_cases hhead : n.head? = some 0x23
    · obtain ⟨d, rfl⟩ := List.head?_eq_some_iff.1 hhead
      rw [if_pos hhead, stepRight_number garbage fun h => hn (List.mem_cons_of_mem _ h)]
      rfl
    · rw [if_neg hhead]
      exact stepRight_name garbage hhead hn r
  · have hlen : refLength s = none := by
      rw [refLength]
      exact if_neg fun h => hsemi h.1
    rw [StepRight, uniReference_none garbage hsemi, RefOk]
    simp only [hlen, hsemi, false_imp_iff]

end Step

/-! ## A run -/

/-- A text that begins behind an `&`. -/
def Behind (t s : List ℤ) : Prop := 0x26 :: t <:+ s

variable {t : List ℤ}

theorem behind_cons {c : ℤ} : Behind t (c :: s) ↔ (c = 0x26 ∧ t = s) ∨ Behind t s := by
  rw [Behind, List.suffix_cons_iff, List.cons.injEq, eq_comm (a := (0x26 : ℤ)), Behind]

theorem behind_drop (hk : 0x26 ∉ s.take k) : Behind t (s.drop k) ↔ Behind t s := by
  induction s generalizing k with
  | nil => rw [List.drop_nil]
  | cons c s ih =>
    cases k with
    | zero => rfl
    | succ k =>
      rw [List.take_succ_cons, List.mem_cons, not_or] at hk
      rw [List.drop_succ_cons, ih hk.2, behind_cons]
      exact ⟨Or.inr, fun h => h.resolve_left fun hc => hk.1 hc.1.symm⟩

theorem take_ne_nil (hk : 1 ≤ k) (hle : k ≤ s.length) : s.take k ≠ [] := by
  intro h
  have hlen := congrArg List.length h
  rw [List.length_take, List.length_nil] at hlen
  omega

/-- **The loop is right exactly where every reference is.** -/
theorem uniLoop_iff (garbage : List UInt8) (k : ℕ) (s : List ℤ) :
    (∃ l, uniLoop garbage k s = some l ∧ List.Forall₂ Piece.Matches l (segments k s)) ↔
      ∀ t, Behind t (s.drop k) → RefOk t := by
  induction s generalizing k with
  | nil =>
    have hnot : ∀ t, ¬Behind t ([].drop k) := by
      intro t h
      rw [List.drop_nil, Behind, List.suffix_nil] at h
      exact nomatch h
    rw [uniLoop, segments]
    exact ⟨fun _ t ht => absurd ht (hnot t), fun _ => ⟨[], rfl, List.Forall₂.nil⟩⟩
  | cons c s ih =>
    have hcons {x : Piece} {g : Segment} {j i : ℕ} :
        (∃ l, (uniLoop garbage j s).map (x :: ·) = some l ∧ List.Forall₂ Piece.Matches l (g :: segments i s)) ↔
          x.Matches g ∧ ∃ l, uniLoop garbage j s = some l ∧ List.Forall₂ Piece.Matches l (segments i s) := by
      constructor
      · rintro ⟨l, hl, hall⟩
        obtain ⟨l', hl', rfl⟩ := Option.map_eq_some_iff.1 hl
        obtain ⟨hx, hall'⟩ := List.forall₂_cons.1 hall
        exact ⟨hx, l', hl', hall'⟩
      · rintro ⟨hx, l, hl, hall⟩
        exact ⟨x :: l, by rw [hl, Option.map_some], List.Forall₂.cons hx hall⟩
    cases k with
    | succ k =>
      rw [uniLoop, segments, List.drop_succ_cons]
      exact ih k
    | zero =>
      rw [List.drop_zero]
      simp only [behind_cons]
      by_cases hc : c = 0x26
      · rw [uniLoop, segments, if_pos hc, if_pos hc]
        have hstep := stepRight_iff garbage s
        have hforall : (∀ t, (c = 0x26 ∧ t = s) ∨ Behind t s → RefOk t) ↔ RefOk s ∧ ∀ t, Behind t s → RefOk t :=
          ⟨fun h => ⟨h s (Or.inl ⟨hc, rfl⟩), fun t ht => h t (Or.inr ht)⟩, fun h t ht =>
            ht.elim (fun heq => heq.2 ▸ h.1) (h.2 t)⟩
        rw [hforall, ← hstep, StepRight]
        match href : uniReference garbage s, hlen : refLength s with
        | none, _ => simp
        | some none, none =>
          simp only [Option.bind_some, true_and]
          rw [hcons, ih 0]
          exact and_iff_right rfl
        | some none, some j =>
          obtain ⟨hj, hle, -⟩ := refLength_some hlen
          simp only [Option.bind_some]
          rw [hcons]
          refine iff_of_false (fun h => ?_) fun h => nomatch h.1
          exact take_ne_nil hj hle (List.cons.inj h.1.1).2.symm
        | some (some (v, i)), none =>
          obtain ⟨hi, hle⟩ := uniReference_some garbage href
          simp only [Option.bind_some]
          rw [hcons]
          refine iff_of_false (fun h => ?_) fun h => nomatch h.1.1
          exact take_ne_nil hi hle (List.cons.inj (congrArg Piece.source h.1)).2
        | some (some (v, i)), some j =>
          obtain ⟨-, hi⟩ := uniReference_some garbage href
          obtain ⟨-, hj, hamp⟩ := refLength_some hlen
          simp only [Option.bind_some, Option.some.injEq]
          rw [hcons]
          constructor
          · rintro ⟨⟨htext, hv⟩, hrest⟩
            obtain rfl : i = j := by
              have hlength := congrArg List.length (List.cons.inj htext).2
              rw [List.length_take, List.length_take] at hlength
              omega
            exact ⟨⟨rfl, hv⟩, fun t ht => (ih i).1 hrest t ((behind_drop hamp).2 ht)⟩
          · rintro ⟨⟨rfl, hv⟩, hall⟩
            exact ⟨⟨rfl, hv⟩, (ih j).2 fun t ht => hall t ((behind_drop hamp).1 ht)⟩
      · rw [uniLoop, segments, if_neg hc, if_neg hc, hcons, ih 0, List.drop_zero]
        simp only [hc, false_and, false_or]
        exact and_iff_right rfl

/-- **The function is safe and effective exactly where every text behind an `&` meets the condition**, whatever the buffer
held before. -/
theorem uniRight_iff (garbage : List UInt8) (ustr : WideString) :
    UniRight garbage ustr ↔ ∀ t, Behind t ustr.val → RefOk t :=
  uniLoop_iff garbage 0 ustr.val

/-- In `&lt;` the loop goes beyond the end of the name. -/
theorem not_forall_uniRight : ¬∀ (garbage : List UInt8) (ustr : WideString), UniRight garbage ustr := by
  intro h
  let ustr : WideString := ⟨[0x26, 0x6C, 0x74, 0x3B], by decide⟩
  have hright := (uniLoop_iff [] 0 ustr.val).1 (h [] ustr)
  have hok : RefOk [0x6C, 0x74, 0x3B] := hright _ List.suffix_rfl
  have hname : isName [0x6C, 0x74] = true := by decide
  have hfirst : firstPrefix ([0x6C, 0x74].map toChar) = some ⟨[0x6C, 0x74], 60⟩ := by decide
  have hif := hok (by decide)
  rw [show [(0x6C : ℤ), 0x74, 0x3B].takeWhile (· ≠ 0x3B) = [0x6C, 0x74] by decide] at hif
  simp only [List.head?_cons, Option.some.injEq, hname, if_true] at hif
  exact hif.2 _ hfirst (by decide)

end MnoGoSearch.Sgml
