import MnoGoSearch.Highlight.Highlight
import MnoGoSearch.Sgml.Encode

/-!
# Exact names

What `UdmSGMLScan` and `UdmSGMLUnescape` (`sgml.c`) make of `&`, a name and `;`. They take the first entry of the table
that the name starts with, so a name is exact where no other entry comes first (`namesExact_iff`).
-/

namespace MnoGoSearch.Sgml

open Lib.Delimited Url Words Highlight

/-! ## What is wanted -/

/-- What may stand as a name between `&` and the next `;`. A text with `#` at its beginning is a number. -/
structure EntityName where
  val : List UInt8
  ne_nil : val ≠ []
  zero_not_mem : 0 ∉ val
  /-- It ends in front of the first semicolon. -/
  semicolon_not_mem : 0x3B ∉ val
  /-- It begins behind the last `&`. -/
  amp_not_mem : 0x26 ∉ val
  head_ne : val.head? ≠ some 0x23

/-- A name as it is written. -/
def EntityName.written (n : EntityName) (rest : List UInt8) : List UInt8 := 0x26 :: (n.val ++ 0x3B :: rest)

/-- The table for `UdmSGMLScan`. -/
def toUni (s : List UInt8) : ℤ := ((udmSgmlToUni s).getD 0 : ℕ)

/-- `UdmSGMLScan` takes a name as a whole for its character, and else only the `&`. -/
def ScanRight (n : EntityName) (rest : List UInt8) : Prop :=
  udmSGMLScan toUni (n.written rest) =
    match entry n.val with
    | some p => (n.val.length + 2, (p.unicode : ℤ))
    | none => (1, 0x26)

/-- `UdmSGMLUnescape` replaces a name by its character, and else leaves it as it is. -/
def UnescapeRight (n : EntityName) (before rest : List UInt8) : Prop :=
  match entry n.val with
  | some p =>
    ∃ b : UInt8, b.toNat = p.unicode ∧
      udmSGMLUnescape (before ++ n.written rest) =
        (udmSGMLUnescape before).bind fun s => (udmSGMLUnescape rest).map fun t => s ++ b :: t
  | none =>
    udmSGMLUnescape (before ++ n.written rest) =
      (udmSGMLUnescape before).bind fun s => (udmSGMLUnescape rest).map fun t => s ++ n.written t

/-- **Names are matched exactly**, wherever they stand in a text. -/
def NamesExact (n : EntityName) (before rest : CString) : Prop :=
  ScanRight n rest.val ∧ UnescapeRight n before.val rest.val

/-- The condition. For a name of the table: no other entry comes first, it has only letters, and its character is a byte.
For another one: no entry comes first that is taken for it. -/
def ExactName (n : EntityName) : Prop :=
  match entry n.val with
  | some p => firstPrefix n.val = some p ∧ n.val.all isLetter = true ∧ p.unicode < 256
  | none =>
    ∀ q, firstPrefix n.val = some q →
      8 < n.val.length ∧
        (n.val.all isLetter = true → maxSgmlLen ≤ n.val.length ∨ UInt8.ofNat q.unicode = 0)

/-! ## The first function -/

section Scan

variable {n : EntityName}

theorem toUni_append (n : EntityName) (rest : List UInt8) :
    toUni (n.val ++ 0x3B :: rest) = ((firstPrefix n.val).elim 0 fun p => p.unicode : ℕ) := by
  rw [toUni, udmSgmlToUni_append n.zero_not_mem isDelim_semicolon, Option.getD_some]

theorem findIdx_semicolon (n : EntityName) (rest : List UInt8) :
    (((n.written rest).take 10).drop 2).findIdx? (· == 0x3B) =
      if n.val.length ≤ 8 then some (n.val.length - 1) else none := by
  obtain ⟨c, s, hval⟩ := List.exists_cons_of_ne_nil n.ne_nil
  have hs : ∀ d ∈ s, (d == 0x3B) = false := by
    intro d hd
    have hmem : d ∈ n.val := by simp [hval, hd]
    exact beq_eq_false_iff_ne.2 fun h => n.semicolon_not_mem (h ▸ hmem)
  have hdrop : ((n.written rest).take 10).drop 2 = (s ++ 0x3B :: rest).take 8 := by
    rw [EntityName.written, hval]
    rfl
  rw [hdrop, hval, List.length_cons]
  by_cases hlen : s.length + 1 ≤ 8
  · have htake : (s ++ 0x3B :: rest).take 8 = s ++ 0x3B :: rest.take (7 - s.length) := by
      rw [List.take_append, List.take_of_length_le (by omega), show 8 - s.length = 7 - s.length + 1 by omega,
        List.take_succ_cons]
    have hnone : s.findIdx? (· == 0x3B) = none := List.findIdx?_eq_none_iff.2 hs
    rw [if_pos hlen, htake, List.findIdx?_append, hnone, List.findIdx?_cons]
    simp
  · have htake : (s ++ 0x3B :: rest).take 8 = s.take 8 := List.take_append_of_le_length (by omega)
    rw [if_neg hlen, htake]
    exact List.findIdx?_eq_none_iff.2 fun d hd => hs d (List.mem_of_mem_take hd)

/-- **`UdmSGMLScan` of a name.** -/
theorem udmSGMLScan_written (n : EntityName) (rest : List UInt8) :
    udmSGMLScan toUni (n.written rest) =
      match firstPrefix n.val with
      | some p => if n.val.length ≤ 8 then (n.val.length + 2, (p.unicode : ℤ)) else (1, 0x26)
      | none => (1, 0x26) := by
  have hhead : ((n.written rest).drop 1).head?.any (· == 0x23) = false := by
    obtain ⟨c, s, hval⟩ := List.exists_cons_of_ne_nil n.ne_nil
    have hc := n.head_ne
    rw [hval, List.head?_cons, ne_eq, Option.some.injEq] at hc
    rw [EntityName.written, hval]
    simpa using hc
  have huni : toUni ((n.written rest).drop 1) = ((firstPrefix n.val).elim 0 fun p => p.unicode : ℕ) :=
    toUni_append n rest
  have hpos : 0 < n.val.length := List.length_pos_of_ne_nil n.ne_nil
  rw [udmSGMLScan, findIdx_semicolon n rest]
  by_cases hlen : n.val.length ≤ 8
  · simp only [if_pos hlen, hhead, huni]
    cases hfirst : firstPrefix n.val with
    | none => simp
    | some p =>
      have hp := (sgmlChars_wellFormed (mem_of_firstPrefix hfirst).1).2.2.2
      simp only [Option.elim_some, Bool.false_eq_true, if_false, ne_eq, Nat.cast_eq_zero, hp, not_false_eq_true,
        if_true, Prod.mk.injEq, and_true]
      omega
  · simp only [if_neg hlen]
    cases firstPrefix n.val with
    | none => rfl
    | some p => rfl

theorem scanRight_of_entry {p : UdmSgmlChars} (hentry : entry n.val = some p) (rest : List UInt8) :
    ScanRight n rest ↔ firstPrefix n.val = some p := by
  obtain ⟨q, hq⟩ := exists_firstPrefix hentry
  have hp := mem_of_entry hentry
  have hlen : n.val.length ≤ 8 := by
    rw [← hp.2]
    exact (sgmlChars_wellFormed hp.1).2.1
  rw [ScanRight, udmSGMLScan_written, hentry, hq]
  simp only [if_pos hlen, Prod.mk.injEq, true_and, Nat.cast_inj, Option.some.injEq]
  exact ⟨eq_of_unicode_eq (mem_of_firstPrefix hq).1 hp.1, fun h => by rw [h]⟩

theorem scanRight_of_not_entry (hentry : entry n.val = none) (rest : List UInt8) :
    ScanRight n rest ↔ ∀ q, firstPrefix n.val = some q → 8 < n.val.length := by
  rw [ScanRight, udmSGMLScan_written, hentry]
  cases firstPrefix n.val with
  | none => simp
  | some q =>
    by_cases hlen : n.val.length ≤ 8
    · simp only [if_pos hlen, Prod.mk.injEq, Option.some.injEq, forall_eq', not_lt.2 hlen, iff_false, not_and]
      omega
    · simp only [if_neg hlen, Option.some.injEq, forall_eq', not_le.1 hlen]

end Scan

/-! ## The second function -/

variable {s : List UInt8} {k : ℕ} {d : UInt8}

theorem refLetters_isLetter {c : UInt8} (h : c ∈ refLetters s) : isLetter c = true :=
  of_mem_boundedRun h

theorem zero_not_mem_refLetters (s : List UInt8) : 0 ∉ refLetters s := fun h =>
  Bool.noConfusion (refLetters_isLetter h : isLetter 0 = true)

/-- A character that no reference goes beyond. -/
def EndsReference (d : UInt8) : Prop := isDigit d = false ∧ isLetter d = false ∧ d ≠ 0x23 ∧ d ≠ 0x3B

instance (d : UInt8) : Decidable (EndsReference d) := inferInstanceAs (Decidable (_ ∧ _))

/-- **A reference does not go beyond such a character.** -/
theorem reference_append (hd : EndsReference d) (a s : List UInt8) :
    reference (a ++ d :: s) = reference a := by
  obtain ⟨hdigit, hletter, hhash, hsemicolon⟩ := hd
  have hletters : refLetters (a ++ d :: s) = refLetters a := boundedRun_append_of_false hletter _ a s
  cases a with
  | nil =>
    have hempty : refLetters [] = [] := rfl
    rw [List.nil_append] at hletters ⊢
    rw [reference_letters (by simpa using hhash), reference_letters (by simp), hletters, hempty,
      if_neg (by simpa using hsemicolon), if_neg (by simp)]
  | cons c a =>
    have hhead : (c :: a ++ d :: s).head? = (c :: a).head? := rfl
    by_cases hc : (c :: a).head? = some 0x23
    · have hdigits : refDigits (c :: a ++ d :: s).tail = refDigits (c :: a).tail :=
        boundedRun_append_of_false hdigit _ a s
      have hlen : (refDigits (c :: a).tail).length + 1 ≤ (c :: a).length :=
        Nat.succ_le_succ (boundedRun_isPrefix _ _ a).length_le
      rw [reference_number (hhead.trans hc), reference_number hc, hdigits]
      simp only [head_drop_append hsemicolon hlen s]
    · rw [reference_letters (fun h => hc (hhead.symm.trans h)), reference_letters hc, hletters]
      have hlen : (refLetters (c :: a)).length ≤ (c :: a).length := (boundedRun_isPrefix _ _ (c :: a)).length_le
      simp only [head_drop_append hsemicolon hlen s]
      by_cases hsemi : ((c :: a).drop (refLetters (c :: a)).length).head? = some 0x3B
      · obtain ⟨t, ht⟩ : ∃ t, c :: a = refLetters (c :: a) ++ 0x3B :: t := eq_boundedRun_append hsemi
        have hzero := zero_not_mem_refLetters (c :: a)
        have hlong : c :: a ++ d :: s = refLetters (c :: a) ++ 0x3B :: (t ++ d :: s) := by
          conv_lhs => rw [ht]
          rw [List.append_assoc, List.cons_append]
        have huni : udmSgmlToUni (c :: a ++ d :: s) = udmSgmlToUni (c :: a) := by
          conv_rhs => rw [ht]
          rw [hlong, udmSgmlToUni_append hzero isDelim_semicolon, udmSgmlToUni_append hzero isDelim_semicolon t]
        rw [if_pos hsemi, if_pos hsemi, huni]
      · rw [if_neg hsemi, if_neg hsemi]

theorem le_length_of_reference {b : UInt8} (h : reference s = some (some (b, k))) :
    k ≤ s.length := by
  have hlt {j : ℕ} (hj : (s.drop j).head? = some 0x3B) : j < s.length := by
    by_contra hle
    rw [List.drop_of_length_le (not_lt.1 hle)] at hj
    exact nomatch hj
  by_cases hhash : s.head? = some 0x23
  · rw [reference_number hhash] at h
    by_cases hsemi : (s.drop ((refDigits s.tail).length + 1)).head? = some 0x3B
    · rw [if_pos hsemi, Option.some.injEq, Option.some.injEq, Prod.mk.injEq] at h
      rw [← h.2]
      exact hlt hsemi
    · rw [if_neg hsemi, Option.some.injEq] at h
      exact nomatch h
  · rw [reference_letters hhash] at h
    by_cases hsemi : (s.drop (refLetters s).length).head? = some 0x3B
    · rw [if_pos hsemi, Option.map_eq_some_iff] at h
      obtain ⟨v, -, hv⟩ := h
      by_cases hzero : UInt8.ofNat v = 0
      · rw [if_pos hzero] at hv
        exact nomatch hv
      · rw [if_neg hzero, Option.some.injEq, Prod.mk.injEq] at hv
        rw [← hv.2]
        exact hlt hsemi
    · rw [if_neg hsemi, Option.some.injEq] at h
      exact nomatch h

/-- **What is in front of such a character is decoded for itself.** -/
theorem unescapeLoop_append (hd : EndsReference d) {a : List UInt8} (hk : k ≤ a.length)
    (s : List UInt8) :
    unescapeLoop k (a ++ d :: s) = (unescapeLoop k a).bind fun a' => (unescapeLoop 0 (d :: s)).map (a' ++ ·) := by
  induction a generalizing k with
  | nil =>
    obtain rfl : k = 0 := Nat.le_zero.1 hk
    simp [unescapeLoop]
  | cons c a ih =>
    have hcons {j : ℕ} (hj : j ≤ a.length) (e : UInt8) :
        (unescapeLoop j (a ++ d :: s)).map (e :: ·) =
          ((unescapeLoop j a).map (e :: ·)).bind fun a' => (unescapeLoop 0 (d :: s)).map (a' ++ ·) := by
      rw [ih hj, Option.map_bind, Option.bind_map]
      congr 1
      funext a'
      rw [Function.comp_apply, Function.comp_apply, Option.map_map]
      rfl
    cases k with
    | succ k =>
      rw [List.cons_append, unescapeLoop, unescapeLoop]
      exact ih (Nat.le_of_succ_le_succ hk)
    | zero =>
      by_cases hc : c = 0x26
      · rw [List.cons_append, unescapeLoop, unescapeLoop, if_pos hc, if_pos hc, reference_append hd]
        rcases href : reference a with _ | _ | ⟨b, j⟩
        · rfl
        · exact hcons (Nat.zero_le _) c
        · exact hcons (le_length_of_reference href) b
      · rw [List.cons_append, unescapeLoop, unescapeLoop, if_neg hc, if_neg hc]
        exact hcons (Nat.zero_le _) c

section Unescape

variable {n : EntityName}

/-- **A name as a reference.** One that has other characters than letters, or too many of them, is none. -/
theorem reference_written (n : EntityName) (rest : List UInt8) :
    reference (n.val ++ 0x3B :: rest) =
      some (if n.val.all isLetter = true ∧ n.val.length < maxSgmlLen then
        let v := (firstPrefix n.val).elim 0 fun p => p.unicode
        if UInt8.ofNat v = 0 then none else some (UInt8.ofNat v, n.val.length + 1)
      else none) := by
  by_cases hn : n.val.all isLetter = true ∧ n.val.length < maxSgmlLen
  · rw [if_pos hn]
    exact reference_name (List.all_eq_true.1 hn.1) hn.2 rest
  · have hhead : (n.val ++ 0x3B :: rest).head? ≠ some 0x23 := by
      rw [List.head?_append_of_ne_nil _ n.ne_nil]
      exact n.head_ne
    rw [if_neg hn, reference_letters hhead, if_neg]
    intro hsemi
    obtain ⟨hall, hlen⟩ := (head_drop_boundedRun_iff (by decide) n.semicolon_not_mem rest).1 hsemi
    exact hn ⟨List.all_eq_true.2 hall, Nat.lt_of_le_pred (by decide) hlen⟩

theorem unescapeLoop_kept {a : List UInt8} (ha : 0x26 ∉ a) (rest : List UInt8) :
    unescapeLoop 0 (a ++ rest) = (unescapeLoop 0 rest).map (a ++ ·) := by
  induction a with
  | nil => simp
  | cons c a ih =>
    rw [List.mem_cons, not_or] at ha
    rw [List.cons_append, unescapeLoop_of_ne (Ne.symm ha.1), ih ha.2, Option.map_map]
    rfl

theorem unescapeLoop_written (n : EntityName) (rest : List UInt8) :
    unescapeLoop 0 (n.written rest) =
      (unescapeLoop 0 rest).map fun t =>
        if n.val.all isLetter = true ∧ n.val.length < maxSgmlLen ∧
            UInt8.ofNat ((firstPrefix n.val).elim 0 fun p => p.unicode) ≠ 0 then
          UInt8.ofNat ((firstPrefix n.val).elim 0 fun p => p.unicode) :: t
        else n.written t := by
  have hskip := unescapeLoop_append_length (n.val ++ [0x3B]) rest
  rw [List.length_append, List.length_singleton, List.append_assoc, List.singleton_append] at hskip
  have hkept : unescapeLoop 0 (n.val ++ 0x3B :: rest) = (unescapeLoop 0 rest).map fun t => n.val ++ 0x3B :: t := by
    rw [unescapeLoop_kept n.amp_not_mem, unescapeLoop_of_ne (by decide), Option.map_map]
    rfl
  have hnone : (unescapeLoop 0 (n.val ++ 0x3B :: rest)).map (0x26 :: ·) = (unescapeLoop 0 rest).map n.written := by
    rw [hkept, Option.map_map]
    rfl
  rw [EntityName.written, unescapeLoop, if_pos rfl, reference_written, Option.bind_some]
  by_cases hn : n.val.all isLetter = true ∧ n.val.length < maxSgmlLen
  · by_cases hzero : UInt8.ofNat ((firstPrefix n.val).elim 0 fun p => p.unicode) = 0
    · have hnot : ¬(n.val.all isLetter = true ∧ n.val.length < maxSgmlLen ∧
          UInt8.ofNat ((firstPrefix n.val).elim 0 fun p => p.unicode) ≠ 0) := fun h => h.2.2 hzero
      rw [if_pos hn]
      simp only [if_pos hzero, if_neg hnot]
      exact hnone
    · rw [if_pos hn]
      simp only [if_neg hzero, if_pos (And.intro hn.1 (And.intro hn.2 hzero))]
      exact congrArg _ hskip
  · have hnot : ¬(n.val.all isLetter = true ∧ n.val.length < maxSgmlLen ∧
        UInt8.ofNat ((firstPrefix n.val).elim 0 fun p => p.unicode) ≠ 0) := fun h => hn ⟨h.1, h.2.1⟩
    simp only [if_neg hn, if_neg hnot]
    exact hnone

theorem exists_unescapeLoop (k : ℕ) (s : List UInt8) : ∃ t, unescapeLoop k s = some t := by
  induction s generalizing k with
  | nil => exact ⟨[], by rw [unescapeLoop]⟩
  | cons c s ih =>
    have hmap {j : ℕ} (d : UInt8) : ∃ t, (unescapeLoop j s).map (d :: ·) = some t := by
      obtain ⟨t, ht⟩ := ih j
      exact ⟨d :: t, by rw [ht, Option.map_some]⟩
    cases k with
    | succ k =>
      rw [unescapeLoop]
      exact ih k
    | zero =>
      rw [unescapeLoop]
      by_cases hc : c = 0x26
      · rw [if_pos hc]
        obtain ⟨r, hr⟩ : ∃ r, reference s = some r := by
          by_cases hhash : s.head? = some 0x23
          · rw [reference_number hhash]
            split <;> exact ⟨_, rfl⟩
          · rw [reference_letters hhash]
            by_cases hsemi : (s.drop (refLetters s).length).head? = some 0x3B
            · obtain ⟨t, ht⟩ : ∃ t, s = refLetters s ++ 0x3B :: t := eq_boundedRun_append hsemi
              have huni := udmSgmlToUni_append (zero_not_mem_refLetters s) isDelim_semicolon t
              rw [← ht] at huni
              rw [if_pos hsemi, huni]
              exact ⟨_, rfl⟩
            · exact ⟨_, if_neg hsemi⟩
        rw [hr, Option.bind_some]
        rcases r with _ | ⟨b, j⟩
        · exact hmap c
        · exact hmap b
      · rw [if_neg hc]
        exact hmap c

theorem udmSGMLUnescape_written (n : EntityName) (before rest : List UInt8) :
    ∃ s t, udmSGMLUnescape before = some s ∧ udmSGMLUnescape rest = some t ∧
      udmSGMLUnescape (before ++ n.written rest) =
        some (s ++ if n.val.all isLetter = true ∧ n.val.length < maxSgmlLen ∧
            UInt8.ofNat ((firstPrefix n.val).elim 0 fun p => p.unicode) ≠ 0 then
          UInt8.ofNat ((firstPrefix n.val).elim 0 fun p => p.unicode) :: t
        else n.written t) := by
  obtain ⟨s, hs⟩ := exists_unescapeLoop 0 before
  obtain ⟨t, ht⟩ := exists_unescapeLoop 0 rest
  refine ⟨s, t, hs, ht, ?_⟩
  rw [udmSGMLUnescape, EntityName.written, unescapeLoop_append (show EndsReference 0x26 by decide) (Nat.zero_le _),
    ← EntityName.written, unescapeLoop_written, hs, ht]
  rfl

theorem cons_ne_written (n : EntityName) (b : UInt8) (s t : List UInt8) : s ++ b :: t ≠ s ++ n.written t := by
  intro h
  have hlen := congrArg List.length (List.append_cancel_left h)
  rw [EntityName.written, List.length_cons, List.length_cons, List.length_append, List.length_cons] at hlen
  omega

theorem unescapeRight_of_entry {p : UdmSgmlChars} (hentry : entry n.val = some p) (hfirst : firstPrefix n.val = some p)
    (before rest : List UInt8) : UnescapeRight n before rest ↔ n.val.all isLetter = true ∧ p.unicode < 256 := by
  have hp := mem_of_entry hentry
  obtain ⟨-, hlen, -, hne⟩ := sgmlChars_wellFormed hp.1
  rw [hp.2] at hlen
  obtain ⟨s, t, hs, ht, hrun⟩ := udmSGMLUnescape_written n before rest
  rw [hfirst, Option.elim_some] at hrun
  rw [UnescapeRight, hentry]
  simp only [hs, ht, hrun, Option.bind_some, Option.map_some, Option.some.injEq]
  constructor
  · rintro ⟨b, hb, heq⟩
    refine ⟨?_, hb ▸ b.toNat_lt⟩
    by_contra hletters
    rw [if_neg fun h => hletters h.1] at heq
    exact cons_ne_written n b s t heq.symm
  · rintro ⟨hletters, hlt⟩
    have hb : (UInt8.ofNat p.unicode).toNat = p.unicode := by
      rw [UInt8.toNat_ofNat']
      exact Nat.mod_eq_of_lt hlt
    have hzero : UInt8.ofNat p.unicode ≠ 0 := fun h => hne (by rw [← hb, h]; rfl)
    have hshort : n.val.length < maxSgmlLen := hlen.trans_lt (by decide)
    exact ⟨UInt8.ofNat p.unicode, hb, by rw [if_pos ⟨hletters, hshort, hzero⟩]⟩

theorem unescapeRight_of_not_entry (hentry : entry n.val = none) (before rest : List UInt8) :
    UnescapeRight n before rest ↔
      ∀ q, firstPrefix n.val = some q → n.val.all isLetter = true →
        maxSgmlLen ≤ n.val.length ∨ UInt8.ofNat q.unicode = 0 := by
  obtain ⟨s, t, hs, ht, hrun⟩ := udmSGMLUnescape_written n before rest
  rw [UnescapeRight, hentry]
  simp only [hs, ht, hrun, Option.bind_some, Option.map_some, Option.some.injEq]
  constructor
  · intro heq q hq hletters
    by_contra hnot
    rw [not_or, not_le] at hnot
    rw [hq, Option.elim_some, if_pos ⟨hletters, hnot⟩] at heq
    exact cons_ne_written n _ s t heq
  · intro h
    rw [if_neg]
    rintro ⟨hletters, hshort, hne⟩
    cases hq : firstPrefix n.val with
    | none => exact hne (by rw [hq]; rfl)
    | some q =>
      rw [hq, Option.elim_some] at hne
      rcases h q hq hletters with hlong | hzero
      · exact absurd hshort (not_lt.2 hlong)
      · exact hne hzero

end Unescape

/-- **Names are matched exactly where no other entry comes first.** A name of the table needs letters only and a character
that is a byte, for the function on bytes. -/
theorem namesExact_iff (n : EntityName) (before rest : CString) : NamesExact n before rest ↔ ExactName n := by
  rw [NamesExact, ExactName]
  cases hentry : entry n.val with
  | none =>
    rw [scanRight_of_not_entry hentry, unescapeRight_of_not_entry hentry]
    exact ⟨fun h q hq => ⟨h.1 q hq, h.2 q hq⟩, fun h => ⟨fun q hq => (h q hq).1, fun q hq => (h q hq).2⟩⟩
  | some p =>
    rw [scanRight_of_entry hentry]
    exact and_congr_right fun hfirst => unescapeRight_of_entry hentry hfirst before.val rest.val

/-- `&notin;` is taken for `&not;`, which comes first in the table. -/
theorem not_forall_namesExact : ¬∀ (n : EntityName) (before rest : CString), NamesExact n before rest := by
  intro h
  let n : EntityName := ⟨bytes "notin", by decide, by decide, by decide, by decide, by decide⟩
  have hscan := (h n CString.empty CString.empty).1
  have hentry : entry n.val = some ⟨bytes "notin", 8713⟩ := by decide +kernel
  have hfirst : firstPrefix n.val = some ⟨bytes "not", 172⟩ := by decide +kernel
  rw [scanRight_of_entry hentry, hfirst] at hscan
  exact absurd hscan (by decide)

end MnoGoSearch.Sgml
