import MnoGoSearch.Lib.Delimited
import MnoGoSearch.Sgml.Entities
import MnoGoSearch.Words.WordList
import Mathlib.Data.Nat.Digits.Defs

/-!
# Escaping for HTML

`UdmHTMLEncode` and `UdmSGMLUnescape` (`sgml.c`). The second decodes in place: what is behind a reference is moved up
to the character that has been written for it, and the loop goes on behind that character.
-/

namespace MnoGoSearch.Sgml

open Lib.Delimited Url Words

/-! ## The source -/

/-- The references that `UdmHTMLEncode` writes. -/
def htmlEncodeChar (c : UInt8) : List UInt8 :=
  if c = 0x26 then bytes "&amp;"
  else if c = 0x22 then bytes "&quot;"
  else if c = 0x3C then bytes "&lt;"
  else if c = 0x3E then bytes "&gt;"
  else [c]

/-- `UdmHTMLEncode`: what is written. -/
def udmHTMLEncode : ℕ → List UInt8 → List UInt8
  | _, [] => []
  | dstlen, c :: src =>
    if dstlen < (htmlEncodeChar c).length then []
    else htmlEncodeChar c ++ udmHTMLEncode (dstlen - (htmlEncodeChar c).length) src

/-- `UDM_MAX_SGML_LEN`. -/
def maxSgmlLen : ℕ := 20

/-- The digits of a reference, from behind `&#` on. -/
def refDigits (s : List UInt8) : List UInt8 := boundedRun isDigit (maxSgmlLen - 2) s

/-- The letters of a reference, from behind `&` on. -/
def refLetters (s : List UInt8) : List UInt8 := boundedRun isLetter (maxSgmlLen - 1) s

/-- `atoi` of digits: a `long` in an `int`. -/
def atoi (digits : List UInt8) : ℤ :=
  (digits.foldl (fun (n : ℤ) c => n * 10 + (c.toNat - 0x30)) 0).bmod (2 ^ 32)

/-- The byte of a number. -/
def numberByte (v : ℤ) : UInt8 := if 0 ≤ v ∧ v ≤ 255 then UInt8.ofNat v.toNat else 0x20

/-- A reference from behind the `&` on, if there is one: its byte and how long it is. `none` says that memory is read
that is not there. -/
def reference (s : List UInt8) : Option (Option (UInt8 × ℕ)) :=
  if s.head? = some 0x23 then
    let digits := refDigits s.tail
    if (s.drop (digits.length + 1)).head? = some 0x3B then some (some (numberByte (atoi digits), digits.length + 2))
    else some none
  else
    let letters := refLetters s
    if (s.drop letters.length).head? = some 0x3B then
      (udmSgmlToUni s).map fun v => if UInt8.ofNat v = 0 then none else some (UInt8.ofNat v, letters.length + 1)
    else some none

variable {s n : List UInt8}

theorem reference_number (h : s.head? = some 0x23) :
    reference s =
      if (s.drop ((refDigits s.tail).length + 1)).head? = some 0x3B then
        some (some (numberByte (atoi (refDigits s.tail)), (refDigits s.tail).length + 2))
      else some none :=
  if_pos h

theorem reference_letters (h : s.head? ≠ some 0x23) :
    reference s =
      if (s.drop (refLetters s).length).head? = some 0x3B then
        (udmSgmlToUni s).map fun v =>
          if UInt8.ofNat v = 0 then none else some (UInt8.ofNat v, (refLetters s).length + 1)
      else some none :=
  if_neg h

/-- The loop of `UdmSGMLUnescape` up to the NUL. The first `k` bytes belong to a reference. -/
def unescapeLoop : ℕ → List UInt8 → Option (List UInt8)
  | _, [] => some []
  | k + 1, _ :: s => unescapeLoop k s
  | 0, c :: s =>
    if c = 0x26 then
      (reference s).bind fun
        | some (b, k) => (unescapeLoop k s).map (b :: ·)
        | none => (unescapeLoop 0 s).map (c :: ·)
    else (unescapeLoop 0 s).map (c :: ·)

/-- `UdmSGMLUnescape`. -/
def udmSGMLUnescape (str : List UInt8) : Option (List UInt8) := unescapeLoop 0 str

/-! ## Encoding -/

/-- The encoding of a text, without a limit. -/
def encoding (s : List UInt8) : List UInt8 := s.flatMap htmlEncodeChar

theorem udmHTMLEncode_eq_encoding {dstlen : ℕ} (h : (encoding s).length ≤ dstlen) :
    udmHTMLEncode dstlen s = encoding s := by
  induction s generalizing dstlen with
  | nil => rfl
  | cons c s ih =>
    rw [encoding, List.flatMap_cons, List.length_append] at h
    have hrest : (encoding s).length ≤ dstlen - (htmlEncodeChar c).length := by
      rw [encoding]
      omega
    rw [udmHTMLEncode, if_neg (by omega), ih hrest, encoding, encoding, List.flatMap_cons]

theorem udmHTMLEncode_prefix (dstlen : ℕ) (s : List UInt8) :
    ∃ p q, s = p ++ q ∧ udmHTMLEncode dstlen s = encoding p ∧ (encoding p).length ≤ dstlen ∧
      ∀ c ∈ q.head?, dstlen < (encoding (p ++ [c])).length := by
  induction s generalizing dstlen with
  | nil => exact ⟨[], [], rfl, rfl, Nat.zero_le _, by simp⟩
  | cons c s ih =>
    by_cases hc : dstlen < (htmlEncodeChar c).length
    · refine ⟨[], c :: s, rfl, ?_, Nat.zero_le _, ?_⟩
      · rw [udmHTMLEncode, if_pos hc]
        rfl
      · intro d hd
        obtain rfl : c = d := by simpa using hd
        simpa [encoding] using hc
    · obtain ⟨p, q, hs, henc, hlen, hnext⟩ := ih (dstlen - (htmlEncodeChar c).length)
      refine ⟨c :: p, q, by rw [hs, List.cons_append], ?_, ?_, fun d hd => ?_⟩
      · rw [udmHTMLEncode, if_neg hc, henc, encoding, encoding, List.flatMap_cons]
      · rw [encoding, List.flatMap_cons, List.length_append, ← encoding]
        omega
      · have hd' := hnext d hd
        rw [List.cons_append, encoding, List.flatMap_cons, List.length_append, ← encoding]
        omega

/-! ## Decoding -/

theorem unescapeLoop_append_length (a s : List UInt8) : unescapeLoop a.length (a ++ s) = unescapeLoop 0 s := by
  induction a with
  | nil => rfl
  | cons c a ih => rw [List.length_cons, List.cons_append, unescapeLoop, ih]

theorem isDelim_semicolon : IsDelim 0x3B := ⟨by decide, by decide⟩

/-- **A name with a semicolon** is replaced by the character of the first entry that it starts with. -/
theorem reference_name (hn : ∀ c ∈ n, isLetter c = true) (hlen : n.length < maxSgmlLen)
    (rest : List UInt8) :
    reference (n ++ 0x3B :: rest) =
      let v := (firstPrefix n).elim 0 fun p => p.unicode
      some (if UInt8.ofNat v = 0 then none else some (UInt8.ofNat v, n.length + 1)) := by
  have hhead : (n ++ (0x3B : UInt8) :: rest).head? ≠ some 0x23 := by
    cases n with
    | nil => simp
    | cons c n =>
      intro h
      have hc := hn c List.mem_cons_self
      rw [List.cons_append, List.head?_cons, Option.some.injEq] at h
      rw [h] at hc
      exact absurd hc (by decide)
  have hzero : (0 : UInt8) ∉ n := fun h => absurd (hn 0 h) (by decide)
  have hrun : refLetters (n ++ 0x3B :: rest) = n := boundedRun_append hn (Nat.le_pred_of_lt hlen) rfl rest
  rw [reference_letters hhead, hrun, if_pos (by simp), udmSgmlToUni_append hzero isDelim_semicolon]
  rfl

theorem unescapeLoop_name {b : UInt8} {p : UdmSgmlChars} (hfirst : firstPrefix n = some p)
    (hletters : n.all isLetter = true) (hlen : n.length < maxSgmlLen) (hb : UInt8.ofNat p.unicode = b) (hb0 : b ≠ 0)
    (rest : List UInt8) : unescapeLoop 0 (0x26 :: (n ++ 0x3B :: rest)) = (unescapeLoop 0 rest).map (b :: ·) := by
  have href := reference_name (List.all_eq_true.1 hletters) hlen rest
  simp only [hfirst, Option.elim_some, hb, if_neg hb0] at href
  have hskip := unescapeLoop_append_length (n ++ [0x3B]) rest
  rw [List.length_append, List.length_singleton, List.append_assoc, List.singleton_append] at hskip
  rw [unescapeLoop, if_pos rfl, href, Option.bind_some]
  exact congrArg (Option.map (b :: ·)) hskip

theorem unescapeLoop_of_ne {c : UInt8} (h : c ≠ 0x26) (rest : List UInt8) :
    unescapeLoop 0 (c :: rest) = (unescapeLoop 0 rest).map (c :: ·) := by
  rw [unescapeLoop, if_neg h]

/-- **What is written for a character is decoded to it**, whatever is behind. -/
theorem unescapeLoop_htmlEncodeChar (c : UInt8) (rest : List UInt8) :
    unescapeLoop 0 (htmlEncodeChar c ++ rest) = (unescapeLoop 0 rest).map (c :: ·) := by
  rw [htmlEncodeChar]
  by_cases hamp : c = 0x26
  · rw [if_pos hamp, hamp]
    exact unescapeLoop_name (n := bytes "amp") (p := ⟨bytes "amp", 38⟩) (by decide) (by decide) (by decide)
      (by decide) (by decide) rest
  by_cases hquot : c = 0x22
  · rw [if_neg hamp, if_pos hquot, hquot]
    exact unescapeLoop_name (n := bytes "quot") (p := ⟨bytes "quot", 34⟩) (by decide) (by decide) (by decide)
      (by decide) (by decide) rest
  by_cases hlt : c = 0x3C
  · rw [if_neg hamp, if_neg hquot, if_pos hlt, hlt]
    exact unescapeLoop_name (n := bytes "lt") (p := ⟨bytes "lt", 60⟩) (by decide) (by decide) (by decide)
      (by decide) (by decide) rest
  by_cases hgt : c = 0x3E
  · rw [if_neg hamp, if_neg hquot, if_neg hlt, if_pos hgt, hgt]
    exact unescapeLoop_name (n := bytes "gt") (p := ⟨bytes "gt", 62⟩) (by decide) (by decide) (by decide)
      (by decide) (by decide) rest
  · rw [if_neg hamp, if_neg hquot, if_neg hlt, if_neg hgt, List.singleton_append]
    exact unescapeLoop_of_ne hamp rest

/-- The encoding of a text is decoded to it: what a reference has become is not looked at again. -/
theorem udmSGMLUnescape_encoding (s : List UInt8) : udmSGMLUnescape (encoding s) = some s := by
  induction s with
  | nil => rfl
  | cons c s ih =>
    rw [udmSGMLUnescape] at ih ⊢
    rw [encoding, List.flatMap_cons, unescapeLoop_htmlEncodeChar, ← encoding, ih]
    rfl

/-- **Escaping is undone, and in a buffer that is too small nothing is cut but between characters.** -/
theorem html_roundTrip (s : CString) :
    (∀ dstlen, (encoding s.val).length ≤ dstlen → udmSGMLUnescape (udmHTMLEncode dstlen s.val) = some s.val) ∧
      ∀ dstlen, ∃ p q, s.val = p ++ q ∧ udmHTMLEncode dstlen s.val = encoding p ∧ (encoding p).length ≤ dstlen ∧
        ∀ c ∈ q.head?, dstlen < (encoding (p ++ [c])).length := by
  refine ⟨fun dstlen h => ?_, fun dstlen => udmHTMLEncode_prefix dstlen s.val⟩
  rw [udmHTMLEncode_eq_encoding h]
  exact udmSGMLUnescape_encoding s.val

end MnoGoSearch.Sgml
