import MnoGoSearch.Lib.FixedWidth
import Mathlib.Data.Char
import Mathlib.Data.List.Induction
import Mathlib.Data.Rat.Cast.Order
import Mathlib.Tactic.Positivity
import Mathlib.Tactic.NormNum

/-!
# Decimal sections

`UdmNormalizeDecimal` (`utils.c`) makes the words of a `decimal` section: nine digits of the integer part and nine of
the fraction. `indexer` stores such words and a range query compares them with its own two, as
`UdmBuildCmpArgSQL` (`sql.c`) writes its condition. The manual gives the format to numbers with up to nine integral
and nine fractional digits, and a query only normalises a word that starts with a digit. There the order of the words
is the order of the numbers (`inRange_normalize_iff`).
-/

namespace MnoGoSearch.Utils.Decimal

open Lib.FixedWidth

/-! ## The source -/

/-- `isspace` of the C locale. -/
def isSpace (c : Char) : Bool := c == ' ' || ('\t' ≤ c && c ≤ '\r')

/-- A sign, if there is one, and what is behind it. -/
def takeSign : List Char → Bool × List Char
  | '-' :: s => (true, s)
  | '+' :: s => (false, s)
  | s => (false, s)

/-- A number in the range of `long`: the nearest one, as `strtol` returns with `ERANGE`. -/
def clampLong (n : ℤ) : ℤ := max (-2 ^ 63) (min n (2 ^ 63 - 1))

/-- `strtol` with base 10: the number, and where it ends. Without a digit that is the start. -/
def strtol (s : List Char) : ℤ × List Char :=
  let (neg, t) := takeSign (s.dropWhile isSpace)
  let n := Nat.ofDigitChars 10 (t.takeWhile Char.isDigit) 0
  if t.takeWhile Char.isDigit = [] then (0, s)
  else (clampLong (if neg then -(n : ℤ) else n), t.dropWhile Char.isDigit)

/-- A `long` in an `int`. -/
def toInt (n : ℤ) : ℤ := n.bmod (2 ^ 32)

/-- `log_10_int`. -/
def log10Int : List ℤ := [1, 10, 100, 1000, 10000, 100000, 1000000, 10000000, 100000000, 1000000000]

/-- `fpart` of what is behind the integer part. -/
def fractionPart : List Char → ℤ
  | '.' :: endptr =>
    let (n, endptr2) := strtol endptr
    let flen := endptr.length - endptr2.length
    if flen ≤ 9 then toInt (toInt n * log10Int.getD (9 - flen) 0) else toInt n
  | _ => 0

/-- Zeros in front, up to a width. -/
def zeroPad (w : ℕ) (s : List Char) : List Char := List.replicate (w - s.length) '0' ++ s

/-- `%018lld`: a sign counts for the width. -/
def printLongLong (nr : ℤ) : List Char :=
  if nr < 0 then '-' :: zeroPad 17 (Nat.toDigits 10 nr.natAbs) else zeroPad 18 (Nat.toDigits 10 nr.natAbs)

/-- `UdmNormalizeDecimal`: what `udm_snprintf` leaves in `dst`. -/
def udmNormalizeDecimal (dlen : ℕ) (src : List Char) : List Char :=
  let (ipart, endptr) := strtol src
  let nr := toInt ipart * 1000000000 + fractionPart endptr
  (printLongLong nr).take (dlen - 1)

/-- The condition of `UdmBuildCmpArgSQL` for a range, from `[` or `{` to `]` or `}`. -/
def inRange (leftClosed rightClosed : Bool) (first second word : List Char) : Prop :=
  (if leftClosed then first ≤ word else first < word) ∧ if rightClosed then word ≤ second else word < second

/-! ## Decimal numbers -/

/-- A sign. -/
inductive Sign where
  | none
  | plus
  | minus
  deriving DecidableEq

/-- How a sign is written. -/
def Sign.text : Sign → List Char
  | .none => []
  | .plus => ['+']
  | .minus => ['-']

/-- A decimal number: a sign, digits, and a fraction. -/
structure DecimalText where
  sign : Sign
  /-- The digits in front of the point. -/
  int : List Char
  /-- The digits behind the point. -/
  frac : Option (List Char)
  int_ne_nil : int ≠ []
  /-- The integer part has digits only. -/
  isDigit_int : ∀ c ∈ int, c.isDigit
  /-- The fraction has digits only. -/
  isDigit_frac : ∀ c ∈ frac.getD [], c.isDigit

namespace DecimalText

/-- A number of these digits. -/
def ofDigits (sign : Sign) (int : List Char) (frac : Option (List Char)) (hne : int.isEmpty = false)
    (hint : int.all Char.isDigit = true) (hfrac : (frac.getD []).all Char.isDigit = true) : DecimalText :=
  ⟨sign, int, frac, List.isEmpty_eq_false_iff.mp hne, List.all_eq_true.mp hint, List.all_eq_true.mp hfrac⟩

/-- How the number is written. -/
def text (x : DecimalText) : List Char :=
  x.sign.text ++ x.int ++ match x.frac with
    | none => []
    | some l => '.' :: l

/-- The number that the digits are. -/
def magnitude (x : DecimalText) : ℚ :=
  Nat.ofDigitChars 10 x.int 0 + Nat.ofDigitChars 10 (x.frac.getD []) 0 / 10 ^ (x.frac.getD []).length

/-- The number. -/
def value (x : DecimalText) : ℚ :=
  match x.sign with
  | .minus => -x.magnitude
  | _ => x.magnitude

/-- The numbers of the manual: up to nine integral and nine fractional digits, and no `-`. -/
structure Plain (x : DecimalText) : Prop where
  sign : x.sign ≠ .minus
  /-- Zeros in front are not counted. -/
  int : Nat.ofDigitChars 10 x.int 0 < 10 ^ 9
  frac : (x.frac.getD []).length ≤ 9

/-- The number in units of the ninth digit behind the point. -/
def scaled (x : DecimalText) : ℕ :=
  Nat.ofDigitChars 10 x.int 0 * 10 ^ 9 +
    Nat.ofDigitChars 10 (x.frac.getD []) 0 * 10 ^ (9 - (x.frac.getD []).length)

end DecimalText

/-! ## Digits -/

variable {l : List Char} {n : ℕ} {c : Char}

theorem ofDigitChars_lt (h : ∀ c ∈ l, c.isDigit) : Nat.ofDigitChars 10 l 0 < 10 ^ l.length := by
  induction l using List.reverseRecOn with
  | nil => simp
  | append_singleton l c ih =>
    have hl := ih fun a ha => h a (List.mem_append_left _ ha)
    have hc : c.toNat - 48 < 10 := by
      have hdigit := h c (by simp)
      simp only [Char.isDigit, Bool.and_eq_true, decide_eq_true_eq] at hdigit
      have hle : c.toNat ≤ 57 := hdigit.2
      omega
    rw [Nat.ofDigitChars_append, Nat.ofDigitChars_cons, Nat.ofDigitChars_nil, List.length_append,
      List.length_singleton, Nat.pow_succ]
    have hsub : c.toNat - '0'.toNat < 10 := hc
    omega

theorem ne_of_isDigit (h : c.isDigit) : isSpace c = false ∧ c ≠ '-' ∧ c ≠ '+' := by
  refine ⟨?_, ?_, ?_⟩
  · simp only [Char.isDigit, Bool.and_eq_true, decide_eq_true_eq] at h
    have hspace : ¬c ≤ '\r' := fun hle => absurd (h.1.trans hle) (by decide)
    have hne : c ≠ ' ' := by
      rintro rfl
      exact absurd h.1 (by decide)
    simp [isSpace, hspace, hne]
  · rintro rfl
    exact absurd h (by decide)
  · rintro rfl
    exact absurd h (by decide)

theorem digitChar_lt_iff : ∀ i < 10, ∀ j < 10, (Nat.digitChar i < Nat.digitChar j ↔ i < j) := by decide

/-- **Print.** Zeros in front make the digits of a fixed width. -/
theorem zeroPad_toDigits {w : ℕ} (h : n < 10 ^ (w + 1)) :
    zeroPad (w + 1) (Nat.toDigits 10 n) = fixedDigits Nat.digitChar 10 (w + 1) n := by
  induction w generalizing n with
  | zero =>
    rw [Nat.toDigits_of_lt_base (by simpa using h)]
    simp [zeroPad, fixedDigits, Nat.mod_eq_of_lt (show n < 10 by simpa using h)]
  | succ w ih =>
    rw [fixedDigits, ← ih (Nat.div_lt_of_lt_mul (by rw [Nat.pow_succ] at h; omega))]
    rcases Nat.lt_or_ge n 10 with hlt | hge
    · -- one digit: the zero in front of it is one of the padding
      rw [Nat.toDigits_of_lt_base hlt, Nat.div_eq_of_lt hlt, Nat.mod_eq_of_lt hlt, Nat.toDigits_zero]
      simp only [zeroPad, List.length_singleton, Nat.add_sub_cancel]
      rw [List.replicate_succ', List.append_assoc]
    · rw [Nat.toDigits_of_base_le (by omega) hge]
      simp only [zeroPad, List.length_append, List.length_singleton, List.append_assoc, Nat.add_sub_add_right]

/-! ## `strtol` -/

/-- Whether a sign is `-`. -/
def Sign.neg : Sign → Bool
  | .minus => true
  | _ => false

theorem takeSign_text (g : Sign) (h : c.isDigit) (s : List Char) : takeSign (g.text ++ c :: s) = (g.neg, c :: s) := by
  obtain ⟨-, hminus, hplus⟩ := ne_of_isDigit h
  cases g with
  | none =>
    unfold takeSign
    simp only [Sign.text, List.nil_append]
    split <;> simp_all [Sign.neg]
  | plus => rfl
  | minus => rfl

/-- **`strtol`** reads a sign and all digits behind it. -/
theorem strtol_text (g : Sign) {s : List Char} (hne : l ≠ []) (hl : ∀ c ∈ l, c.isDigit)
    (hs : ∀ c ∈ s.head?, ¬c.isDigit) :
    strtol (g.text ++ l ++ s) =
      (clampLong (if g.neg then -(Nat.ofDigitChars 10 l 0 : ℤ) else Nat.ofDigitChars 10 l 0), s) := by
  obtain ⟨c, l, rfl⟩ := List.exists_cons_of_ne_nil hne
  have hc := hl c List.mem_cons_self
  have hspace : (g.text ++ (c :: l) ++ s).dropWhile isSpace = g.text ++ (c :: l) ++ s := by
    cases g with
    | none => exact List.dropWhile_cons_of_neg (by simp [(ne_of_isDigit hc).1])
    | plus => rfl
    | minus => rfl
  have htake : (c :: l ++ s).takeWhile Char.isDigit = c :: l := by
    rw [List.takeWhile_append_of_pos hl]
    cases s with
    | nil => simp
    | cons a s => simp [List.takeWhile_cons_of_neg (hs a rfl)]
  have hdrop : (c :: l ++ s).dropWhile Char.isDigit = s := by
    rw [List.dropWhile_append_of_pos hl]
    cases s with
    | nil => rfl
    | cons a s => exact List.dropWhile_cons_of_neg (hs a rfl)
  unfold strtol
  rw [hspace, List.append_assoc, List.cons_append, takeSign_text g hc, ← List.cons_append]
  simp only [htake, hdrop]
  rw [if_neg (List.cons_ne_nil c l)]

theorem toInt_of_lt (h : n < 10 ^ 9) : toInt n = n :=
  Int.bmod_eq_of_le (by omega) (by omega)

theorem clampLong_of_lt (h : n < 10 ^ 9) : clampLong n = n := by
  unfold clampLong
  omega

theorem log10Int_getD : ∀ k ≤ 9, log10Int.getD k 0 = ((10 ^ k : ℕ) : ℤ) := by decide

theorem shifted_lt (hl : ∀ c ∈ l, c.isDigit) (hlen : l.length ≤ 9) :
    Nat.ofDigitChars 10 l 0 * 10 ^ (9 - l.length) < 10 ^ 9 := by
  calc Nat.ofDigitChars 10 l 0 * 10 ^ (9 - l.length)
      < 10 ^ l.length * 10 ^ (9 - l.length) :=
        Nat.mul_lt_mul_of_pos_right (ofDigitChars_lt hl) (Nat.pow_pos (by omega))
    _ = 10 ^ 9 := by rw [← Nat.pow_add, Nat.add_sub_cancel' hlen]

/-- **The fraction** is in units of the ninth digit. -/
theorem fractionPart_digits (hl : ∀ c ∈ l, c.isDigit) (hlen : l.length ≤ 9) :
    fractionPart ('.' :: l) = (Nat.ofDigitChars 10 l 0 * 10 ^ (9 - l.length) : ℕ) := by
  rcases eq_or_ne l [] with rfl | hne
  · rfl
  have hshift := shifted_lt hl hlen
  have hlt : Nat.ofDigitChars 10 l 0 < 10 ^ 9 :=
    (Nat.le_mul_of_pos_right _ (Nat.pow_pos (by omega))).trans_lt hshift
  have hstrtol := strtol_text .none (s := []) hne hl (by simp)
  simp only [Sign.text, List.nil_append, List.append_nil, Sign.neg, Bool.false_eq_true, if_false,
    clampLong_of_lt hlt] at hstrtol
  unfold fractionPart
  simp only [hstrtol, List.length_nil, Nat.sub_zero]
  rw [if_pos hlen, toInt_of_lt hlt, log10Int_getD _ (Nat.sub_le _ _), ← Nat.cast_mul, toInt_of_lt hshift]

/-! ## Order -/

namespace DecimalText

variable {x y : DecimalText} {dlen : ℕ}

theorem Plain.neg_eq_false (h : x.Plain) : x.sign.neg = false := by
  have hsign := h.sign
  cases hx : x.sign with
  | minus => exact absurd hx hsign
  | none => rfl
  | plus => rfl

theorem Plain.value_eq (h : x.Plain) : x.value = x.magnitude := by
  have hsign := h.sign
  unfold value
  split
  · contradiction
  · rfl

theorem Plain.scaled_lt (h : x.Plain) : x.scaled < 10 ^ 18 := by
  have hint := h.int
  have hfrac := shifted_lt x.isDigit_frac h.frac
  unfold scaled
  omega

theorem Plain.scaled_eq (h : x.Plain) : (x.scaled : ℚ) = x.value * 10 ^ 9 := by
  have hpow : (10 : ℚ) ^ (x.frac.getD []).length * 10 ^ (9 - (x.frac.getD []).length) = 10 ^ 9 := by
    rw [← pow_add, Nat.add_sub_cancel' h.frac]
  have hfrac : (Nat.ofDigitChars 10 (x.frac.getD []) 0 : ℚ) / 10 ^ (x.frac.getD []).length * 10 ^ 9 =
      Nat.ofDigitChars 10 (x.frac.getD []) 0 * 10 ^ (9 - (x.frac.getD []).length) := by
    rw [← hpow, ← mul_assoc, div_mul_cancel₀ _ (by positivity)]
  rw [h.value_eq, magnitude, scaled, add_mul, hfrac]
  push_cast
  norm_num

theorem Plain.scaled_lt_iff (hx : x.Plain) (hy : y.Plain) : x.scaled < y.scaled ↔ x.value < y.value := by
  rw [← Nat.cast_lt (α := ℚ), hx.scaled_eq, hy.scaled_eq]
  exact mul_lt_mul_iff_left₀ (by norm_num)

/-- **The text is read** digit by digit. -/
theorem Plain.normalize_eq (h : x.Plain) (hdlen : 18 < dlen) :
    udmNormalizeDecimal dlen x.text = fixedDigits Nat.digitChar 10 18 x.scaled := by
  have hpart : ∃ endptr, strtol x.text = ((Nat.ofDigitChars 10 x.int 0 : ℤ), endptr) ∧
      fractionPart endptr =
        (Nat.ofDigitChars 10 (x.frac.getD []) 0 * 10 ^ (9 - (x.frac.getD []).length) : ℕ) := by
    unfold text
    have hfrac := fractionPart_digits x.isDigit_frac h.frac
    cases hx : x.frac with
    | none =>
      have hstrtol := strtol_text x.sign (s := []) x.int_ne_nil x.isDigit_int (by simp)
      rw [h.neg_eq_false] at hstrtol
      exact ⟨[], by simpa [clampLong_of_lt h.int] using hstrtol, rfl⟩
    | some l =>
      have hstrtol := strtol_text x.sign (s := '.' :: l) x.int_ne_nil x.isDigit_int (by simp)
      rw [h.neg_eq_false] at hstrtol
      refine ⟨'.' :: l, by simpa [clampLong_of_lt h.int] using hstrtol, ?_⟩
      simpa [hx] using hfrac
  obtain ⟨endptr, hstrtol, hfrac⟩ := hpart
  have hnr : toInt (Nat.ofDigitChars 10 x.int 0) * 1000000000 + fractionPart endptr = x.scaled := by
    rw [toInt_of_lt h.int, hfrac, scaled]
    push_cast
    norm_num
  have hlen : 18 ≤ dlen - 1 := by omega
  unfold udmNormalizeDecimal
  simp only [hstrtol, hnr]
  rw [printLongLong, if_neg (by omega), Int.natAbs_natCast, zeroPad_toDigits h.scaled_lt,
    List.take_of_length_le (by rwa [length_fixedDigits])]

/-- **Order.** The words are in the order of the numbers, whatever the two buffers are. -/
theorem Plain.normalize_lt_iff (hx : x.Plain) (hy : y.Plain) {dlen' : ℕ} (h : 18 < dlen) (h' : 18 < dlen') :
    udmNormalizeDecimal dlen x.text < udmNormalizeDecimal dlen' y.text ↔ x.value < y.value := by
  rw [hx.normalize_eq h, hy.normalize_eq h',
    fixedDigits_lt_iff (by omega) digitChar_lt_iff hx.scaled_lt hy.scaled_lt, hx.scaled_lt_iff hy]

theorem Plain.normalize_le_iff (hx : x.Plain) (hy : y.Plain) {dlen' : ℕ} (h : 18 < dlen) (h' : 18 < dlen') :
    udmNormalizeDecimal dlen x.text ≤ udmNormalizeDecimal dlen' y.text ↔ x.value ≤ y.value := by
  rw [← not_lt, hy.normalize_lt_iff hx h' h, not_lt]

/-- **Range query.** The words of a range are those of the numbers in it. -/
theorem inRange_normalize_iff {lo hi z : DecimalText} (hlo : lo.Plain) (hhi : hi.Plain) (hz : z.Plain)
    {dlen dlen' : ℕ} (h : 18 < dlen) (h' : 18 < dlen') :
    (udmNormalizeDecimal dlen lo.text < udmNormalizeDecimal dlen' hi.text ↔ lo.value < hi.value) ∧
      ∀ leftClosed rightClosed : Bool,
        inRange leftClosed rightClosed (udmNormalizeDecimal dlen lo.text) (udmNormalizeDecimal dlen hi.text)
            (udmNormalizeDecimal dlen' z.text) ↔
          (if leftClosed then lo.value ≤ z.value else lo.value < z.value) ∧
            if rightClosed then z.value ≤ hi.value else z.value < hi.value := by
  refine ⟨hlo.normalize_lt_iff hhi h h', fun leftClosed rightClosed => ?_⟩
  unfold inRange
  rw [hlo.normalize_le_iff hz h h', hlo.normalize_lt_iff hz h h', hz.normalize_le_iff hhi h' h,
    hz.normalize_lt_iff hhi h' h]

/-- The number `200`. -/
def twoHundred : DecimalText := ofDigits .none ['2', '0', '0'] none rfl rfl rfl

/-- The number `10.1`. -/
def tenPointOne : DecimalText := ofDigits .none ['1', '0'] (some ['1']) rfl rfl rfl

/-- The number `99.95`, written with a sign. -/
def price : DecimalText := ofDigits .plus ['9', '9'] (some ['9', '5']) rfl rfl rfl

/-- The query `price:[10.1 TO 200]` of the manual finds `+99.95`. -/
theorem inRange_normalize_price :
    inRange true true (udmNormalizeDecimal 128 tenPointOne.text) (udmNormalizeDecimal 128 twoHundred.text)
      (udmNormalizeDecimal 128 price.text) := by
  have hlo : tenPointOne.Plain := ⟨by decide, by decide, by decide⟩
  have hhi : twoHundred.Plain := ⟨by decide, by decide, by decide⟩
  have hz : price.Plain := ⟨by decide, by decide, by decide⟩
  have hroom : 18 < 128 := by omega
  apply ((inRange_normalize_iff hlo hhi hz hroom hroom).2 true true).mpr
  decide +kernel

/-- Behind the bounds the order is lost: with `-`, with ten integral digits, with ten fractional ones. -/
theorem normalize_order_lost :
    (∃ x y : DecimalText, x.sign = .minus ∧ y.sign = .minus ∧ x.value < y.value ∧
        udmNormalizeDecimal 128 y.text < udmNormalizeDecimal 128 x.text) ∧
      (∃ x y : DecimalText, x.int.length = 9 ∧ y.int.length = 10 ∧ x.value < y.value ∧
        udmNormalizeDecimal 128 y.text < udmNormalizeDecimal 128 x.text) ∧
      ∃ x y : DecimalText, (x.frac.getD []).length = 10 ∧ (y.frac.getD []).length = 1 ∧ x.value < y.value ∧
        udmNormalizeDecimal 128 y.text < udmNormalizeDecimal 128 x.text := by
  refine ⟨?negative, ?integral, ?fractional⟩
  case negative =>
    refine ⟨ofDigits .minus ['2'] none rfl rfl rfl, ofDigits .minus ['1'] none rfl rfl rfl, rfl, rfl, ?_⟩
    decide +kernel
  case integral =>
    refine ⟨ofDigits .none (List.replicate 9 '9') none rfl rfl rfl,
      ofDigits .none ('1' :: List.replicate 9 '0') none rfl rfl rfl, rfl, rfl, ?_⟩
    decide +kernel
  case fractional =>
    refine ⟨ofDigits .none ['0'] (some ['1', '2', '3', '4', '5', '6', '7', '8', '9', '0']) rfl rfl rfl,
      ofDigits .none ['0'] (some ['9']) rfl rfl rfl, rfl, rfl, ?_⟩
    decide +kernel

end DecimalText

end MnoGoSearch.Utils.Decimal
