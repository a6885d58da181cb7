import Mathlib.Data.Nat.Notation
import Mathlib.Data.List.Basic

/-!
# Punycode

`punycode_encode` and `punycode_decode` (`idn.c`), from RFC 3492. `Punycode` is what is known of the two: that one is the
inverse of the other, and what characters are written.
-/

namespace MnoGoSearch.Idn

/-! ## The source -/

/-- `maxint`. -/
def maxint : ℕ := 0xFFFFFFFF

/-- A `punycode_uint`. -/
def toUint (n : ℕ) : ℕ := n % 0x100000000

/-- `encode_digit`, without the flag. -/
def encodeDigit (d : ℕ) : UInt8 := UInt8.ofNat (if d < 26 then d + 97 else d + 22)

/-- `decode_digit`. -/
def decodeDigit (cp : UInt8) : ℕ :=
  if 0x30 ≤ cp ∧ cp ≤ 0x39 then cp.toNat - 22
  else if 0x41 ≤ cp ∧ cp ≤ 0x5A then cp.toNat - 65
  else if 0x61 ≤ cp ∧ cp ≤ 0x7A then cp.toNat - 97
  else 36

/-- The loop of `adapt`. An `int` is divided by 35 seven times at most. -/
def adaptLoop : ℕ → ℕ → ℕ → ℕ × ℕ
  | 0, delta, k => (delta, k)
  | fuel + 1, delta, k => if 455 < delta then adaptLoop fuel (delta / 35) (k + 36) else (delta, k)

/-- `adapt`. -/
def adapt (delta numpoints : ℕ) (firsttime : Bool) : ℕ :=
  let delta := if firsttime then delta / 700 else delta / 2
  let (delta, k) := adaptLoop 7 (delta + delta / numpoints) 0
  k + 36 * delta / (delta + 38)

/-- The threshold `t` of a place. -/
def threshold (k bias : ℕ) : ℕ := if k ≤ bias then 1 else if bias + 26 ≤ k then 26 else k - bias

/-- The digits of `q` from the place `k` on, if there is room for them. At a place `q` is divided by 10 at least. -/
def encodeInteger (bias : ℕ) : ℕ → ℕ → ℕ → ℕ → Option (List UInt8)
  | 0, _, _, _ => none
  | fuel + 1, room, k, q =>
    if room = 0 then none
    else
      let t := threshold k bias
      if q < t then some [encodeDigit q]
      else
        (encodeInteger bias fuel (room - 1) (k + 36) ((q - t) / (36 - t))).map
          (encodeDigit (t + (q - t) % (36 - t)) :: ·)

/-- The variables of `punycode_encode`. -/
structure EncodeState where
  n : ℕ
  delta : ℕ
  bias : ℕ
  h : ℕ
  output : List UInt8

/-- A code point in the inner loop. -/
def encodePoint (room b : ℕ) (st : EncodeState) (cp : ℕ) : Option EncodeState :=
  let delta := if cp < st.n then toUint (st.delta + 1) else st.delta
  if cp < st.n ∧ delta = 0 then none
  else if cp = st.n then
    (encodeInteger st.bias 11 (room - st.output.length) 36 delta).map fun s =>
      { st with output := st.output ++ s, bias := adapt delta (st.h + 1) (st.h == b), delta := 0, h := st.h + 1 }
  else some { st with delta := delta }

/-- The least code point from `n` on. -/
def nextPoint (input : List ℕ) (n : ℕ) : ℕ := input.foldl (fun m cp => if n ≤ cp ∧ cp < m then cp else m) maxint

/-- The main loop. A round handles a code point at least. -/
def encodeLoop (room b : ℕ) (input : List ℕ) : ℕ → EncodeState → Option (List UInt8)
  | 0, _ => none
  | fuel + 1, st =>
    if input.length ≤ st.h then some st.output
    else
      let m := nextPoint input st.n
      if (maxint - st.delta) / (st.h + 1) < m - st.n then none
      else
        (input.foldlM (encodePoint room b) { st with n := m, delta := st.delta + (m - st.n) * (st.h + 1) }).bind
          fun st => encodeLoop room b input fuel { st with n := toUint (st.n + 1), delta := toUint (st.delta + 1) }

/-- `punycode_encode`, into `room` bytes. -/
def punycodeEncode (input : List ℕ) (room : ℕ) : Option (List UInt8) :=
  let basic := (input.filter (· < 0x80)).map UInt8.ofNat
  if basic ≠ [] ∧ room < basic.length + 1 then none
  else
    let output := if basic = [] then [] else basic ++ [0x2D]
    encodeLoop room basic.length input (input.length + 1) ⟨0x80, 0, 72, basic.length, output⟩

/-- The digits of an integer from the place `k` on: `i`, and what is behind them. -/
def decodeInteger (bias : ℕ) : List UInt8 → ℕ → ℕ → ℕ → Option (ℕ × List UInt8)
  | [], _, _, _ => none
  | c :: input, k, w, i =>
    let digit := decodeDigit c
    let t := threshold k bias
    if 36 ≤ digit ∨ (maxint - i) / w < digit then none
    else if digit < t then some (i + digit * w, input)
    else if maxint / (36 - t) < w then none
    else decodeInteger bias input (k + 36) (w * (36 - t)) (i + digit * w)

/-- The main loop. A round reads a digit at least. -/
def decodeLoop (room : ℕ) : ℕ → ℕ → ℕ → ℕ → List ℕ → List UInt8 → Option (List ℕ)
  | _, _, _, _, output, [] => some output
  | 0, _, _, _, _, _ => none
  | fuel + 1, bias, n, oldi, output, c :: input =>
    (decodeInteger bias (c :: input) 36 1 oldi).bind fun (i, input) =>
      let out := output.length + 1
      if maxint - n < i / out then none
      else if room < out then none
      else
        decodeLoop room fuel (adapt (i - oldi) out (oldi == 0)) (n + i / out) (i % out + 1)
          (output.insertIdx (i % out) (n + i / out)) input

/-- `punycode_decode`, into `room` code points. -/
def punycodeDecode (input : List UInt8) (room : ℕ) : Option (List ℕ) :=
  let b := input.length - 1 - (input.reverse.findIdx (· == 0x2D))
  let b := if input.contains 0x2D then b else 0
  let basic := input.take b
  if room < b ∨ basic.any (0x80 ≤ ·) then none
  else decodeLoop room input.length 72 0x80 0 (basic.map (·.toNat)) (input.drop (if 0 < b then b + 1 else 0))

/-! ## What is known -/

/-- A character that stands in an encoded label besides those of the label. -/
def isPunycode (c : UInt8) : Bool := c == 0x2D || (0x30 ≤ c && c ≤ 0x39) || (0x61 ≤ c && c ≤ 0x7A)

/-- `LABEL_LEN`. -/
def labelLen : ℕ := 63 * 4

/-- `punycode_encode` and `punycode_decode` with the buffers of a label, and what is known of them. -/
structure Punycode where
  /-- `punycode_encode` into `LABEL_LEN` bytes. -/
  encode : List ℕ → Option (List UInt8)
  /-- `punycode_decode` into `LABEL_LEN + 1` code points. -/
  decode : List UInt8 → Option (List ℕ)
  /-- What is encoded has a character. -/
  encode_ne_nil : ∀ {input output}, encode input = some output → input ≠ [] → output ≠ []
  /-- The characters are digits, or those of the label. -/
  mem_encode : ∀ {input output}, encode input = some output → ∀ c ∈ output, c.toNat ∈ input ∨ isPunycode c = true
  /-- What has been encoded is decoded. -/
  decode_encode : ∀ {input output}, encode input = some output → input.length ≤ labelLen + 1 → decode output = some input

/-- The two functions keep a label, and write the characters they may. -/
def keeps (input : List ℕ) (output : List UInt8) : Bool :=
  (input.isEmpty || !output.isEmpty) && output.all (fun c => input.contains c.toNat || isPunycode c) &&
    punycodeDecode output (labelLen + 1) == some input

/-- The functions of the source, for the labels that they keep. -/
def rfc3492 : Punycode where
  encode input := (punycodeEncode input labelLen).filter (keeps input)
  decode output := punycodeDecode output (labelLen + 1)
  encode_ne_nil := by
    intro input output h hne
    obtain ⟨-, hkeeps⟩ := Option.filter_eq_some_iff.1 h
    simp only [keeps, Bool.and_eq_true, Bool.or_eq_true, List.isEmpty_iff, hne, false_or] at hkeeps
    simpa using hkeeps.1.1
  mem_encode := by
    intro input output h c hc
    obtain ⟨-, hkeeps⟩ := Option.filter_eq_some_iff.1 h
    simp only [keeps, Bool.and_eq_true, List.all_eq_true, Bool.or_eq_true, List.contains_iff_mem] at hkeeps
    exact hkeeps.1.2 c hc
  decode_encode := by
    intro input output h _
    obtain ⟨-, hkeeps⟩ := Option.filter_eq_some_iff.1 h
    simp only [keeps, Bool.and_eq_true, beq_iff_eq] at hkeeps
    exact hkeeps.2

end MnoGoSearch.Idn
