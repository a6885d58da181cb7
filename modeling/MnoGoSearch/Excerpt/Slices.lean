import MnoGoSearch.Highlight.Highlight
import Mathlib

/-!
# Excerpts

`UdmExcerptDoc` (`excerpt.c`) cuts slices out of a text whose highlighted words stand between the characters 2 and 3. It
goes from one word to the next; around a word it takes some characters to the left and to the right, up to a space if there
is one, and stops at the slice that would make the excerpt too long.
-/

namespace MnoGoSearch.Excerpt

open Highlight

/-! ## The text -/

/-- `UdmUniIsSpace`. -/
def udmUniIsSpace (c : ℤ) : Bool :=
  c == 0x20 || c == 0x0D || c == 0x0A || c == 0x09 || c == 0xA0 || c == 0x1680 || (0x2000 ≤ c && c ≤ 0x200B) ||
    c == 0x202F || c == 0x3000

/-- A character that is kept: the bits of `0xCF50` are looked at first. -/
def isKept (c : ℤ) : Bool := ((c % 0x100000000).toNat &&& 0xCF50) != 0 || !udmUniIsSpace c

/-- The loop that strips whitespace, with `prev_is_letter`. -/
def stripLoop : Bool → List ℤ → List ℤ
  | _, [] => []
  | prevIsLetter, c :: s =>
    if isKept c then c :: stripLoop true s
    else if prevIsLetter then 0x20 :: stripLoop false s
    else stripLoop false s

/-- The source without superfluous whitespace. -/
def stripSpaces (source : List ℤ) : List ℤ :=
  let s := stripLoop false source
  if s.getLast?.any udmUniIsSpace then s.dropLast else s

/-! ## Borders -/

/-- A `size_t`. -/
def toSize (n : ℕ) : ℕ := n % 2 ^ 64

section Source

variable (s : List ℤ) (padding : ℕ)

/-- `Source[k]`, which ends with a zero. -/
def charAt (k : ℕ) : Option ℤ := (s ++ [0])[k]?

/-- The loop from `left` on to a space in front of `i`, or else back to `left0`. -/
def leftLoop (i left0 : ℕ) : ℕ → ℕ → Option ℕ
  | 0, _ => none
  | fuel + 1, left =>
    (charAt s left).bind fun c =>
      if c = 0x20 then some left else if i ≤ left then some left0 else leftLoop i left0 fuel (left + 1)

/-- `left`. -/
def leftBorder (i prevRight : ℕ) : Option ℕ :=
  let left := if padding < i then i - padding else 0
  let left := if left < prevRight then prevRight else left
  if left = 0 then some 0 else leftLoop s i left (i + 1 - left) left

/-- The loop from `j` on up to `right`, which does not break a highlighted word. -/
def wordLoop : ℕ → ℕ → ℕ → Option ℕ
  | 0, _, right => some right
  | fuel + 1, j, right =>
    if j < right then (charAt s j).bind fun c => if c = 2 then some (j - 1) else wordLoop fuel (j + 1) right
    else some right

/-- The loop from `right` back to a space behind `j`, or else to `right0`. -/
def rightLoop (j right0 : ℕ) : ℕ → ℕ → Option ℕ
  | 0, _ => none
  | fuel + 1, right =>
    (charAt s right).bind fun c =>
      if c = 0x20 then some right
      else if right ≤ j then wordLoop s (right0 - j) j right0
      else rightLoop j right0 fuel (right - 1)

/-- `right`. -/
def rightBorder (j : ℕ) : Option ℕ :=
  let right := toSize (padding + j)
  if s.length ≤ right then some (s.length - 1) else rightLoop s j right (right + 1 - j + 1) right

/-! ## The loop -/

/-- A slice, and whether there are dots in front of it. -/
structure Slice where
  left : ℕ
  right : ℕ
  dots : Bool
  deriving DecidableEq

/-- The variables of the loop, behind a slice. -/
structure ExcerptState where
  /-- `i`: where the next word is looked for. -/
  i : ℕ
  prevRight : ℕ
  /-- The characters in the buffer. -/
  used : ℕ
  deriving DecidableEq

/-- The place of the first `c` from `k` on. -/
def find (c : ℤ) (k : ℕ) : Option ℕ := ((s.drop k).findIdx? (· == c)).map (k + ·)

/-- The slice of the next highlighted word, if there is one and it does not make the excerpt too long. -/
def nextSlice (size : ℕ) (st : ExcerptState) : Option (Option Slice) :=
  match find s 2 st.i with
  | none => some none
  | some i =>
    (leftBorder s padding i st.prevRight).bind fun left =>
      (rightBorder s padding ((find s 3 (i + 1)).getD s.length)).map fun right =>
        if size < toSize (st.used + right + 1 + (2 ^ 64 - left)) then none
        else some ⟨left, right, decide (left ≠ st.prevRight)⟩

/-- The state behind a slice. -/
def ExcerptState.next (st : ExcerptState) (a : Slice) : ExcerptState where
  i := a.right + 1
  prevRight := if s[a.right]? = some 3 then a.right + 1 else a.right
  used := st.used + (if a.dots then 3 else 0) + (a.right + 1 - a.left)

/-- The loop, at most `fuel` slices. -/
def excerptLoop (size : ℕ) : ℕ → ExcerptState → Option (List Slice)
  | 0, _ => none
  | fuel + 1, st =>
    (nextSlice s padding size st).bind fun
      | none => some []
      | some a => (excerptLoop size fuel (st.next s a)).map (a :: ·)

end Source

/-- What is left of the text if there is no slice. -/
def beginning (s : List ℤ) (size : ℕ) : List Slice :=
  if min size s.length = 0 then [] else [⟨0, min size s.length - 1, false⟩]

/-- The slices of an excerpt, with `fuel` turns at most. -/
def excerptSlices (s : List ℤ) (padding size fuel : ℕ) : Option (List Slice) :=
  (excerptLoop s padding size fuel ⟨0, 0, 0⟩).map fun slices => if slices = [] then beginning s size else slices

/-- The characters of a slice, with its dots. -/
def Slice.text (s : List ℤ) (a : Slice) : List ℤ :=
  (if a.dots then [0x2E, 0x2E, 0x2E] else []) ++ (s.take (a.right + 1)).drop a.left

/-- The excerpt, before it is converted. -/
def excerptText (s : List ℤ) (slices : List Slice) : List ℤ := slices.flatMap (Slice.text s)

/-! ## What is wanted -/

/-- Slices in order from `k` on, none with a character of another one, with dots exactly where characters are left out. -/
def InOrder (n : ℕ) : ℕ → List Slice → Prop
  | _, [] => True
  | k, a :: slices =>
    k ≤ a.left ∧ a.left ≤ a.right ∧ a.right < n ∧ (a.dots = true ↔ k < a.left) ∧ InOrder n (a.right + 1) slices

/-- **An excerpt is honest**: the loop ends without reading outside of the text, the slices are in order and disjoint, the
markers are balanced, and the excerpt is not too long. -/
def ExcerptRight (source : List ℤ) (padding size : ℕ) : Prop :=
  ∃ fuel slices, excerptSlices (stripSpaces source) padding size fuel = some slices ∧
    InOrder (stripSpaces source).length 0 slices ∧ Alternate (excerptText (stripSpaces source) slices) ∧
    (excerptText (stripSpaces source) slices).length ≤ size

end MnoGoSearch.Excerpt
