import MnoGoSearch.Utils.Hex
import Mathlib

/-!
# Escaping URLs

`UdmEscapeURL` and `UdmUnescapeCGIQuery` (`utils.c`), on strings without their NUL byte. What is escaped comes
back (`udmUnescapeCGIQuery_udmEscapeURL`). The decoder takes letters behind `F` for digits also;
`exactHex_iff` says when neither it nor `UdmHexDecode` meets one.
-/

namespace MnoGoSearch.Utils

open Http Url

/-- The byte that `%XY` at the front of a string stands for, with the values of the digits. -/
def escapedAt (digit : UInt8 → Option ℕ) : List UInt8 → Option UInt8
  | 0x25 :: a :: b :: _ =>
    match digit a, digit b with
    | some x, some y => some (UInt8.ofNat (x * 16 + y))
    | _, _ => none
  | _ => none

/-- The loop of `UdmUnescapeCGIQuery`; `skip` characters have been read. -/
def unescapeFrom : List UInt8 → ℕ → List UInt8
  | [], _ => []
  | _ :: s, skip + 1 => unescapeFrom s skip
  | c :: s, 0 =>
    match escapedAt Http.ch2x (c :: s) with
    | some ch => ch :: unescapeFrom s 2
    | none => (if c = 0x2B then 0x20 else c) :: unescapeFrom s 0

/-- `UdmUnescapeCGIQuery`. -/
def udmUnescapeCGIQuery (s : List UInt8) : List UInt8 := unescapeFrom s 0

/-- The characters `%&<>+[](){}/?#'"\;,` that `UdmEscapeURL` escapes. -/
def escapedChars : List UInt8 :=
  [0x25, 0x26, 0x3C, 0x3E, 0x2B, 0x5B, 0x5D, 0x28, 0x29, 0x7B, 0x7D, 0x2F, 0x3F, 0x23, 0x27, 0x22, 0x5C, 0x3B, 0x2C]

/-- One character. What is escaped has two digits. -/
def escapeChar (c : UInt8) : List UInt8 :=
  if c &&& 0x80 ≠ 0 ∨ c ∈ escapedChars then [0x25, hexDigit ((c >>> 4) &&& 0x0F), hexDigit (c &&& 0x0F)]
  else if c = 0x20 then [0x2B]
  else [c]

/-- `UdmEscapeURL`. -/
def udmEscapeURL (s : List UInt8) : List UInt8 := s.flatMap escapeChar

/-! ### The round trip -/

theorem unescapeFrom_two (a b : UInt8) (s : List UInt8) : unescapeFrom (a :: b :: s) 2 = unescapeFrom s 0 := by
  rw [unescapeFrom, unescapeFrom]

variable {c a b : UInt8} {src s : List UInt8} {digit : UInt8 → Option ℕ}

theorem escapedAt_of_ne (digit : UInt8 → Option ℕ) (hc : c ≠ 0x25) (s : List UInt8) :
    escapedAt digit (c :: s) = none := by
  rw [escapedAt.eq_def]
  split
  · rename_i heq
    exact absurd (List.cons.inj heq).1 hc
  · rfl

theorem unescape_escapeChar (c : UInt8) (s : List UInt8) :
    unescapeFrom (escapeChar c ++ s) 0 = c :: unescapeFrom s 0 := by
  rw [escapeChar]
  split_ifs with hset hspace
  · obtain ⟨hhi, hlo⟩ := ch2x_hexDigit c
    have hbyte : c.toNat / 16 * 16 + c.toNat % 16 = c.toNat := by omega
    simp only [List.cons_append, List.nil_append]
    rw [unescapeFrom, escapedAt, ch2x_of_url hhi, ch2x_of_url hlo]
    dsimp only
    rw [hbyte, UInt8.ofNat_toNat, unescapeFrom_two]
  · subst hspace
    rw [List.singleton_append, unescapeFrom, escapedAt_of_ne _ (by decide)]
    rfl
  · have hpercent : c ≠ 0x25 := by
      rintro rfl
      exact hset (.inr List.mem_cons_self)
    have hplus : c ≠ 0x2B := by
      rintro rfl
      exact hset (.inr (by decide))
    rw [List.singleton_append, unescapeFrom, escapedAt_of_ne _ hpercent]
    dsimp only
    rw [if_neg hplus]

theorem length_escapeChar_le (c : UInt8) : (escapeChar c).length ≤ 3 := by
  rw [escapeChar]
  split_ifs
  · exact le_rfl
  · exact Nat.le_add_left 1 2
  · exact Nat.le_add_left 1 2

/-- **What is escaped comes back**, and it is not more than three times as long. -/
theorem udmUnescapeCGIQuery_udmEscapeURL (s : List UInt8) :
    udmUnescapeCGIQuery (udmEscapeURL s) = s ∧ (udmEscapeURL s).length ≤ 3 * s.length := by
  rw [udmUnescapeCGIQuery]
  induction s with
  | nil => exact ⟨rfl, le_rfl⟩
  | cons c s ih =>
    have hcons : udmEscapeURL (c :: s) = escapeChar c ++ udmEscapeURL s := rfl
    have hlen := length_escapeChar_le c
    rw [hcons, unescape_escapeChar, ih.1, List.length_append, List.length_cons]
    exact ⟨rfl, by omega⟩

/-! ### What the decoder replaces -/

/-- `dst` is `src` with each `+` and some escapes of two hexadecimal digits replaced. -/
inductive Unescaped : List UInt8 → List UInt8 → Prop
  | nil : Unescaped [] []
  | escape {a b : UInt8} {x y : ℕ} {src dst : List UInt8} (ha : Url.ch2x a = some x) (hb : Url.ch2x b = some y) :
    Unescaped src dst → Unescaped (0x25 :: a :: b :: src) (UInt8.ofNat (x * 16 + y) :: dst)
  | plus {src dst : List UInt8} : Unescaped src dst → Unescaped (0x2B :: src) (0x20 :: dst)
  | plain {c : UInt8} {src dst : List UInt8} (h : c ≠ 0x2B) : Unescaped src dst → Unescaped (c :: src) (c :: dst)

/-- How many escapes there are. -/
def countEscapes (digit : UInt8 → Option ℕ) : List UInt8 → ℕ
  | [] => 0
  | c :: s => (if (escapedAt digit (c :: s)).isSome then 1 else 0) + countEscapes digit s

/-- Every `%XY` that the decoder replaces has two hexadecimal digits. -/
def EscapesHex (src : List UInt8) : Prop :=
  ∀ a b, [0x25, a, b] <:+: src → Http.ch2x a ≠ none → Http.ch2x b ≠ none → Url.ch2x a ≠ none ∧ Url.ch2x b ≠ none

theorem escapedAt_eq_some {ch : UInt8}
    (h : escapedAt digit (c :: s) = some ch) :
    ∃ a b rest x y, c = 0x25 ∧ s = a :: b :: rest ∧ digit a = some x ∧ digit b = some y ∧
      ch = UInt8.ofNat (x * 16 + y) := by
  rw [escapedAt.eq_def] at h
  split at h
  · rename_i a b rest heq
    obtain ⟨rfl, rfl⟩ := List.cons.inj heq
    split at h
    · rename_i x y ha hb
      exact ⟨a, b, rest, x, y, rfl, rfl, ha, hb, (Option.some.inj h).symm⟩
    · contradiction
  · contradiction

theorem isSome_escapedAt (s : List UInt8) :
    (escapedAt digit (0x25 :: a :: b :: s)).isSome = true ↔ digit a ≠ none ∧ digit b ≠ none := by
  rw [escapedAt]
  cases digit a <;> cases digit b <;> simp

theorem countEscapes_cons (hc : c ≠ 0x25) (s : List UInt8) : countEscapes digit (c :: s) = countEscapes digit s := by
  rw [countEscapes, escapedAt_of_ne digit hc]
  exact Nat.zero_add _

theorem ne_percent {x : ℕ} (h : Http.ch2x a = some x) : a ≠ 0x25 := by
  rintro rfl
  contradiction

theorem length_unescapeFrom (s : List UInt8) : (unescapeFrom s 0).length + 2 * countEscapes Http.ch2x s = s.length := by
  induction hn : s.length using Nat.strong_induction_on generalizing s with
  | _ n ih =>
    subst hn
    cases s with
    | nil => rfl
    | cons c s =>
      rw [unescapeFrom, countEscapes]
      cases hesc : escapedAt Http.ch2x (c :: s) with
      | some ch =>
        obtain ⟨a, b, rest, x, y, rfl, rfl, ha, hb, -⟩ := escapedAt_eq_some hesc
        have hrest := ih rest.length (by simp only [List.length_cons]; omega) rest rfl
        dsimp only
        rw [unescapeFrom_two, countEscapes_cons (ne_percent ha), countEscapes_cons (ne_percent hb)]
        simp only [List.length_cons, Option.isSome_some, if_true]
        omega
      | none =>
        have hrest := ih s.length (by rw [List.length_cons]; omega) s rfl
        dsimp only
        simp only [List.length_cons, Option.isSome_none, Bool.false_eq_true, if_false, Nat.zero_add]
        omega

theorem countEscapes_tail (digit : UInt8 → Option ℕ) (c : UInt8) (s : List UInt8) :
    countEscapes digit s ≤ countEscapes digit (c :: s) := Nat.le_add_left _ _

theorem Unescaped.length_le {dst : List UInt8} (h : Unescaped src dst) :
    src.length ≤ dst.length + 2 * countEscapes Url.ch2x src := by
  induction h with
  | nil => exact Nat.zero_le _
  | @escape a b x y src dst ha hb _ ih =>
    have hsome : (escapedAt Url.ch2x (0x25 :: a :: b :: src)).isSome = true := by
      rw [isSome_escapedAt, ha, hb]
      exact ⟨Option.some_ne_none x, Option.some_ne_none y⟩
    have htail := (countEscapes_tail Url.ch2x b src).trans (countEscapes_tail Url.ch2x a (b :: src))
    rw [countEscapes, if_pos hsome]
    simp only [List.length_cons]
    omega
  | @plus src dst _ ih =>
    have htail := countEscapes_tail Url.ch2x 0x2B src
    simp only [List.length_cons]
    omega
  | @plain c src dst _ _ ih =>
    have htail := countEscapes_tail Url.ch2x c src
    simp only [List.length_cons]
    omega

theorem isSome_escapedAt_mono (h : (escapedAt Url.ch2x (c :: s)).isSome = true) :
    (escapedAt Http.ch2x (c :: s)).isSome = true := by
  obtain ⟨ch, hch⟩ := Option.isSome_iff_exists.mp h
  obtain ⟨a, b, rest, x, y, rfl, rfl, ha, hb, -⟩ := escapedAt_eq_some hch
  rw [isSome_escapedAt, ch2x_of_url ha, ch2x_of_url hb]
  exact ⟨Option.some_ne_none x, Option.some_ne_none y⟩

theorem countEscapes_le (s : List UInt8) : countEscapes Url.ch2x s ≤ countEscapes Http.ch2x s := by
  induction s with
  | nil => exact le_rfl
  | cons c s ih =>
    rw [countEscapes, countEscapes]
    by_cases h : (escapedAt Url.ch2x (c :: s)).isSome = true
    · rw [if_pos h, if_pos (isSome_escapedAt_mono h)]
      omega
    · rw [if_neg h]
      omega

theorem countEscapes_lt (hsub : [0x25, a, b] <:+: src) (ha : Http.ch2x a ≠ none)
    (hb : Http.ch2x b ≠ none) (hno : ¬(Url.ch2x a ≠ none ∧ Url.ch2x b ≠ none)) :
    countEscapes Url.ch2x src < countEscapes Http.ch2x src := by
  induction src with
  | nil => simp at hsub
  | cons c s ih =>
    rw [countEscapes, countEscapes]
    rcases List.infix_cons_iff.mp hsub with hprefix | htail
    · obtain ⟨rest, hrest⟩ := hprefix
      simp only [List.cons_append, List.nil_append, List.cons.injEq] at hrest
      obtain ⟨rfl, rfl⟩ := hrest
      have hle := countEscapes_le (a :: b :: rest)
      rw [if_neg (mt (isSome_escapedAt rest).mp hno), if_pos ((isSome_escapedAt rest).mpr ⟨ha, hb⟩)]
      omega
    · have hlt := ih htail
      by_cases h : (escapedAt Url.ch2x (c :: s)).isSome = true
      · rw [if_pos h, if_pos (isSome_escapedAt_mono h)]
        omega
      · rw [if_neg h]
        omega

theorem EscapesHex.of_suffix {s t : List UInt8} (h : EscapesHex (s ++ t)) : EscapesHex t :=
  fun a b hsub => h a b (hsub.trans (List.suffix_append s t).isInfix)

theorem EscapesHex.unescaped (h : EscapesHex src) : Unescaped src (unescapeFrom src 0) := by
  induction hn : src.length using Nat.strong_induction_on generalizing src with
  | _ n ih =>
    subst hn
    cases src with
    | nil => exact Unescaped.nil
    | cons c s =>
      rw [unescapeFrom]
      cases hesc : escapedAt Http.ch2x (c :: s) with
      | some ch =>
        obtain ⟨a, b, rest, x, y, rfl, rfl, ha, hb, rfl⟩ := escapedAt_eq_some hesc
        have hprefix : [0x25, a, b] <:+: 0x25 :: a :: b :: rest := (List.prefix_append [0x25, a, b] rest).isInfix
        obtain ⟨hna, hnb⟩ := h a b hprefix (by simp [ha]) (by simp [hb])
        obtain ⟨x', hx⟩ := Option.ne_none_iff_exists'.mp hna
        obtain ⟨y', hy⟩ := Option.ne_none_iff_exists'.mp hnb
        obtain rfl := Option.some.inj (ha.symm.trans (ch2x_of_url hx))
        obtain rfl := Option.some.inj (hb.symm.trans (ch2x_of_url hy))
        have hrest : EscapesHex rest := @EscapesHex.of_suffix [0x25, a, b] rest h
        dsimp only
        rw [unescapeFrom_two]
        exact Unescaped.escape hx hy (ih rest.length (by simp only [List.length_cons]; omega) hrest rfl)
      | none =>
        have hrest : EscapesHex s := @EscapesHex.of_suffix [c] s h
        have htail := ih s.length (by rw [List.length_cons]; omega) hrest rfl
        dsimp only
        split_ifs with hplus
        · subst hplus
          exact Unescaped.plus htail
        · exact Unescaped.plain hplus htail

/-- **When the decoder replaces hexadecimal escapes only.** -/
theorem unescaped_iff (src : List UInt8) : Unescaped src (udmUnescapeCGIQuery src) ↔ EscapesHex src := by
  refine ⟨fun h a b hsub ha hb => ?_, fun h => h.unescaped⟩
  by_contra hno
  have hlt := countEscapes_lt hsub ha hb hno
  have hle := h.length_le
  have hlen := length_unescapeFrom src
  rw [udmUnescapeCGIQuery] at hle
  omega

/-! ### The decoders -/

/-- The decoders of a hexadecimal string and of a query take hexadecimal digits only. -/
structure ExactHex (src query : List UInt8) : Prop where
  /-- The longest prefix of pairs of digits is decoded. -/
  decode : HexPrefix src (udmHexDecode src)
  /-- What is encoded comes back. -/
  roundTrip : udmHexDecode (udmHexEncode src) = src
  /-- An escape is replaced only if it has two digits. -/
  unescape : Unescaped query (udmUnescapeCGIQuery query)

/-- **When the decoders are exact**: there are no letters behind `F` where they look for digits. -/
theorem exactHex_iff (src query : List UInt8) : ExactHex src query ↔ StopsAtDigits src ∧ EscapesHex query := by
  constructor
  · exact fun h => ⟨(hexPrefix_udmHexDecode_iff src).mp h.decode, (unescaped_iff query).mp h.unescape⟩
  · exact fun h => ⟨(hexPrefix_udmHexDecode_iff src).mpr h.1, udmHexDecode_udmHexEncode src, (unescaped_iff query).mpr h.2⟩

/-- `GG` is decoded as a byte. -/
theorem not_exactHex : ¬ExactHex [0x47, 0x47] [0x25, 0x47, 0x47] := by
  intro h
  have hdecode : HexPrefix [0x47, 0x47] [0x10] := h.decode
  exact not_hexPrefix_cons (.inl rfl) hdecode

end MnoGoSearch.Utils
