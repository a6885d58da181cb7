import MnoGoSearch.Lib.PrefixCode
import Mathlib.Tactic.IntervalCases
import Mathlib.Data.Nat.Bitwise

/-!
# Coordinates

The variable length numbers in which word positions are stored (`udm_coord_put` and
`udm_coord_get`, the same in `dbmode-blob.c` and `dbmode-multi.c`). A number below
`0x200000` takes one to four bytes, laid out as in UTF-8; a larger one is not written.

`coordCode` says that what was written is read back, and `udmCoordPut_ne_zero` that a
positive number has no NUL byte.
-/

namespace MnoGoSearch.Blob

open Lib.PrefixCode

/-- The tail byte with the low bits of a number. -/
def tailByte (wc : ℕ) : UInt8 := .ofNat (0x80 ||| (wc &&& 0x3f))

/-- `udm_coord_put` into a buffer of `COORD_MAX_LEN` bytes. -/
def udmCoordPut (wc : ℕ) : List UInt8 :=
  if wc < 0x80 then [.ofNat wc]
  else if wc < 0x800 then
    let wc1 := wc >>> 6 ||| 0xc0
    [.ofNat wc1, tailByte wc]
  else if wc < 0x10000 then
    let wc1 := wc >>> 6 ||| 0x800
    let wc2 := wc1 >>> 6 ||| 0xc0
    [.ofNat wc2, tailByte wc1, tailByte wc]
  else if wc < 0x200000 then
    let wc1 := wc >>> 6 ||| 0x10000
    let wc2 := wc1 >>> 6 ||| 0x800
    let wc3 := wc2 >>> 6 ||| 0xc0
    [.ofNat wc3, tailByte wc2, tailByte wc1, tailByte wc]
  else []

/-- The bits of a tail byte. -/
def tailBits (b : UInt8) : ℕ := (b ^^^ 0x80).toNat

/-- A byte that may follow the first one. -/
def isTail (b : UInt8) : Bool := b ^^^ 0x80 < 0x40

/-- `udm_coord_get`: the value and the number of bytes scanned, nothing when this number is
`0`. On a byte that begins no number one byte is scanned (`UDM_ERROR`) and no value set. -/
@[grind =] def udmCoordGet : List UInt8 → Option (Option ℕ × ℕ)
  | [] => none
  | c :: s =>
    if c < 0x80 then some (some c.toNat, 1)
    else if c < 0xc2 then some (none, 1)
    else if c < 0xe0 then
      match s with
      | s1 :: _ => if !isTail s1 then none else some (some ((c &&& 0x1f).toNat <<< 6 ||| tailBits s1), 2)
      | _ => none
    else if c < 0xf0 then
      match s with
      | s1 :: s2 :: _ =>
        if !(isTail s1 && isTail s2 && (0xe1 ≤ c || 0xa0 ≤ s1)) then none
        else some (some ((c &&& 0x0f).toNat <<< 12 ||| tailBits s1 <<< 6 ||| tailBits s2), 3)
      | _ => none
    else if c < 0xf8 then
      match s with
      | s1 :: s2 :: s3 :: _ =>
        if !(isTail s1 && isTail s2 && isTail s3 && (0xf1 ≤ c || 0x90 ≤ s1)) then none
        else
          some (some ((c &&& 0x07).toNat <<< 18 ||| tailBits s1 <<< 12 ||| tailBits s2 <<< 6 ||| tailBits s3), 4)
      | _ => none
    else none

/-- `udm_coord_len`: how many numbers can be scanned. -/
def udmCoordLen (str : List UInt8) : ℕ := (scan udmCoordGet str.length str).length

/-- `UdmCoordListMultiUnpack`: the position and the section length of each coordinate of an
occurrence list. With `SaveSectionSize` the last number leads to the section length. -/
def udmCoordListMultiUnpack (saveSectionSize : Bool) (intag : List UInt8) : List (ℕ × ℕ) :=
  -- `crd` is not assigned on a byte that begins no number, and `pos` has 32 bits
  let crds := (scan udmCoordGet intag.length intag).map fun crd => crd.getD 0
  let pos := (sums 0 crds).map fun last => last % 2 ^ 32
  if saveSectionSize then pos.dropLast.map fun p => (p, pos.getLastD 0) else pos.map fun p => (p, 0)

/-- The numbers that can be written. -/
def CoordValid (wc : ℕ) : Prop := wc < 0x200000

/-! ### The bytes of a number -/

theorem tailByte_eq (wc : ℕ) : tailByte wc = .ofNat (0x80 + wc % 64) := by
  have hmod : wc &&& 0x3f = wc % 64 := Nat.and_two_pow_sub_one_eq_mod wc 6
  have hlt : wc % 64 < 64 := Nat.mod_lt _ (by decide)
  have hor : ∀ x < 64, 0x80 ||| x = 0x80 + x := by decide
  rw [tailByte, hmod, hor _ hlt]

variable {x wc : ℕ} {l : List ℕ}

theorem or_c0 (h : x < 64) : x ||| 0xc0 = 0xc0 + x := by
  have : ∀ x < 64, x ||| 0xc0 = 0xc0 + x := by decide
  exact this x h

theorem udmCoordPut_two (h1 : 0x80 ≤ wc) (h2 : wc < 0x800) :
    udmCoordPut wc = [.ofNat (0xc0 + wc / 64), .ofNat (0x80 + wc % 64)] := by
  rw [udmCoordPut, if_neg (by omega), if_pos h2]
  simp only [tailByte_eq, Nat.shiftRight_eq_div_pow]
  rw [or_c0 (by omega)]

theorem udmCoordPut_three (h1 : 0x800 ≤ wc) (h2 : wc < 0x10000) :
    udmCoordPut wc = [.ofNat (0xe0 + wc / 4096), .ofNat (0x80 + wc / 64 % 64), .ofNat (0x80 + wc % 64)] := by
  have hor : wc / 2 ^ 6 ||| 0x800 = 0x800 + wc / 2 ^ 6 := by
    rw [Nat.or_comm]
    exact (Nat.two_pow_add_eq_or_of_lt (i := 11) (by omega) 1).symm
  have hlead : 0xc0 + (0x800 + wc / 2 ^ 6) / 2 ^ 6 = 0xe0 + wc / 4096 := by omega
  have htail : (0x800 + wc / 2 ^ 6) % 64 = wc / 64 % 64 := by omega
  rw [udmCoordPut, if_neg (by omega), if_neg (by omega), if_pos h2]
  simp only [tailByte_eq, Nat.shiftRight_eq_div_pow, hor]
  rw [or_c0 (by omega), hlead, htail]

theorem udmCoordPut_four (h1 : 0x10000 ≤ wc) (h2 : wc < 0x200000) :
    udmCoordPut wc = [.ofNat (0xf0 + wc / 262144), .ofNat (0x80 + wc / 4096 % 64),
      .ofNat (0x80 + wc / 64 % 64), .ofNat (0x80 + wc % 64)] := by
  have hor1 : wc / 2 ^ 6 ||| 0x10000 = 0x10000 + wc / 2 ^ 6 := by
    rw [Nat.or_comm]
    exact (Nat.two_pow_add_eq_or_of_lt (i := 16) (by omega) 1).symm
  have hor2 : (0x10000 + wc / 2 ^ 6) / 2 ^ 6 ||| 0x800 = 0x800 + (0x10000 + wc / 2 ^ 6) / 2 ^ 6 := by
    rw [Nat.or_comm]
    exact (Nat.two_pow_add_eq_or_of_lt (i := 11) (by omega) 1).symm
  have hlead : 0xc0 + (0x800 + (0x10000 + wc / 2 ^ 6) / 2 ^ 6) / 2 ^ 6 = 0xf0 + wc / 262144 := by omega
  have htail1 : (0x800 + (0x10000 + wc / 2 ^ 6) / 2 ^ 6) % 64 = wc / 4096 % 64 := by omega
  have htail2 : (0x10000 + wc / 2 ^ 6) % 64 = wc / 64 % 64 := by omega
  rw [udmCoordPut, if_neg (by omega), if_neg (by omega), if_neg (by omega), if_pos h2]
  simp only [tailByte_eq, Nat.shiftRight_eq_div_pow, hor1, hor2]
  rw [or_c0 (by omega), hlead, htail1, htail2]

/-! ### Reading what was written -/

theorem isTail_ofNat (h : x < 64) : isTail (.ofNat (0x80 + x)) = true := by
  have : ∀ x < 64, isTail (.ofNat (0x80 + x)) = true := by decide
  exact this x h

theorem tailBits_ofNat (h : x < 64) : tailBits (.ofNat (0x80 + x)) = x := by
  have : ∀ x < 64, tailBits (.ofNat (0x80 + x)) = x := by decide
  exact this x h

theorem udmCoordGet_one (h : wc < 0x80) (rest : List UInt8) : udmCoordGet (.ofNat wc :: rest) = some (some wc, 1) := by
  have hc : ∀ x < 0x80, UInt8.ofNat x < 0x80 ∧ (UInt8.ofNat x).toNat = x := by decide
  obtain ⟨hlt, hval⟩ := hc wc h
  show (if UInt8.ofNat wc < 0x80 then some (some (UInt8.ofNat wc).toNat, 1) else _) = _
  rw [if_pos hlt, hval]

theorem udmCoordGet_two {q r : ℕ} (hq1 : 2 ≤ q) (hq : q < 32) (hr : r < 64) (rest : List UInt8) :
    udmCoordGet (.ofNat (0xc0 + q) :: .ofNat (0x80 + r) :: rest) = some (some (q * 64 + r), 2) := by
  have hc : ∀ q < 32, 2 ≤ q → ¬ UInt8.ofNat (0xc0 + q) < 0x80 ∧ ¬ UInt8.ofNat (0xc0 + q) < 0xc2 ∧
      UInt8.ofNat (0xc0 + q) < 0xe0 ∧ (UInt8.ofNat (0xc0 + q) &&& 0x1f).toNat = q := by decide
  obtain ⟨h1, h2, h3, hval⟩ := hc q hq hq1
  rw [udmCoordGet, if_neg h1, if_neg h2, if_pos h3]
  simp only [isTail_ofNat hr, tailBits_ofNat hr, hval]
  rw [← Nat.shiftLeft_add_eq_or_of_lt (by omega), Nat.shiftLeft_eq]
  rfl

theorem udmCoordGet_three {q r1 r2 : ℕ} (hq : q < 16) (hr1 : r1 < 64) (hr2 : r2 < 64)
    (hmin : 1 ≤ q ∨ 32 ≤ r1) (rest : List UInt8) :
    udmCoordGet (.ofNat (0xe0 + q) :: .ofNat (0x80 + r1) :: .ofNat (0x80 + r2) :: rest) =
      some (some (q * 4096 + r1 * 64 + r2), 3) := by
  have hc : ∀ q < 16, ¬ UInt8.ofNat (0xe0 + q) < 0x80 ∧ ¬ UInt8.ofNat (0xe0 + q) < 0xc2 ∧
      ¬ UInt8.ofNat (0xe0 + q) < 0xe0 ∧ UInt8.ofNat (0xe0 + q) < 0xf0 ∧
      (UInt8.ofNat (0xe0 + q) &&& 0x0f).toNat = q ∧ (1 ≤ q → 0xe1 ≤ UInt8.ofNat (0xe0 + q)) := by decide
  have hs : ∀ r < 64, 32 ≤ r → 0xa0 ≤ UInt8.ofNat (0x80 + r) := by decide
  obtain ⟨h1, h2, h3, h4, hval, hlead⟩ := hc q hq
  have hlong : (decide (0xe1 ≤ UInt8.ofNat (0xe0 + q)) || decide (0xa0 ≤ UInt8.ofNat (0x80 + r1))) = true := by
    rw [Bool.or_eq_true, decide_eq_true_eq, decide_eq_true_eq]
    exact hmin.imp hlead (hs r1 hr1)
  rw [udmCoordGet, if_neg h1, if_neg h2, if_neg h3, if_pos h4]
  simp only [isTail_ofNat hr1, isTail_ofNat hr2, tailBits_ofNat hr1, tailBits_ofNat hr2, hval, hlong]
  rw [Nat.or_assoc, ← Nat.shiftLeft_add_eq_or_of_lt (b := r2) (by omega),
    ← Nat.shiftLeft_add_eq_or_of_lt (by simp only [Nat.shiftLeft_eq]; omega)]
  simp only [Nat.shiftLeft_eq, Nat.add_assoc]
  rfl

theorem udmCoordGet_four {q r1 r2 r3 : ℕ} (hq : q < 8) (hr1 : r1 < 64) (hr2 : r2 < 64) (hr3 : r3 < 64)
    (hmin : 1 ≤ q ∨ 16 ≤ r1) (rest : List UInt8) :
    udmCoordGet (.ofNat (0xf0 + q) :: .ofNat (0x80 + r1) :: .ofNat (0x80 + r2) :: .ofNat (0x80 + r3) :: rest) =
      some (some (q * 262144 + r1 * 4096 + r2 * 64 + r3), 4) := by
  have hc : ∀ q < 8, ¬ UInt8.ofNat (0xf0 + q) < 0x80 ∧ ¬ UInt8.ofNat (0xf0 + q) < 0xc2 ∧
      ¬ UInt8.ofNat (0xf0 + q) < 0xe0 ∧ ¬ UInt8.ofNat (0xf0 + q) < 0xf0 ∧ UInt8.ofNat (0xf0 + q) < 0xf8 ∧
      (UInt8.ofNat (0xf0 + q) &&& 0x07).toNat = q ∧ (1 ≤ q → 0xf1 ≤ UInt8.ofNat (0xf0 + q)) := by decide
  have hs : ∀ r < 64, 16 ≤ r → 0x90 ≤ UInt8.ofNat (0x80 + r) := by decide
  obtain ⟨h1, h2, h3, h4, h5, hval, hlead⟩ := hc q hq
  have hlong : (decide (0xf1 ≤ UInt8.ofNat (0xf0 + q)) || decide (0x90 ≤ UInt8.ofNat (0x80 + r1))) = true := by
    rw [Bool.or_eq_true, decide_eq_true_eq, decide_eq_true_eq]
    exact hmin.imp hlead (hs r1 hr1)
  rw [udmCoordGet, if_neg h1, if_neg h2, if_neg h3, if_neg h4, if_pos h5]
  simp only [isTail_ofNat hr1, isTail_ofNat hr2, isTail_ofNat hr3, tailBits_ofNat hr1, tailBits_ofNat hr2,
    tailBits_ofNat hr3, hval, hlong]
  rw [Nat.or_assoc, Nat.or_assoc, ← Nat.shiftLeft_add_eq_or_of_lt (b := r3) (by omega),
    ← Nat.shiftLeft_add_eq_or_of_lt (b := r2 <<< 6 + r3) (by simp only [Nat.shiftLeft_eq]; omega),
    ← Nat.shiftLeft_add_eq_or_of_lt (by simp only [Nat.shiftLeft_eq]; omega)]
  simp only [Nat.shiftLeft_eq, Nat.add_assoc]
  rfl

/-- **A coordinate that was written is read back**, whatever follows it. -/
theorem coordCode : Code udmCoordGet udmCoordPut some CoordValid := by
  constructor
  · intro wc h
    unfold CoordValid at h
    unfold udmCoordPut
    split_ifs <;> simp
  · intro wc h rest
    unfold CoordValid at h
    by_cases h1 : wc < 0x80
    · rw [udmCoordPut, if_pos h1]
      exact udmCoordGet_one h1 rest
    · by_cases h2 : wc < 0x800
      · rw [udmCoordPut_two (by omega) h2]
        have hget := @udmCoordGet_two (wc / 64) (wc % 64) (by omega) (by omega) (by omega) rest
        rw [show wc / 64 * 64 + wc % 64 = wc by omega] at hget
        exact hget
      · by_cases h3 : wc < 0x10000
        · rw [udmCoordPut_three (by omega) h3]
          have hget := @udmCoordGet_three (wc / 4096) (wc / 64 % 64) (wc % 64) (by omega) (by omega) (by omega)
            (by omega) rest
          rw [show wc / 4096 * 4096 + wc / 64 % 64 * 64 + wc % 64 = wc by omega] at hget
          exact hget
        · rw [udmCoordPut_four (by omega) h]
          have hget := @udmCoordGet_four (wc / 262144) (wc / 4096 % 64) (wc / 64 % 64) (wc % 64) (by omega)
            (by omega) (by omega) (by omega) (by omega) rest
          rw [show wc / 262144 * 262144 + wc / 4096 % 64 * 4096 + wc / 64 % 64 * 64 + wc % 64 = wc by omega] at hget
          exact hget

theorem udmCoordPut_ne_zero (h : 0 < wc) {b : UInt8} (hb : b ∈ udmCoordPut wc) : b ≠ 0 := by
  have hbyte : ∀ x < 256, 0 < x → UInt8.ofNat x ≠ 0 := by
    intro x hx hpos heq
    have hnat := congrArg UInt8.toNat heq
    rw [UInt8.toNat_ofNat', Nat.mod_eq_of_lt hx] at hnat
    exact absurd hnat (by simpa using hpos.ne')
  by_cases h1 : wc < 0x80
  · rw [udmCoordPut, if_pos h1, List.mem_singleton] at hb
    exact hb ▸ hbyte wc (by omega) h
  · by_cases h2 : wc < 0x800
    · rw [udmCoordPut_two (by omega) h2] at hb
      simp only [List.mem_cons, List.not_mem_nil, or_false] at hb
      obtain rfl | rfl := hb <;> exact hbyte _ (by omega) (by omega)
    · by_cases h3 : wc < 0x10000
      · rw [udmCoordPut_three (by omega) h3] at hb
        simp only [List.mem_cons, List.not_mem_nil, or_false] at hb
        obtain rfl | rfl | rfl := hb <;> exact hbyte _ (by omega) (by omega)
      · by_cases h4 : wc < 0x200000
        · rw [udmCoordPut_four (by omega) h4] at hb
          simp only [List.mem_cons, List.not_mem_nil, or_false] at hb
          obtain rfl | rfl | rfl | rfl := hb <;> exact hbyte _ (by omega) (by omega)
        · rw [udmCoordPut, if_neg h1, if_neg h2, if_neg h3, if_neg h4] at hb
          simp at hb

theorem udmCoordPut_of_not_valid (h : ¬ CoordValid wc) : udmCoordPut wc = [] := by
  unfold CoordValid at h
  rw [udmCoordPut, if_neg (by omega), if_neg (by omega), if_neg (by omega), if_neg h]

theorem scan_udmCoordGet (hl : ∀ wc ∈ l, CoordValid wc) :
    scan udmCoordGet (l.flatMap udmCoordPut).length (l.flatMap udmCoordPut) = l.map some :=
  scan_flatMap coordCode hl le_rfl

theorem udmCoordLen_flatMap (hl : ∀ wc ∈ l, CoordValid wc) : udmCoordLen (l.flatMap udmCoordPut) = l.length := by
  rw [udmCoordLen, scan_udmCoordGet hl, List.length_map]

theorem zero_notMem_flatMap (hl : ∀ wc ∈ l, 0 < wc) : (0 : UInt8) ∉ l.flatMap udmCoordPut := by
  intro h
  obtain ⟨wc, hwc, hb⟩ := List.mem_flatMap.mp h
  exact udmCoordPut_ne_zero (hl wc hwc) hb rfl

theorem udmCoordListMultiUnpack_flatMap (saveSectionSize : Bool) (hl : ∀ wc ∈ l, CoordValid wc) :
    udmCoordListMultiUnpack saveSectionSize (l.flatMap udmCoordPut) =
      let pos := (sums 0 l).map fun last => last % 2 ^ 32
      if saveSectionSize then pos.dropLast.map fun p => (p, pos.getLastD 0) else pos.map fun p => (p, 0) := by
  simp only [udmCoordListMultiUnpack, scan_udmCoordGet hl, List.map_map, Function.comp_def, Option.getD_some,
    List.map_id']

theorem length_udmCoordPut_le (wc : ℕ) : (udmCoordPut wc).length ≤ 4 := by
  unfold udmCoordPut
  split_ifs <;> simp

end MnoGoSearch.Blob
