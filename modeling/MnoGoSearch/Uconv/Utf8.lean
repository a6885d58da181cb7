import MnoGoSearch.Template.Escape
import Mathlib.Tactic.Ring

/-!
# UTF-8

`udm_mb_wc_utf8` and `udm_wc_mb_utf8` (`uconv-utf8.c`) read and write the characters up to 31 bits, with
one to six bytes. The reader is modelled with its reads: a byte that is not there is not read
(`udmMbWcUtf8At`). `utf8_codec` says that the two are inverse to each other, and that the reader stays
in front of the end.
-/

namespace MnoGoSearch.Uconv

open Highlight Template Url

/-- `conv->flags`. -/
structure RecodeFlags where
  /-- `UDM_RECODE_HTML_NONASCII`. -/
  nonascii : Bool
  /-- `UDM_RECODE_HTML_SPECIAL`. -/
  special : Bool
  /-- `UDM_RECODE_HTML_NONASCII_HEX`. -/
  nonasciiHex : Bool
  deriving DecidableEq

/-- No flags. -/
def noFlags : RecodeFlags := ⟨false, false, false⟩

/-! ## Reading -/

/-- `k` bytes from `i` on are tail bytes; they are read up to the first one that is not. -/
def tailsAt (s : List UInt8) : ℕ → ℕ → Option Bool
  | _, 0 => some true
  | i, k + 1 => do
    let b ← s[i]?
    if isTail b then tailsAt s (i + 1) k else some false

/-- The bits of `k` tail bytes from `i` on, behind those of `n`. -/
def valueAt (s : List UInt8) : ℕ → ℕ → ℕ → Option ℕ
  | n, _, 0 => some n
  | n, i, k + 1 => do
    let b ← s[i]?
    valueAt s (n <<< 6 ||| (b ^^^ 0x80).toNat) (i + 1) k

/-- A character of `k` bytes behind the first one, `c`. -/
def mbWcTailAt (k : ℕ) (mask first low : UInt8) (istate : ℕ) (c : UInt8) (s : List UInt8) : Option MbWc :=
  if s.length < k + 1 then some .toofew
  else do
    let tails ← tailsAt s 1 k
    let long ← if tails then if first < c then some true else s[1]?.map fun b => decide (low ≤ b) else some false
    if long then do
      let n ← valueAt s (c &&& mask).toNat 1 k
      some (.char (k + 1) istate n)
    else some (.ilseq k istate)

/-- `udm_mb_wc_utf8`: nothing, where a byte is read that is not there. -/
def udmMbWcUtf8At (flags : RecodeFlags) (sgml : SgmlChars) (istate : ℕ) (s : List UInt8) : Option MbWc := do
  let c ← s[0]?
  if c < 0x80 then
    if c = 0x26 ∧ flags.special = true then
      some (.char (udmSGMLScan (fun s => sgml.toUni s) s).1 istate (udmSGMLScan (fun s => sgml.toUni s) s).2)
    else some (.char 1 istate c.toNat)
  else if c < 0xC2 then some (.ilseq 1 istate)
  else if c < 0xE0 then mbWcTailAt 1 0x1F 0xC1 0 istate c s
  else if c < 0xF0 then mbWcTailAt 2 0x0F 0xE0 0xA0 istate c s
  else if c < 0xF8 then mbWcTailAt 3 0x07 0xF0 0x90 istate c s
  else if c < 0xFC then mbWcTailAt 4 0x03 0xF8 0x88 istate c s
  else if c < 0xFE then mbWcTailAt 5 0x01 0xFC 0x84 istate c s
  else some (.ilseq 1 istate)

/-- What `udm_mb_wc_utf8` says of a source that is not empty. -/
def udmMbWcUtf8With (flags : RecodeFlags) (sgml : SgmlChars) (istate : ℕ) : List UInt8 → MbWc
  | [] => .toofew
  | c :: s =>
    if c < 0x80 then
      if c = 0x26 ∧ flags.special = true then
        .char (udmSGMLScan (fun s => sgml.toUni s) (c :: s)).1 istate (udmSGMLScan (fun s => sgml.toUni s) (c :: s)).2
      else .char 1 istate c.toNat
    else if c < 0xC2 then .ilseq 1 istate
    else if c < 0xE0 then mbWcTail 1 0x1F 0xC1 0 istate c s
    else if c < 0xF0 then mbWcTail 2 0x0F 0xE0 0xA0 istate c s
    else if c < 0xF8 then mbWcTail 3 0x07 0xF0 0x90 istate c s
    else if c < 0xFC then mbWcTail 4 0x03 0xF8 0x88 istate c s
    else if c < 0xFE then mbWcTail 5 0x01 0xFC 0x84 istate c s
    else .ilseq 1 istate

variable {b : UInt8} {n : ℕ}

theorem shiftLeft_or_tail (hb : isTail b = true) (n : ℕ) :
    n <<< 6 ||| (b ^^^ 0x80).toNat = n * 64 + (b ^^^ 0x80).toNat := by
  rw [isTail, decide_eq_true_eq, UInt8.lt_iff_toNat_lt] at hb
  rw [← Nat.shiftLeft_add_eq_or_of_lt hb, Nat.shiftLeft_eq]

variable {s : List UInt8}

theorem tailsAt_eq {i k : ℕ} (h : i + k ≤ s.length) : tailsAt s i k = some (((s.drop i).take k).all isTail) := by
  induction k generalizing i with
  | zero => simp [tailsAt]
  | succ k ih =>
    have hi : i < s.length := by omega
    rw [tailsAt, List.getElem?_eq_getElem hi, List.drop_eq_getElem_cons hi, List.take_succ_cons, List.all_cons]
    simp only [Option.bind_eq_bind, Option.bind_some]
    cases isTail s[i] with
    | true => exact ih (by omega)
    | false => rfl

theorem valueAt_eq {i k : ℕ} (h : i + k ≤ s.length) (htails : ((s.drop i).take k).all isTail = true)
    (n : ℕ) : valueAt s n i k = some (((s.drop i).take k).foldl (fun n b => n * 64 + (b ^^^ 0x80).toNat) n) := by
  induction k generalizing i n with
  | zero => simp [valueAt]
  | succ k ih =>
    have hi : i < s.length := by omega
    rw [List.drop_eq_getElem_cons hi, List.take_succ_cons] at htails ⊢
    rw [List.all_cons, Bool.and_eq_true] at htails
    rw [valueAt, List.getElem?_eq_getElem hi, List.foldl_cons]
    simp only [Option.bind_eq_bind, Option.bind_some]
    rw [shiftLeft_or_tail htails.1]
    exact ih (by omega) htails.2 _

theorem mbWcTailAt_eq (k : ℕ) (hk : 1 ≤ k) (mask first low : UInt8) (istate : ℕ) (c : UInt8) (s : List UInt8) :
    mbWcTailAt k mask first low istate c (c :: s) = some (mbWcTail k mask first low istate c s) := by
  rw [mbWcTailAt, mbWcTail, List.length_cons]
  by_cases hfew : s.length < k
  · rw [if_pos (by omega), if_pos hfew]
  · have hlen : 1 + k ≤ (c :: s).length := by
      rw [List.length_cons]
      omega
    rw [if_neg (by omega), if_neg hfew, tailsAt_eq hlen, List.drop_succ_cons, List.drop_zero]
    simp only [Option.bind_eq_bind, Option.bind_some]
    cases htails : (s.take k).all isTail with
    | false => simp
    | true =>
      have hs : 0 < s.length := by omega
      have hvalue := valueAt_eq hlen (by simpa using htails) (c &&& mask).toNat
      have hfirst : (c :: s)[1]? = some (s.headD 0) := by
        cases s with
        | nil => simp at hs
        | cons b s => rfl
      rw [List.drop_succ_cons, List.drop_zero] at hvalue
      rw [hfirst, hvalue]
      generalize s.headD 0 = b
      by_cases hc : first < c
      · simp [hc]
      · by_cases hlow : low ≤ b <;> simp [hc, hlow]

/-- **The reader stays in front of the end.** -/
theorem udmMbWcUtf8At_eq (hs : s ≠ []) (flags : RecodeFlags) (sgml : SgmlChars) (istate : ℕ) :
    udmMbWcUtf8At flags sgml istate s = some (udmMbWcUtf8With flags sgml istate s) := by
  obtain ⟨c, s, rfl⟩ := List.exists_cons_of_ne_nil hs
  rw [udmMbWcUtf8At, List.getElem?_cons_zero, udmMbWcUtf8With]
  simp only [Option.bind_eq_bind, Option.bind_some]
  split_ifs <;> first | rfl | exact mbWcTailAt_eq _ (by decide) _ _ _ _ _ _

/-! ## Writing -/

/-- `udm_wc_mb_utf8`. -/
def udmWcMbUtf8With (flags : RecodeFlags) (wc : ℤ) (room : ℕ) : WcMb :=
  if wc < 0x80 then
    if flags.special = true ∧ isSpecial (lowByte wc) = true then .iluni else .bytes [lowByte wc]
  else if 0x7FFFFFFF < wc then .iluni
  else if room < utf8Count wc + 1 then .toosmall
  else .bytes (utf8Bytes (utf8Count wc) wc.toNat)

/-- `k` tail bytes, of the last bits of a number. -/
def tailBytes : ℕ → ℕ → List UInt8
  | 0, _ => []
  | k + 1, n => tailBytes k (n / 64) ++ [UInt8.ofNat (0x80 + n % 64)]

@[simp] theorem length_tailBytes (k n : ℕ) : (tailBytes k n).length = k := by
  induction k generalizing n with
  | zero => rfl
  | succ k ih => simp [tailBytes, ih]

theorem isTail_ofNat {d : ℕ} (hd : d < 64) :
    isTail (UInt8.ofNat (0x80 + d)) = true ∧ (UInt8.ofNat (0x80 + d) ^^^ 0x80).toNat = d := by
  have h : ∀ d < 64, isTail (UInt8.ofNat (0x80 + d)) = true ∧ (UInt8.ofNat (0x80 + d) ^^^ 0x80).toNat = d := by decide
  exact h d hd

theorem ofNat_of_isTail (hb : isTail b = true) :
    (b ^^^ 0x80).toNat < 64 ∧ UInt8.ofNat (0x80 + (b ^^^ 0x80).toNat) = b :=
  @forall_byte (fun b => isTail b = true → (b ^^^ 0x80).toNat < 64 ∧ UInt8.ofNat (0x80 + (b ^^^ 0x80).toNat) = b)
    (by decide +kernel) b hb

theorem isTail_tailBytes (k n : ℕ) : (tailBytes k n).all isTail = true := by
  induction k generalizing n with
  | zero => rfl
  | succ k ih =>
    rw [tailBytes, List.all_append, ih, Bool.true_and, List.all_cons, List.all_nil, Bool.and_true]
    exact (isTail_ofNat (Nat.mod_lt n (by decide))).1

theorem foldl_tailBytes (k n m : ℕ) :
    (tailBytes k n).foldl (fun n b => n * 64 + (b ^^^ 0x80).toNat) m = m * 64 ^ k + n % 64 ^ k := by
  induction k generalizing n with
  | zero => simp [tailBytes, Nat.mod_one]
  | succ k ih =>
    rw [tailBytes, List.foldl_append, ih, List.foldl_cons, List.foldl_nil,
      (isTail_ofNat (Nat.mod_lt n (by decide : 0 < 64))).2, Nat.pow_succ', Nat.mod_mul]
    ring

theorem tailBytes_foldl {ts : List UInt8} (hts : ts.all isTail = true) (m : ℕ) :
    tailBytes ts.length (ts.foldl (fun n b => n * 64 + (b ^^^ 0x80).toNat) m) = ts := by
  induction ts using List.reverseRecOn with
  | nil => rfl
  | append_singleton ts b ih =>
    rw [List.all_append, Bool.and_eq_true] at hts
    obtain ⟨hlt, hb⟩ := ofNat_of_isTail (b := b) (by simpa using hts.2)
    rw [List.length_append, List.length_singleton, List.foldl_append, List.foldl_cons, List.foldl_nil, tailBytes]
    generalize hn : ts.foldl (fun n b => n * 64 + (b ^^^ 0x80).toNat) m = n at ih ⊢
    rw [show (n * 64 + (b ^^^ 0x80).toNat) / 64 = n by omega, show (n * 64 + (b ^^^ 0x80).toNat) % 64 = (b ^^^ 0x80).toNat by
      omega, ih hts.1, hb]

theorem le_foldl_tail (ts : List UInt8) (m : ℕ) :
    m * 64 ^ ts.length ≤ ts.foldl (fun n b => n * 64 + (b ^^^ 0x80).toNat) m := by
  induction ts generalizing m with
  | nil => simp
  | cons b ts ih =>
    rw [List.foldl_cons, List.length_cons, Nat.pow_succ', ← Nat.mul_assoc]
    exact (Nat.mul_le_mul_right _ (Nat.le_add_right _ _)).trans (ih _)

theorem tailBytes_add (k n m : ℕ) : tailBytes k (n + m * 64 ^ k) = tailBytes k n := by
  induction k generalizing n with
  | zero => rfl
  | succ k ih =>
    have hdiv : (n + m * 64 ^ (k + 1)) / 64 = n / 64 + m * 64 ^ k := by
      rw [Nat.pow_succ, ← Nat.mul_assoc]
      omega
    have hmod : (n + m * 64 ^ (k + 1)) % 64 = n % 64 := by
      rw [Nat.pow_succ, ← Nat.mul_assoc]
      omega
    rw [tailBytes, tailBytes, hdiv, hmod, ih]

theorem tailBytes_succ (k n : ℕ) : tailBytes (k + 1) n = UInt8.ofNat (0x80 + n / 64 ^ k % 64) :: tailBytes k n := by
  induction k generalizing n with
  | zero => simp [tailBytes]
  | succ k ih =>
    have hdiv : n / 64 / 64 ^ k = n / 64 ^ (k + 1) := by rw [Nat.div_div_eq_div_mul, Nat.pow_succ']
    rw [tailBytes, ih, hdiv, List.cons_append]
    rfl

/-- The first byte of a character of `k` more, without its bits. -/
def lead : ℕ → ℕ
  | 1 => 0xC0
  | 2 => 0xE0
  | 3 => 0xF0
  | 4 => 0xF8
  | _ => 0xFC

theorem utf8Bytes_succ {k v i a : ℕ} (hmark : utf8Mark (k + 1) = 2 ^ i * a) (hv : v / 64 < 2 ^ i) :
    utf8Bytes (k + 1) v = utf8Bytes k (utf8Mark (k + 1) + v / 64) ++ [UInt8.ofNat (0x80 + v % 64)] := by
  have hlast : ∀ d < 64, (0x80 : UInt8) ||| UInt8.ofNat d = UInt8.ofNat (0x80 + d) := by decide
  have hand : v &&& 0x3F = v % 64 := Nat.and_two_pow_sub_one_eq_mod v 6
  have hshift : v >>> 6 = v / 64 := Nat.shiftRight_eq_div_pow v 6
  rw [utf8Bytes, hand, hlast _ (Nat.mod_lt _ (by decide)), hshift, Nat.or_comm, hmark,
    ← Nat.two_pow_add_eq_or_of_lt hv]

theorem utf8Bytes_eq {k v : ℕ} (hk : k < 5) (hv : v < 2 ^ (5 * k + 12)) :
    utf8Bytes (k + 1) v = UInt8.ofNat (lead (k + 1) + v / 64 ^ (k + 1)) :: tailBytes (k + 1) v := by
  induction k generalizing v with
  | zero =>
    rw [utf8Bytes_succ (show utf8Mark 1 = 2 ^ 6 * 3 from rfl) (by omega), utf8Bytes, tailBytes]
    rfl
  | succ k ih =>
    have hmarks : ∀ k < 4, utf8Mark (k + 2) = 2 ^ (5 * k + 11) ∧ utf8Mark (k + 2) = 2 ^ (5 - k) * 64 ^ (k + 1) ∧
        lead (k + 2) = lead (k + 1) + 2 ^ (5 - k) := by decide
    obtain ⟨hmark, hmul, hlead⟩ := hmarks k (by omega)
    have hlt : v / 64 < 2 ^ (5 * k + 11) := by
      rw [Nat.div_lt_iff_lt_mul (by decide)]
      exact hv.trans_eq (by ring)
    have hsum : utf8Mark (k + 2) + v / 64 < 2 ^ (5 * k + 12) := by
      rw [hmark, Nat.pow_succ 2 (5 * k + 11)]
      omega
    have hfirst : lead (k + 1) + (utf8Mark (k + 2) + v / 64) / 64 ^ (k + 1) = lead (k + 2) + v / 64 ^ (k + 2) := by
      have hdiv : v / 64 / 64 ^ (k + 1) = v / 64 ^ (k + 2) := by
        rw [Nat.div_div_eq_div_mul, Nat.pow_succ' (n := k + 1)]
      rw [hmul, Nat.add_comm _ (v / 64), Nat.add_mul_div_right _ _ (Nat.pow_pos (by decide)), hdiv, hlead]
      omega
    have htail : tailBytes (k + 1) (utf8Mark (k + 2) + v / 64) = tailBytes (k + 1) (v / 64) := by
      rw [hmul, Nat.add_comm _ (v / 64), tailBytes_add]
    rw [utf8Bytes_succ (hmark.trans (Nat.mul_one _).symm) hlt, ih (by omega) hsum, hfirst, htail, List.cons_append]
    rfl

/-! ## Both -/

/-- The length classes: `k` bytes behind the first one; the bits of the first byte, the least first byte and second
byte, and the least character. -/
inductive LengthClass : (k : ℕ) → (mask first low : UInt8) → (lowest : ℕ) → Prop where
  | two : LengthClass 1 0x1F 0xC1 0 0x80
  | three : LengthClass 2 0x0F 0xE0 0xA0 0x800
  | four : LengthClass 3 0x07 0xF0 0x90 0x10000
  | five : LengthClass 4 0x03 0xF8 0x88 0x200000
  | six : LengthClass 5 0x01 0xFC 0x84 0x4000000

section Classes

variable {k lowest : ℕ} {mask first low : UInt8} (hclass : LengthClass k mask first low lowest)

include hclass

variable {c : UInt8}

theorem toNat_and_mask (hlead : lead k ≤ c.toNat) (hlt : c.toNat < lead k + 2 ^ (6 - k)) :
    (c &&& mask).toNat = c.toNat - lead k := by
  have hbits : ∀ c : UInt8, lead k ≤ c.toNat ∧ c.toNat < lead k + 2 ^ (6 - k) → (c &&& mask).toNat = c.toNat - lead k := by
    cases hclass <;> exact forall_byte (by decide +kernel)
  exact hbits c ⟨hlead, hlt⟩

theorem udmMbWcUtf8With_class (hlead : lead k ≤ c.toNat) (hlt : c.toNat < lead k + 2 ^ (6 - k))
    (hlong : 0xC2 ≤ c.toNat) (flags : RecodeFlags) (sgml : SgmlChars) (istate : ℕ) (s : List UInt8) :
    udmMbWcUtf8With flags sgml istate (c :: s) = mbWcTail k mask first low istate c s := by
  have hcmp : ∀ d : UInt8, c < d ↔ c.toNat < d.toNat := fun d => UInt8.lt_iff_toNat_lt
  simp only [udmMbWcUtf8With, hcmp]
  cases hclass <;> simp only [lead] at hlead hlt <;> simp only [UInt8.reduceToNat] <;> split_ifs <;> first | rfl | omega

theorem lowest_le_iff {m d n : ℕ} (hm : 2 ≤ m ∨ k ≠ 1) (hd : d < 64) (hlo : (m * 64 + d) * 64 ^ (k - 1) ≤ n)
    (hhi : n < (m * 64 + d + 1) * 64 ^ (k - 1)) : first.toNat < lead k + m ∨ low.toNat ≤ 0x80 + d ↔ lowest ≤ n := by
  cases hclass <;> simp only [lead, UInt8.reduceToNat] at hm hlo hhi ⊢ <;> omega

theorem utf8Count_class {n : ℕ} (hlo : lowest ≤ n) (hhi : n < 2 ^ (5 * k + 6)) : utf8Count n = k := by
  cases hclass <;> rw [utf8Count] <;> split_ifs <;> omega

theorem LengthClass.pos : 1 ≤ k ∧ k ≤ 5 := by
  cases hclass <;> decide

theorem long_iff {b : UInt8} {n : ℕ} (hlead : lead k ≤ c.toNat) (hlong : 0xC2 ≤ c.toNat) (hb : isTail b = true)
    (hlo : ((c.toNat - lead k) * 64 + (b ^^^ 0x80).toNat) * 64 ^ (k - 1) ≤ n)
    (hhi : n < ((c.toNat - lead k) * 64 + (b ^^^ 0x80).toNat + 1) * 64 ^ (k - 1)) :
    first < c ∨ low ≤ b ↔ lowest ≤ n := by
  obtain ⟨hlt, hbyte⟩ := ofNat_of_isTail hb
  have hm : 2 ≤ c.toNat - lead k ∨ k ≠ 1 := by
    cases hclass <;> simp only [lead] at hlead ⊢ <;> omega
  have hbval : b.toNat = 0x80 + (b ^^^ 0x80).toNat := by
    rw [← hbyte, UInt8.toNat_ofNat', hbyte, Nat.mod_eq_of_lt (by omega)]
  rw [UInt8.lt_iff_toNat_lt, UInt8.le_iff_toNat_le, hbval, ← lowest_le_iff hclass hm hlt hlo hhi, Nat.add_sub_cancel' hlead]

/-- **What is written** is read. -/
theorem udmMbWcUtf8With_utf8Bytes {n : ℕ} (hlo : lowest ≤ n) (hhi : n < 2 ^ (5 * k + 6)) (flags : RecodeFlags) (sgml : SgmlChars)
    (istate : ℕ) (rest : List UInt8) :
    udmMbWcUtf8With flags sgml istate (utf8Bytes k n ++ rest) = .char (k + 1) istate n := by
  have hbits : n / 64 ^ k < 2 ^ (6 - k) ∧ lead k + n / 64 ^ k < 256 ∧ 0xC2 ≤ lead k + n / 64 ^ k := by
    cases hclass <;> simp only [lead] <;> omega
  obtain ⟨hlt, hbyte, hlong⟩ := hbits
  obtain ⟨hpos, hle⟩ := hclass.pos
  obtain ⟨j, rfl⟩ := Nat.exists_eq_add_of_le' hpos
  have hbound : n < 2 ^ (5 * j + 12) := hhi.trans (Nat.pow_lt_pow_right (by decide) (by omega))
  rw [utf8Bytes_eq (by omega) hbound, List.cons_append]
  have hvalue := Nat.div_add_mod' n (64 ^ (j + 1))
  have hnum : n / 64 ^ (j + 1) * 64 + n / 64 ^ j % 64 = n / 64 ^ j := by
    rw [Nat.pow_succ, ← Nat.div_div_eq_div_mul]
    omega
  generalize n / 64 ^ (j + 1) = q at *
  have hc : (UInt8.ofNat (lead (j + 1) + q)).toNat = lead (j + 1) + q := by
    rw [UInt8.toNat_ofNat', Nat.mod_eq_of_lt hbyte]
  generalize UInt8.ofNat (lead (j + 1) + q) = c at *
  have hsub : c.toNat - lead (j + 1) = q := by omega
  have hread := udmMbWcUtf8With_class hclass (c := c) (by omega) (by omega) (by omega) flags sgml istate
    (tailBytes (j + 1) n ++ rest)
  have hmask := toNat_and_mask hclass (c := c) (by omega) (by omega)
  obtain ⟨htail, hdigit⟩ := isTail_ofNat (Nat.mod_lt (n / 64 ^ j) (by decide : 0 < 64))
  have hfirst : (tailBytes (j + 1) n ++ rest).headD 0 = UInt8.ofNat (0x80 + n / 64 ^ j % 64) := by
    rw [tailBytes_succ]
    rfl
  have htake : (tailBytes (j + 1) n ++ rest).take (j + 1) = tailBytes (j + 1) n :=
    List.take_left' (length_tailBytes _ _)
  have hok := (long_iff hclass (c := c) (b := UInt8.ofNat (0x80 + n / 64 ^ j % 64)) (n := n) (by omega) (by omega) htail
    (by rw [hsub, hdigit, hnum]; exact Nat.div_mul_le_self _ _)
    (by rw [hsub, hdigit, hnum]; exact Nat.lt_mul_of_div_lt (Nat.lt_succ_self _) (Nat.pow_pos (by decide)))).mpr hlo
  have hlen : ¬ (tailBytes (j + 1) n ++ rest).length < j + 1 := by
    rw [List.length_append, length_tailBytes]
    omega
  rw [hread, mbWcTail, if_neg hlen, htake, hfirst, if_pos ⟨isTail_tailBytes _ _, hok⟩, foldl_tailBytes, hmask, hsub,
    hvalue]

/-- **What is read** is written. -/
theorem utf8Bytes_of_mbWcTail (hlead : lead k ≤ c.toNat)
    (hlt : c.toNat < lead k + 2 ^ (6 - k)) (hlong : 0xC2 ≤ c.toNat) {istate m istate' : ℕ} {wc : ℤ}
    (hread : mbWcTail k mask first low istate c s = .char m istate' wc) :
    m = k + 1 ∧ istate' = istate ∧ k ≤ s.length ∧
      ∃ n : ℕ, wc = n ∧ lowest ≤ n ∧ n < 2 ^ (5 * k + 6) ∧ c :: s.take k = utf8Bytes k n := by
  have hmask := toNat_and_mask hclass hlead hlt
  obtain ⟨hpos, hle⟩ := hclass.pos
  rw [mbWcTail] at hread
  split_ifs at hread with hfew hok
  obtain ⟨htails, hlow⟩ := hok
  obtain ⟨rfl, rfl, rfl⟩ := MbWc.char.inj hread
  have hk : k ≤ s.length := Nat.not_lt.mp hfew
  have hlen : (s.take k).length = k := List.length_take_of_le hk
  have hbound : (c.toNat - lead k + 1) * 64 ^ k ≤ 2 ^ (5 * k + 6) := by
    cases hclass <;> simp only [lead] at hlead hlt ⊢ <;> omega
  refine ⟨rfl, rfl, hk, _, rfl, ?_⟩
  rw [hmask]
  generalize hts : s.take k = ts at *
  generalize hq : c.toNat - lead k = q at *
  have hlo := le_foldl_tail ts q
  have hhi := foldl_tail_lt ts (List.all_eq_true.mp htails) q
  rw [hlen] at hlo hhi
  generalize hn : ts.foldl (fun n b => n * 64 + (b ^^^ 0x80).toNat) q = n at *
  have hback : tailBytes k n = ts := by
    rw [← hn, ← hlen]
    exact tailBytes_foldl htails q
  have hdiv : n / 64 ^ k = q := Nat.div_eq_of_lt_le hlo hhi
  refine ⟨?_, hhi.trans_le hbound, ?_⟩
  · -- the first of the tail bytes
    cases ts with
    | nil => exact absurd hlen (by simp; omega)
    | cons b ts =>
      rw [List.all_cons, Bool.and_eq_true] at htails
      have hhead : s.headD 0 = b := by
        cases s with
        | nil => simp at hts
        | cons b' s =>
          obtain ⟨j, rfl⟩ := Nat.exists_eq_add_of_le' hpos
          exact (List.cons.inj hts).1
      have hlen' : ts.length = k - 1 := by
        rw [List.length_cons] at hlen
        omega
      rw [List.foldl_cons] at hn
      have hlo' := le_foldl_tail ts (q * 64 + (b ^^^ 0x80).toNat)
      have hhi' := foldl_tail_lt ts (List.all_eq_true.mp htails.2) (q * 64 + (b ^^^ 0x80).toNat)
      rw [hn, hlen'] at hlo' hhi'
      rw [hhead] at hlow
      exact (long_iff hclass hlead hlong htails.1 (by rwa [hq]) (by rwa [hq])).mp hlow
  · obtain ⟨j, rfl⟩ := Nat.exists_eq_add_of_le' hpos
    have hlt' : n < 2 ^ (5 * j + 12) := (hhi.trans_le hbound).trans (Nat.pow_lt_pow_right (by decide) (by omega))
    have hc : lead (j + 1) + q = c.toNat := by omega
    rw [utf8Bytes_eq (by omega) hlt', hdiv, hback, hc, UInt8.ofNat_toNat]

end Classes

theorem exists_class (hlo : 0x80 ≤ n) (hhi : n < 0x80000000) :
    ∃ k mask first low lowest, LengthClass k mask first low lowest ∧ lowest ≤ n ∧ n < 2 ^ (5 * k + 6) := by
  rcases Nat.lt_or_ge n 0x800 with h1 | h1
  · exact ⟨_, _, _, _, _, .two, hlo, h1⟩
  rcases Nat.lt_or_ge n 0x10000 with h2 | h2
  · exact ⟨_, _, _, _, _, .three, h1, h2⟩
  rcases Nat.lt_or_ge n 0x200000 with h3 | h3
  · exact ⟨_, _, _, _, _, .four, h2, h3⟩
  rcases Nat.lt_or_ge n 0x4000000 with h4 | h4
  · exact ⟨_, _, _, _, _, .five, h3, h4⟩
  · exact ⟨_, _, _, _, _, .six, h4, hhi⟩

theorem exists_class_of_byte {c : UInt8} (hlo : 0xC2 ≤ c.toNat) (hhi : c.toNat < 0xFE) :
    ∃ k mask first low lowest, LengthClass k mask first low lowest ∧ lead k ≤ c.toNat ∧
      c.toNat < lead k + 2 ^ (6 - k) := by
  rcases Nat.lt_or_ge c.toNat 0xE0 with h1 | h1
  · exact ⟨_, _, _, _, _, .two, by simp only [lead]; omega, by simp only [lead]; omega⟩
  rcases Nat.lt_or_ge c.toNat 0xF0 with h2 | h2
  · exact ⟨_, _, _, _, _, .three, by simp only [lead]; omega, by simp only [lead]; omega⟩
  rcases Nat.lt_or_ge c.toNat 0xF8 with h3 | h3
  · exact ⟨_, _, _, _, _, .four, by simp only [lead]; omega, by simp only [lead]; omega⟩
  rcases Nat.lt_or_ge c.toNat 0xFC with h4 | h4
  · exact ⟨_, _, _, _, _, .five, by simp only [lead]; omega, by simp only [lead]; omega⟩
  · exact ⟨_, _, _, _, _, .six, by simp only [lead]; omega, by simp only [lead]; omega⟩

theorem udmWcMbUtf8With_noFlags (hn : n < 0x80000000) (room : ℕ) :
    udmWcMbUtf8With noFlags n room =
      if n < 0x80 then .bytes [UInt8.ofNat n]
      else if room < utf8Count n + 1 then .toosmall else .bytes (utf8Bytes (utf8Count n) n) := by
  rw [udmWcMbUtf8With, noFlags]
  by_cases hlow : n < 0x80
  · have hbyte : lowByte (n : ℤ) = UInt8.ofNat n := by
      rw [lowByte, Int.emod_eq_of_lt (by omega) (by omega), Int.toNat_natCast]
    rw [if_pos (by omega), if_neg (by simp), if_pos hlow, hbyte]
  · rw [if_neg (by omega), if_neg (by omega), if_neg hlow, Int.toNat_natCast]

/-- **What is written is read.** -/
theorem read_written (hn : n < 0x80000000) {room : ℕ} {r : List UInt8}
    (h : udmWcMbUtf8With noFlags n room = .bytes r) (sgml : SgmlChars) (istate : ℕ) (rest : List UInt8) :
    r ≠ [] ∧ udmMbWcUtf8With noFlags sgml istate (r ++ rest) = .char r.length istate n := by
  rw [udmWcMbUtf8With_noFlags hn] at h
  by_cases hlow : n < 0x80
  · rw [if_pos hlow] at h
    cases h
    have hc : (UInt8.ofNat n).toNat = n := by rw [UInt8.toNat_ofNat', Nat.mod_eq_of_lt (by omega)]
    refine ⟨by simp, ?_⟩
    rw [List.singleton_append, udmMbWcUtf8With, if_pos (by rw [UInt8.lt_iff_toNat_lt, hc]; exact hlow), if_neg (by simp [noFlags]),
      hc]
    rfl
  · rw [if_neg hlow] at h
    obtain ⟨k, mask, first, low, lowest, hclass, hlo, hhi⟩ := exists_class (Nat.not_lt.mp hlow) hn
    rw [utf8Count_class hclass hlo hhi] at h
    split_ifs at h
    cases h
    refine ⟨List.ne_nil_of_length_pos (by rw [length_utf8Bytes]; omega), ?_⟩
    rw [udmMbWcUtf8With_utf8Bytes hclass hlo hhi, length_utf8Bytes]

/-- **What is read is written.** -/
theorem written_read {m istate istate' : ℕ} {wc : ℤ} {sgml : SgmlChars}
    (h : udmMbWcUtf8With noFlags sgml istate s = .char m istate' wc) :
    1 ≤ m ∧ m ≤ s.length ∧ 0 ≤ wc ∧ wc ≤ 0x7FFFFFFF ∧
      ∀ room, m ≤ room → udmWcMbUtf8With noFlags wc room = .bytes (s.take m) := by
  cases s with
  | nil => cases h
  | cons c s =>
    have hbyte := c.toNat_lt
    by_cases hlow : c.toNat < 0x80
    · rw [udmMbWcUtf8With, if_pos (UInt8.lt_iff_toNat_lt.mpr hlow), if_neg (by simp [noFlags])] at h
      cases h
      refine ⟨le_rfl, by simp, by omega, by omega, fun room _ => ?_⟩
      rw [udmWcMbUtf8With_noFlags (by omega), if_pos hlow, UInt8.ofNat_toNat]
      rfl
    · by_cases hlead : 0xC2 ≤ c.toNat ∧ c.toNat < 0xFE
      · obtain ⟨k, mask, first, low, lowest, hclass, hlo, hhi⟩ := exists_class_of_byte hlead.1 hlead.2
        rw [udmMbWcUtf8With_class hclass hlo hhi hlead.1] at h
        obtain ⟨rfl, rfl, hk, n, rfl, hlowest, hbound, hbytes⟩ := utf8Bytes_of_mbWcTail hclass hlo hhi hlead.1 h
        have hpos : 0x80 ≤ n ∧ n < 0x80000000 := by
          cases hclass <;> omega
        refine ⟨by omega, by rw [List.length_cons]; omega, by omega, by omega, fun room hroom => ?_⟩
        rw [udmWcMbUtf8With_noFlags hpos.2, if_neg (by omega), utf8Count_class hclass hlowest hbound, if_neg (by omega),
          List.take_succ_cons, hbytes]
      · have hcmp : ∀ d : UInt8, c < d ↔ c.toNat < d.toNat := fun d => UInt8.lt_iff_toNat_lt
        simp only [udmMbWcUtf8With, hcmp, UInt8.reduceToNat] at h
        split_ifs at h <;> omega

/-- **The codec.** A character up to 31 bits is written when there is room for six bytes, and what is written for it is
read as it, with its length; what is read as a character is what is written for it; and the reader of a source that is
not empty stays in front of its end. -/
theorem utf8_codec (sgml : SgmlChars) (istate : ℕ) :
    (∀ wc : ℤ, 0 ≤ wc → wc ≤ 0x7FFFFFFF →
      (∀ room, 6 ≤ room → ∃ r, udmWcMbUtf8With noFlags wc room = .bytes r) ∧
      ∀ room r rest, udmWcMbUtf8With noFlags wc room = .bytes r →
        udmMbWcUtf8At noFlags sgml istate (r ++ rest) = some (.char r.length istate wc)) ∧
    (∀ s m istate' wc, udmMbWcUtf8At noFlags sgml istate s = some (.char m istate' wc) →
      1 ≤ m ∧ m ≤ s.length ∧ 0 ≤ wc ∧ wc ≤ 0x7FFFFFFF ∧
        ∀ room, m ≤ room → udmWcMbUtf8With noFlags wc room = .bytes (s.take m)) ∧
    ∀ s, s ≠ [] → udmMbWcUtf8At noFlags sgml istate s ≠ none := by
  refine ⟨fun wc hlo hhi => ?_, fun s m istate' wc h => ?_, fun s hs => ?_⟩
  · obtain ⟨n, rfl⟩ := Int.eq_ofNat_of_zero_le hlo
    have hn : n < 0x80000000 := by omega
    constructor
    · intro room hroom
      have hcount := utf8Count_le n
      rw [udmWcMbUtf8With_noFlags hn]
      split_ifs
      · exact ⟨_, rfl⟩
      · omega
      · exact ⟨_, rfl⟩
    · intro room r rest h
      obtain ⟨hne, hread⟩ := read_written hn h sgml istate rest
      rw [udmMbWcUtf8At_eq (by simp [hne]), hread]
  · cases s with
    | nil => cases h
    | cons c s =>
      rw [udmMbWcUtf8At_eq (List.cons_ne_nil c s)] at h
      exact written_read (Option.some.inj h)
  · rw [udmMbWcUtf8At_eq hs]
    exact Option.some_ne_none _

end MnoGoSearch.Uconv
