import MnoGoSearch.Highlight.Highlight
import MnoGoSearch.Template.Text
import MnoGoSearch.Url.Idempotent
import Mathlib

/-!
# Values of the query in UTF-8

How the value of a variable that came with the query becomes HTML: `UdmConvDup` converts it from UTF-8
to UTF-8 (`uconv.c`, `uconv-utf8.c`), and a character that is special in HTML is not converted but
written as a character reference. The NUL at the end of the value is converted as one more character.
-/

namespace MnoGoSearch.Template

open Highlight Url Words

/-! ### Characters -/

/-- `UdmSgmlToUni`: the names of characters. -/
structure SgmlChars where
  /-- The character, 0 if there is none. -/
  toUni : List UInt8 → ℕ
  /-- It is an `int`. -/
  toUni_lt : ∀ sgml, toUni sgml < 0x80000000

/-- The byte is one of those behind the first of a character. -/
def isTail (c : UInt8) : Bool := (c ^^^ 0x80) < 0x40

/-- A character with `k` bytes behind the first, of which the bits of `mask` count. The first of them is
not below `low` if the first byte is the least one, `first`. -/
def mbWcTail (k : ℕ) (mask first low : UInt8) (istate : ℕ) (c : UInt8) (s : List UInt8) : MbWc :=
  if s.length < k then .toofew
  else if (s.take k).all isTail ∧ (first < c ∨ low ≤ s.headD 0) then
    .char (k + 1) istate ((s.take k).foldl (fun n b => n * 64 + (b ^^^ 0x80).toNat) (c &&& mask).toNat : ℕ)
  else .ilseq k istate

/-- `udm_mb_wc_utf8`. -/
def udmMbWcUtf8 (sgml : SgmlChars) (istate : ℕ) : List UInt8 → MbWc
  | [] => .toofew
  | c :: s =>
    if c < 0x80 then
      if c = 0x26 then
        .char (udmSGMLScan (fun s => sgml.toUni s) (c :: s)).1 istate (udmSGMLScan (fun s => sgml.toUni s) (c :: s)).2
      else .char 1 istate c.toNat
    else if c < 0xC2 then .ilseq 1 istate
    else if c < 0xE0 then mbWcTail 1 0x1F 0xC1 0 istate c s
    else if c < 0xF0 then mbWcTail 2 0x0F 0xE0 0xA0 istate c s
    else if c < 0xF8 then mbWcTail 3 0x07 0xF0 0x90 istate c s
    else if c < 0xFC then mbWcTail 4 0x03 0xF8 0x88 istate c s
    else if c < 0xFE then mbWcTail 5 0x01 0xFC 0x84 istate c s
    else .ilseq 1 istate

/-- What is added to a character when its `k`-th byte behind the first has been taken off. -/
def utf8Mark : ℕ → ℕ
  | 1 => 0xC0
  | 2 => 0x800
  | 3 => 0x10000
  | 4 => 0x200000
  | _ => 0x4000000

/-- The bytes of a character, `k` of them behind the first. -/
def utf8Bytes : ℕ → ℕ → List UInt8
  | 0, wc => [UInt8.ofNat wc]
  | k + 1, wc => utf8Bytes k ((wc >>> 6) ||| utf8Mark (k + 1)) ++ [0x80 ||| UInt8.ofNat (wc &&& 0x3F)]

/-- How many bytes a character has behind the first. -/
def utf8Count (wc : ℤ) : ℕ :=
  if wc < 0x800 then 1 else if wc < 0x10000 then 2 else if wc < 0x200000 then 3 else if wc < 0x4000000 then 4 else 5

/-- The byte that an ASCII character, or a negative one, is written as. -/
def lowByte (wc : ℤ) : UInt8 := UInt8.ofNat (wc % 256).toNat

/-- `udm_wc_mb_utf8`. -/
def udmWcMbUtf8 (wc : ℤ) (room : ℕ) : WcMb :=
  if wc < 0x80 then if isSpecial (lowByte wc) then .iluni else .bytes [lowByte wc]
  else if 0x7FFFFFFF < wc then .iluni
  else if room < utf8Count wc + 1 then .toosmall
  else .bytes (utf8Bytes (utf8Count wc) wc.toNat)

/-- `sprintf(d, "&#%d;", wc)`. -/
def numRef (wc : ℤ) : List UInt8 := 0x26 :: 0x23 :: (decText wc ++ [0x3B])

/-- `UdmConv` with `UDM_RECODE_HTML`, at most `room` bytes; no more than `fuel` characters. -/
def udmConv (src dst : UdmCharset) : ℕ → ℕ → ℕ → List UInt8 → List UInt8
  | 0, _, _, _ => []
  | fuel + 1, istate, room, s =>
    if s = [] ∨ room = 0 then []
    else
      match src.mbWc istate s with
      | .toofew => []
      | .ilseq n istate' =>
        match dst.wcMb 0x3F room with
        | .bytes r => r ++ udmConv src dst fuel istate' (room - r.length) (s.drop n)
        | _ => []
      | .char n istate' wc =>
        match dst.wcMb wc room with
        | .bytes r => r ++ udmConv src dst fuel istate' (room - r.length) (s.drop n)
        | .iluni =>
          if 8 < room then numRef wc ++ udmConv src dst fuel istate' (room - (numRef wc).length) (s.drop n) else []
        | .toosmall => []

/-- UTF-8. -/
def utf8 (sgml : SgmlChars) : UdmCharset := ⟨udmMbWcUtf8 sgml, udmWcMbUtf8⟩

/-- `UdmConvDup`, from UTF-8 to UTF-8 with `UDM_RECODE_HTML`: a string, if there is a NUL in what was
written. -/
def udmConvDup (sgml : SgmlChars) (src : List UInt8) : Option (List UInt8) :=
  let dst := udmConv (utf8 sgml) (utf8 sgml) (src.length + 1) 0 (src.length * 12 + 1) (src ++ [0])
  if 0 ∈ dst then some (dst.takeWhile (· ≠ 0)) else none

/-- The value of a variable that is cut, if it fits in the memory for it: `maxlen + 8` bytes. -/
def newValue (value : List UInt8) (maxlen : ℕ) (neg : Bool) : Option (List UInt8) :=
  if maxlen < value.length ∧ 0 < maxlen ∧ maxlen + 8 ≤ (cutValue value maxlen neg).length then none
  else some (cutValue value maxlen neg)

/-! ### Reading -/

variable {P : UInt8 → Bool} {l text s : List UInt8} {c : UInt8} {q k base : ℕ} {V : Type*} {wc : ℤ}

theorem exists_getElem?_dropWhile (hc : P c = false)
    (h : l[q]? = some c) : ∃ q' ≤ q, (l.dropWhile P)[q']? = some c := by
  induction l generalizing q with
  | nil => simp at h
  | cons b l ih =>
    cases hb : P b with
    | false => exact ⟨q, le_rfl, by rwa [List.dropWhile_cons_of_neg (by simp [hb])]⟩
    | true =>
      rw [List.dropWhile_cons_of_pos hb]
      cases q with
      | zero =>
        rw [List.getElem?_cons_zero, Option.some.injEq] at h
        exact absurd hb (by simp [h, hc])
      | succ q =>
        obtain ⟨q', hle, hq'⟩ := ih h
        exact ⟨q', by omega, hq'⟩

theorem length_takeWhile_le (hc : P c = false) (h : l[q]? = some c) : (l.takeWhile P).length ≤ q := by
  induction l generalizing q with
  | nil => simp
  | cons b l ih =>
    cases hb : P b with
    | false => simp [hb]
    | true =>
      rw [List.takeWhile_cons_of_pos hb]
      cases q with
      | zero =>
        rw [List.getElem?_cons_zero, Option.some.injEq] at h
        exact absurd hb (by simp [h, hc])
      | succ q => exact Nat.succ_le_succ (ih h)

theorem foldl_digits_lt (base : ℕ) (ds : List UInt8) (hds : ∀ d ∈ ds, digitVal d < base) (n : ℕ) :
    ds.foldl (fun n d => n * base + digitVal d) n < (n + 1) * base ^ ds.length := by
  induction ds generalizing n with
  | nil => simp
  | cons d ds ih =>
    have hd := hds d (List.mem_cons_self ..)
    have hrest := ih (fun d hd => hds d (List.mem_cons_of_mem _ hd)) (n * base + digitVal d)
    rw [List.foldl_cons, List.length_cons, Nat.pow_succ, Nat.mul_comm (base ^ _), ← Nat.mul_assoc]
    refine hrest.trans_le (Nat.mul_le_mul_right _ ?_)
    rw [Nat.add_mul, Nat.one_mul]
    omega

theorem exists_getElem?_sign (h : s[q]? = some 0x3B) :
    ∃ q' ≤ q, (if s.head? = some 0x2D ∨ s.head? = some 0x2B then s.tail else s)[q']? = some 0x3B := by
  split_ifs with hsign
  · cases s with
    | nil => simp at h
    | cons b s =>
      cases q with
      | zero =>
        simp only [List.getElem?_cons_zero, Option.some.injEq] at h
        simp [h] at hsign
      | succ q => exact ⟨q, by omega, h⟩
  · exact ⟨q, le_rfl, h⟩

theorem exists_getElem?_hex (h : s[q]? = some 0x3B) (hhex : s.take 2 = [0x30, 0x78] ∨ s.take 2 = [0x30, 0x58]) :
    ∃ q' ≤ q, (s.drop 2)[q']? = some 0x3B := by
  match s, q, h with
  | a :: b :: s, 0, h => simp_all
  | a :: b :: s, 1, h => simp_all
  | a :: b :: s, q + 2, h => exact ⟨q, by omega, h⟩

theorem strtol_bound (hpos : 1 ≤ base) (hbase : base ≤ 36) (h : s[q]? = some 0x3B) :
    -(base : ℤ) ^ q < strtol base s ∧ strtol base s < (base : ℤ) ^ q := by
  obtain ⟨q1, hq1, h1⟩ := exists_getElem?_dropWhile (P := fun c => c == 0x20 || (0x09 ≤ c && c ≤ 0x0D)) (by decide) h
  obtain ⟨q2, hq2, h2⟩ := exists_getElem?_sign h1
  unfold strtol
  simp only
  generalize (s.dropWhile fun c => c == 0x20 || (0x09 ≤ c && c ≤ 0x0D)) = s1 at h1 h2 ⊢
  generalize (if s1.head? = some 0x2D ∨ s1.head? = some 0x2B then s1.tail else s1) = s2 at h2 ⊢
  have h3 : ∃ q3 ≤ q2, (if base = 16 ∧ (s2.take 2 = [0x30, 0x78] ∨ s2.take 2 = [0x30, 0x58]) ∧
      ((s2.drop 2).head?.any fun c => digitVal c < 16) then s2.drop 2 else s2)[q3]? = some 0x3B := by
    split_ifs with hhex
    · exact exists_getElem?_hex h2 hhex.2.1
    · exact ⟨q2, le_rfl, h2⟩
  generalize (if base = 16 ∧ (s2.take 2 = [0x30, 0x78] ∨ s2.take 2 = [0x30, 0x58]) ∧
      ((s2.drop 2).head?.any fun c => digitVal c < 16) then s2.drop 2 else s2) = s3 at h3 ⊢
  obtain ⟨q3, hq3, h3⟩ := h3
  have hlen := length_takeWhile_le (P := fun c => decide (digitVal c < base)) (by
    simp only [decide_eq_false_iff_not, Nat.not_lt]
    exact hbase) h3
  have hlt := foldl_digits_lt base (s3.takeWhile fun c => digitVal c < base)
    (fun d hd => by simpa using List.mem_takeWhile_imp hd) 0
  rw [Nat.zero_add, Nat.one_mul] at hlt
  have hpow := Nat.pow_le_pow_right hpos (hlen.trans (hq3.trans (hq2.trans hq1)))
  generalize (s3.takeWhile fun c => decide (digitVal c < base)).foldl (fun n d => n * base + digitVal d) 0 = n at hlt ⊢
  have hval : (n : ℤ) < (base : ℤ) ^ q := by exact_mod_cast hlt.trans_le hpow
  generalize (base : ℤ) ^ q = m at hval ⊢
  split_ifs <;> omega

theorem strtol_int (hpos : 1 ≤ base) (hbase : base ≤ 16) (hq : q ≤ 7) (h : s[q]? = some 0x3B) :
    -0x80000000 < strtol base s ∧ strtol base s < 0x80000000 := by
  obtain ⟨hlo, hhi⟩ := strtol_bound hpos (by omega) h
  have hle : base ^ q ≤ 16 ^ 7 := (Nat.pow_le_pow_left hbase q).trans (Nat.pow_le_pow_right (by omega) hq)
  have hcast : (base : ℤ) ^ q ≤ 16 ^ 7 := by exact_mod_cast hle
  generalize (base : ℤ) ^ q = m at hlo hhi hcast
  omega

/-- A character reference, or `&` itself, in a value with its NUL: it ends before the NUL, and is an
`int`. -/
theorem udmSGMLScan_spec (sgml : SgmlChars) (t : List UInt8) :
    let r := udmSGMLScan (fun s => sgml.toUni s) (0x26 :: t ++ [0])
    1 ≤ r.1 ∧ r.1 ≤ t.length + 1 ∧ (0 ≤ r.2 ∨ 3 ≤ r.1) ∧ -0x80000000 < r.2 ∧ r.2 < 0x80000000 := by
  generalize hstr : 0x26 :: t ++ [0] = str
  have hlen : str.length = t.length + 2 := by simp [← hstr]
  have hnul : str[t.length + 1]? = some 0 := by simp [← hstr]
  simp only [udmSGMLScan]
  cases hp : ((str.take 10).drop 2).findIdx? (· == 0x3B) with
  | none => simp
  | some p =>
    obtain ⟨hlt, hb, -⟩ := List.findIdx?_eq_some_iff_getElem.1 hp
    rw [List.length_drop, List.length_take] at hlt
    have hsemi : str[p + 2]? = some 0x3B := by
      rw [List.getElem_drop, List.getElem_take, beq_iff_eq] at hb
      rw [List.getElem?_eq_getElem (by omega), Option.some.injEq, ← hb]
      congr 1
      omega
    have hple : p + 2 ≤ t.length := by
      by_contra hgt
      rw [show p + 2 = t.length + 1 by omega, hnul] at hsemi
      exact absurd hsemi (by decide)
    simp only
    generalize hwc : (if ((str.drop 1).head?.any (· == 0x23)) = true then
      if ((str.drop 2).head?.any fun c => c == 0x78 || c == 0x58) = true then strtol 16 (str.drop 3)
      else strtol 10 (str.drop 2) else (sgml.toUni (str.drop 1) : ℤ)) = wc
    have hint : -0x80000000 < wc ∧ wc < 0x80000000 := by
      subst hwc
      split_ifs with hsharp hx
      · -- the semicolon is behind the `x`
        rcases Nat.eq_zero_or_pos p with rfl | hpos
        · rw [List.head?_drop, hsemi] at hx
          exact absurd hx (by decide)
        · refine strtol_int (q := p - 1) (by decide) le_rfl (by omega) ?_
          rw [List.getElem?_drop, show 3 + (p - 1) = p + 2 by omega, hsemi]
      · refine strtol_int (q := p) (by decide) (by decide) (by omega) ?_
        rw [List.getElem?_drop, Nat.add_comm, hsemi]
      · have := sgml.toUni_lt (str.drop 1)
        omega
    split_ifs with hne
    · exact ⟨by omega, by simp only; omega, .inr (by simp only; omega), hint⟩
    · exact ⟨le_rfl, by simp, .inl (by simp), by simp, by simp⟩

theorem foldl_tail_lt (s : List UInt8) (hs : ∀ b ∈ s, isTail b = true) (n : ℕ) :
    s.foldl (fun n b => n * 64 + (b ^^^ 0x80).toNat) n < (n + 1) * 64 ^ s.length := by
  induction s generalizing n with
  | nil => simp
  | cons b s ih =>
    have hb : (b ^^^ 0x80).toNat < 64 := by
      have := hs b (List.mem_cons_self ..)
      rw [isTail, decide_eq_true_eq, UInt8.lt_iff_toNat_lt] at this
      exact this
    have hrest := ih (fun b hb => hs b (List.mem_cons_of_mem _ hb)) (n * 64 + (b ^^^ 0x80).toNat)
    rw [List.foldl_cons, List.length_cons, Nat.pow_succ, Nat.mul_comm (64 ^ _), ← Nat.mul_assoc]
    refine hrest.trans_le (Nat.mul_le_mul_right _ ?_)
    omega

theorem isTail_zero : isTail 0 = false := rfl

/-- What is read of so many bytes in front of a NUL. There is no state. -/
def ReadsBefore (istate len : ℕ) : MbWc → Prop
  | .char n istate' wc => istate' = istate ∧ 1 ≤ n ∧ n ≤ len ∧ (0 ≤ wc ∨ 3 ≤ n) ∧ -0x80000000 < wc ∧ wc < 0x80000000
  | .ilseq n istate' => istate' = istate ∧ 1 ≤ n ∧ n ≤ len
  | .toofew => True

theorem readsBefore_mbWcTail (mask first low : UInt8) (istate : ℕ) (c : UInt8) (t : List UInt8)
    (hk : 1 ≤ k) (hmask : ((c &&& mask).toNat + 1) * 64 ^ k ≤ 0x80000000) :
    ReadsBefore istate (t.length + 1) (mbWcTail k mask first low istate c (t ++ [0])) := by
  unfold mbWcTail
  split_ifs with hfew htail
  · trivial
  · obtain ⟨hall, -⟩ := htail
    rw [List.length_append, List.length_singleton] at hfew
    -- the NUL is not one of the bytes behind the first
    have hkle : k ≤ t.length := by
      by_contra hgt
      have hnul : (0 : UInt8) ∈ (t ++ [0]).take k := by
        rw [List.take_of_length_le (by simp; omega)]
        simp
      have := List.all_eq_true.1 hall 0 hnul
      rw [isTail_zero] at this
      cases this
    have hlt := foldl_tail_lt ((t ++ [0]).take k) (List.all_eq_true.1 hall) (c &&& mask).toNat
    rw [List.length_take, Nat.min_eq_left (by simp; omega)] at hlt
    exact ⟨rfl, by omega, by omega, .inl (Int.natCast_nonneg _), by omega, by omega⟩
  · rw [List.length_append, List.length_singleton] at hfew
    exact ⟨rfl, hk, by omega⟩

theorem toNat_and_le (c mask : UInt8) : (c &&& mask).toNat ≤ mask.toNat := by
  rw [UInt8.toNat_and]
  exact Nat.and_le_right

/-- **A character** of a value with its NUL ends before the NUL, and is an `int`. -/
theorem udmMbWcUtf8_spec (sgml : SgmlChars) (istate : ℕ) (c : UInt8) (t : List UInt8) :
    ReadsBefore istate (t.length + 1) (udmMbWcUtf8 sgml istate (c :: t ++ [0])) := by
  have hmask (mask : UInt8) (k : ℕ) (h : (mask.toNat + 1) * 64 ^ k ≤ 0x80000000) :
      ((c &&& mask).toNat + 1) * 64 ^ k ≤ 0x80000000 :=
    (Nat.mul_le_mul_right _ (Nat.succ_le_succ (toNat_and_le c mask))).trans h
  simp only [List.cons_append, udmMbWcUtf8]
  split_ifs with h80 hamp
  · subst hamp
    exact ⟨rfl, udmSGMLScan_spec sgml t⟩
  · have := c.toNat_lt
    exact ⟨rfl, le_rfl, by omega, .inl (by omega), by omega, by omega⟩
  · exact ⟨rfl, le_rfl, by omega⟩
  · exact readsBefore_mbWcTail _ _ _ _ _ _ (by decide) (hmask _ _ (by decide))
  · exact readsBefore_mbWcTail _ _ _ _ _ _ (by decide) (hmask _ _ (by decide))
  · exact readsBefore_mbWcTail _ _ _ _ _ _ (by decide) (hmask _ _ (by decide))
  · exact readsBefore_mbWcTail _ _ _ _ _ _ (by decide) (hmask _ _ (by decide))
  · exact readsBefore_mbWcTail _ _ _ _ _ _ (by decide) (hmask _ _ (by decide))
  · exact ⟨rfl, le_rfl, by omega⟩

/-- The characters of a value with its NUL, as they are read; the last one is not if it is cut off. -/
def readChars (sgml : SgmlChars) : ℕ → List UInt8 → List ℤ
  | 0, _ => []
  | fuel + 1, s =>
    if s = [] then []
    else
      match udmMbWcUtf8 sgml 0 s with
      | .toofew => []
      | .ilseq n _ => 0x3F :: readChars sgml fuel (s.drop n)
      | .char n _ wc => wc :: readChars sgml fuel (s.drop n)

/-- The characters of a value, with its NUL. -/
def valueChars (sgml : SgmlChars) (value : List UInt8) : List ℤ := readChars sgml (value.length + 1) (value ++ [0])

/-! ### Writing -/

/-- What a character is written as. -/
def written (wc : ℤ) : List UInt8 :=
  if wc < 0x80 then if isSpecial (lowByte wc) then numRef wc else [lowByte wc]
  else utf8Bytes (utf8Count wc) wc.toNat

theorem length_utf8Bytes (k wc : ℕ) : (utf8Bytes k wc).length = k + 1 := by
  induction k generalizing wc with
  | zero => rfl
  | succ k ih => simp [utf8Bytes, ih]

theorem utf8Count_le (wc : ℤ) : utf8Count wc ≤ 5 := by
  unfold utf8Count
  split_ifs <;> decide

theorem length_written_le {n : ℕ} (hn : 1 ≤ n) (hneg : 0 ≤ wc ∨ 3 ≤ n) (hint : -0x80000000 < wc) :
    (written wc).length ≤ 12 * n := by
  unfold written
  split_ifs with hlow hspecial
  · cases wc with
    | ofNat m =>
      have hm : m < 10 ^ (2 + 1) := by
        have : m < 128 := Int.ofNat_lt.1 hlow
        omega
      have : (natDigits (m + 1) m).length ≤ 2 + 1 := length_natDigits_le hm
      simp only [numRef, decText, List.length_cons, List.length_append, List.length_nil]
      omega
    | negSucc m =>
      have hm : m + 1 < 10 ^ (9 + 1) := lt_of_lt_of_le (b := 0x80000000) (by omega) (by decide)
      have : (natDigits (m + 2) (m + 1)).length ≤ 9 + 1 := length_natDigits_le hm
      simp only [numRef, decText, List.length_cons, List.length_append, List.length_nil]
      omega
  · simp
    omega
  · rw [length_utf8Bytes]
    have := utf8Count_le wc
    omega

theorem wcMb_eq (hint : wc < 0x80000000) (room : ℕ) (hroom : 8 < room) :
    (udmWcMbUtf8 wc room = .iluni ∧ written wc = numRef wc) ∨ udmWcMbUtf8 wc room = .bytes (written wc) := by
  unfold udmWcMbUtf8 written
  have := utf8Count_le wc
  split_ifs
  · exact .inl ⟨rfl, rfl⟩
  · exact .inr rfl
  · omega
  · omega
  · exact .inr rfl

/-- **The conversion** of a value writes its characters one after another: there is room for all. -/
theorem udmConv_eq (sgml : SgmlChars) (fuel room : ℕ) (t : List UInt8) (hfuel : t.length < fuel)
    (hroom : t.length * 12 < room) :
    udmConv (utf8 sgml) (utf8 sgml) fuel 0 room (t ++ [0]) = (readChars sgml fuel (t ++ [0])).flatMap written := by
  induction fuel generalizing room t with
  | zero => omega
  | succ fuel ih =>
    rw [udmConv, readChars, if_neg (by simp; omega), if_neg (by simp)]
    cases t with
    | nil =>
      have hroom' : 0 < room := by simpa using hroom
      have hnil (f r : ℕ) : udmConv (utf8 sgml) (utf8 sgml) f 0 r [] = [] := by cases f <;> simp [udmConv]
      have hnil' (f : ℕ) : readChars sgml f [] = [] := by cases f <;> simp [readChars]
      change [0] ++ udmConv (utf8 sgml) (utf8 sgml) fuel 0 (room - 1) [] = (0 :: readChars sgml fuel []).flatMap written
      rw [hnil, hnil']
      rfl
    | cons c t =>
      have hspec := udmMbWcUtf8_spec sgml 0 c t
      rw [List.length_cons] at hfuel hroom
      -- the rest of the value, for which there is room behind what is written
      have hrest {n : ℕ} {r : List UInt8} (hpos : 1 ≤ n) (hle : n ≤ t.length + 1) (hlen : r.length ≤ 12 * n) :
          udmConv (utf8 sgml) (utf8 sgml) fuel 0 (room - r.length) ((c :: t ++ [0]).drop n) =
            (readChars sgml fuel ((c :: t ++ [0]).drop n)).flatMap written := by
        have hdrop : (c :: t ++ [0]).drop n = (c :: t).drop n ++ [0] :=
          List.drop_append_of_le_length (by simpa using hle)
        rw [hdrop]
        exact ih _ _ (by simp; omega) (by simp; omega)
      simp only [utf8]
      cases hread : udmMbWcUtf8 sgml 0 (c :: t ++ [0]) with
      | toofew => rfl
      | ilseq n istate' =>
        rw [hread] at hspec
        obtain ⟨rfl, hpos, hle⟩ := hspec
        rw [List.flatMap_cons, ← hrest (r := [0x3F]) hpos hle (by simp; omega)]
        rfl
      | char n istate' wc =>
        rw [hread] at hspec
        obtain ⟨rfl, hpos, hle, hneg, hlo, hhi⟩ := hspec
        have hlen := length_written_le hpos hneg hlo
        rw [List.flatMap_cons, ← hrest hpos hle hlen]
        rcases wcMb_eq hhi room (by omega) with ⟨hmb, hwritten⟩ | hmb
        · simp only [hmb, hwritten]
          rw [if_pos (by omega)]
          rfl
        · simp only [hmb]
          rfl

/-! ### What is printed -/

/-- A character that is written as a NUL. -/
def isNul (wc : ℤ) : Bool := wc < 0x80 && lowByte wc == 0

/-- A number and a semicolon: a numeric character reference behind its `&`. -/
def IsNumRef (s : List UInt8) : Prop :=
  ∃ ds rest, ds ≠ [] ∧ ((s = 0x23 :: ds ++ 0x3B :: rest ∧ ∀ d ∈ ds, isdigit d = true) ∨
    ∃ x, (x = 0x78 ∨ x = 0x58) ∧ s = 0x23 :: x :: ds ++ 0x3B :: rest ∧ ∀ d ∈ ds, digitVal d < 16)

/-- A text without markup. -/
structure Escaped (text : List UInt8) : Prop where
  /-- No tag begins or ends in it, and no attribute. -/
  no_markup : ∀ c ∈ text, c ≠ 0x3C ∧ c ≠ 0x3E ∧ c ≠ 0x22
  /-- Every `&` begins a numeric character reference. -/
  refs : ∀ pre post, text = pre ++ 0x26 :: post → IsNumRef post

theorem escaped_nil : Escaped [] := ⟨nofun, fun pre post h => by simp at h⟩

theorem isSpecial_of_isdigit (h : isdigit c = true) : isSpecial c = false :=
  @forall_byte (fun c => isdigit c = true → isSpecial c = false) (by decide +kernel) c h

theorem Escaped.append_plain {r : List UInt8} (hr : ∀ b ∈ r, isSpecial b = false) (h : Escaped text) :
    Escaped (r ++ text) := by
  induction r with
  | nil => exact h
  | cons b r ih =>
    have hb : isSpecial b = false := hr b (List.mem_cons_self ..)
    simp only [isSpecial, Bool.or_eq_false_iff, beq_eq_false_iff_ne] at hb
    have hrest := ih fun b hb => hr b (List.mem_cons_of_mem _ hb)
    constructor
    · intro c hc
      rcases List.mem_cons.1 hc with rfl | hc
      · exact ⟨hb.1.2, hb.2, hb.1.1.1⟩
      · exact hrest.no_markup c hc
    · intro pre post heq
      cases pre with
      | nil => exact absurd (List.cons.inj heq).1 hb.1.1.2
      | cons c pre => exact hrest.refs pre post (List.cons.inj heq).2

theorem Escaped.append_ref {ds : List UInt8} (hne : ds ≠ []) (hds : ∀ d ∈ ds, isdigit d = true) (h : Escaped text) :
    Escaped (0x26 :: 0x23 :: ds ++ 0x3B :: text) := by
  have hplain : ∀ b ∈ (0x23 : UInt8) :: ds ++ [0x3B], isSpecial b = false := by
    intro b hb
    rw [List.cons_append, List.mem_cons, List.mem_append, List.mem_singleton] at hb
    rcases hb with rfl | hb | rfl
    · rfl
    · exact isSpecial_of_isdigit (hds b hb)
    · rfl
  have hrest := h.append_plain hplain
  rw [List.append_assoc, List.singleton_append] at hrest
  constructor
  · intro c hc
    rcases List.mem_cons.1 hc with rfl | hc
    · decide
    · exact hrest.no_markup c hc
  · intro pre post heq
    cases pre with
    | nil =>
      obtain ⟨-, rfl⟩ := List.cons.inj heq
      exact ⟨ds, text, hne, .inl ⟨rfl, hds⟩⟩
    | cons c pre => exact hrest.refs pre post (List.cons.inj heq).2

theorem Escaped.append_numRef (hwc : 0 ≤ wc) (h : Escaped text) : Escaped (numRef wc ++ text) := by
  obtain ⟨n, rfl⟩ := Int.eq_ofNat_of_zero_le hwc
  have href := h.append_ref (natDigits_ne_nil (Nat.lt_succ_self n)) isdigit_natDigits
  simpa [numRef, decText] using href

/-- **The reference of a negative character** is none. -/
theorem not_escaped_numRef (hwc : wc < 0) (pre text : List UInt8) : ¬Escaped (pre ++ (numRef wc ++ text)) := by
  intro h
  cases wc with
  | ofNat n => exact absurd hwc (Int.not_lt.2 (Int.natCast_nonneg n))
  | negSucc n =>
    obtain ⟨ds, rest, hne, hds⟩ := h.refs pre _ (by rw [numRef, List.cons_append])
    -- the minus sign is behind the `#`
    rw [decText, List.cons_append, List.cons_append] at hds
    rcases hds with ⟨heq, hds⟩ | ⟨x, hx, heq, -⟩
    · cases ds with
      | nil => exact hne rfl
      | cons d ds =>
        have hd := (List.cons.inj (List.cons.inj heq).2).1
        have := hds d (List.mem_cons_self ..)
        rw [← hd] at this
        exact absurd this (by decide)
    · have hminus := (List.cons.inj (List.cons.inj heq).2).1
      rcases hx with rfl | rfl <;> exact absurd hminus (by decide)

theorem isSpecial_of_le (h : 0x80 ≤ c) : isSpecial c = false :=
  @forall_byte (fun c => 0x80 ≤ c → isSpecial c = false) (by decide +kernel) c h

theorem le_mark_or (n : ℕ) : (0x80 : UInt8) ≤ 0x80 ||| UInt8.ofNat n :=
  @forall_byte (fun c => 0x80 ≤ 0x80 ||| c) (by decide +kernel) _

theorem le_or_mark (n : ℕ) : (0x80 : UInt8) ≤ UInt8.ofNat (n ||| 0xC0) := by
  have hofNat : UInt8.ofNat (n ||| 0xC0) = UInt8.ofNat n ||| 0xC0 := UInt8.ofNat_or ..
  rw [hofNat]
  exact @forall_byte (fun c => 0x80 ≤ c ||| 0xC0) (by decide +kernel) _

theorem le_of_mem_utf8Bytes (wc : ℕ) : ∀ b ∈ utf8Bytes (k + 1) wc, 0x80 ≤ b := by
  induction k generalizing wc with
  | zero =>
    intro b hb
    rw [utf8Bytes, utf8Bytes, List.singleton_append, List.mem_cons, List.mem_singleton] at hb
    rcases hb with rfl | rfl
    · exact le_or_mark _
    · exact le_mark_or _
  | succ k ih =>
    intro b hb
    rw [utf8Bytes, List.mem_append, List.mem_singleton] at hb
    rcases hb with hb | rfl
    · exact ih _ b hb
    · exact le_mark_or _

theorem exists_utf8Count (wc : ℤ) : ∃ k, utf8Count wc = k + 1 := by
  unfold utf8Count
  split_ifs <;> exact ⟨_, rfl⟩

theorem written_cases (wc : ℤ) :
    (isSpecial (lowByte wc) = true ∧ written wc = numRef wc ∧ wc < 0x80) ∨
      ((wc < 0x80 → isSpecial (lowByte wc) = false) ∧ (∀ b ∈ written wc, isSpecial b = false) ∧
        (0 ∈ written wc → isNul wc = true)) := by
  unfold written isNul
  split_ifs with hlow hspecial
  · exact .inl ⟨hspecial, rfl, hlow⟩
  · refine .inr ⟨fun _ => by simpa using hspecial, fun b hb => ?_, fun h0 => ?_⟩
    · rw [List.mem_singleton.1 hb]
      simpa using hspecial
    · simp [hlow, ← List.mem_singleton.1 h0]
  · obtain ⟨k, hk⟩ := exists_utf8Count wc
    rw [hk]
    refine .inr ⟨fun h => absurd h hlow, fun b hb => isSpecial_of_le (le_of_mem_utf8Bytes _ b hb), fun h0 => ?_⟩
    exact absurd (le_of_mem_utf8Bytes _ 0 h0) (by decide)

theorem zero_notMem_numRef (wc : ℤ) : 0 ∉ numRef wc := by
  simp [numRef, not_mem_decText (p := wc) (c := 0) rfl (by decide)]

theorem written_of_isNul (h : isNul wc = true) : written wc = [0] := by
  simp only [isNul, Bool.and_eq_true, decide_eq_true_eq, beq_iff_eq] at h
  rw [written, if_pos h.1, h.2]
  rfl

theorem zero_notMem_written (h : isNul wc = false) : 0 ∉ written wc := by
  rcases written_cases wc with ⟨-, href, -⟩ | ⟨-, -, hzero⟩
  · rw [href]
    exact zero_notMem_numRef wc
  · intro h0
    rw [hzero h0] at h
    cases h

/-- **The string** that is written: the characters in front of the first that is written as a NUL. -/
theorem takeWhile_flatMap_written (cs : List ℤ) :
    (cs.flatMap written).takeWhile (· ≠ 0) = (cs.takeWhile fun c => !isNul c).flatMap written := by
  induction cs with
  | nil => rfl
  | cons c cs ih =>
    rw [List.flatMap_cons]
    cases hc : isNul c with
    | true => simp [written_of_isNul hc, hc]
    | false =>
      have hne : ∀ b ∈ written c, decide (b ≠ 0) = true := fun b hb => by
        simpa using fun h0 : b = 0 => zero_notMem_written hc (h0 ▸ hb)
      rw [List.takeWhile_append_of_pos hne, ih, List.takeWhile_cons_of_pos (by simp [hc]), List.flatMap_cons]

theorem zero_mem_flatMap_written (cs : List ℤ) : 0 ∈ cs.flatMap written ↔ ∃ c ∈ cs, isNul c = true := by
  rw [List.mem_flatMap]
  refine ⟨fun ⟨c, hc, h0⟩ => ⟨c, hc, ?_⟩, fun ⟨c, hc, hnul⟩ => ⟨c, hc, by simp [written_of_isNul hnul]⟩⟩
  by_contra hnul
  exact zero_notMem_written (Bool.eq_false_of_not_eq_true hnul) h0

/-- A character is special where it stands for a character reference. -/
def isMarkup (wc : ℤ) : Bool := wc < 0x80 && isSpecial (lowByte wc)

theorem written_of_isMarkup (h : isMarkup wc = true) : written wc = numRef wc := by
  rw [isMarkup, Bool.and_eq_true, decide_eq_true_eq] at h
  rw [written, if_pos h.1, if_pos h.2]

/-- **What is written** has no markup if and only if no special character is negative. -/
theorem escaped_flatMap_written (cs : List ℤ) : Escaped (cs.flatMap written) ↔ ∀ c ∈ cs, isMarkup c = true → 0 ≤ c := by
  constructor
  · intro h c hc hmark
    by_contra hneg
    obtain ⟨pre, post, rfl⟩ := List.append_of_mem hc
    rw [List.flatMap_append, List.flatMap_cons, written_of_isMarkup hmark] at h
    exact not_escaped_numRef (by omega) _ _ h
  · intro h
    induction cs with
    | nil => exact escaped_nil
    | cons c cs ih =>
      have hrest := ih fun c hc => h c (List.mem_cons_of_mem _ hc)
      rw [List.flatMap_cons]
      rcases written_cases c with ⟨hspecial, href, hlow⟩ | ⟨-, hplain, -⟩
      · rw [href]
        refine hrest.append_numRef (h c (List.mem_cons_self ..) ?_)
        simp [isMarkup, hspecial, hlow]
      · exact hrest.append_plain hplain

/-! ### A cut value -/

theorem alnumBegin_le (str : List UInt8) (b : ℕ) : alnumBegin str b ≤ b := by
  induction b with
  | zero => exact le_rfl
  | succ b ih =>
    rw [alnumBegin]
    split_ifs
    · exact ih.trans (Nat.le_succ b)
    · exact le_rfl

theorem udmHtmlStrLeft_le (str : List UInt8) (pos : ℕ) : udmHtmlStrLeft str pos ≤ pos := by
  unfold udmHtmlStrLeft
  by_cases hlen : str.length < pos
  · rw [if_pos hlen]
    exact hlen.le
  · rw [if_neg hlen]
    simp only
    have hle := alnumBegin_le str (if 0 < pos ∧ charAt str pos = 0x3B then pos - 1 else pos)
    have hfirst : (if 0 < pos ∧ charAt str pos = 0x3B then pos - 1 else pos) ≤ pos := by
      split_ifs
      · exact Nat.sub_le pos 1
      · exact le_rfl
    generalize alnumBegin str (if 0 < pos ∧ charAt str pos = 0x3B then pos - 1 else pos) = b at hle
    split
    · exact le_rfl
    · rename_i beg hbeg
      have hbegin : beg ≤ b := by
        split_ifs at hbeg
        · exact (Option.some.inj hbeg).ge
        · have := Option.some.inj hbeg
          omega
      split_ifs
      · exact hbegin.trans (hle.trans hfirst)
      · exact le_rfl
      · exact hbegin.trans (hle.trans hfirst)
      · exact le_rfl

theorem length_leftValue_lt (value : List UInt8) (maxlen : ℕ) : (leftValue value maxlen).length < maxlen + 8 := by
  have hle := udmHtmlStrLeft_le value maxlen
  have hdots : (bytes "...").length = 3 := rfl
  unfold leftValue
  simp only
  split_ifs <;> simp only [List.length_append, List.length_cons, List.length_take, hdots] <;> omega

theorem newValue_eq_some_iff {value : List UInt8} {maxlen : ℕ} {neg : Bool} {v : List UInt8} :
    newValue value maxlen neg = some v ↔ v = cutValue value maxlen neg ∧
      (neg = true → maxlen < value.length → 0 < maxlen → (rightValue value maxlen).length < maxlen + 8) := by
  have hleft := length_leftValue_lt value maxlen
  unfold newValue
  by_cases hcut : maxlen < value.length ∧ 0 < maxlen
  · cases neg with
    | false =>
      have hfits : ¬maxlen + 8 ≤ (cutValue value maxlen false).length := by
        rw [cutValue, if_pos hcut]
        exact Nat.not_le.2 hleft
      simp [hfits, eq_comm]
    | true =>
      have hval : cutValue value maxlen true = rightValue value maxlen := by
        rw [cutValue, if_pos hcut]
        rfl
      by_cases hfits : (rightValue value maxlen).length < maxlen + 8
      · simp [hval, hfits, Nat.not_le.2 hfits, eq_comm]
      · simp [hval, hfits, hcut, Nat.not_lt.1 hfits]
  · have hno : ¬(maxlen < value.length ∧ 0 < maxlen ∧ maxlen + 8 ≤ (cutValue value maxlen neg).length) :=
      fun h => hcut ⟨h.1, h.2.1⟩
    rw [if_neg hno]
    have himp : neg = true → maxlen < value.length → 0 < maxlen → (rightValue value maxlen).length < maxlen + 8 :=
      fun _ hlt hpos => absurd ⟨hlt, hpos⟩ hcut
    exact ⟨fun h => ⟨(Option.some.inj h).symm, himp⟩, fun h => congrArg some h.1.symm⟩

/-! ### Values of the query -/

/-- **The copy** of a value is a string if one of its characters is written as a NUL. -/
theorem udmConvDup_eq (sgml : SgmlChars) (value : List UInt8) :
    udmConvDup sgml value =
      if ∃ c ∈ valueChars sgml value, isNul c = true then
        some (((valueChars sgml value).takeWhile fun c => !isNul c).flatMap written)
      else none := by
  unfold udmConvDup
  simp only
  rw [udmConv_eq sgml _ _ value (Nat.lt_succ_self _) (Nat.lt_succ_self _)]
  change (if 0 ∈ (valueChars sgml value).flatMap written then
    some (((valueChars sgml value).flatMap written).takeWhile (· ≠ 0)) else none) = _
  rw [takeWhile_flatMap_written]
  simp only [zero_mem_flatMap_written]

/-- What texts are printed with for a browser with UTF-8. -/
def Agent.utf8 (A : Agent V) (sgml : SgmlChars) : Agent V :=
  { A with convDup := fun s => (udmConvDup sgml s).getD [] }

/-- The value of a variable never becomes markup: in its memory, it is copied to a string without
markup, and that is printed, with the texts for the marks. -/
def NeverMarkup (A : Agent V) (sgml : SgmlChars) (vars : V) (var : TmplVar) (ref : VarRef) : Prop :=
  ∃ value text, newValue (var.val.getD []) ref.maxlen ref.neg = some value ∧ udmConvDup sgml value = some text ∧
    Escaped text ∧ printRef (A.utf8 sgml) true vars ref = hiLightDup text A.hlBeg A.hlEnd

/-- A value that is printed as it should be. -/
structure Harmless (sgml : SgmlChars) (value : List UInt8) (maxlen : ℕ) (neg : Bool) : Prop where
  /-- The last bytes of the value, if they are asked for, are not much more than asked for: no long
  character reference is at their beginning. -/
  fits : neg = true → maxlen < value.length → 0 < maxlen → (rightValue value maxlen).length < maxlen + 8
  /-- The NUL, or a reference to some NUL, is read: the value does not end within a character. -/
  ends : ∃ c ∈ valueChars sgml (cutValue value maxlen neg), isNul c = true
  /-- No character reference has a negative number that is special as a byte. -/
  nonneg : ∀ c ∈ (valueChars sgml (cutValue value maxlen neg)).takeWhile fun c => !isNul c,
    isMarkup c = true → 0 ≤ c

theorem printRef_utf8 (A : Agent V) (sgml : SgmlChars) {vars : V} {var : TmplVar} {ref : VarRef}
    (hfind : A.varListFind vars ref.name = some var) (hsec : var.sec = 1 ∨ var.sec = 2) (htype : ref.type = .plain) :
    printRef (A.utf8 sgml) true vars ref =
      hiLightDup ((udmConvDup sgml (cutValue (var.val.getD []) ref.maxlen ref.neg)).getD []) A.hlBeg A.hlEnd := by
  have hesc : escapedType true ref.type var = .html := if_pos ⟨htype, rfl, hsec⟩
  unfold printRef Agent.utf8
  simp only [hfind, hesc]
  rfl

/-- **Query text never becomes markup** if and only if it is harmless. -/
theorem neverMarkup_iff (A : Agent V) (sgml : SgmlChars) {vars : V} {var : TmplVar} {ref : VarRef}
    (hfind : A.varListFind vars ref.name = some var) (hsec : var.sec = 1 ∨ var.sec = 2) (htype : ref.type = .plain) :
    NeverMarkup A sgml vars var ref ↔ Harmless sgml (var.val.getD []) ref.maxlen ref.neg := by
  have hprint := printRef_utf8 A sgml hfind hsec htype
  constructor
  · rintro ⟨value, text, hvalue, hdup, hesc, -⟩
    obtain ⟨rfl, hfits⟩ := newValue_eq_some_iff.1 hvalue
    rw [udmConvDup_eq] at hdup
    split_ifs at hdup with hends
    obtain rfl := Option.some.inj hdup
    exact ⟨hfits, hends, (escaped_flatMap_written _).1 hesc⟩
  · rintro ⟨hfits, hends, hnonneg⟩
    have hdup := udmConvDup_eq sgml (cutValue (var.val.getD []) ref.maxlen ref.neg)
    rw [if_pos hends] at hdup
    refine ⟨_, _, newValue_eq_some_iff.2 ⟨rfl, hfits⟩, hdup, (escaped_flatMap_written _).2 hnonneg, ?_⟩
    rw [hprint, hdup]
    rfl

/-- No character has a name. -/
def noNames : SgmlChars := ⟨fun _ => 0, fun _ => by decide⟩

/-- A page with one variable, the query. -/
def queryAgent : Agent (List UInt8) where
  varListFind q _ := some ⟨1, some q⟩
  doccount _ := 1
  countDocs q := q
  convDup s := s
  hlBeg := bytes "<b>"
  hlEnd := bytes "</b>"

/-- `<"&` in the query is printed as three references. -/
theorem neverMarkup_lt_quot_amp :
    NeverMarkup queryAgent noNames [0x3C, 0x22, 0x26] ⟨1, some [0x3C, 0x22, 0x26]⟩ ⟨.plain, [0x71], 0, false⟩ :=
  (neverMarkup_iff queryAgent noNames rfl (.inl rfl) rfl).2 ⟨nofun, ⟨0, by decide, rfl⟩, by decide⟩

/-- A query of one byte that a character of three bytes begins with: its copy has no end. -/
theorem not_neverMarkup : ¬NeverMarkup queryAgent noNames [0xE0] ⟨1, some [0xE0]⟩ ⟨.plain, [0x71], 0, false⟩ := by
  rintro ⟨value, text, hvalue, hdup, -⟩
  obtain rfl := Option.some.inj hvalue
  have hnone : udmConvDup noNames [0xE0] = none := rfl
  exact absurd (hnone.symm.trans hdup) nofun

end MnoGoSearch.Template
