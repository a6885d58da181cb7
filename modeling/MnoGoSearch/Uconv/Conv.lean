import MnoGoSearch.Uconv.Utf8
import Mathlib.Logic.Relation

/-!
# Conversion from UTF-8

`UdmConv` (`uconv.c`) reads one character after another and has the target character set write it at
`d`. A character that the set does not have becomes `?` or, with a flag, a character reference. Each
writer has its own look at the end of the buffer. `withinLimit_iff` says when nothing is written behind
it: in no turn of the loop the reference, with the zero of `sprintf`, or the bytes of one of the two
Japanese sets that look at too little are longer than the room that is left.
-/

namespace MnoGoSearch.Uconv

open Highlight Template Url

/-! ## Character sets -/

/-- What `wc_mb` returns. -/
inductive PutRet where
  | done (n : ℕ)
  /-- `UDM_CHARSET_ILUNI`. -/
  | iluni
  /-- `UDM_CHARSET_TOOSMALL`. -/
  | toosmall
  deriving DecidableEq

/-- What `wc_mb` does. -/
structure Put where
  /-- The bytes that it writes, the first one at `d`. -/
  bytes : List UInt8
  ret : PutRet
  /-- `conv->ostate` behind it. -/
  ostate : ℕ
  deriving DecidableEq

/-- `UDM_UNI_IDX`. -/
structure UniIdx where
  first : ℕ
  last : ℕ
  tab : List UInt8

/-- The character sets of `uconv-alias.c` that do not have all characters, with their tables. -/
inductive Charset where
  | ascii
  | latin1
  /-- A set of bytes, with `tab_from_uni`. -/
  | eightBit (tab : List UniIdx)
  /-- Big5, GBK, Shift-JIS and EUC-KR, and GB2312 with its mark; 0 stands for a character that is not in the table. -/
  | twoBytes (code : ℤ → ℕ) (mark : ℕ)
  /-- EUC-JP, with the tables of JIS X 0208 and JIS X 0212. -/
  | eucJp (jisx0208 jisx0212 : ℤ → ℕ)
  /-- ISO-2022-JP, with the table of JIS X 0208. -/
  | iso2022jp (jisx0208 : ℤ → ℕ)
  /-- Gujarati: a byte, or two. -/
  | gujarati (code : ℤ → Option (UInt8 × Option UInt8))
  | tscii (code : ℤ → Option UInt8)

section Writers

variable (flags : RecodeFlags) (ostate : ℕ) (wc : ℤ) (room : ℕ)

/-- A character is written as one byte, which is taken back where it is special in HTML. -/
def putByte (b : UInt8) : Put := ⟨[b], if flags.special = true ∧ isSpecial b = true then .iluni else .done 1, ostate⟩

/-- `udm_wc_mb_ascii`. -/
def udmWcMbAscii : Put := if 0x7F < wc then ⟨[], .iluni, ostate⟩ else putByte flags ostate (lowByte wc)

/-- `udm_wc_mb_latin1`. -/
def udmWcMbLatin1Put : Put := if 0xFF < wc then ⟨[], .iluni, ostate⟩ else putByte flags ostate (lowByte wc)

/-- `udm_wc_mb_8bit`. -/
def udmWcMb8bit (tab : List UniIdx) : Put :=
  match tab.find? fun idx => decide ((idx.first : ℤ) ≤ wc ∧ wc ≤ idx.last) with
  | none => ⟨[], .iluni, ostate⟩
  | some idx =>
    let b := idx.tab.getD (wc - idx.first).toNat 0
    if flags.special = true ∧ isSpecial b = true then ⟨[b], .iluni, ostate⟩
    else ⟨[b], if b = 0 ∧ wc ≠ 0 then .iluni else .done 1, ostate⟩

/-- The two bytes of a code, or the three with a byte in front. -/
def codeBytes (front : List UInt8) (code : ℕ) : List UInt8 := front ++ [UInt8.ofNat (code >>> 8), UInt8.ofNat (code &&& 0xFF)]

/-- `udm_wc_mb_big5`, `udm_wc_mb_gbk`, `udm_wc_mb_sjis`, `udm_wc_mb_euc_kr`, `udm_wc_mb_gb2312`. -/
def udmWcMbTwoBytes (code : ℤ → ℕ) (mark : ℕ) : Put :=
  if wc < 0x80 then putByte flags ostate (lowByte wc)
  else if code wc = 0 then ⟨[], .iluni, ostate⟩
  else if room < 2 then ⟨[], .toosmall, ostate⟩
  else ⟨codeBytes [] (code wc ||| mark), .done 2, ostate⟩

/-- `udm_wc_mb_jisx0201`, where it returns 1. -/
def udmWcMbJisx0201 : Option UInt8 :=
  if wc ≤ 0x7D then if wc = 0x5C then none else some (lowByte wc)
  else if 0xFF61 ≤ wc ∧ wc ≤ 0xFF9F then some (lowByte (wc - 0xFEC0))
  else if wc = 0x00A5 then some 0x5C
  else if wc = 0x203E then some 0x7E
  else none

/-- `udm_wc_mb_euc_jp`. In the branches of JIS X 0201 and of JIS X 0212 one byte more is written than was asked for. -/
def udmWcMbEucJp (jisx0208 jisx0212 : ℤ → ℕ) : Put :=
  if wc < 0x80 then putByte flags ostate (lowByte wc)
  else if jisx0208 wc ≠ 0 then
    if room < 2 then ⟨[], .toosmall, ostate⟩ else ⟨codeBytes [] (jisx0208 wc + 0x8080), .done 2, ostate⟩
  else
    match udmWcMbJisx0201 wc with
    | some b => if room < 1 then ⟨[], .toosmall, ostate⟩ else ⟨[0x8E, b], .done 1, ostate⟩
    | none =>
      if jisx0212 wc ≠ 0 then
        if room < 2 then ⟨[], .toosmall, ostate⟩ else ⟨codeBytes [0x8F] (jisx0212 wc + 0x8080), .done 3, ostate⟩
      else if 0xE000 ≤ wc ∧ wc < 0xE3AC then
        if room < 2 then ⟨[], .toosmall, ostate⟩
        else ⟨[lowByte ((wc - 0xE000) / 94 + 0xF5), lowByte ((wc - 0xE000) % 94 + 0xA1)], .done 2, ostate⟩
      else if 0xE3AC ≤ wc ∧ wc < 0xE758 then
        if room < 3 then ⟨[], .toosmall, ostate⟩
        else ⟨[0x8F, lowByte ((wc - 0xE3AC) / 94 + 0xF5), lowByte ((wc - 0xE3AC) % 94 + 0xA1)], .done 3, ostate⟩
      else ⟨[], .iluni, ostate⟩

/-- `sprintf(…, "&#%02d;", wc)`, with its zero, of a special character. -/
def specialRef : List UInt8 := numRef wc ++ [0]

/-- The escape sequence to another state, unless it is the state already. -/
def escape (state state' : ℕ) (seq : List UInt8) : List UInt8 := if state ≠ state' then seq else []

/-- `udm_wc_mb_iso2022jp`: the state 0 is `UDM_STATE_ASCII`, the state 3 `UDM_STATE_JIS0208_N`. -/
def udmWcMbIso2022jp (jisx0208 : ℤ → ℕ) : Put :=
  if wc < 0x7F then
    let esc := escape ostate 0 [27, 0x28, 0x42]
    if flags.special = true ∧ isSpecial (lowByte wc) = true ∧ 0 ≤ wc then
      ⟨esc ++ specialRef wc, .done (esc.length + 6), 0⟩
    else ⟨esc ++ [lowByte wc], .done (esc.length + 1), 0⟩
  else
    let esc := escape ostate 3 [27, 0x24, 0x42]
    if jisx0208 wc ≠ 0 then
      if room < 2 then ⟨esc, .toosmall, 3⟩ else ⟨codeBytes esc (jisx0208 wc), .done (esc.length + 2), 3⟩
    else ⟨esc, .iluni, 3⟩

/-- `udm_wc_mb_gujarati`. -/
def udmWcMbGujarati (code : ℤ → Option (UInt8 × Option UInt8)) : Put :=
  if wc < 0x7F then putByte flags ostate (lowByte wc)
  else
    match code wc with
    | none => ⟨[if wc = 0x2212 then 0x81 else 0x3F], .iluni, ostate⟩
    | some (b, none) => ⟨[b], .done 1, ostate⟩
    | some (b, some b') => if room < 2 then ⟨[], .toosmall, ostate⟩ else ⟨[b, b'], .done 2, ostate⟩

/-- `udm_wc_mb_tscii`. -/
def udmWcMbTscii (code : ℤ → Option UInt8) : Put :=
  if wc < 0x7F then putByte flags ostate (lowByte wc)
  else
    match code wc with
    | none => ⟨[], .iluni, ostate⟩
    | some b => ⟨[b], .done 1, ostate⟩

/-- `cs->wc_mb`. -/
def Charset.wcMb : Charset → Put
  | .ascii => udmWcMbAscii flags ostate wc
  | .latin1 => udmWcMbLatin1Put flags ostate wc
  | .eightBit tab => udmWcMb8bit flags ostate wc tab
  | .twoBytes code mark => udmWcMbTwoBytes flags ostate wc room code mark
  | .eucJp jisx0208 jisx0212 => udmWcMbEucJp flags ostate wc room jisx0208 jisx0212
  | .iso2022jp jisx0208 => udmWcMbIso2022jp flags ostate wc room jisx0208
  | .gujarati code => udmWcMbGujarati flags ostate wc room code
  | .tscii code => udmWcMbTscii flags ostate wc code

end Writers

/-! ## The loop -/

/-- Hexadecimal digits, `fuel` of them at most. -/
def hexDigits : ℕ → ℕ → List UInt8
  | 0, _ => []
  | fuel + 1, n => if n < 16 then [hexd n] else hexDigits fuel (n / 16) ++ [hexd (n % 16)]

/-- `sprintf(d, "&#x%X;", wc)` or `sprintf(d, "&#%d;", wc)`. -/
def charRef (flags : RecodeFlags) (wc : ℤ) : List UInt8 :=
  if flags.nonasciiHex = true then 0x26 :: 0x23 :: 0x78 :: (hexDigits 8 (wc % 0x100000000).toNat ++ [0x3B]) else numRef wc

/-- Where `UdmConv` is: what is left of the source, how far `d` has come, and `ostate`. -/
structure ConvState where
  /-- What is left of the source. -/
  s : List UInt8
  /-- `d - d_o`. -/
  d : ℕ
  /-- `c->ostate`. -/
  ostate : ℕ
  deriving DecidableEq

/-- A turn of the loop: what is written and where, and the next state, unless the loop is left. -/
structure Turn where
  writes : List (ℕ × List UInt8)
  next : Option ConvState

variable (cs : Charset) (flags : RecodeFlags) (sgml : SgmlChars) (dlen : ℕ)

/-- The end of a turn: a character is written at `d`. -/
def putChar (d ostate : ℕ) (wc : ℤ) (rest : List UInt8) : Turn :=
  let p := cs.wcMb flags ostate wc (dlen - d)
  match p.ret with
  | .done n => ⟨[(d, p.bytes)], some ⟨rest, d + n, p.ostate⟩⟩
  | .toosmall => ⟨[(d, p.bytes)], none⟩
  | .iluni =>
    if flags.nonascii = true ∨ flags.nonasciiHex = true then
      if 8 < dlen - d then
        ⟨[(d, p.bytes), (d, charRef flags wc ++ [0])], some ⟨rest, d + (charRef flags wc).length, p.ostate⟩⟩
      else ⟨[(d, p.bytes)], none⟩
    else
      -- the question mark is written, but `d` stays where it is
      let q := cs.wcMb flags p.ostate 0x3F (dlen - d)
      ⟨[(d, p.bytes), (d, q.bytes)], match q.ret with
        | .done _ => some ⟨rest, d, q.ostate⟩
        | _ => none⟩

/-- A turn of the loop. -/
def turn (st : ConvState) : Turn :=
  match udmMbWcUtf8With flags sgml 0 st.s with
  | .toofew => ⟨[], none⟩
  | .ilseq n _ =>
    -- the question mark is written here, and once more at the end of the turn
    let p := cs.wcMb flags st.ostate 0x3F (dlen - st.d)
    match p.ret with
    | .done _ =>
      let t := putChar cs flags dlen st.d p.ostate 0x3F (st.s.drop n)
      ⟨(st.d, p.bytes) :: t.writes, t.next⟩
    | _ => ⟨[(st.d, p.bytes)], none⟩
  | .char n _ wc => putChar cs flags dlen st.d st.ostate wc (st.s.drop n)

/-- The loop goes on. -/
def ConvState.Active (st : ConvState) : Prop := st.s ≠ [] ∧ st.d < dlen

instance (st : ConvState) : Decidable (st.Active dlen) := inferInstanceAs (Decidable (_ ∧ _))

/-- The loop, at most `fuel` turns: the writes, and where `d` comes to. -/
def convFrom : ℕ → ConvState → List (ℕ × List UInt8) × ℕ
  | 0, st => ([], st.d)
  | fuel + 1, st =>
    if st.Active dlen then
      match (turn cs flags sgml dlen st).next with
      | none => ((turn cs flags sgml dlen st).writes, st.d)
      | some st' => ((turn cs flags sgml dlen st).writes ++ (convFrom fuel st').1, (convFrom fuel st').2)
    else ([], st.d)

/-- `UdmConv` from UTF-8: the writes, and the length that is returned. -/
def udmConvTo (s : List UInt8) : List (ℕ × List UInt8) × ℕ := convFrom cs flags sgml dlen s.length ⟨s, 0, 0⟩

/-- No byte is written at or behind the limit, and the length is not above it. -/
def WithinLimit (out : List (ℕ × List UInt8) × ℕ) : Prop := (∀ w ∈ out.1, w.1 + w.2.length ≤ dlen) ∧ out.2 ≤ dlen

instance (out : List (ℕ × List UInt8) × ℕ) : Decidable (WithinLimit dlen out) := inferInstanceAs (Decidable (_ ∧ _))

/-! ## When a writer writes too far -/

/-- The character set writes more bytes than there is room for: the branches that look at too little. -/
def Charset.Overruns (cs : Charset) (flags : RecodeFlags) (ostate : ℕ) (wc : ℤ) (room : ℕ) : Prop :=
  match cs with
  | .eucJp jisx0208 jisx0212 =>
    0x80 ≤ wc ∧ jisx0208 wc = 0 ∧ ((udmWcMbJisx0201 wc ≠ none ∧ room = 1) ∨
      (udmWcMbJisx0201 wc = none ∧ jisx0212 wc ≠ 0 ∧ room = 2))
  | .iso2022jp jisx0208 =>
    (wc < 0x7F ∧ room < (if ostate ≠ 0 then 3 else 0) +
      if flags.special = true ∧ isSpecial (lowByte wc) = true ∧ 0 ≤ wc then 6 else 1) ∨
    (0x7F ≤ wc ∧ ostate ≠ 3 ∧ room < if jisx0208 wc ≠ 0 ∧ 2 ≤ room then 5 else 3)
  | _ => False

/-- The end of a turn writes more bytes than there is room for: the set does, or the reference of a character that the set
does not have is longer than eight characters, or the question mark in its place is too long. -/
def PutOverruns (d ostate : ℕ) (wc : ℤ) : Prop :=
  cs.Overruns flags ostate wc (dlen - d) ∨
    ((cs.wcMb flags ostate wc (dlen - d)).ret = .iluni ∧
      if flags.nonascii = true ∨ flags.nonasciiHex = true then 8 < dlen - d ∧ dlen - d < (charRef flags wc).length + 1
      else cs.Overruns flags (cs.wcMb flags ostate wc (dlen - d)).ostate 0x3F (dlen - d))

/-- A turn of the loop writes more bytes than there is room for. -/
def TurnOverruns (st : ConvState) : Prop :=
  match udmMbWcUtf8With flags sgml 0 st.s with
  | .toofew => False
  | .ilseq _ _ =>
    cs.Overruns flags st.ostate 0x3F (dlen - st.d) ∨
      ((∃ n, (cs.wcMb flags st.ostate 0x3F (dlen - st.d)).ret = .done n) ∧
        PutOverruns cs flags dlen st.d (cs.wcMb flags st.ostate 0x3F (dlen - st.d)).ostate 0x3F)
  | .char _ _ wc => PutOverruns cs flags dlen st.d st.ostate wc

/-- One turn. -/
def Step (st st' : ConvState) : Prop := st.Active dlen ∧ (turn cs flags sgml dlen st).next = some st'

/-- The loop comes to a state. -/
def Reaches (s : List UInt8) (st : ConvState) : Prop := Relation.ReflTransGen (Step cs flags sgml dlen) ⟨s, 0, 0⟩ st

/-! ## One turn -/

section Puts

variable {cs flags} {ostate room : ℕ} {wc : ℤ}

/-- EUC-JP writes too far a byte of JIS X 0201 at the last place, and a character of JIS X 0212 at the last but one. -/
theorem lt_length_eucJp_iff {jisx0208 jisx0212 : ℤ → ℕ} (hroom : 0 < room) :
    room < (udmWcMbEucJp flags ostate wc room jisx0208 jisx0212).bytes.length ↔
      0x80 ≤ wc ∧ jisx0208 wc = 0 ∧ ((udmWcMbJisx0201 wc ≠ none ∧ room = 1) ∨
        (udmWcMbJisx0201 wc = none ∧ jisx0212 wc ≠ 0 ∧ room = 2)) := by
  rw [udmWcMbEucJp]
  by_cases hascii : wc < 0x80
  · rw [if_pos hascii]
    exact iff_of_false (Nat.not_lt.mpr hroom) fun h => by omega
  rw [if_neg hascii]
  by_cases h0208 : jisx0208 wc = 0
  · rw [if_neg (not_not.mpr h0208)]
    cases h0201 : udmWcMbJisx0201 wc with
    | some b =>
      simp only [h0208, ne_eq, reduceCtorEq, not_false_eq_true, true_and, false_and, or_false]
      rw [if_neg (by omega), List.length_cons, List.length_singleton]
      omega
    | none =>
      simp only [h0208, ne_eq, not_true_eq_false, false_and, true_and, false_or]
      by_cases h0212 : jisx0212 wc = 0
      · rw [if_neg (not_not.mpr h0212)]
        refine iff_of_false ?_ fun h => h.2.1 h0212
        split_ifs <;> simp <;> omega
      · rw [if_pos h0212]
        by_cases hfew : room < 2
        · rw [if_pos hfew]
          exact iff_of_false (Nat.not_lt_zero _) fun h => by omega
        · rw [if_neg hfew]
          change room < 3 ↔ _
          simp only [h0212, not_false_eq_true, true_and]
          omega
  · rw [if_pos h0208]
    refine iff_of_false ?_ fun h => h0208 h.2.1
    split_ifs with hfew
    · exact Nat.not_lt_zero _
    · exact hfew

theorem length_specialRef {wc : ℤ} (hlo : 0 ≤ wc) (hhi : wc < 0x7F) (h : isSpecial (lowByte wc) = true) :
    (specialRef wc).length = 6 := by
  obtain ⟨n, rfl⟩ := Int.eq_ofNat_of_zero_le hlo
  have hall : ∀ n < 0x7F, isSpecial (lowByte (n : ℕ)) = true → (specialRef (n : ℕ)).length = 6 := by decide
  exact hall n (by omega) h

theorem length_escape (state state' : ℕ) (a b c : UInt8) :
    (escape state state' [a, b, c]).length = if state ≠ state' then 3 else 0 := by
  rw [escape]
  split_ifs <;> rfl

theorem lt_length_iso2022jp_iff {jisx0208 : ℤ → ℕ} :
    room < (udmWcMbIso2022jp flags ostate wc room jisx0208).bytes.length ↔
      (wc < 0x7F ∧ room < (if ostate ≠ 0 then 3 else 0) +
        if flags.special = true ∧ isSpecial (lowByte wc) = true ∧ 0 ≤ wc then 6 else 1) ∨
      (0x7F ≤ wc ∧ ostate ≠ 3 ∧ room < if jisx0208 wc ≠ 0 ∧ 2 ≤ room then 5 else 3) := by
  rw [udmWcMbIso2022jp]
  by_cases hascii : wc < 0x7F
  · rw [if_pos hascii]
    dsimp only
    have hor : ¬ (0x7F ≤ wc) := by omega
    simp only [hascii, hor, true_and, false_and, or_false]
    by_cases hspecial : flags.special = true ∧ isSpecial (lowByte wc) = true ∧ 0 ≤ wc
    · rw [if_pos hspecial, if_pos hspecial, List.length_append, length_escape,
        length_specialRef hspecial.2.2 hascii hspecial.2.1]
    · rw [if_neg hspecial, if_neg hspecial, List.length_append, length_escape, List.length_singleton]
  · rw [if_neg hascii]
    dsimp only
    have hor : 0x7F ≤ wc := by omega
    simp only [hascii, hor, true_and, false_and, false_or]
    by_cases h0208 : jisx0208 wc = 0
    · rw [if_neg (not_not.mpr h0208), if_neg fun h => h.1 h0208, length_escape]
      split_ifs with hstate
      · exact (and_iff_right hstate).symm
      · exact iff_of_false (Nat.not_lt_zero _) fun h => hstate h.1
    · rw [if_pos h0208]
      by_cases hfew : room < 2
      · rw [if_pos hfew, if_neg fun h => by omega, length_escape]
        split_ifs with hstate
        · exact (and_iff_right hstate).symm
        · exact iff_of_false (Nat.not_lt_zero _) fun h => hstate h.1
      · rw [if_neg hfew, if_pos ⟨h0208, Nat.not_lt.mp hfew⟩, codeBytes, List.length_append, length_escape]
        change room < _ + 2 ↔ _
        split_ifs with hstate
        · exact (and_iff_right hstate).symm
        · exact iff_of_false hfew fun h => hstate h.1

/-- **A writer writes too far** in the branches that look at too little, and in no other. -/
theorem lt_length_wcMb_iff (hroom : 0 < room) :
    room < (cs.wcMb flags ostate wc room).bytes.length ↔ cs.Overruns flags ostate wc room := by
  cases cs with
  | ascii =>
    simp only [Charset.wcMb, udmWcMbAscii, Charset.Overruns, iff_false, Nat.not_lt]
    split_ifs
    · exact Nat.zero_le _
    · exact hroom
  | latin1 =>
    simp only [Charset.wcMb, udmWcMbLatin1Put, Charset.Overruns, iff_false, Nat.not_lt]
    split_ifs
    · exact Nat.zero_le _
    · exact hroom
  | eightBit tab =>
    simp only [Charset.wcMb, udmWcMb8bit, Charset.Overruns, iff_false, Nat.not_lt]
    split
    · exact Nat.zero_le _
    · split_ifs <;> exact hroom
  | twoBytes code mark =>
    simp only [Charset.wcMb, udmWcMbTwoBytes, Charset.Overruns, iff_false, Nat.not_lt]
    split_ifs with h1 h2 h3
    · exact hroom
    · exact Nat.zero_le _
    · exact Nat.zero_le _
    · exact Nat.not_lt.mp h3
  | eucJp jisx0208 jisx0212 =>
    simp only [Charset.wcMb, Charset.Overruns]
    exact lt_length_eucJp_iff hroom
  | iso2022jp jisx0208 =>
    simp only [Charset.wcMb, Charset.Overruns]
    exact lt_length_iso2022jp_iff
  | gujarati code =>
    simp only [Charset.wcMb, udmWcMbGujarati, Charset.Overruns, iff_false, Nat.not_lt]
    by_cases hlow : wc < 0x7F
    · rw [if_pos hlow]
      exact hroom
    · rw [if_neg hlow]
      split
      · exact hroom
      · exact hroom
      · split_ifs with h
        · exact Nat.zero_le _
        · exact Nat.not_lt.mp h
  | tscii code =>
    simp only [Charset.wcMb, udmWcMbTscii, Charset.Overruns, iff_false, Nat.not_lt]
    by_cases hlow : wc < 0x7F
    · rw [if_pos hlow]
      exact hroom
    · rw [if_neg hlow]
      split
      · exact Nat.zero_le _
      · exact hroom

/-- What a writer counts, it has written. -/
def Put.Honest (p : Put) : Prop := ∀ n, p.ret = .done n → n ≤ p.bytes.length

theorem Put.honest_iluni (s : List UInt8) : (Put.mk s .iluni ostate).Honest := nofun

theorem Put.honest_toosmall (s : List UInt8) : (Put.mk s .toosmall ostate).Honest := nofun

theorem Put.honest_done {s : List UInt8} {n : ℕ} (h : n ≤ s.length) : (Put.mk s (.done n) ostate).Honest := by
  rintro m hm
  cases hm
  exact h

theorem honest_putByte (b : UInt8) : (putByte flags ostate b).Honest := by
  rw [putByte]
  split_ifs
  · exact Put.honest_iluni _
  · exact Put.honest_done le_rfl

theorem honest_wcMb (cs : Charset) (flags : RecodeFlags) (ostate : ℕ) (wc : ℤ) (room : ℕ) :
    (cs.wcMb flags ostate wc room).Honest := by
  cases cs with
  | ascii =>
    simp only [Charset.wcMb, udmWcMbAscii]
    split_ifs
    · exact Put.honest_iluni _
    · exact honest_putByte _
  | latin1 =>
    simp only [Charset.wcMb, udmWcMbLatin1Put]
    split_ifs
    · exact Put.honest_iluni _
    · exact honest_putByte _
  | eightBit tab =>
    simp only [Charset.wcMb, udmWcMb8bit]
    split
    · exact Put.honest_iluni _
    · split_ifs
      · exact Put.honest_iluni _
      · exact Put.honest_iluni _
      · exact Put.honest_done le_rfl
  | twoBytes code mark =>
    simp only [Charset.wcMb, udmWcMbTwoBytes]
    split_ifs
    · exact honest_putByte _
    · exact Put.honest_iluni _
    · exact Put.honest_toosmall _
    · exact Put.honest_done le_rfl
  | eucJp jisx0208 jisx0212 =>
    simp only [Charset.wcMb, udmWcMbEucJp]
    by_cases hascii : wc < 0x80
    · rw [if_pos hascii]
      exact honest_putByte _
    rw [if_neg hascii]
    by_cases h0208 : jisx0208 wc ≠ 0
    · rw [if_pos h0208]
      split_ifs
      · exact Put.honest_toosmall _
      · exact Put.honest_done le_rfl
    rw [if_neg h0208]
    split
    · split_ifs
      · exact Put.honest_toosmall _
      · exact Put.honest_done (by decide : 1 ≤ 2)
    · split_ifs
      · exact Put.honest_toosmall _
      · exact Put.honest_done le_rfl
      · exact Put.honest_toosmall _
      · exact Put.honest_done le_rfl
      · exact Put.honest_toosmall _
      · exact Put.honest_done le_rfl
      · exact Put.honest_iluni _
  | iso2022jp jisx0208 =>
    simp only [Charset.wcMb, udmWcMbIso2022jp]
    split_ifs with hascii hspecial
    · refine Put.honest_done ?_
      rw [List.length_append, length_specialRef hspecial.2.2 hascii hspecial.2.1]
    · exact Put.honest_done (by simp)
    · exact Put.honest_toosmall _
    · exact Put.honest_done (by simp [codeBytes])
    · exact Put.honest_iluni _
  | gujarati code =>
    simp only [Charset.wcMb, udmWcMbGujarati]
    by_cases hlow : wc < 0x7F
    · rw [if_pos hlow]
      exact honest_putByte _
    rw [if_neg hlow]
    split
    · exact Put.honest_iluni _
    · exact Put.honest_done le_rfl
    · split_ifs
      · exact Put.honest_toosmall _
      · exact Put.honest_done le_rfl
  | tscii code =>
    simp only [Charset.wcMb, udmWcMbTscii]
    by_cases hlow : wc < 0x7F
    · rw [if_pos hlow]
      exact honest_putByte _
    rw [if_neg hlow]
    split
    · exact Put.honest_iluni _
    · exact Put.honest_done le_rfl

end Puts

theorem pos_of_read {flags : RecodeFlags} {sgml : SgmlChars} {istate n istate' : ℕ} {wc : ℤ} {s : List UInt8}
    (h : udmMbWcUtf8With flags sgml istate s = .char n istate' wc ∨ udmMbWcUtf8With flags sgml istate s = .ilseq n istate') :
    1 ≤ n ∧ s ≠ [] := by
  cases s with
  | nil => rcases h with h | h <;> cases h
  | cons c s =>
    refine ⟨?_, List.cons_ne_nil c s⟩
    have hscan : 1 ≤ (udmSGMLScan (fun s => sgml.toUni s) (c :: s)).1 := by
      rw [udmSGMLScan]
      split
      · exact le_rfl
      · dsimp only
        split_ifs <;> simp
    have htail : ∀ {k : ℕ} {mask first low : UInt8}, 1 ≤ k →
        (mbWcTail k mask first low istate c s = .char n istate' wc ∨
          mbWcTail k mask first low istate c s = .ilseq n istate') → 1 ≤ n := by
      intro k mask first low hk h
      rw [mbWcTail] at h
      split_ifs at h
      · rcases h with h | h <;> cases h
      · rcases h with h | h <;> cases h
        omega
      · rcases h with h | h <;> cases h
        exact hk
    simp only [udmMbWcUtf8With] at h
    split_ifs at h
    · rcases h with h | h <;> cases h
      exact hscan
    · rcases h with h | h <;> cases h
      exact le_rfl
    · rcases h with h | h <;> cases h
      exact le_rfl
    · exact htail (by decide) h
    · exact htail (by decide) h
    · exact htail (by decide) h
    · exact htail (by decide) h
    · exact htail (by decide) h
    · rcases h with h | h <;> cases h
      exact le_rfl

section Turns

variable {cs flags sgml dlen} {st : ConvState}

theorem write_le_iff {d n : ℕ} (hd : d < dlen) : d + n ≤ dlen ↔ ¬ dlen - d < n := by omega

theorem putChar_within {d ostate : ℕ} {wc : ℤ} (rest : List UInt8) (hd : d < dlen) :
    ((∀ w ∈ (putChar cs flags dlen d ostate wc rest).writes, w.1 + w.2.length ≤ dlen) ↔
      ¬ PutOverruns cs flags dlen d ostate wc) ∧
    ∀ st' ∈ (putChar cs flags dlen d ostate wc rest).next, st'.s = rest ∧
      (¬ PutOverruns cs flags dlen d ostate wc → st'.d ≤ dlen) := by
  have hroom : 0 < dlen - d := by omega
  have hp := @lt_length_wcMb_iff cs flags ostate (dlen - d) wc hroom
  have hhonest := honest_wcMb cs flags ostate wc (dlen - d)
  rw [putChar, PutOverruns, ← hp]
  dsimp only
  generalize cs.wcMb flags ostate wc (dlen - d) = p at *
  cases hret : p.ret with
  | done n =>
    have hn := hhonest n hret
    simp only [reduceCtorEq, false_and, or_false, List.forall_mem_singleton, Option.mem_some_iff, forall_eq']
    exact ⟨write_le_iff hd, trivial, fun h => by omega⟩
  | toosmall =>
    simp only [reduceCtorEq, false_and, or_false, List.forall_mem_singleton]
    exact ⟨write_le_iff hd, nofun⟩
  | iluni =>
    dsimp only
    by_cases href : flags.nonascii = true ∨ flags.nonasciiHex = true
    · rw [if_pos href, if_pos href]
      by_cases hroom8 : 8 < dlen - d
      · rw [if_pos hroom8]
        simp only [List.forall_mem_cons, List.not_mem_nil, false_imp_iff, implies_true, and_true, List.length_append,
          List.length_singleton, Option.mem_some_iff, forall_eq', hroom8, true_and]
        rw [write_le_iff hd, write_le_iff hd, ← not_or]
        exact ⟨Iff.rfl, fun h => by omega⟩
      · rw [if_neg hroom8]
        simp only [List.forall_mem_singleton, hroom8, false_and, and_false, or_false]
        exact ⟨write_le_iff hd, nofun⟩
    · rw [if_neg href, if_neg href]
      have hq := @lt_length_wcMb_iff cs flags p.ostate (dlen - d) 0x3F hroom
      rw [← hq]
      generalize cs.wcMb flags p.ostate 0x3F (dlen - d) = q at *
      simp only [List.forall_mem_cons, List.not_mem_nil, false_imp_iff, implies_true, and_true, true_and]
      rw [write_le_iff hd, write_le_iff hd, ← not_or]
      refine ⟨Iff.rfl, fun st' hst' => ?_⟩
      cases hqret : q.ret with
      | done n =>
        rw [hqret] at hst'
        cases hst'
        exact ⟨rfl, fun _ => hd.le⟩
      | iluni =>
        rw [hqret] at hst'
        cases hst'
      | toosmall =>
        rw [hqret] at hst'
        cases hst'

/-- **A turn** stays within the limit unless it writes too far; then the next place is not behind the limit, and less is left
of the source. -/
theorem turn_within (hactive : st.Active dlen) :
    ((∀ w ∈ (turn cs flags sgml dlen st).writes, w.1 + w.2.length ≤ dlen) ↔ ¬ TurnOverruns cs flags sgml dlen st) ∧
    ∀ st' ∈ (turn cs flags sgml dlen st).next, st'.s.length < st.s.length ∧
      (¬ TurnOverruns cs flags sgml dlen st → st'.d ≤ dlen) := by
  obtain ⟨hs, hd⟩ := hactive
  have hlen : 0 < st.s.length := List.length_pos_iff.mpr hs
  rw [turn, TurnOverruns]
  cases hread : udmMbWcUtf8With flags sgml 0 st.s with
  | toofew => exact ⟨iff_of_true nofun not_false, nofun⟩
  | char n istate' wc =>
    have hpos := (pos_of_read (Or.inl hread)).1
    obtain ⟨hwrites, hnext⟩ := @putChar_within cs flags dlen st.d st.ostate wc (st.s.drop n) hd
    refine ⟨hwrites, fun st' hst' => ?_⟩
    obtain ⟨hrest, hle⟩ := hnext st' hst'
    refine ⟨?_, hle⟩
    rw [hrest, List.length_drop]
    omega
  | ilseq n istate' =>
    have hpos := (@pos_of_read flags sgml 0 n istate' 0 st.s (Or.inr hread)).1
    have hp := @lt_length_wcMb_iff cs flags st.ostate (dlen - st.d) 0x3F (by omega)
    dsimp only
    rw [← hp]
    generalize cs.wcMb flags st.ostate 0x3F (dlen - st.d) = p at *
    obtain ⟨hwrites, hnext⟩ := @putChar_within cs flags dlen st.d p.ostate 0x3F (st.s.drop n) hd
    cases hret : p.ret with
    | done m =>
      dsimp only
      rw [List.forall_mem_cons, hwrites, write_le_iff hd]
      refine ⟨?_, fun st' hst' => ?_⟩
      · simp
      · obtain ⟨hrest, hle⟩ := hnext st' hst'
        refine ⟨?_, fun h => hle fun hput => h (Or.inr ⟨⟨m, rfl⟩, hput⟩)⟩
        rw [hrest, List.length_drop]
        omega
    | iluni =>
      simp only [reduceCtorEq, exists_false, false_and, or_false, List.forall_mem_singleton]
      exact ⟨write_le_iff hd, nofun⟩
    | toosmall =>
      simp only [reduceCtorEq, exists_false, false_and, or_false, List.forall_mem_singleton]
      exact ⟨write_le_iff hd, nofun⟩

end Turns

/-! ## The whole loop -/

section Run

variable {cs flags sgml dlen} {st : ConvState} {fuel : ℕ}

theorem eq_of_reaches {st' : ConvState} (h : Relation.ReflTransGen (Step cs flags sgml dlen) st st')
    (hend : ∀ st'', ¬ Step cs flags sgml dlen st st'') : st' = st := by
  rcases h.cases_head with rfl | ⟨st'', hstep, -⟩
  · rfl
  · exact absurd hstep (hend st'')

theorem within_of_not_active (hactive : ¬ st.Active dlen) (hd : st.d ≤ dlen) :
    WithinLimit dlen ([], st.d) ↔
      ∀ st', Relation.ReflTransGen (Step cs flags sgml dlen) st st' → st'.Active dlen →
        ¬ TurnOverruns cs flags sgml dlen st' := by
  refine iff_of_true ⟨nofun, hd⟩ fun st' h hst' => ?_
  rw [eq_of_reaches h fun st'' hstep => hactive hstep.1] at hst'
  exact absurd hst' hactive

/-- **The loop** stays within the limit exactly when no turn writes too far. -/
theorem convFrom_within (hfuel : st.s.length ≤ fuel) (hd : st.d ≤ dlen) :
    WithinLimit dlen (convFrom cs flags sgml dlen fuel st) ↔
      ∀ st', Relation.ReflTransGen (Step cs flags sgml dlen) st st' → st'.Active dlen →
        ¬ TurnOverruns cs flags sgml dlen st' := by
  induction fuel generalizing st with
  | zero =>
    have hs : st.s = [] := List.length_eq_zero_iff.mp (Nat.le_zero.mp hfuel)
    exact within_of_not_active (fun h => h.1 hs) hd
  | succ fuel ih =>
    rw [convFrom]
    by_cases hactive : st.Active dlen
    · obtain ⟨hwrites, hturn⟩ := @turn_within cs flags sgml dlen st hactive
      rw [if_pos hactive]
      cases hnext : (turn cs flags sgml dlen st).next with
      | none =>
        have hlast : ∀ st', Relation.ReflTransGen (Step cs flags sgml dlen) st st' → st' = st := by
          intro st' h
          refine eq_of_reaches h fun st'' hstep => ?_
          rw [Step, hnext] at hstep
          exact nomatch hstep.2
        rw [WithinLimit, and_iff_left hd, hwrites]
        constructor
        · intro h st' hst' _
          rwa [hlast st' hst']
        · exact fun h => h st .refl hactive
      | some st1 =>
        obtain ⟨hlt, hle⟩ := hturn st1 hnext
        have hwithin : ∀ r : List (ℕ × List UInt8) × ℕ,
            WithinLimit dlen ((turn cs flags sgml dlen st).writes ++ r.1, r.2) ↔
              ¬ TurnOverruns cs flags sgml dlen st ∧ WithinLimit dlen r := by
          intro r
          rw [WithinLimit, WithinLimit, List.forall_mem_append, hwrites, and_assoc]
        dsimp only
        rw [hwithin]
        constructor
        · rintro ⟨hok, hrest⟩ st' hst' hactive'
          rcases hst'.cases_head with rfl | ⟨st2, hstep, hst'⟩
          · exact hok
          · obtain rfl : st1 = st2 := Option.some.inj (hnext.symm.trans hstep.2)
            exact (ih (by omega) (hle hok)).mp hrest st' hst' hactive'
        · intro h
          have hok := h st .refl hactive
          exact ⟨hok, (ih (by omega) (hle hok)).mpr fun st' hst' => h st' (.head ⟨hactive, hnext⟩ hst')⟩
    · rw [if_neg hactive]
      exact within_of_not_active hactive hd

end Run

/-- **The conversion respects its limit** exactly when in every turn there is room for the bytes that the target writes, and
for the whole reference, with its zero, of a character that the target does not have. -/
theorem withinLimit_iff (s : List UInt8) :
    WithinLimit dlen (udmConvTo cs flags sgml dlen s) ↔
      ∀ st, Reaches cs flags sgml dlen s st → st.Active dlen → ¬ TurnOverruns cs flags sgml dlen st :=
  convFrom_within le_rfl (Nat.zero_le dlen)

/-- The last character up to 31 bits, in hexadecimal, in nine bytes of ASCII. -/
theorem not_forall_withinLimit :
    ¬ ∀ (cs : Charset) (flags : RecodeFlags) (sgml : SgmlChars) (dlen : ℕ) (s : List UInt8),
      WithinLimit dlen (udmConvTo cs flags sgml dlen s) := by
  intro hall
  exact absurd (hall .ascii ⟨false, false, true⟩ noNames 9 [0xFD, 0xBF, 0xBF, 0xBF, 0xBF, 0xBF]) (by decide)

end MnoGoSearch.Uconv
