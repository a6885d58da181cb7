import MnoGoSearch.Http.TransferDecode
import MnoGoSearch.Url.Idempotent

/-!
# Hexadecimal strings

`UdmHexEncode` and `UdmHexDecode` (`utils.c`). The decoder stops at the first character that is no digit, but
its `ch2x` takes every letter for a digit, unlike that of `url.c`. `hexPrefix_udmHexDecode_iff` says when it
stops where it should.
-/

namespace MnoGoSearch.Utils

open Http Url

/-- `udm_hex_digits`. -/
def udmHexDigits : List UInt8 :=
  [0x30, 0x31, 0x32, 0x33, 0x34, 0x35, 0x36, 0x37, 0x38, 0x39, 0x41, 0x42, 0x43, 0x44, 0x45, 0x46]

/-- One digit. -/
def hexDigit (n : UInt8) : UInt8 := udmHexDigits.getD n.toNat 0

/-- `UdmHexEncode`. -/
def udmHexEncode (src : List UInt8) : List UInt8 :=
  src.flatMap fun ch : UInt8 => [hexDigit ((ch >>> 4) &&& 0x0F), hexDigit (ch &&& 0x0F)]

/-- `UdmHexDecode`. -/
def udmHexDecode : List UInt8 → List UInt8
  | a :: b :: src =>
    match Http.ch2x a, Http.ch2x b with
    | some hi, some lo => UInt8.ofNat (hi <<< 4 ||| lo) :: udmHexDecode src
    | _, _ => []
  | _ => []

theorem length_udmHexEncode (s : List UInt8) : (udmHexEncode s).length = 2 * s.length := by
  induction s with
  | nil => rfl
  | cons c s ih =>
    have hcons : udmHexEncode (c :: s) = hexDigit ((c >>> 4) &&& 0x0F) :: hexDigit (c &&& 0x0F) :: udmHexEncode s := rfl
    rw [hcons, List.length_cons, List.length_cons, ih, List.length_cons]
    omega

/-- `dst` is what the longest prefix of pairs of hexadecimal digits stands for. -/
inductive HexPrefix : List UInt8 → List UInt8 → Prop
  | pair {a b : UInt8} {hi lo : ℕ} {src dst : List UInt8} (ha : Url.ch2x a = some hi) (hb : Url.ch2x b = some lo) :
    HexPrefix src dst → HexPrefix (a :: b :: src) (UInt8.ofNat (16 * hi + lo) :: dst)
  /-- A character that is no digit. -/
  | stop {a b : UInt8} {src : List UInt8} (h : Url.ch2x a = none ∨ Url.ch2x b = none) : HexPrefix (a :: b :: src) []
  /-- There are no two characters. -/
  | short {src : List UInt8} (h : src.length < 2) : HexPrefix src []

/-! ### Digits -/

variable {c a b : UInt8} {dst src : List UInt8}

/-- The letters behind `F` are digits for `utils.c` only. -/
theorem ch2x_of_url {x : ℕ} (h : Url.ch2x c = some x) : Http.ch2x c = some x := by
  have hall := @forall_byte (fun c => Url.ch2x c = none ∨ Http.ch2x c = Url.ch2x c) (by decide +kernel) c
  rw [← h]
  exact hall.resolve_left (h ▸ Option.some_ne_none x)

theorem ch2x_hexDigit (c : UInt8) :
    Url.ch2x (hexDigit ((c >>> 4) &&& 0x0F)) = some (c.toNat / 16) ∧
      Url.ch2x (hexDigit (c &&& 0x0F)) = some (c.toNat % 16) :=
  @forall_byte (fun c => Url.ch2x (hexDigit ((c >>> 4) &&& 0x0F)) = some (c.toNat / 16) ∧
    Url.ch2x (hexDigit (c &&& 0x0F)) = some (c.toNat % 16)) (by decide +kernel) c

theorem shiftLeft_or {hi lo : ℕ} (hlo : lo < 16) : hi <<< 4 ||| lo = 16 * hi + lo := by
  rw [← Nat.shiftLeft_add_eq_or_of_lt hlo, Nat.shiftLeft_eq]
  omega

/-! ### The round trip -/

theorem udmHexDecode_pair {hi lo : ℕ} (ha : Url.ch2x a = some hi) (hb : Url.ch2x b = some lo)
    (src : List UInt8) : udmHexDecode (a :: b :: src) = UInt8.ofNat (16 * hi + lo) :: udmHexDecode src := by
  rw [udmHexDecode, ch2x_of_url ha, ch2x_of_url hb]
  dsimp only
  rw [shiftLeft_or (ch2x_lt hb)]

/-- **What is encoded is decoded.** -/
theorem udmHexDecode_udmHexEncode (s : List UInt8) : udmHexDecode (udmHexEncode s) = s := by
  induction s with
  | nil => rfl
  | cons c s ih =>
    obtain ⟨hhi, hlo⟩ := ch2x_hexDigit c
    have hbyte : 16 * (c.toNat / 16) + c.toNat % 16 = c.toNat := by omega
    have hcons : udmHexEncode (c :: s) =
        hexDigit ((c >>> 4) &&& 0x0F) :: hexDigit (c &&& 0x0F) :: udmHexEncode s := rfl
    rw [hcons, udmHexDecode_pair hhi hlo, ih, hbyte, UInt8.ofNat_toNat]

/-! ### Where the decoder stops -/

/-- Behind the leading digits there are no two characters that the decoder takes for digits. -/
def StopsAtDigits (src : List UInt8) : Prop :=
  ∀ pre a b rest, src = pre ++ a :: b :: rest → 2 ∣ pre.length → (∀ c ∈ pre, Url.ch2x c ≠ none) →
    Url.ch2x a = none ∨ Url.ch2x b = none → Http.ch2x a = none ∨ Http.ch2x b = none

theorem StopsAtDigits.tail (ha : Url.ch2x a ≠ none) (hb : Url.ch2x b ≠ none) :
    StopsAtDigits (a :: b :: src) ↔ StopsAtDigits src := by
  constructor
  · intro h pre c d rest hsrc heven hdigits
    refine h (a :: b :: pre) c d rest (by rw [hsrc]; rfl) ?_ ?_
    · rw [List.length_cons, List.length_cons]
      omega
    · exact List.forall_mem_cons.mpr ⟨ha, List.forall_mem_cons.mpr ⟨hb, hdigits⟩⟩
  · intro h pre c d rest hsrc heven hdigits hnone
    rcases pre with _ | ⟨a', _ | ⟨b', pre⟩⟩
    · simp only [List.nil_append, List.cons.injEq] at hsrc
      obtain ⟨rfl, rfl, -⟩ := hsrc
      exact (hnone.elim ha hb).elim
    · rw [List.length_singleton] at heven
      omega
    · simp only [List.cons_append, List.cons.injEq] at hsrc
      rw [List.length_cons, List.length_cons] at heven
      exact h pre c d rest hsrc.2.2 (by omega)
        (fun e he => hdigits e (List.mem_cons_of_mem _ (List.mem_cons_of_mem _ he))) hnone

theorem stopsAtDigits_of_none (h : Url.ch2x a = none ∨ Url.ch2x b = none) :
    StopsAtDigits (a :: b :: src) ↔ Http.ch2x a = none ∨ Http.ch2x b = none := by
  refine ⟨fun hstop => hstop [] a b src rfl ⟨0, rfl⟩ (fun _ hc => absurd hc List.not_mem_nil) h, ?_⟩
  intro hhttp pre c d rest hsrc heven hdigits _
  rcases pre with _ | ⟨a', _ | ⟨b', pre⟩⟩
  · simp only [List.nil_append, List.cons.injEq] at hsrc
    obtain ⟨rfl, rfl, -⟩ := hsrc
    exact hhttp
  · rw [List.length_singleton] at heven
    omega
  · simp only [List.cons_append, List.cons.injEq] at hsrc
    obtain ⟨rfl, rfl, -⟩ := hsrc
    have ha := hdigits a List.mem_cons_self
    have hb := hdigits b (List.mem_cons_of_mem _ List.mem_cons_self)
    exact (h.elim ha hb).elim

theorem not_hexPrefix_cons (h : Url.ch2x a = none ∨ Url.ch2x b = none) : ¬HexPrefix (a :: b :: src) (c :: dst) := by
  intro hp
  cases hp with
  | pair ha hb _ =>
    rcases h with h | h
    · rw [h] at ha
      contradiction
    · rw [h] at hb
      contradiction

theorem HexPrefix.tail (h : HexPrefix (a :: b :: src) (c :: dst)) : HexPrefix src dst := by
  cases h with
  | pair _ _ h => exact h

/-- **When the decoder stops right**: no letter behind `F` stands where it looks for a pair of digits. -/
theorem hexPrefix_udmHexDecode_iff (src : List UInt8) : HexPrefix src (udmHexDecode src) ↔ StopsAtDigits src := by
  induction src using udmHexDecode.induct with
  | case1 a b src hi lo ha hb ih =>
    by_cases h : Url.ch2x a = none ∨ Url.ch2x b = none
    · rw [stopsAtDigits_of_none h, ha, hb, udmHexDecode, ha, hb]
      exact iff_of_false (not_hexPrefix_cons h) (by simp)
    · obtain ⟨hna, hnb⟩ := not_or.mp h
      obtain ⟨x, hx⟩ := Option.ne_none_iff_exists'.mp hna
      obtain ⟨y, hy⟩ := Option.ne_none_iff_exists'.mp hnb
      rw [StopsAtDigits.tail hna hnb, ← ih, udmHexDecode_pair hx hy]
      exact ⟨HexPrefix.tail, HexPrefix.pair hx hy⟩
  | case2 a b src h =>
    have hhttp : Http.ch2x a = none ∨ Http.ch2x b = none := by
      by_contra hno
      obtain ⟨hna, hnb⟩ := not_or.mp hno
      obtain ⟨x, hx⟩ := Option.ne_none_iff_exists'.mp hna
      obtain ⟨y, hy⟩ := Option.ne_none_iff_exists'.mp hnb
      exact h x y hx hy
    have hurl : Url.ch2x a = none ∨ Url.ch2x b = none := by
      refine hhttp.imp (fun hnone => ?_) (fun hnone => ?_)
      · by_contra hne
        obtain ⟨x, hx⟩ := Option.ne_none_iff_exists'.mp hne
        rw [ch2x_of_url hx] at hnone
        contradiction
      · by_contra hne
        obtain ⟨x, hx⟩ := Option.ne_none_iff_exists'.mp hne
        rw [ch2x_of_url hx] at hnone
        contradiction
    have hnil : udmHexDecode (a :: b :: src) = [] := by
      rw [udmHexDecode]
      rcases hhttp with hnone | hnone
      · rw [hnone]
      · rw [hnone]
        cases Http.ch2x a <;> rfl
    rw [hnil, stopsAtDigits_of_none hurl]
    exact iff_of_true (HexPrefix.stop hurl) hhttp
  | case3 src h =>
    have hshort : src.length < 2 := by
      rcases src with _ | ⟨a, _ | ⟨b, src⟩⟩
      · exact Nat.zero_lt_two
      · exact Nat.one_lt_two
      · exact absurd rfl (h a b src)
    have hnil : udmHexDecode src = [] := by
      rcases src with _ | ⟨a, _ | ⟨b, src⟩⟩
      · rfl
      · rfl
      · exact absurd rfl (h a b src)
    rw [hnil]
    refine iff_of_true (HexPrefix.short hshort) fun pre a b rest hsrc => ?_
    have hlen := congrArg List.length hsrc
    rw [List.length_append, List.length_cons, List.length_cons] at hlen
    omega

end MnoGoSearch.Utils
