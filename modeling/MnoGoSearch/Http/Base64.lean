import MnoGoSearch.Http.TransferDecode
import MnoGoSearch.Url.Idempotent
import Mathlib

/-!
# Base64

`Base64Text` is what the encoding allows: groups of four characters, of which the last may end in one or two
`=`, with the bytes that they stand for. `UdmBase64Decode` (`base64.c`) reads a group character by character,
over white space; it first takes a `=` for an error. `base64Loop_cases` says that it accepts what is such a
text without its white space, and nothing else; `base64Text_encode`, that `udm_base64_encode` writes such texts.
-/

namespace MnoGoSearch.Http

/-! ## The encoding -/

/-- `base64`: the characters of the encoding. -/
def base64 : List UInt8 := Url.bytes "ABCDEFGHIJKLMNOPQRSTUVWXYZabcdefghijklmnopqrstuvwxyz0123456789+/"

/-- A character stands for six bits. -/
def Digit (c : UInt8) (i : ℕ) : Prop := base64[i]? = some c

/-- The first byte of a group. -/
def byte1 (a b : ℕ) : UInt8 := UInt8.ofNat (a * 4 + b / 16)

/-- The second byte. -/
def byte2 (b c : ℕ) : UInt8 := UInt8.ofNat (b % 16 * 16 + c / 4)

/-- The third byte. -/
def byte3 (c e : ℕ) : UInt8 := UInt8.ofNat (c % 4 * 64 + e)

/-- A text, and the bytes that it stands for. -/
inductive Base64Text : List UInt8 → List UInt8 → Prop where
  | nil : Base64Text [] []
  /-- A group of four characters, and further groups. -/
  | group {c1 c2 c3 c4 : UInt8} {a b c e : ℕ} {s out : List UInt8} (h1 : Digit c1 a) (h2 : Digit c2 b) (h3 : Digit c3 c)
    (h4 : Digit c4 e) :
      Base64Text s out → Base64Text (c1 :: c2 :: c3 :: c4 :: s) (byte1 a b :: byte2 b c :: byte3 c e :: out)
  /-- The last group, for two bytes. -/
  | pad1 {c1 c2 c3 : UInt8} {a b c : ℕ} (h1 : Digit c1 a) (h2 : Digit c2 b) (h3 : Digit c3 c) :
    Base64Text [c1, c2, c3, 0x3D] [byte1 a b, byte2 b c]
  /-- The last group, for one byte. -/
  | pad2 {c1 c2 : UInt8} {a b : ℕ} (h1 : Digit c1 a) (h2 : Digit c2 b) : Base64Text [c1, c2, 0x3D, 0x3D] [byte1 a b]

/-- `udm_base64_encode`. -/
def udmBase64Encode : List UInt8 → List UInt8
  | [] => []
  | [s0] => [base64.getD (s0.toNat >>> 2) 0, base64.getD ((s0.toNat &&& 3) <<< 4) 0, 0x3D, 0x3D]
  | [s0, s1] =>
    [base64.getD (s0.toNat >>> 2) 0, base64.getD (((s0.toNat &&& 3) <<< 4) + (s1.toNat >>> 4)) 0,
      base64.getD ((s1.toNat &&& 0xF) <<< 2) 0, 0x3D]
  | s0 :: s1 :: s2 :: s =>
    base64.getD (s0.toNat >>> 2) 0 :: base64.getD (((s0.toNat &&& 3) <<< 4) + (s1.toNat >>> 4)) 0 ::
      base64.getD (((s1.toNat &&& 0xF) <<< 2) + (s2.toNat >>> 6)) 0 :: base64.getD (s2.toNat &&& 0x3F) 0 ::
      udmBase64Encode s

/-- A text without its white space. -/
def strip (src : List UInt8) : List UInt8 := src.filter fun c => fromBase64Map c ≠ -2

variable {c c1 c2 c3 : UInt8} {i b e n : ℕ} {src out t : List UInt8} {d : FromBase64}

theorem Digit.lt (h : Digit c i) : i < 64 := (List.getElem?_eq_some_iff.mp h).1

theorem digit_getD {i : ℕ} (h : i < 64) : Digit (base64.getD i 0) i := by
  have hlen : i < base64.length := h
  rw [Digit, List.getD_eq_getElem?_getD, List.getElem?_eq_getElem hlen, Option.getD_some]

theorem digit_iff (c : UInt8) (i : ℕ) : Digit c i ↔ fromBase64Map c = i := by
  have hread : ∀ i < 64, fromBase64Map (base64.getD i 0) = i := by decide +kernel
  have hwrite := @Url.forall_byte (fun c => 0 ≤ fromBase64Map c → base64[(fromBase64Map c).toNat]? = some c)
    (by decide +kernel) c
  constructor
  · intro h
    rw [← hread i h.lt, List.getD_eq_getElem?_getD, h, Option.getD_some]
  · intro h
    rw [h] at hwrite
    exact hwrite (Int.natCast_nonneg i)

theorem not_digit_pad (i : ℕ) : ¬ Digit 0x3D i := by
  rw [digit_iff]
  have hpad : fromBase64Map 0x3D = -1 := by decide
  omega

/-! ## One character -/

theorem dropWhile_space (src : List UInt8) :
    (src.dropWhile fun c => fromBase64Map c = -2) = [] ∧ strip src = [] ∨
      ∃ c r, (src.dropWhile fun c => fromBase64Map c = -2) = c :: r ∧ strip src = c :: strip r := by
  induction src with
  | nil => exact Or.inl ⟨rfl, rfl⟩
  | cons c src ih =>
    rw [strip]
    by_cases hc : fromBase64Map c = -2
    · rw [List.dropWhile_cons_of_pos (by simpa using hc), List.filter_cons_of_neg (by simpa using hc)]
      exact ih
    · rw [List.dropWhile_cons_of_neg (by simpa using hc), List.filter_cons_of_pos (by simpa using hc)]
      exact Or.inr ⟨c, src, rfl, rfl⟩

theorem skipSpaces_of_nil {d : FromBase64} (h : strip d.src = []) :
    skipSpaces d = (true, { d with src := [], error := d.error || decide (0 < d.byteCount) }) := by
  rcases dropWhile_space d.src with ⟨hdrop, -⟩ | ⟨c, r, -, hstrip⟩
  · rw [skipSpaces]
    simp [hdrop]
  · rw [h] at hstrip
    cases hstrip

theorem skipSpaces_of_cons {d : FromBase64} {c : UInt8} {t : List UInt8} (h : strip d.src = c :: t) :
    ∃ r, strip r = t ∧ skipSpaces d = (false, { d with src := c :: r }) := by
  rcases dropWhile_space d.src with ⟨-, hstrip⟩ | ⟨c', r, hdrop, hstrip⟩
  · rw [h] at hstrip
    cases hstrip
  · rw [h] at hstrip
    obtain ⟨rfl, rfl⟩ := List.cons.inj hstrip
    refine ⟨r, rfl, ?_⟩
    rw [skipSpaces]
    simp [hdrop]

theorem getch_of_nil (h : strip d.src = []) :
    getch d = (true, { d with src := [], error := d.error || decide (0 < d.byteCount) }) := by
  rw [getch, skipSpaces_of_nil h]

theorem getch_digit (h : strip d.src = c :: t) (hc : Digit c i) (hmark : d.markCount = 0) :
    ∃ r, strip r = t ∧ getch d = (false, { d with src := r, bits := d.bits * 64 + i, byteCount := d.byteCount + 1 }) := by
  obtain ⟨r, hr, hskip⟩ := skipSpaces_of_cons h
  have hmap := (digit_iff c i).mp hc
  refine ⟨r, hr, ?_⟩
  rw [getch, hskip]
  dsimp only
  rw [if_pos (by omega), if_neg (by simpa using hmark), hmap]
  rfl

theorem getch_pad (h : strip d.src = 0x3D :: t) (hcount : 2 ≤ d.byteCount) :
    ∃ r, strip r = t ∧ getch d = (false, { d with
      src := r, bits := d.bits * 64, error := false, byteCount := d.byteCount + 1, markCount := d.markCount + 1 }) := by
  obtain ⟨r, hr, hskip⟩ := skipSpaces_of_cons h
  refine ⟨r, hr, ?_⟩
  rw [getch, hskip]
  dsimp only
  rw [if_neg (by decide), if_pos ⟨hcount, rfl⟩]

theorem getch_stop (h : strip d.src = c :: t)
    (hdigit : ∀ i, Digit c i → d.markCount ≠ 0) (hpad : c = 0x3D → d.byteCount < 2) :
    (getch d).1 = true ∧ (getch d).2.error = true := by
  obtain ⟨r, hr, hskip⟩ := skipSpaces_of_cons h
  rw [getch, hskip]
  dsimp only
  split_ifs with h0 hmark hcount
  · exact ⟨rfl, rfl⟩
  · exact absurd (hdigit _ ((digit_iff c _).mpr (Int.toNat_of_nonneg h0).symm)) hmark
  · exact absurd (hpad hcount.2) (by omega)
  · exact ⟨rfl, rfl⟩

/-! ## One group -/

theorem group_bytes {a b c e : ℕ} (hc : c < 64) (he : e < 64) :
    UInt8.ofNat ((((a * 64 + b) * 64 + c) * 64 + e) >>> 16) = byte1 a b ∧
      UInt8.ofNat ((((a * 64 + b) * 64 + c) * 64 + e) >>> 8) = byte2 b c ∧
      UInt8.ofNat (((a * 64 + b) * 64 + c) * 64 + e) = byte3 c e := by
  refine ⟨?_, ?_, ?_⟩
  · rw [byte1, Nat.shiftRight_eq_div_pow]
    congr 1
    omega
  · rw [byte2, Nat.shiftRight_eq_div_pow]
    apply UInt8.toNat_inj.mp
    rw [UInt8.toNat_ofNat', UInt8.toNat_ofNat']
    omega
  · rw [byte3]
    apply UInt8.toNat_inj.mp
    rw [UInt8.toNat_ofNat', UInt8.toNat_ofNat']
    omega

/-- How a group can go: there is none, it is a whole one, it is one of the last ones, or it is none of these and ends with
an error. -/
inductive Group (t : List UInt8) : Bool × FromBase64 → Prop where
  | none {d : FromBase64} (ht : t = []) (herror : d.error = false) (hsrc : d.src = []) : Group t (true, d)
  | whole {c1 c2 c3 c4 : UInt8} {a b c e : ℕ} {r : List UInt8} (h1 : Digit c1 a) (h2 : Digit c2 b) (h3 : Digit c3 c)
    (h4 : Digit c4 e) (ht : t = c1 :: c2 :: c3 :: c4 :: strip r) :
    Group t (false, ⟨r, ((a * 64 + b) * 64 + c) * 64 + e, false, 4, 0⟩)
  /-- Three characters and a `=`. -/
  | pad1 {c1 c2 c3 : UInt8} {a b c : ℕ} {r : List UInt8} (h1 : Digit c1 a) (h2 : Digit c2 b) (h3 : Digit c3 c)
    (ht : t = c1 :: c2 :: c3 :: 0x3D :: strip r) : Group t (false, ⟨r, ((a * 64 + b) * 64 + c) * 64, false, 4, 1⟩)
  /-- Two characters and two `=`. -/
  | pad2 {c1 c2 : UInt8} {a b : ℕ} {r : List UInt8} (h1 : Digit c1 a) (h2 : Digit c2 b)
    (ht : t = c1 :: c2 :: 0x3D :: 0x3D :: strip r) : Group t (false, ⟨r, (a * 64 + b) * 64 * 64, false, 4, 2⟩)
  | bad {d : FromBase64} (ht : ∀ out, ¬ Base64Text t out) (herror : d.error = true) : Group t (true, d)

theorem getchs_of_stop (h : (getch d).1 = true) : getchs (n + 1) d = (true, (getch d).2) := by
  rw [getchs, if_pos h, ← h]

theorem getchs_of_go {d' : FromBase64} (h : getch d = (false, d')) : getchs (n + 1) d = getchs n d' := by
  rw [getchs, h]
  exact if_neg Bool.false_ne_true

theorem group_of_stop (h : (getch d).1 = true ∧ (getch d).2.error = true)
    (ht : ∀ out, ¬ Base64Text t out) : Group t (getchs (n + 1) d) := by
  rw [getchs_of_stop h.1]
  exact Group.bad ht h.2

theorem group_of_end (h : strip d.src = []) (hcount : 0 < d.byteCount)
    (ht : ∀ out, ¬ Base64Text t out) : Group t (getchs (n + 1) d) := by
  refine group_of_stop ?_ ht
  rw [getch_of_nil h]
  exact ⟨rfl, by simp [hcount]⟩

/-- **What the four calls of `udm_from_base64_getch` make of a group.** -/
theorem group_getchs {d : FromBase64} (herror : d.error = false) (hmark : d.markCount = 0) (hbits : d.bits = 0)
    (hcount : d.byteCount = 0) : Group (strip d.src) (getchs 4 d) := by
  generalize ht : strip d.src = t
  -- the first character
  rcases t with _ | ⟨c1, t⟩
  · rw [getchs_of_stop (by rw [getch_of_nil ht]), getch_of_nil ht]
    exact Group.none rfl (by simp [herror, hcount]) rfl
  by_cases h1 : ∃ a, Digit c1 a
  swap
  · refine group_of_stop (getch_stop ht (fun i hi => absurd ⟨i, hi⟩ h1) fun _ => by omega) fun out hout => ?_
    cases hout with
    | group h _ _ _ _ => exact h1 ⟨_, h⟩
    | pad1 h _ _ => exact h1 ⟨_, h⟩
    | pad2 h _ => exact h1 ⟨_, h⟩
  obtain ⟨a, h1⟩ := h1
  obtain ⟨r1, hr1, hgo⟩ := getch_digit ht h1 hmark
  rw [getchs_of_go hgo, hbits, hcount, hmark, herror]
  -- the second one
  rcases t with _ | ⟨c2, t⟩
  · refine group_of_end hr1 Nat.one_pos fun out hout => ?_
    cases hout
  by_cases h2 : ∃ b, Digit c2 b
  swap
  · refine group_of_stop (getch_stop hr1 (fun i hi => absurd ⟨i, hi⟩ h2) fun _ => Nat.lt_succ_self 1) fun out hout => ?_
    cases hout with
    | group _ h _ _ _ => exact h2 ⟨_, h⟩
    | pad1 _ h _ => exact h2 ⟨_, h⟩
    | pad2 _ h => exact h2 ⟨_, h⟩
  obtain ⟨b, h2⟩ := h2
  obtain ⟨r2, hr2, hgo⟩ := getch_digit (d := ⟨r1, 0 * 64 + a, false, 0 + 1, 0⟩) hr1 h2 rfl
  rw [getchs_of_go hgo]
  -- the third one, or a `=`
  rcases t with _ | ⟨c3, t⟩
  · refine group_of_end hr2 Nat.two_pos fun out hout => ?_
    cases hout
  by_cases h3 : ∃ c, Digit c3 c
  · obtain ⟨c, h3⟩ := h3
    obtain ⟨r3, hr3, hgo⟩ := getch_digit (d := ⟨r2, (0 * 64 + a) * 64 + b, false, 0 + 1 + 1, 0⟩) hr2 h3 rfl
    rw [getchs_of_go hgo]
    -- the fourth one, or a `=`
    rcases t with _ | ⟨c4, t⟩
    · refine group_of_end hr3 (Nat.succ_pos 2) fun out hout => ?_
      cases hout
    by_cases h4 : ∃ e, Digit c4 e
    · obtain ⟨e, h4⟩ := h4
      obtain ⟨r4, hr4, hgo⟩ := getch_digit (d := ⟨r3, ((0 * 64 + a) * 64 + b) * 64 + c, false, 0 + 1 + 1 + 1, 0⟩) hr3 h4 rfl
      rw [getchs_of_go hgo]
      simpa only [getchs, Nat.zero_mul, Nat.zero_add] using
        @Group.whole _ _ _ _ _ _ _ _ _ r4 h1 h2 h3 h4 (by rw [hr4])
    · by_cases hpad : c4 = 0x3D
      · subst hpad
        obtain ⟨r4, hr4, hgo⟩ := getch_pad (d := ⟨r3, ((0 * 64 + a) * 64 + b) * 64 + c, false, 0 + 1 + 1 + 1, 0⟩) hr3
          (Nat.le_succ 2)
        rw [getchs_of_go hgo]
        simpa only [getchs, Nat.zero_mul, Nat.zero_add] using @Group.pad1 _ _ _ _ _ _ _ r4 h1 h2 h3 (by rw [hr4])
      · refine group_of_stop (getch_stop hr3 (fun i hi => absurd ⟨i, hi⟩ h4) fun h => absurd h hpad) fun out hout => ?_
        cases hout with
        | group _ _ _ h _ => exact h4 ⟨_, h⟩
        | pad1 _ _ _ => exact hpad rfl
        | pad2 _ _ => exact hpad rfl
  · by_cases hpad : c3 = 0x3D
    · subst hpad
      obtain ⟨r3, hr3, hgo⟩ := getch_pad (d := ⟨r2, (0 * 64 + a) * 64 + b, false, 0 + 1 + 1, 0⟩) hr2 le_rfl
      rw [getchs_of_go hgo]
      rcases t with _ | ⟨c4, t⟩
      · refine group_of_end hr3 (Nat.succ_pos 2) fun out hout => ?_
        cases hout
      by_cases hpad : c4 = 0x3D
      · subst hpad
        obtain ⟨r4, hr4, hgo⟩ := getch_pad (d := ⟨r3, ((0 * 64 + a) * 64 + b) * 64, false, 0 + 1 + 1 + 1, 0 + 1⟩) hr3
          (Nat.le_succ 2)
        rw [getchs_of_go hgo]
        simpa only [getchs, Nat.zero_mul, Nat.zero_add] using @Group.pad2 _ _ _ _ _ r4 h1 h2 (by rw [hr4])
      · refine group_of_stop (getch_stop hr3 (fun i _ => by simp) fun h => absurd h hpad) fun out hout => ?_
        cases hout with
        | group _ _ h _ _ => exact h3 ⟨_, h⟩
        | pad1 _ _ _ => exact hpad rfl
        | pad2 _ _ => exact hpad rfl
    · refine group_of_stop (getch_stop hr2 (fun i hi => absurd ⟨i, hi⟩ h3) fun h => absurd h hpad) fun out hout => ?_
      cases hout with
      | group _ _ h _ _ => exact h3 ⟨_, h⟩
      | pad1 _ _ h => exact h3 ⟨_, h⟩
      | pad2 _ _ => exact hpad rfl

/-! ## All groups -/

theorem base64Text_pad1 {c : ℕ} (h3 : Digit c3 c) (h : Base64Text (c1 :: c2 :: c3 :: 0x3D :: t) out) : t = [] := by
  cases h with
  | group _ _ _ h4 _ => exact absurd h4 (not_digit_pad _)
  | pad1 _ _ _ => rfl
  | pad2 _ _ => rfl

theorem base64Text_pad2 (h : Base64Text (c1 :: c2 :: 0x3D :: 0x3D :: t) out) : t = [] := by
  cases h with
  | group _ _ h3 _ _ => exact absurd h3 (not_digit_pad _)
  | pad1 _ _ _ => rfl
  | pad2 _ _ => rfl

theorem base64Text_group {c4 : UInt8} (h4 : Digit c4 e)
    (h : Base64Text (c1 :: c2 :: c3 :: c4 :: t) out) : ∃ out', Base64Text t out' := by
  cases h with
  | group _ _ _ _ hrest => exact ⟨_, hrest⟩
  | pad1 _ _ _ => exact absurd h4 (not_digit_pad _)
  | pad2 _ _ => exact absurd h4 (not_digit_pad _)

theorem take_group (x y z : UInt8) (l : List UInt8) (n : ℕ) : ([x, y, z] ++ l).take (3 + n) = x :: y :: z :: l.take n := by
  rw [Nat.add_comm]
  rfl

theorem loop_pad {bytes : List UInt8} (herror : d.error = false)
    (hout : bytes.take n = out) (hnil : strip d.src = [] → Base64Text t out)
    (hcons : ∀ out', Base64Text t out' → strip d.src = []) :
    (∃ out, Base64Text t out ∧ bytes.take n = out ∧ d.error = false ∧ strip d.src = []) ∨
      (∀ out, ¬ Base64Text t out) ∧ (d.error = true ∨ strip d.src ≠ []) := by
  by_cases h : strip d.src = []
  · exact Or.inl ⟨out, hnil h, hout, herror, h⟩
  · exact Or.inr ⟨fun out' hout' => h (hcons out' hout'), Or.inr h⟩

/-- **The loop of `UdmBase64Decode`.** -/
theorem base64Loop_cases (fuel : ℕ) (d : FromBase64) (hfuel : d.src.length < fuel) (herror : d.error = false)
    (hmark : d.markCount = 0) :
    (∃ out, Base64Text (strip d.src) out ∧ (base64Loop fuel d).1.take (base64Loop fuel d).2.1 = out ∧
        (base64Loop fuel d).2.2.error = false ∧ strip (base64Loop fuel d).2.2.src = []) ∨
      (∀ out, ¬ Base64Text (strip d.src) out) ∧
        ((base64Loop fuel d).2.2.error = true ∨ strip (base64Loop fuel d).2.2.src ≠ []) := by
  induction fuel generalizing d with
  | zero => omega
  | succ fuel ih =>
    rw [base64Loop]
    dsimp only
    have hgroup := @group_getchs { d with bits := 0, byteCount := 0 } herror hmark rfl rfl
    have hread := @length_getchs_le 4 { d with bits := 0, byteCount := 0 }
    generalize getchs 4 { d with bits := 0, byteCount := 0 } = r at hgroup hread ⊢
    dsimp only at hgroup hread
    generalize strip d.src = t at hgroup ⊢
    cases hgroup with
    | none ht herror hsrc =>
      rw [if_pos rfl, ht]
      exact Or.inl ⟨[], Base64Text.nil, rfl, herror, by rw [hsrc]; rfl⟩
    | bad ht herror =>
      rw [if_pos rfl]
      exact Or.inr ⟨ht, Or.inl herror⟩
    | @pad1 c1 c2 c3 a b c r h1 h2 h3 ht =>
      rw [if_neg Bool.false_ne_true, if_pos Nat.one_ne_zero]
      have hbytes := @group_bytes a b c 0 h3.lt (Nat.succ_pos 63)
      refine loop_pad rfl rfl (fun hr => ?_) fun out' hout' => ?_
      · dsimp only at hr ⊢
        rw [Nat.add_zero] at hbytes
        rw [ht, hr, hbytes.1, hbytes.2.1]
        exact Base64Text.pad1 h1 h2 h3
      · rw [ht] at hout'
        exact base64Text_pad1 h3 hout'
    | @pad2 c1 c2 a b r h1 h2 ht =>
      rw [if_neg Bool.false_ne_true, if_pos (Nat.succ_ne_zero 1)]
      have hbytes := @group_bytes a b 0 0 (Nat.succ_pos 63) (Nat.succ_pos 63)
      refine loop_pad rfl rfl (fun hr => ?_) fun out' hout' => ?_
      · dsimp only at hr ⊢
        rw [Nat.add_zero, Nat.add_zero] at hbytes
        rw [ht, hr, hbytes.1]
        exact Base64Text.pad2 h1 h2
      · rw [ht] at hout'
        exact base64Text_pad2 hout'
    | @whole c1 c2 c3 c4 a b c e r h1 h2 h3 h4 ht =>
      rw [if_neg Bool.false_ne_true, if_neg (not_not.mpr rfl)]
      have hle := hread rfl
      dsimp only at hle
      obtain ⟨hbyte1, hbyte2, hbyte3⟩ := @group_bytes a b c e h3.lt h4.lt
      rw [hbyte1, hbyte2, hbyte3]
      rcases ih ⟨r, _, false, 4, 0⟩ (by dsimp only; omega) rfl rfl with ⟨out, hout, htake, hrest⟩ | ⟨hout, hrest⟩
      · refine Or.inl ⟨byte1 a b :: byte2 b c :: byte3 c e :: out, ?_, ?_, hrest⟩
        · rw [ht]
          exact Base64Text.group h1 h2 h3 h4 hout
        · rw [← htake]
          exact take_group _ _ _ _ _
      · refine Or.inr ⟨fun out' hout' => ?_, hrest⟩
        rw [ht] at hout'
        obtain ⟨out, h⟩ := base64Text_group h4 hout'
        exact hout out h

/-- **What `UdmBase64Decode` gives**: the bytes of a text, or nothing. -/
theorem udmBase64Decode_cases (src : List UInt8) :
    (∃ n, Base64Text (strip src) ((udmBase64Decode src).1.take n) ∧ n ≤ (udmBase64Decode src).1.length ∧
        (udmBase64Decode src).2 = some n) ∨
      (∀ out, ¬ Base64Text (strip src) out) ∧ (udmBase64Decode src).2 = none := by
  have hcount := (base64Loop_spec (src.length + 1) ⟨src, 0, false, 0, 0⟩).2
  have hcases := base64Loop_cases (src.length + 1) ⟨src, 0, false, 0, 0⟩ (Nat.lt_succ_self _) rfl rfl
  rw [udmBase64Decode]
  dsimp only at hcases ⊢
  generalize base64Loop (src.length + 1) ⟨src, 0, false, 0, 0⟩ = r at hcount hcases ⊢
  rcases hcases with ⟨out, htext, hout, herror, hsrc⟩ | ⟨hno, hbad⟩
  · refine Or.inl ⟨r.2.1, by rwa [hout], hcount, ?_⟩
    rw [@skipSpaces_of_nil { r.2.2 with byteCount := 0 } hsrc]
    simp [herror]
  · refine Or.inr ⟨hno, if_pos ?_⟩
    -- behind the last group there is an error or something else
    generalize hrest : strip r.2.2.src = t at hbad
    rcases t with _ | ⟨c, t⟩
    · rw [@skipSpaces_of_nil { r.2.2 with byteCount := 0 } hrest]
      exact Or.inl (by simpa using hbad)
    · obtain ⟨_, -, hskip⟩ := @skipSpaces_of_cons { r.2.2 with byteCount := 0 } _ _ hrest
      rw [hskip]
      exact Or.inr rfl

/-! ## There and back -/

theorem Digit.inj {j : ℕ} (hi : Digit c i) (hj : Digit c j) : i = j := by
  have h := ((digit_iff c i).mp hi).symm.trans ((digit_iff c j).mp hj)
  exact_mod_cast h

theorem Base64Text.det {out' : List UInt8} (h : Base64Text t out) (h' : Base64Text t out') : out = out' := by
  induction h generalizing out' with
  | nil =>
    cases h'
    rfl
  | group h1 h2 h3 h4 _ ih =>
    cases h' with
    | group h1' h2' h3' h4' hrest =>
      rw [h1.inj h1', h2.inj h2', h3.inj h3', h4.inj h4', ih hrest]
    | pad1 _ _ _ => exact absurd h4 (not_digit_pad _)
    | pad2 _ _ => exact absurd h4 (not_digit_pad _)
  | pad1 h1 h2 h3 =>
    cases h' with
    | group _ _ _ h4' _ => exact absurd h4' (not_digit_pad _)
    | pad1 h1' h2' h3' => rw [h1.inj h1', h2.inj h2', h3.inj h3']
    | pad2 _ _ => exact absurd h3 (not_digit_pad _)
  | pad2 h1 h2 =>
    cases h' with
    | group _ _ h3' _ _ => exact absurd h3' (not_digit_pad _)
    | pad1 _ _ h3' => exact absurd h3' (not_digit_pad _)
    | pad2 h1' h2' => rw [h1.inj h1', h2.inj h2']

theorem byte1_encode (x : UInt8) (hb : b / 16 = x.toNat % 4) : byte1 (x.toNat / 4) b = x := by
  have hx := x.toNat_lt
  rw [byte1, ← UInt8.toNat_inj, UInt8.toNat_ofNat']
  omega

theorem byte2_encode (x : UInt8) {c : ℕ} (hb : b % 16 = x.toNat / 16) (hc : c / 4 = x.toNat % 16) : byte2 b c = x := by
  have hx := x.toNat_lt
  rw [byte2, ← UInt8.toNat_inj, UInt8.toNat_ofNat']
  omega

theorem byte3_encode (x : UInt8) {c : ℕ} (hc : c % 4 = x.toNat / 64) (he : e = x.toNat % 64) : byte3 c e = x := by
  have hx := x.toNat_lt
  rw [byte3, ← UInt8.toNat_inj, UInt8.toNat_ofNat']
  omega

theorem and_mask (x : ℕ) : x &&& 3 = x % 4 ∧ x &&& 0xF = x % 16 ∧ x &&& 0x3F = x % 64 :=
  ⟨Nat.and_two_pow_sub_one_eq_mod x 2, Nat.and_two_pow_sub_one_eq_mod x 4, Nat.and_two_pow_sub_one_eq_mod x 6⟩

/-- **`udm_base64_encode` writes a text that stands for its argument.** -/
theorem base64Text_encode (s : List UInt8) : Base64Text (udmBase64Encode s) s := by
  induction s using udmBase64Encode.induct with
  | case1 => exact Base64Text.nil
  | case2 s0 =>
    have h0 := s0.toNat_lt
    have htext := @Base64Text.pad2 _ _ _ _ (@digit_getD (s0.toNat / 4) (by omega))
      (@digit_getD (s0.toNat % 4 * 16) (by omega))
    rw [byte1_encode s0 (by omega)] at htext
    simpa only [udmBase64Encode, Nat.shiftRight_eq_div_pow, Nat.shiftLeft_eq, and_mask] using htext
  | case3 s0 s1 =>
    have h0 := s0.toNat_lt
    have h1 := s1.toNat_lt
    have htext := @Base64Text.pad1 _ _ _ _ _ _ (@digit_getD (s0.toNat / 4) (by omega))
      (@digit_getD (s0.toNat % 4 * 16 + s1.toNat / 16) (by omega)) (@digit_getD (s1.toNat % 16 * 4) (by omega))
    rw [byte1_encode s0 (by omega), byte2_encode s1 (by omega) (by omega)] at htext
    simpa only [udmBase64Encode, Nat.shiftRight_eq_div_pow, Nat.shiftLeft_eq, and_mask] using htext
  | case4 s0 s1 s2 s ih =>
    have h0 := s0.toNat_lt
    have h1 := s1.toNat_lt
    have h2 := s2.toNat_lt
    have htext := Base64Text.group (@digit_getD (s0.toNat / 4) (by omega))
      (@digit_getD (s0.toNat % 4 * 16 + s1.toNat / 16) (by omega))
      (@digit_getD (s1.toNat % 16 * 4 + s2.toNat / 64) (by omega))
      (@digit_getD (s2.toNat % 64) (by omega)) ih
    rw [byte1_encode s0 (by omega), byte2_encode s1 (by omega) (by omega), byte3_encode s2 (by omega) rfl] at htext
    simpa only [udmBase64Encode, Nat.shiftRight_eq_div_pow, Nat.shiftLeft_eq, and_mask] using htext

/-! ## The assertions -/

/-- `UDM_ASSERT(d->byte_count == 3)` and `UDM_ASSERT(0)` of `udm_from_base64_getch`. -/
def getchAsserts (d : FromBase64) : Prop :=
  match (skipSpaces d).2.src with
  | [] => True
  | c :: _ =>
    if 0 ≤ fromBase64Map c then (skipSpaces d).2.markCount ≠ 0 → (skipSpaces d).2.byteCount = 3
    else (skipSpaces d).2.byteCount ≤ 3

instance (d : FromBase64) : Decidable (getchAsserts d) := by
  unfold getchAsserts
  split <;> infer_instance

/-- `udm_from_base64_getch` with its assertions: there is no value if one fails. -/
def getchAsserted (d : FromBase64) : Option (Bool × FromBase64) := if getchAsserts d then some (getch d) else none

/-- `getchs` with the assertions. -/
def getchsAsserted : ℕ → FromBase64 → Option (Bool × FromBase64)
  | 0, d => some (false, d)
  | n + 1, d => (getchAsserted d).bind fun r => if r.1 then some r else getchsAsserted n r.2

/-- `base64Loop` with the assertions. -/
def base64LoopAsserted : ℕ → FromBase64 → Option (List UInt8 × ℕ × FromBase64)
  | 0, d => some ([], 0, d)
  | fuel + 1, d =>
    (getchsAsserted 4 { d with bits := 0, byteCount := 0 }).bind fun r =>
      if r.1 then some ([], 0, r.2)
      else
        let bytes := [UInt8.ofNat (r.2.bits >>> 16), UInt8.ofNat (r.2.bits >>> 8), UInt8.ofNat r.2.bits]
        if r.2.markCount ≠ 0 then some (bytes, 3 - r.2.markCount, r.2)
        else (base64LoopAsserted fuel r.2).map fun rest => (bytes ++ rest.1, 3 + rest.2.1, rest.2.2)

/-- `UdmBase64Decode` with the assertions. -/
def udmBase64DecodeAsserted (src : List UInt8) : Option (List UInt8 × Option ℕ) :=
  (base64LoopAsserted (src.length + 1) ⟨src, 0, false, 0, 0⟩).map fun r =>
    let d := (skipSpaces { r.2.2 with byteCount := 0 })
    (r.1, if d.2.error ∨ d.1 = false then none else some r.2.1)

/-- With `n` characters of a group to be read: a `=` is the third or the fourth one. -/
def InGroup (n : ℕ) (d : FromBase64) : Prop := d.byteCount + n = 4 ∧ (d.markCount ≠ 0 → 3 ≤ d.byteCount)

theorem getchAsserted_eq (h : InGroup (n + 1) d) : getchAsserted d = some (getch d) := by
  obtain ⟨hcount, hmark⟩ := h
  have hskip : (skipSpaces d).2.markCount = d.markCount ∧ (skipSpaces d).2.byteCount = d.byteCount := ⟨rfl, rfl⟩
  rw [getchAsserted, if_pos]
  rw [getchAsserts, hskip.1, hskip.2]
  cases (skipSpaces d).2.src with
  | nil => trivial
  | cons c src =>
    dsimp only
    by_cases hc : 0 ≤ fromBase64Map c
    · rw [if_pos hc]
      intro h
      have := hmark h
      omega
    · rw [if_neg hc]
      omega

theorem inGroup_getch (h : InGroup (n + 1) d) (hgo : (getch d).1 = false) : InGroup n (getch d).2 := by
  obtain ⟨hcount, hmark⟩ := h
  have hskip : (skipSpaces d).2.markCount = d.markCount ∧ (skipSpaces d).2.byteCount = d.byteCount := ⟨rfl, rfl⟩
  rw [getch] at hgo ⊢
  rw [hskip.1, hskip.2] at hgo ⊢
  cases hsrc : (skipSpaces d).2.src with
  | nil =>
    rw [hsrc] at hgo
    cases hgo
  | cons c src =>
    rw [hsrc] at hgo
    dsimp only at hgo ⊢
    split_ifs at hgo ⊢ with h0 hzero hpad
    · exact ⟨by dsimp only; omega, fun h => absurd h hzero⟩
    · exact ⟨by dsimp only; omega, fun _ => by dsimp only; omega⟩

theorem getchsAsserted_eq (h : InGroup n d) : getchsAsserted n d = some (getchs n d) := by
  induction n generalizing d with
  | zero => rfl
  | succ n ih =>
    rw [getchsAsserted, getchAsserted_eq h, Option.bind_some, getchs]
    cases hgo : (getch d).1 with
    | true => rw [if_pos rfl, if_pos rfl]
    | false => rw [if_neg Bool.false_ne_true, if_neg Bool.false_ne_true, ih (inGroup_getch h hgo)]

theorem base64LoopAsserted_eq {fuel : ℕ} (hmark : d.markCount = 0) :
    base64LoopAsserted fuel d = some (base64Loop fuel d) := by
  induction fuel generalizing d with
  | zero => rfl
  | succ fuel ih =>
    have hgroup : InGroup 4 { d with bits := 0, byteCount := 0 } := ⟨rfl, fun h => absurd hmark h⟩
    rw [base64LoopAsserted, getchsAsserted_eq hgroup, Option.bind_some, base64Loop]
    generalize getchs 4 { d with bits := 0, byteCount := 0 } = r
    dsimp only
    split_ifs with hstop hzero
    · rfl
    · rfl
    · rw [ih (not_not.mp hzero), Option.map_some]

/-- **The assertions never fail.** -/
theorem udmBase64DecodeAsserted_eq (src : List UInt8) : udmBase64DecodeAsserted src = some (udmBase64Decode src) := by
  rw [udmBase64DecodeAsserted, base64LoopAsserted_eq rfl]
  rfl

/-! ## The whole -/

/-- The `int` that `UdmBase64Decode` returns. -/
def udmBase64DecodeInt (src : List UInt8) : ℤ :=
  match (udmBase64Decode src).2 with
  | none => -1
  | some n => (n : ℤ).bmod (2 ^ 32)

theorem udmBase64Decode_of_text (h : Base64Text (strip src) out) :
    (udmBase64Decode src).2 = some out.length ∧ (udmBase64Decode src).1.take out.length = out := by
  rcases udmBase64Decode_cases src with ⟨n, htext, hle, hn⟩ | ⟨hno, -⟩
  · have hout := h.det htext
    have hlen : out.length = n := by
      rw [hout, List.length_take, Nat.min_eq_left hle]
    exact ⟨by rw [hn, hlen], by rw [hlen, ← hout]⟩
  · exact absurd h (hno out)

theorem udmBase64Decode_isSome_iff (src : List UInt8) :
    (udmBase64Decode src).2.isSome = true ↔ ∃ out, Base64Text (strip src) out := by
  refine ⟨fun h => ?_, fun ⟨out, hout⟩ => by rw [(udmBase64Decode_of_text hout).1]; rfl⟩
  rcases udmBase64Decode_cases src with ⟨n, htext, -, -⟩ | ⟨-, hnone⟩
  · exact ⟨_, htext⟩
  · rw [hnone] at h
    cases h

theorem udmBase64DecodeInt_nonneg_iff (hsrc : src.length < 2 ^ 31) :
    0 ≤ udmBase64DecodeInt src ↔ (udmBase64Decode src).2.isSome = true := by
  rw [udmBase64DecodeInt]
  cases h : (udmBase64Decode src).2 with
  | none => simp
  | some n =>
    have hle := le_of_udmBase64Decode h
    have hlen := length_udmBase64Decode_le src
    dsimp only
    rw [Int.bmod_eq_of_le (by omega) (by omega)]
    simp

/-- **`UdmBase64Decode` accepts base64 with white space and nothing else, and inverts `udm_base64_encode`.** -/
theorem udmBase64Decode_exact :
    (∀ src : List UInt8, (udmBase64Decode src).2.isSome = true ↔ ∃ out, Base64Text (strip src) out) ∧
      (∀ src : List UInt8, src.length < 2 ^ 31 → (0 ≤ udmBase64DecodeInt src ↔ ∃ out, Base64Text (strip src) out)) ∧
      (∀ src out : List UInt8, Base64Text (strip src) out →
        (udmBase64Decode src).2 = some out.length ∧ (udmBase64Decode src).1.take out.length = out) ∧
      (∀ s src : List UInt8, strip src = udmBase64Encode s →
        (udmBase64Decode src).2 = some s.length ∧ (udmBase64Decode src).1.take s.length = s) ∧
      ∀ src : List UInt8, udmBase64DecodeAsserted src = some (udmBase64Decode src) := by
  refine ⟨udmBase64Decode_isSome_iff, fun src hsrc => ?_, fun src out h => udmBase64Decode_of_text h, fun s src h => ?_,
    udmBase64DecodeAsserted_eq⟩
  · rw [udmBase64DecodeInt_nonneg_iff hsrc, udmBase64Decode_isSome_iff]
  · refine udmBase64Decode_of_text ?_
    rw [h]
    exact base64Text_encode s

end MnoGoSearch.Http
