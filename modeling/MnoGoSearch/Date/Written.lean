import MnoGoSearch.Date.HttpDate
import MnoGoSearch.Lib.Calendar

/-!
# Dates as they are written

The formats that `UdmHttpDate2Time_t` (`date.c`) knows, each as a text with numbers, and what the masks say of them: a text
that a mask matches is written in the format, and no other format matches it.
-/

namespace MnoGoSearch.Date

open Lib.Calendar Url

/-! ## Numbers -/

/-- A digit. -/
def digit (n : ℕ) : UInt8 := UInt8.ofNat (0x30 + n)

/-- Two digits. -/
def dec2 (n : ℕ) : List UInt8 := [digit (n / 10), digit (n % 10)]

/-- Four digits. -/
def dec4 (n : ℕ) : List UInt8 := [digit (n / 1000), digit (n / 100 % 10), digit (n / 10 % 10), digit (n % 10)]

/-- `hh:mm:ss`. -/
def timeText (h m s : ℕ) : List UInt8 := dec2 h ++ 0x3A :: (dec2 m ++ 0x3A :: dec2 s)

/-- A date, `T` and a time. -/
def dateTimeText (c : Civil) : List UInt8 :=
  dec4 c.year ++ 0x2D :: (dec2 c.month ++ 0x2D :: (dec2 c.day ++ 0x54 :: timeText c.hour c.minute c.second))

/-- The numbers have as many digits as there is room for. -/
def Bounded (c : Civil) : Prop :=
  c.year < 10000 ∧ c.month < 100 ∧ c.day < 100 ∧ c.hour < 100 ∧ c.minute < 100 ∧ c.second < 100

/-- The names of the months. -/
def monthNames : List (List UInt8) :=
  [bytes "Jan", bytes "Feb", bytes "Mar", bytes "Apr", bytes "May", bytes "Jun", bytes "Jul", bytes "Aug", bytes "Sep",
    bytes "Oct", bytes "Nov", bytes "Dec"]

/-- The name of a month, from 0. -/
def monthName (k : ℕ) : List UInt8 := monthNames.getD k []

/-! ## Formats -/

/-- A time zone, and the seconds that it is before UTC; what is no offset is ignored. -/
inductive ZoneText : List UInt8 → ℤ → Prop
  | plus {h m : ℕ} (hh : h < 100) (hm : m < 100) : ZoneText (0x2B :: (dec2 h ++ dec2 m)) ((h * 60 + m) * 60)
  | minus {h m : ℕ} (hh : h < 100) (hm : m < 100) : ZoneText (0x2D :: (dec2 h ++ dec2 m)) (-((h * 60 + m) * 60))
  | other {s : List UInt8} (hs : ∀ h < 100, ∀ m < 100, s ≠ 0x2B :: (dec2 h ++ dec2 m) ∧ s ≠ 0x2D :: (dec2 h ++ dec2 m)) :
      ZoneText s 0

/-- A day in the format of `asctime`: two digits, or a space and a digit. -/
inductive DayText : List UInt8 → ℕ → Prop
  | two {d : ℕ} (hd : d < 100) : DayText (dec2 d) d
  | one {d : ℕ} (hd : d < 10) : DayText [0x20, digit d] d

/-- What a text says. -/
inductive Form where
  | timestamp (n : ℕ)
  /-- A date with the month as a number, and an offset. -/
  | numeric (c : Civil) (offset : ℤ)
  /-- A date with the name of the month, and an offset. -/
  | named (c : Civil) (offset : ℤ)

/-- The year for two digits. -/
def centuryYear (yy : ℕ) : ℕ := if yy < 70 then 2000 + yy else 1900 + yy

/-- **The formats.** A weekday is any text without a space. -/
inductive Written : List UInt8 → Form → Prop
  /-- `2004-01-02` -/
  | iso {y m d : ℕ} (hy : y < 10000) (hm : m < 100) (hd : d < 100) :
      Written (dec4 y ++ 0x2D :: (dec2 m ++ 0x2D :: dec2 d)) (.numeric ⟨y, m, d, 0, 0, 0⟩ 0)
  /-- `02.01.2005` -/
  | german {y m d : ℕ} (hy : y < 10000) (hm : m < 100) (hd : d < 100) :
      Written (dec2 d ++ 0x2E :: (dec2 m ++ 0x2E :: dec4 y)) (.numeric ⟨y, m, d, 0, 0, 0⟩ 0)
  /-- `2005-01-02T10:20:30Z` -/
  | w3c {c : Civil} (hc : Bounded c) : Written (dateTimeText c ++ [0x5A]) (.numeric c 0)
  /-- `2005-01-02T10:20:30.40Z` -/
  | w3cFraction {c : Civil} {f : ℕ} (hc : Bounded c) (hf : f < 100) :
      Written (dateTimeText c ++ 0x2E :: (dec2 f ++ [0x5A])) (.numeric c 0)
  /-- `2005-01-02T10:20:30+04:00` -/
  | w3cPlus {c : Civil} {oh om : ℕ} (hc : Bounded c) (hoh : oh < 100) (hom : om < 100) :
      Written (dateTimeText c ++ 0x2B :: (dec2 oh ++ 0x3A :: dec2 om)) (.numeric c ((oh * 60 + om) * 60))
  /-- `2005-01-02T10:20:30-04:00` -/
  | w3cMinus {c : Civil} {oh om : ℕ} (hc : Bounded c) (hoh : oh < 100) (hom : om < 100) :
      Written (dateTimeText c ++ 0x2D :: (dec2 oh ++ 0x3A :: dec2 om)) (.numeric c (-((oh * 60 + om) * 60)))
  /-- A timestamp of Unix, 9 or 10 digits. -/
  | timestamp {s : List UInt8} (hs : ∀ c ∈ s, isdigit c = true) (hlen : s.length = 9 ∨ s.length = 10) :
      Written s (.timestamp (digitsValue s))
  /-- `Sun, 06 Nov 1994 08:49:37 GMT` -/
  | rfc1123 {w zone : List UInt8} {y k d h mi s : ℕ} {offset : ℤ} (hw : (0x20 : UInt8) ∉ w) (hy : y < 10000) (hk : k < 12)
      (hd : d < 100) (hh : h < 100) (hmi : mi < 100) (hs : s < 100) (hzone : ZoneText zone offset) :
      Written (w ++ 0x20 :: (dec2 d ++ 0x20 :: (monthName k ++ 0x20 :: (dec4 y ++ 0x20 :: (timeText h mi s ++
        0x20 :: zone))))) (.named ⟨y, k + 1, d, h, mi, s⟩ offset)
  /-- `Sun, 6 Nov 1994 08:49:37 GMT` -/
  | rfc1123Short {w zone : List UInt8} {y k d h mi s : ℕ} {offset : ℤ} (hw : (0x20 : UInt8) ∉ w) (hy : y < 10000)
      (hk : k < 12) (hd : d < 10) (hh : h < 100) (hmi : mi < 100) (hs : s < 100) (hzone : ZoneText zone offset) :
      Written (w ++ 0x20 :: (digit d :: 0x20 :: (monthName k ++ 0x20 :: (dec4 y ++ 0x20 :: (timeText h mi s ++
        0x20 :: zone))))) (.named ⟨y, k + 1, d, h, mi, s⟩ offset)
  /-- `Sunday, 06-Nov-94 08:49:37 GMT` -/
  | rfc850 {w zone : List UInt8} {yy k d h mi s : ℕ} {offset : ℤ} (hw : (0x20 : UInt8) ∉ w) (hy : yy < 100) (hk : k < 12)
      (hd : d < 100) (hh : h < 100) (hmi : mi < 100) (hs : s < 100) (hzone : ZoneText zone offset) :
      Written (w ++ 0x20 :: (dec2 d ++ 0x2D :: (monthName k ++ 0x2D :: (dec2 yy ++ 0x20 :: (timeText h mi s ++
        0x20 :: zone))))) (.named ⟨centuryYear yy, k + 1, d, h, mi, s⟩ offset)
  /-- `Sun Nov  6 08:49:37 1994` -/
  | asctime {w day rest : List UInt8} {y k d h mi s : ℕ} (hw : (0x20 : UInt8) ∉ w) (hy : y < 10000) (hk : k < 12)
      (hday : DayText day d) (hh : h < 100) (hmi : mi < 100) (hs : s < 100) :
      Written (w ++ 0x20 :: (monthName k ++ 0x20 :: (day ++ 0x20 :: (timeText h mi s ++ 0x20 :: (dec4 y ++ rest)))))
        (.named ⟨y, k + 1, d, h, mi, s⟩ 0)

/-! ## Numbers and masks -/

/-- A character of a mask that stands for itself. -/
def isLiteral (m : UInt8) : Bool := m != 0x2A && m != 0x40 && m != 0x24 && m != 0x23 && m != 0x26 && m != 0x7E

variable {m c : UInt8} {name s mask : List UInt8} {k : ℕ}

theorem maskChar_of_isLiteral (hm : isLiteral m = true) (c : UInt8) : maskChar m c = (c == m) := by
  simp only [isLiteral, Bool.and_eq_true, bne_iff_ne] at hm
  obtain ⟨⟨⟨⟨⟨-, h₁⟩, h₂⟩, h₃⟩, h₄⟩, h₅⟩ := hm
  rw [maskChar, if_neg h₁, if_neg h₂, if_neg h₃, if_neg h₄, if_neg h₅]

theorem apCheckmask_cons (hm : m ≠ 0x2A) (c : UInt8) (t mask : List UInt8) :
    apCheckmask (c :: t) (m :: mask) = (maskChar m c && apCheckmask t mask) := by
  rw [apCheckmask, beq_eq_false_iff_ne.mpr hm]
  rfl

theorem exists_cons_of_apCheckmask (hm : m ≠ 0x2A)
    (h : apCheckmask s (m :: mask) = true) : ∃ c t, s = c :: t ∧ maskChar m c = true ∧ apCheckmask t mask = true := by
  rw [apCheckmask, beq_eq_false_iff_ne.mpr hm, Bool.false_or, Bool.and_eq_true] at h
  rcases s with _ | ⟨c, t⟩
  · exact absurd h.1 Bool.false_ne_true
  · exact ⟨c, t, rfl, h.1, h.2⟩

theorem maskChar_digit : ∀ n < 10, maskChar 0x23 (digit n) = true ∧ (digit n).toNat = 0x30 + n ∧ digit n ≠ 0x20 := by decide

theorem exists_digit (hc : isdigit c = true) : ∃ n < 10, c = digit n := by
  rw [isdigit, Bool.and_eq_true, decide_eq_true_eq, decide_eq_true_eq] at hc
  have hlo : 0x30 ≤ c.toNat := UInt8.le_iff_toNat_le.mp hc.1
  have hhi : c.toNat ≤ 0x39 := UInt8.le_iff_toNat_le.mp hc.2
  refine ⟨c.toNat - 0x30, by omega, ?_⟩
  rw [digit, Nat.add_sub_cancel' hlo, UInt8.ofNat_toNat]

section Render

variable {n : ℕ} {t mask : List UInt8}

theorem apCheckmask_digit (hn : n < 10) : apCheckmask (digit n :: t) (0x23 :: mask) = apCheckmask t mask := by
  rw [apCheckmask_cons (by decide), (maskChar_digit n hn).1, Bool.true_and]

theorem apCheckmask_dec2 (hn : n < 100) : apCheckmask (dec2 n ++ t) (0x23 :: 0x23 :: mask) = apCheckmask t mask := by
  rw [dec2, List.cons_append, List.cons_append, List.nil_append, apCheckmask_digit (by omega),
    apCheckmask_digit (Nat.mod_lt n (by decide))]

theorem apCheckmask_dec4 (hn : n < 10000) :
    apCheckmask (dec4 n ++ t) (0x23 :: 0x23 :: 0x23 :: 0x23 :: mask) = apCheckmask t mask := by
  simp only [dec4, List.cons_append, List.nil_append]
  rw [apCheckmask_digit (by omega), apCheckmask_digit (Nat.mod_lt _ (by decide)),
    apCheckmask_digit (Nat.mod_lt _ (by decide)), apCheckmask_digit (Nat.mod_lt _ (by decide))]

theorem apCheckmask_literal (hm : isLiteral m = true) : apCheckmask (m :: t) (m :: mask) = apCheckmask t mask := by
  have hstar : m ≠ 0x2A := by
    rintro rfl
    exact absurd hm (by decide)
  rw [apCheckmask_cons hstar, maskChar_of_isLiteral hm, beq_self_eq_true, Bool.true_and]

theorem exists_monthName {k : ℕ} (hk : k < 12) : ∃ a b c, monthName k = [a, b, c] ∧ maskChar 0x40 a = true ∧
    maskChar 0x24 b = true ∧ maskChar 0x24 c = true ∧ months.idxOf (packChars a b c) = k := by
  interval_cases k <;> exact ⟨_, _, _, rfl, by decide, by decide, by decide, by decide⟩

theorem exists_digit_of_apCheckmask (h : apCheckmask s (0x23 :: mask) = true) :
    ∃ n < 10, ∃ t, s = digit n :: t ∧ apCheckmask t mask = true := by
  obtain ⟨c, t, rfl, hc, ht⟩ := exists_cons_of_apCheckmask (by decide) h
  obtain ⟨n, hn, rfl⟩ := exists_digit hc
  exact ⟨n, hn, t, rfl, ht⟩

theorem exists_dec2_of_apCheckmask (h : apCheckmask s (0x23 :: 0x23 :: mask) = true) :
    ∃ n < 100, ∃ t, s = dec2 n ++ t ∧ apCheckmask t mask = true := by
  obtain ⟨a, ha, s₁, rfl, h₁⟩ := exists_digit_of_apCheckmask h
  obtain ⟨b, hb, t, rfl, h₂⟩ := exists_digit_of_apCheckmask h₁
  refine ⟨a * 10 + b, by omega, t, ?_, h₂⟩
  rw [dec2, show (a * 10 + b) / 10 = a by omega, show (a * 10 + b) % 10 = b by omega]
  rfl

theorem exists_dec4_of_apCheckmask (h : apCheckmask s (0x23 :: 0x23 :: 0x23 :: 0x23 :: mask) = true) :
    ∃ n < 10000, ∃ t, s = dec4 n ++ t ∧ apCheckmask t mask = true := by
  obtain ⟨a, ha, s₁, rfl, h₁⟩ := exists_digit_of_apCheckmask h
  obtain ⟨b, hb, s₂, rfl, h₂⟩ := exists_digit_of_apCheckmask h₁
  obtain ⟨c, hc, s₃, rfl, h₃⟩ := exists_digit_of_apCheckmask h₂
  obtain ⟨d, hd, t, rfl, h₄⟩ := exists_digit_of_apCheckmask h₃
  refine ⟨a * 1000 + b * 100 + c * 10 + d, by omega, t, ?_, h₄⟩
  rw [dec4, show (a * 1000 + b * 100 + c * 10 + d) / 1000 = a by omega,
    show (a * 1000 + b * 100 + c * 10 + d) / 100 % 10 = b by omega,
    show (a * 1000 + b * 100 + c * 10 + d) / 10 % 10 = c by omega,
    show (a * 1000 + b * 100 + c * 10 + d) % 10 = d by omega]
  rfl

theorem exists_literal_of_apCheckmask (hm : isLiteral m = true)
    (h : apCheckmask s (m :: mask) = true) : ∃ t, s = m :: t ∧ apCheckmask t mask = true := by
  have hstar : m ≠ 0x2A := by
    rintro rfl
    exact absurd hm (by decide)
  obtain ⟨c, t, rfl, hc, ht⟩ := exists_cons_of_apCheckmask hstar h
  rw [maskChar_of_isLiteral hm, beq_iff_eq] at hc
  exact ⟨t, by rw [hc], ht⟩

theorem exists_timeText_of_apCheckmask
    (h : apCheckmask s (0x23 :: 0x23 :: 0x3A :: 0x23 :: 0x23 :: 0x3A :: 0x23 :: 0x23 :: mask) = true) :
    ∃ h < 100, ∃ m < 100, ∃ sec < 100, ∃ t, s = timeText h m sec ++ t ∧ apCheckmask t mask = true := by
  obtain ⟨hour, hhour, s₁, rfl, h₁⟩ := exists_dec2_of_apCheckmask h
  obtain ⟨s₂, rfl, h₂⟩ := exists_literal_of_apCheckmask (by decide) h₁
  obtain ⟨m, hm, s₃, rfl, h₃⟩ := exists_dec2_of_apCheckmask h₂
  obtain ⟨s₄, rfl, h₄⟩ := exists_literal_of_apCheckmask (by decide) h₃
  obtain ⟨sec, hsec, t, rfl, h₅⟩ := exists_dec2_of_apCheckmask h₄
  refine ⟨hour, hhour, m, hm, sec, hsec, t, ?_, h₅⟩
  rw [timeText, List.append_assoc, List.cons_append, List.append_assoc, List.cons_append]

theorem apCheckmask_timeText {h m s : ℕ} (hh : h < 100) (hm : m < 100) (hs : s < 100) :
    apCheckmask (timeText h m s ++ t) (0x23 :: 0x23 :: 0x3A :: 0x23 :: 0x23 :: 0x3A :: 0x23 :: 0x23 :: mask) =
      apCheckmask t mask := by
  rw [timeText, List.append_assoc, List.cons_append, List.append_assoc, List.cons_append, apCheckmask_dec2 hh,
    apCheckmask_literal (by decide), apCheckmask_dec2 hm, apCheckmask_literal (by decide), apCheckmask_dec2 hs]

end Render

/-! ## A text is written in one format -/

/-- No character stands at the place of both. -/
def charClash (m m' : UInt8) : Bool :=
  if isLiteral m then !maskChar m' m
  else if isLiteral m' then !maskChar m m'
  else (m == 0x23 && m' == 0x40) || (m == 0x40 && m' == 0x23)

/-- Two masks that match no text both. -/
def clash : List UInt8 → List UInt8 → Bool
  | [], [] => false
  | [], m' :: _ => m' != 0x2A
  | m :: _, [] => m != 0x2A
  | m :: mask, m' :: mask' => m != 0x2A && m' != 0x2A && (charClash m m' || clash mask mask')

theorem maskChar_of_charClash {m' : UInt8} (h : charClash m m' = true) (hc : maskChar m c = true) :
    maskChar m' c = false := by
  rw [charClash] at h
  split_ifs at h with hm hm'
  · rw [maskChar_of_isLiteral hm, beq_iff_eq] at hc
    rw [hc]
    exact Bool.not_eq_true' _ ▸ h
  · rw [maskChar_of_isLiteral hm', beq_eq_false_iff_ne]
    rintro rfl
    rw [hc] at h
    exact absurd h (by decide)
  · have hdigit : ∀ c, isdigit c = true → maskChar 0x40 c = false :=
      fun c => @forall_byte (fun c => isdigit c = true → maskChar 0x40 c = false) (by decide +kernel) c
    rw [Bool.or_eq_true, Bool.and_eq_true, Bool.and_eq_true, beq_iff_eq, beq_iff_eq, beq_iff_eq, beq_iff_eq] at h
    rcases h with ⟨rfl, rfl⟩ | ⟨rfl, rfl⟩
    · exact hdigit c hc
    · by_contra hboth
      rw [Bool.not_eq_false] at hboth
      exact Bool.false_ne_true ((hdigit c hboth).symm.trans hc)

/-- **A text that one of the masks matches** is not matched by the other. -/
theorem apCheckmask_of_clash {mask mask' : List UInt8} (h : clash mask mask' = true) {s : List UInt8}
    (hs : apCheckmask s mask = true) : apCheckmask s mask' = false := by
  fun_induction clash mask mask' generalizing s with
  | case1 => exact absurd h Bool.false_ne_true
  | case2 m' mask' =>
    rw [apCheckmask, List.isEmpty_iff] at hs
    rw [hs, apCheckmask, beq_eq_false_iff_ne.mpr (bne_iff_ne.mp h)]
    rfl
  | case3 m mask =>
    obtain ⟨c, t, rfl, -, -⟩ := exists_cons_of_apCheckmask (bne_iff_ne.mp h) hs
    rfl
  | case4 m mask m' mask' ih =>
    rw [Bool.and_eq_true, Bool.and_eq_true, Bool.or_eq_true, bne_iff_ne, bne_iff_ne] at h
    obtain ⟨⟨hm, hm'⟩, hclash⟩ := h
    obtain ⟨c, t, rfl, hc, ht⟩ := exists_cons_of_apCheckmask hm hs
    rw [apCheckmask_cons hm']
    rcases hclash with hhere | hthere
    · rw [maskChar_of_charClash hhere hc, Bool.false_and]
    · rw [ih hthere ht, Bool.and_false]

theorem not_mem_of_apCheckmask (hmask : ∀ m ∈ mask, m ≠ 0x2A ∧ m ≠ 0x7E ∧ m ≠ 0x20)
    (hs : apCheckmask s mask = true) : (0x20 : UInt8) ∉ s := by
  induction mask generalizing s with
  | nil =>
    rw [apCheckmask, List.isEmpty_iff] at hs
    rw [hs]
    exact List.not_mem_nil
  | cons m mask ih =>
    obtain ⟨⟨hstar, htilde, hspace⟩, hrest⟩ := List.forall_mem_cons.mp hmask
    obtain ⟨c, t, rfl, hc, ht⟩ := exists_cons_of_apCheckmask hstar hs
    refine List.not_mem_cons_of_ne_of_not_mem ?_ (ih hrest ht)
    rintro rfl
    have hall : ∀ m : UInt8, m ≠ 0x7E → m ≠ 0x20 → maskChar m 0x20 = false := fun m =>
      @forall_byte (fun m => m ≠ 0x7E → m ≠ 0x20 → maskChar m 0x20 = false) (by decide +kernel) m
    exact Bool.false_ne_true ((hall m htilde hspace).symm.trans hc)

/-! ## What the masks match -/

theorem apCheckmask_nil_right : apCheckmask s [] = true ↔ s = [] := by rw [apCheckmask, List.isEmpty_iff]

theorem apCheckmask_iso : apCheckmask s (bytes "####-##-##") = true ↔
    ∃ y < 10000, ∃ m < 100, ∃ d < 100, s = dec4 y ++ 0x2D :: (dec2 m ++ 0x2D :: dec2 d) := by
  have hmask : bytes "####-##-##" = [0x23, 0x23, 0x23, 0x23, 0x2D, 0x23, 0x23, 0x2D, 0x23, 0x23] := by decide
  rw [hmask]
  constructor
  · intro h
    obtain ⟨y, hy, s₁, rfl, h₁⟩ := exists_dec4_of_apCheckmask h
    obtain ⟨s₂, rfl, h₂⟩ := exists_literal_of_apCheckmask (by decide) h₁
    obtain ⟨m, hm, s₃, rfl, h₃⟩ := exists_dec2_of_apCheckmask h₂
    obtain ⟨s₄, rfl, h₄⟩ := exists_literal_of_apCheckmask (by decide) h₃
    obtain ⟨d, hd, s₅, rfl, h₅⟩ := exists_dec2_of_apCheckmask h₄
    exact ⟨y, hy, m, hm, d, hd, by rw [apCheckmask_nil_right.mp h₅, List.append_nil]⟩
  · rintro ⟨y, hy, m, hm, d, hd, rfl⟩
    have hd' := @apCheckmask_dec2 d [] [] hd
    rw [List.append_nil] at hd'
    rw [apCheckmask_dec4 hy, apCheckmask_literal (by decide), apCheckmask_dec2 hm, apCheckmask_literal (by decide), hd']
    rfl

theorem apCheckmask_german : apCheckmask s (bytes "##.##.####") = true ↔
    ∃ y < 10000, ∃ m < 100, ∃ d < 100, s = dec2 d ++ 0x2E :: (dec2 m ++ 0x2E :: dec4 y) := by
  have hmask : bytes "##.##.####" = [0x23, 0x23, 0x2E, 0x23, 0x23, 0x2E, 0x23, 0x23, 0x23, 0x23] := by decide
  rw [hmask]
  constructor
  · intro h
    obtain ⟨d, hd, s₁, rfl, h₁⟩ := exists_dec2_of_apCheckmask h
    obtain ⟨s₂, rfl, h₂⟩ := exists_literal_of_apCheckmask (by decide) h₁
    obtain ⟨m, hm, s₃, rfl, h₃⟩ := exists_dec2_of_apCheckmask h₂
    obtain ⟨s₄, rfl, h₄⟩ := exists_literal_of_apCheckmask (by decide) h₃
    obtain ⟨y, hy, s₅, rfl, h₅⟩ := exists_dec4_of_apCheckmask h₄
    exact ⟨y, hy, m, hm, d, hd, by rw [apCheckmask_nil_right.mp h₅, List.append_nil]⟩
  · rintro ⟨y, hy, m, hm, d, hd, rfl⟩
    have hy' := @apCheckmask_dec4 y [] [] hy
    rw [List.append_nil] at hy'
    rw [apCheckmask_dec2 hd, apCheckmask_literal (by decide), apCheckmask_dec2 hm, apCheckmask_literal (by decide), hy']
    rfl

theorem apCheckmask_dateTime : apCheckmask s (bytes "####-##-##T##:##:##" ++ mask) = true ↔
    ∃ c, Bounded c ∧ ∃ t, s = dateTimeText c ++ t ∧ apCheckmask t mask = true := by
  have hmask : bytes "####-##-##T##:##:##" = [0x23, 0x23, 0x23, 0x23, 0x2D, 0x23, 0x23, 0x2D, 0x23, 0x23, 0x54,
    0x23, 0x23, 0x3A, 0x23, 0x23, 0x3A, 0x23, 0x23] := by decide
  rw [hmask]
  simp only [List.cons_append, List.nil_append]
  constructor
  · intro h
    obtain ⟨y, hy, s₁, rfl, h₁⟩ := exists_dec4_of_apCheckmask h
    obtain ⟨s₂, rfl, h₂⟩ := exists_literal_of_apCheckmask (by decide) h₁
    obtain ⟨m, hm, s₃, rfl, h₃⟩ := exists_dec2_of_apCheckmask h₂
    obtain ⟨s₄, rfl, h₄⟩ := exists_literal_of_apCheckmask (by decide) h₃
    obtain ⟨d, hd, s₅, rfl, h₅⟩ := exists_dec2_of_apCheckmask h₄
    obtain ⟨s₆, rfl, h₆⟩ := exists_literal_of_apCheckmask (by decide) h₅
    obtain ⟨hour, hhour, minute, hminute, sec, hsec, t, rfl, ht⟩ := exists_timeText_of_apCheckmask h₆
    refine ⟨⟨y, m, d, hour, minute, sec⟩, ⟨hy, hm, hd, hhour, hminute, hsec⟩, t, ?_, ht⟩
    simp only [dateTimeText, List.append_assoc, List.cons_append]
  · rintro ⟨c, ⟨hy, hm, hd, hhour, hminute, hsec⟩, t, rfl, ht⟩
    simp only [dateTimeText, List.append_assoc, List.cons_append]
    rw [apCheckmask_dec4 hy, apCheckmask_literal (by decide), apCheckmask_dec2 hm, apCheckmask_literal (by decide),
      apCheckmask_dec2 hd, apCheckmask_literal (by decide), apCheckmask_timeText hhour hminute hsec, ht]

theorem apCheckmask_w3c : apCheckmask s (bytes "####-##-##T##:##:##Z") = true ↔
    ∃ c, Bounded c ∧ s = dateTimeText c ++ [0x5A] := by
  have hmask : bytes "####-##-##T##:##:##Z" = bytes "####-##-##T##:##:##" ++ [0x5A] := by decide
  rw [hmask, apCheckmask_dateTime]
  refine exists_congr fun c => and_congr_right fun _ => ⟨?_, ?_⟩
  · rintro ⟨t, rfl, h⟩
    obtain ⟨u, rfl, hu⟩ := exists_literal_of_apCheckmask (by decide) h
    rw [apCheckmask_nil_right.mp hu]
  · rintro rfl
    exact ⟨_, rfl, by decide⟩

theorem apCheckmask_w3cFraction : apCheckmask s (bytes "####-##-##T##:##:##.##Z") = true ↔
    ∃ c, Bounded c ∧ ∃ f < 100, s = dateTimeText c ++ 0x2E :: (dec2 f ++ [0x5A]) := by
  have hmask : bytes "####-##-##T##:##:##.##Z" = bytes "####-##-##T##:##:##" ++ [0x2E, 0x23, 0x23, 0x5A] := by decide
  rw [hmask, apCheckmask_dateTime]
  refine exists_congr fun c => and_congr_right fun _ => ⟨?_, ?_⟩
  · rintro ⟨t, rfl, h⟩
    obtain ⟨u, rfl, hu⟩ := exists_literal_of_apCheckmask (by decide) h
    obtain ⟨f, hf, v, rfl, hv⟩ := exists_dec2_of_apCheckmask hu
    obtain ⟨w, rfl, hw⟩ := exists_literal_of_apCheckmask (by decide) hv
    exact ⟨f, hf, by rw [apCheckmask_nil_right.mp hw]⟩
  · rintro ⟨f, hf, rfl⟩
    refine ⟨_, rfl, ?_⟩
    rw [apCheckmask_literal (by decide), apCheckmask_dec2 hf]
    decide

theorem apCheckmask_w3cOffset {sign : UInt8} (hsign : isLiteral sign = true) :
    apCheckmask s (bytes "####-##-##T##:##:##" ++ sign :: bytes "##:##") = true ↔
      ∃ c, Bounded c ∧ ∃ oh < 100, ∃ om < 100, s = dateTimeText c ++ sign :: (dec2 oh ++ 0x3A :: dec2 om) := by
  have hmask : bytes "##:##" = [0x23, 0x23, 0x3A, 0x23, 0x23] := by decide
  rw [hmask, apCheckmask_dateTime]
  refine exists_congr fun c => and_congr_right fun _ => ⟨?_, ?_⟩
  · rintro ⟨t, rfl, h⟩
    obtain ⟨u, rfl, hu⟩ := exists_literal_of_apCheckmask hsign h
    obtain ⟨oh, hoh, v, rfl, hv⟩ := exists_dec2_of_apCheckmask hu
    obtain ⟨w, rfl, hw⟩ := exists_literal_of_apCheckmask (by decide) hv
    obtain ⟨om, hom, x, rfl, hx⟩ := exists_dec2_of_apCheckmask hw
    exact ⟨oh, hoh, om, hom, by rw [apCheckmask_nil_right.mp hx, List.append_nil]⟩
  · rintro ⟨oh, hoh, om, hom, rfl⟩
    have hom' := @apCheckmask_dec2 om [] [] hom
    rw [List.append_nil] at hom'
    refine ⟨_, rfl, ?_⟩
    rw [apCheckmask_literal hsign, apCheckmask_dec2 hoh, apCheckmask_literal (by decide), hom']
    rfl

theorem apCheckmask_digits (n : ℕ) : apCheckmask s (List.replicate n 0x23) = true ↔
    (∀ c ∈ s, isdigit c = true) ∧ s.length = n := by
  induction n generalizing s with
  | zero =>
    rw [List.replicate_zero, apCheckmask_nil_right]
    constructor
    · rintro rfl
      exact ⟨List.forall_mem_nil _, rfl⟩
    · exact fun h => List.length_eq_zero_iff.mp h.2
  | succ n ih =>
    rw [List.replicate_succ]
    constructor
    · intro h
      obtain ⟨c, t, rfl, hc, ht⟩ := exists_cons_of_apCheckmask (by decide) h
      obtain ⟨hdigits, hlen⟩ := ih.mp ht
      exact ⟨List.forall_mem_cons.mpr ⟨hc, hdigits⟩, by rw [List.length_cons, hlen]⟩
    · rintro ⟨hdigits, hlen⟩
      obtain ⟨c, t, rfl⟩ := List.exists_cons_of_length_eq_add_one hlen
      obtain ⟨hc, ht⟩ := List.forall_mem_cons.mp hdigits
      have hchar : maskChar 0x23 c = true := hc
      rw [apCheckmask_cons (by decide), hchar, Bool.true_and]
      exact ih.mpr ⟨ht, Nat.succ.inj hlen⟩

/-! ## The masks behind a weekday -/

/-- Three letters where the name of a month is expected. -/
def IsName (name : List UInt8) : Prop :=
  ∃ a b c, name = [a, b, c] ∧ maskChar 0x40 a = true ∧ maskChar 0x24 b = true ∧ maskChar 0x24 c = true

theorem isName_monthName (hk : k < 12) : IsName (monthName k) := by
  obtain ⟨a, b, c, hname, ha, hb, hc, -⟩ := exists_monthName hk
  exact ⟨a, b, c, hname, ha, hb, hc⟩

/-- The number of a month in the table, from 0; it is 12 for other names. -/
def monthIndex (name : List UInt8) : ℕ := months.idxOf (packChars (name.getD 0 0) (name.getD 1 0) (name.getD 2 0))

theorem packChars_eq (a b c : UInt8) : packChars a b c = a.toNat * 65536 + b.toNat * 256 + c.toNat := by
  have hb := b.toNat_lt
  have hc := c.toNat_lt
  have hlow : b.toNat <<< 8 ||| c.toNat = b.toNat * 256 + c.toNat := by
    rw [← Nat.shiftLeft_add_eq_or_of_lt (show c.toNat < 2 ^ 8 by omega), Nat.shiftLeft_eq]
  rw [packChars, Nat.or_assoc, hlow,
    ← Nat.shiftLeft_add_eq_or_of_lt (show b.toNat * 256 + c.toNat < 2 ^ 16 by omega), Nat.shiftLeft_eq, Nat.add_assoc]

theorem packChars_inj {a b a' b' c' : UInt8} (h : packChars a b c = packChars a' b' c') : a = a' ∧ b = b' ∧ c = c' := by
  have hb := b.toNat_lt
  have hc := c.toNat_lt
  have hb' := b'.toNat_lt
  have hc' := c'.toNat_lt
  rw [packChars_eq, packChars_eq] at h
  exact ⟨UInt8.toNat_inj.mp (by omega), UInt8.toNat_inj.mp (by omega), UInt8.toNat_inj.mp (by omega)⟩

theorem monthIndex_monthName (hk : k < 12) : monthIndex (monthName k) = k := by
  obtain ⟨a, b, c, hname, -, -, -, hidx⟩ := exists_monthName hk
  rw [hname]
  exact hidx

theorem monthIndex_le (name : List UInt8) : monthIndex name ≤ 12 := List.idxOf_le_length

/-- **A name in the table** is the name of a month. -/
theorem eq_monthName (hname : IsName name) (h : monthIndex name < 12) : name = monthName (monthIndex name) := by
  obtain ⟨a, b, c, rfl, -⟩ := hname
  obtain ⟨a', b', c', hmonth, -, -, -, hidx⟩ := exists_monthName h
  have hpack : packChars a b c = packChars a' b' c' := by
    have hleft : months[months.idxOf (packChars a b c)]? = some (packChars a b c) := List.getElem?_idxOf (by
      rw [← List.idxOf_lt_length_iff]
      exact h)
    have hright : months[months.idxOf (packChars a' b' c')]? = some (packChars a' b' c') := List.getElem?_idxOf (by
      rw [← List.idxOf_lt_length_iff, hidx]
      exact h)
    rw [hidx] at hright
    exact Option.some.inj (hleft.symm.trans hright)
  obtain ⟨rfl, rfl, rfl⟩ := packChars_inj hpack
  exact hmonth.symm

theorem apCheckmask_name {t : List UInt8} (hname : IsName name) :
    apCheckmask (name ++ t) (0x40 :: 0x24 :: 0x24 :: mask) = apCheckmask t mask := by
  obtain ⟨a, b, c, rfl, ha, hb, hc⟩ := hname
  rw [List.cons_append, List.cons_append, List.cons_append, List.nil_append, apCheckmask_cons (by decide), ha,
    apCheckmask_cons (by decide), hb, apCheckmask_cons (by decide), hc]
  rfl

theorem exists_name_of_apCheckmask (h : apCheckmask s (0x40 :: 0x24 :: 0x24 :: mask) = true) :
    ∃ name, IsName name ∧ ∃ t, s = name ++ t ∧ apCheckmask t mask = true := by
  obtain ⟨a, s₁, rfl, ha, h₁⟩ := exists_cons_of_apCheckmask (by decide) h
  obtain ⟨b, s₂, rfl, hb, h₂⟩ := exists_cons_of_apCheckmask (by decide) h₁
  obtain ⟨c, t, rfl, hc, h₃⟩ := exists_cons_of_apCheckmask (by decide) h₂
  exact ⟨[a, b, c], ⟨a, b, c, rfl, ha, hb, hc⟩, t, rfl, h₃⟩

theorem apCheckmask_timeSpace : apCheckmask s (bytes "##:##:## *") = true ↔
    ∃ h < 100, ∃ m < 100, ∃ sec < 100, ∃ zone, s = timeText h m sec ++ 0x20 :: zone := by
  have hmask : bytes "##:##:## *" = [0x23, 0x23, 0x3A, 0x23, 0x23, 0x3A, 0x23, 0x23, 0x20, 0x2A] := by decide
  rw [hmask]
  constructor
  · intro h
    obtain ⟨hour, hhour, minute, hminute, sec, hsec, t, rfl, ht⟩ := exists_timeText_of_apCheckmask h
    obtain ⟨zone, rfl, -⟩ := exists_literal_of_apCheckmask (by decide) ht
    exact ⟨hour, hhour, minute, hminute, sec, hsec, zone, rfl⟩
  · rintro ⟨hour, hhour, minute, hminute, sec, hsec, zone, rfl⟩
    rw [apCheckmask_timeText hhour hminute hsec, apCheckmask_literal (by decide)]
    rfl

theorem apCheckmask_rfc1123 : apCheckmask s (bytes "## @$$ #### ##:##:## *") = true ↔
    ∃ d < 100, ∃ name, IsName name ∧ ∃ y < 10000, ∃ t, apCheckmask t (bytes "##:##:## *") = true ∧
      s = dec2 d ++ 0x20 :: (name ++ 0x20 :: (dec4 y ++ 0x20 :: t)) := by
  have hmask : bytes "## @$$ #### ##:##:## *" = 0x23 :: 0x23 :: 0x20 :: 0x40 :: 0x24 :: 0x24 :: 0x20 :: 0x23 :: 0x23 ::
    0x23 :: 0x23 :: 0x20 :: bytes "##:##:## *" := by decide
  rw [hmask]
  constructor
  · intro h
    obtain ⟨d, hd, s₁, rfl, h₁⟩ := exists_dec2_of_apCheckmask h
    obtain ⟨s₂, rfl, h₂⟩ := exists_literal_of_apCheckmask (by decide) h₁
    obtain ⟨name, hname, s₃, rfl, h₃⟩ := exists_name_of_apCheckmask h₂
    obtain ⟨s₄, rfl, h₄⟩ := exists_literal_of_apCheckmask (by decide) h₃
    obtain ⟨y, hy, s₅, rfl, h₅⟩ := exists_dec4_of_apCheckmask h₄
    obtain ⟨t, rfl, ht⟩ := exists_literal_of_apCheckmask (by decide) h₅
    exact ⟨d, hd, name, hname, y, hy, t, ht, rfl⟩
  · rintro ⟨d, hd, name, hname, y, hy, t, ht, rfl⟩
    rw [apCheckmask_dec2 hd, apCheckmask_literal (by decide), apCheckmask_name hname, apCheckmask_literal (by decide),
      apCheckmask_dec4 hy, apCheckmask_literal (by decide), ht]

theorem apCheckmask_rfc1123Short : apCheckmask s (bytes "# @$$ #### ##:##:## *") = true ↔
    ∃ d < 10, ∃ name, IsName name ∧ ∃ y < 10000, ∃ t, apCheckmask t (bytes "##:##:## *") = true ∧
      s = digit d :: 0x20 :: (name ++ 0x20 :: (dec4 y ++ 0x20 :: t)) := by
  have hmask : bytes "# @$$ #### ##:##:## *" = 0x23 :: 0x20 :: 0x40 :: 0x24 :: 0x24 :: 0x20 :: 0x23 :: 0x23 ::
    0x23 :: 0x23 :: 0x20 :: bytes "##:##:## *" := by decide
  rw [hmask]
  constructor
  · intro h
    obtain ⟨d, hd, s₁, rfl, h₁⟩ := exists_digit_of_apCheckmask h
    obtain ⟨s₂, rfl, h₂⟩ := exists_literal_of_apCheckmask (by decide) h₁
    obtain ⟨name, hname, s₃, rfl, h₃⟩ := exists_name_of_apCheckmask h₂
    obtain ⟨s₄, rfl, h₄⟩ := exists_literal_of_apCheckmask (by decide) h₃
    obtain ⟨y, hy, s₅, rfl, h₅⟩ := exists_dec4_of_apCheckmask h₄
    obtain ⟨t, rfl, ht⟩ := exists_literal_of_apCheckmask (by decide) h₅
    exact ⟨d, hd, name, hname, y, hy, t, ht, rfl⟩
  · rintro ⟨d, hd, name, hname, y, hy, t, ht, rfl⟩
    rw [apCheckmask_digit hd, apCheckmask_literal (by decide), apCheckmask_name hname, apCheckmask_literal (by decide),
      apCheckmask_dec4 hy, apCheckmask_literal (by decide), ht]

theorem apCheckmask_rfc850 : apCheckmask s (bytes "##-@$$-## ##:##:## *") = true ↔
    ∃ d < 100, ∃ name, IsName name ∧ ∃ yy < 100, ∃ t, apCheckmask t (bytes "##:##:## *") = true ∧
      s = dec2 d ++ 0x2D :: (name ++ 0x2D :: (dec2 yy ++ 0x20 :: t)) := by
  have hmask : bytes "##-@$$-## ##:##:## *" = 0x23 :: 0x23 :: 0x2D :: 0x40 :: 0x24 :: 0x24 :: 0x2D :: 0x23 :: 0x23 ::
    0x20 :: bytes "##:##:## *" := by decide
  rw [hmask]
  constructor
  · intro h
    obtain ⟨d, hd, s₁, rfl, h₁⟩ := exists_dec2_of_apCheckmask h
    obtain ⟨s₂, rfl, h₂⟩ := exists_literal_of_apCheckmask (by decide) h₁
    obtain ⟨name, hname, s₃, rfl, h₃⟩ := exists_name_of_apCheckmask h₂
    obtain ⟨s₄, rfl, h₄⟩ := exists_literal_of_apCheckmask (by decide) h₃
    obtain ⟨yy, hyy, s₅, rfl, h₅⟩ := exists_dec2_of_apCheckmask h₄
    obtain ⟨t, rfl, ht⟩ := exists_literal_of_apCheckmask (by decide) h₅
    exact ⟨d, hd, name, hname, yy, hyy, t, ht, rfl⟩
  · rintro ⟨d, hd, name, hname, yy, hyy, t, ht, rfl⟩
    rw [apCheckmask_dec2 hd, apCheckmask_literal (by decide), apCheckmask_name hname, apCheckmask_literal (by decide),
      apCheckmask_dec2 hyy, apCheckmask_literal (by decide), ht]

theorem apCheckmask_asctime : apCheckmask s (bytes "@$$ ~# ##:##:## ####*") = true ↔
    ∃ name, IsName name ∧ ∃ day d, DayText day d ∧ ∃ h < 100, ∃ mi < 100, ∃ sec < 100, ∃ y < 10000, ∃ rest,
      s = name ++ 0x20 :: (day ++ 0x20 :: (timeText h mi sec ++ 0x20 :: (dec4 y ++ rest))) := by
  have hmask : bytes "@$$ ~# ##:##:## ####*" = [0x40, 0x24, 0x24, 0x20, 0x7E, 0x23, 0x20, 0x23, 0x23, 0x3A, 0x23, 0x23,
    0x3A, 0x23, 0x23, 0x20, 0x23, 0x23, 0x23, 0x23, 0x2A] := by decide
  rw [hmask]
  constructor
  · intro h
    obtain ⟨name, hname, s₁, rfl, h₁⟩ := exists_name_of_apCheckmask h
    obtain ⟨s₂, rfl, h₂⟩ := exists_literal_of_apCheckmask (by decide) h₁
    obtain ⟨c, s₃, rfl, hc, h₃⟩ := exists_cons_of_apCheckmask (by decide) h₂
    obtain ⟨d, hd, s₄, rfl, h₄⟩ := exists_digit_of_apCheckmask h₃
    obtain ⟨s₅, rfl, h₅⟩ := exists_literal_of_apCheckmask (by decide) h₄
    obtain ⟨hour, hhour, mi, hmi, sec, hsec, s₆, rfl, h₆⟩ := exists_timeText_of_apCheckmask h₅
    obtain ⟨s₇, rfl, h₇⟩ := exists_literal_of_apCheckmask (by decide) h₆
    obtain ⟨y, hy, rest, rfl, -⟩ := exists_dec4_of_apCheckmask h₇
    have hday : ∃ n, DayText [c, digit d] n := by
      have hor : c = 0x20 ∨ isdigit c = true := by
        rw [← beq_iff_eq, ← Bool.or_eq_true]
        exact hc
      rcases hor with rfl | hdigit
      · exact ⟨d, .one hd⟩
      · obtain ⟨e, he, rfl⟩ := exists_digit hdigit
        have htwo : dec2 (e * 10 + d) = [digit e, digit d] := by
          rw [dec2, show (e * 10 + d) / 10 = e by omega, show (e * 10 + d) % 10 = d by omega]
        exact ⟨e * 10 + d, htwo ▸ .two (by omega)⟩
    obtain ⟨n, hn⟩ := hday
    exact ⟨name, hname, _, n, hn, hour, hhour, mi, hmi, sec, hsec, y, hy, rest, rfl⟩
  · rintro ⟨name, hname, day, d, hday, hour, hhour, mi, hmi, sec, hsec, y, hy, rest, rfl⟩
    rw [apCheckmask_name hname, apCheckmask_literal (by decide)]
    have hrest : apCheckmask (0x20 :: (timeText hour mi sec ++ 0x20 :: (dec4 y ++ rest))) [0x20, 0x23, 0x23, 0x3A, 0x23,
        0x23, 0x3A, 0x23, 0x23, 0x20, 0x23, 0x23, 0x23, 0x23, 0x2A] = true := by
      rw [apCheckmask_literal (by decide), apCheckmask_timeText hhour hmi hsec, apCheckmask_literal (by decide),
        apCheckmask_dec4 hy]
      rfl
    cases hday with
    | two hd =>
      have htilde : maskChar 0x7E (digit (d / 10)) = true := by
        have hdigit := (maskChar_digit (d / 10) (by omega)).1
        have hor : maskChar 0x7E (digit (d / 10)) = (digit (d / 10) == 0x20 || isdigit (digit (d / 10))) := rfl
        rw [hor, show isdigit (digit (d / 10)) = true from hdigit, Bool.or_true]
      rw [dec2, List.cons_append, List.cons_append, List.nil_append, apCheckmask_cons (by decide), htilde, Bool.true_and,
        apCheckmask_digit (Nat.mod_lt d (by decide)), hrest]
    | one hd =>
      have htilde : maskChar 0x7E 0x20 = true := by decide
      rw [List.cons_append, List.cons_append, List.nil_append, apCheckmask_cons (by decide), htilde, Bool.true_and,
        apCheckmask_digit hd, hrest]

end MnoGoSearch.Date
