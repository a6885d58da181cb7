import MnoGoSearch.Date.Formats
import MnoGoSearch.Words.WordList

/-!
# When a date is right

The time that `UdmHttpDate2Time_t` (`date.c`) gives is right where the date passes its checks and nothing of what the checks
leave out comes together with it: the month 00, seconds from 60 on, an offset of the W3C, an offset and a date before it
(`dateRight_iff`).
-/

namespace MnoGoSearch.Date

open Lib.Calendar Url
open Words (CString)

/-! ## What is wanted -/

/-- A text says something, behind some blanks. -/
def Names (date : CString) (f : Form) : Prop := Written (date.val.dropWhile fun c => c == 0x20 || (0x09 ≤ c && c ≤ 0x0D)) f

/-- The seconds from the beginning of 1970, where the date exists and is not before. -/
def secondsOf (c : Civil) (offset : ℤ) : ℤ := if c.Exists then max 0 (c.epochSeconds - offset) else 0

/-- What is wanted for what a text says. -/
def Form.expected : Form → ℤ
  | .timestamp n => n
  | .numeric c offset => secondsOf c offset
  | .named c offset => secondsOf c offset

/-- **No field is read that has not been set, and no element of a table that does not exist, and the time is right**: 0 where
the text says nothing. -/
def DateRight (date : CString) : Prop :=
  ∃ r, udmHttpDate2TimeT date.val = some r ∧ (∀ f, Names date f → r = f.expected) ∧ ((∀ f, ¬Names date f) → r = 0)

/-- A date passes the checks. -/
def Passes (c : Civil) : Prop := badTime (tmOf c) = some false ∧ badDate (tmOf c) = some false

/-- The condition for what a text says. -/
def Exact : Form → Prop
  | .timestamp n => n < 0x80000000
  | .numeric c offset =>
    Passes c →
      if c.year < 1970 then c.Exists → c.epochSeconds ≤ offset
      else c.Exists ∧ (offset = 0 ∨ (c.epochSeconds = 0 ∧ 0 < offset))
  | .named c offset =>
    Passes c →
      if c.year < 1970 then offset = 0
      else offset ≤ c.epochSeconds ∧ (c.second < 60 ∨ offset = c.epochSeconds)

/-! ## The checks -/

section Checks

variable {c : Civil}

theorem badTime_tmOf (c : Civil) : badTime (tmOf c) = some (decide (23 < c.hour ∨ 59 < c.minute ∨ 61 < c.second)) := by
  simp only [badTime, tmOf, Option.bind_eq_bind, Option.bind_some, gt_iff_lt]
  by_cases hhour : 23 < c.hour
  · rw [if_pos (by omega), decide_eq_true (Or.inl hhour)]
    rfl
  · rw [if_neg (by omega)]
    by_cases hminute : 59 < c.minute
    · rw [if_pos (by omega), decide_eq_true (Or.inr (Or.inl hminute))]
      rfl
    · rw [if_neg (by omega)]
      refine congrArg some (decide_eq_decide.mpr ?_)
      omega

theorem exists_badDate (c : Civil) : ∃ b, badDate (tmOf c) = some b := by
  simp only [badDate, tmOf, Option.bind_eq_bind, Option.bind_some]
  split_ifs <;> exact ⟨_, rfl⟩

theorem badDate_eq_false_iff (hyear : 1900 ≤ c.year) :
    badDate (tmOf c) = some false ↔ (c.month = 0 ∧ 1 ≤ c.day ∧ c.day ≤ 31) ∨ c.DayExists := by
  have hleap : (c.year - 1900 : ℤ) % 4 ≠ 0 ∨ ((c.year - 1900 : ℤ).tmod 100 = 0 ∧ (c.year - 1900 : ℤ).tmod 400 ≠ 100) ↔
      ¬IsLeap c.year := by
    have h₁₀₀ : (c.year - 1900 : ℤ).tmod 100 = (c.year - 1900 : ℤ) % 100 := Int.tmod_eq_emod_of_nonneg (by omega)
    have h₄₀₀ : (c.year - 1900 : ℤ).tmod 400 = (c.year - 1900 : ℤ) % 400 := Int.tmod_eq_emod_of_nonneg (by omega)
    rw [h₁₀₀, h₄₀₀, IsLeap]
    omega
  simp only [badDate, tmOf, Option.bind_eq_bind, Option.bind_some, Civil.DayExists, hleap]
  generalize c.month = month
  generalize c.day = day
  by_cases hday : (day : ℤ) ≤ 0 ∨ (day : ℤ) > 31
  · rw [if_pos hday]
    have hlast : monthLength c.year month ≤ 31 := by
      rw [monthLength.eq_def]
      split <;> first | omega | (split_ifs <;> omega)
    refine iff_of_false (by simp) ?_
    omega
  rw [if_neg hday]
  by_cases hmonth : (month : ℤ) - 1 > 11
  · rw [if_pos hmonth]
    refine iff_of_false (by simp) ?_
    omega
  rw [if_neg hmonth]
  by_cases hzero : month = 0
  · subst hzero
    simp only [Nat.cast_zero, zero_sub, Int.reduceNeg, Int.reduceEq, or_self, and_false, if_false, ne_eq,
      not_false_eq_true, if_true]
    exact iff_of_true rfl (Or.inl ⟨trivial, by omega⟩)
  refine Iff.trans ?_ (or_iff_right fun h => hzero h.1).symm
  have hpos : 1 ≤ month := Nat.pos_of_ne_zero hzero
  have hle : month ≤ 12 := by omega
  have hpure : ∀ b : Bool, (pure b : Option Bool) = some b := fun _ => rfl
  clear hmonth hzero
  -- the months of 31, of 30 and of 28 or 29 days
  by_cases hleap : IsLeap c.year
  · interval_cases month <;>
      simp only [monthLength, hleap, hpure, Nat.cast_ofNat, Nat.cast_one, Int.reduceSub, Int.reduceEq, ne_eq,
        not_true_eq_false, not_false_eq_true, decide_false, if_true, if_false, or_false, false_or, and_false, and_true] <;>
      (try split_ifs) <;> first | (refine iff_of_true (by trivial) ?_; omega) | (refine iff_of_false (by decide) ?_; omega)
  · interval_cases month <;>
      simp only [monthLength, hleap, hpure, Nat.cast_ofNat, Nat.cast_one, Int.reduceSub, Int.reduceEq, ne_eq,
        not_true_eq_false, not_false_eq_true, decide_true, if_true, if_false, or_false, false_or, and_false, and_true] <;>
      (try split_ifs) <;> first | (refine iff_of_true (by trivial) ?_; omega) | (refine iff_of_false (by decide) ?_; omega)

end Checks

/-! ## The seconds -/

section Seconds

variable {c : Civil} {offset : ℤ}

theorem apTm2sec_before (h : c.year < 1970) : apTm2sec (tmOf c) = some 0 := by
  simp only [apTm2sec, tmOf, Option.bind_eq_bind, Option.bind_some]
  rw [if_pos (by omega)]
  rfl

theorem apTm2sec_zero (h : 1970 ≤ c.year) (hmonth : c.month = 0) : apTm2sec (tmOf c) = none := by
  have htable : dayoffsetAt ((c.month : ℤ) - 1) = none := by
    rw [dayoffsetAt, if_neg (by omega)]
  simp only [apTm2sec, tmOf, Option.bind_eq_bind, Option.bind_some, htable, Option.bind_none]
  rw [if_neg (by omega)]

theorem marchDays {year : ℕ} (h : 1900 ≤ year) :
    ((year : ℤ) - 1900) * 365 + ((year : ℤ) - 1900).tdiv 4 - ((year : ℤ) - 1900).tdiv 100 +
      (((year : ℤ) - 1900).tdiv 100 + 3).tdiv 4 = (daysBefore (year + 1) : ℤ) - 694326 := by
  have hnext := daysBefore_succ year
  have hdiv := Nat.div_div_eq_div_mul year 100 4
  have h₄ : ((year : ℤ) - 1900) / 4 = (year / 4 : ℕ) - 475 := by omega
  have h₁₀₀ : ((year : ℤ) - 1900) / 100 = (year / 100 : ℕ) - 19 := by omega
  have h₄₀₀ : ((year / 100 : ℕ) - 19 + 3 : ℤ) / 4 = (year / 400 : ℕ) - 4 := by omega
  rw [Int.tdiv_eq_ediv_of_nonneg (by omega), Int.tdiv_eq_ediv_of_nonneg (by omega), h₄, h₁₀₀,
    Int.tdiv_eq_ediv_of_nonneg (by omega), h₄₀₀]
  omega

/-- **The number of the day**, as it is computed. -/
theorem days_eq (h : 1970 ≤ c.year) (h₁ : 1 ≤ c.month) (h₁₂ : c.month ≤ 12) (hday : 1 ≤ c.day) (year : ℤ)
    (hyear : year = if (c.month : ℤ) - 1 < 2 then (c.year - 1900 : ℤ) - 1 else c.year - 1900) :
    year * 365 + year.tdiv 4 - year.tdiv 100 + (year.tdiv 100 + 3).tdiv 4 +
      (dayoffset.getD (c.month - 1) 0 + c.day - 1) - 25508 = c.epochDays := by
  have hepoch : daysBefore 1970 = 719528 := by
    have := daysBefore_eq 1970
    omega
  rw [Civil.epochDays, Civil.dayNumber, hepoch, daysBeforeMonth_eq c.year h₁ h₁₂]
  generalize c.month = month at *
  by_cases hspring : 2 < month
  · have hlength := daysBefore_succ_eq_add c.year
    rw [hyear, if_neg (by omega), marchDays (by omega), hlength, yearLength]
    by_cases hleap : IsLeap c.year
    · simp only [hleap, hspring, and_true, if_true]
      interval_cases month <;> simp [dayoffset] <;> omega
    · simp only [hleap, and_false, if_false]
      interval_cases month <;> simp [dayoffset] <;> omega
  · have hprev : year = ((c.year - 1 : ℕ) : ℤ) - 1900 := by
      rw [hyear, if_pos (by omega)]
      omega
    rw [hprev, marchDays (by omega), Nat.sub_add_cancel (by omega), if_neg fun hm => hspring hm.1]
    interval_cases month <;> simp [dayoffset] <;> omega

/-- **The seconds** are right, from 1970 on. -/
theorem apTm2sec_eq (h : 1970 ≤ c.year) (h₁ : 1 ≤ c.month) (h₁₂ : c.month ≤ 12) (hday : 1 ≤ c.day) :
    apTm2sec (tmOf c) = some c.epochSeconds := by
  have htable : dayoffsetAt ((c.month : ℤ) - 1) = some (dayoffset.getD (c.month - 1) 0) := by
    have hindex : ((c.month : ℤ) - 1).toNat = c.month - 1 := by omega
    rw [dayoffsetAt, if_pos (by omega), hindex, List.getD_eq_getElem?_getD]
    have hlen : c.month - 1 < dayoffset.length := show c.month - 1 < 12 by omega
    rw [List.getElem?_eq_getElem hlen, Option.getD_some]
  have hnonneg := second_le_epochSeconds h
  simp only [apTm2sec, tmOf, Option.bind_eq_bind, Option.bind_some, htable]
  rw [if_neg (by omega), days_eq h h₁ h₁₂ hday _ rfl]
  refine congrArg some ?_
  rw [if_neg]
  · rfl
  · rw [Civil.epochSeconds] at hnonneg
    omega

/-! ## What is returned -/

theorem not_passes (h : ¬Passes c) : finish (.time (tmOf c) offset) = some 0 := by
  obtain ⟨b, hb⟩ := exists_badDate c
  have htime := badTime_tmOf c
  generalize decide (23 < c.hour ∨ 59 < c.minute ∨ 61 < c.second) = t at htime
  simp only [finish, checkValidDate, htime, hb, Option.bind_eq_bind, Option.bind_some]
  cases t with
  | true => rfl
  | false =>
    cases b with
    | true => rfl
    | false => exact absurd ⟨htime, hb⟩ h

theorem finish_of_passes (offset : ℤ) (h : Passes c) :
    finish (.time (tmOf c) offset) = (apTm2sec (tmOf c)).map fun secs => secs - offset := by
  simp only [finish, checkValidDate, h.1, h.2, Option.bind_eq_bind, Option.bind_some]
  cases apTm2sec (tmOf c) <;> rfl

theorem passes_iff (hyear : 1900 ≤ c.year) : Passes c ↔ (c.hour < 24 ∧ c.minute < 60 ∧ c.second < 62) ∧
    ((c.month = 0 ∧ 1 ≤ c.day ∧ c.day ≤ 31) ∨ c.DayExists) := by
  rw [Passes, badDate_eq_false_iff hyear, badTime_tmOf]
  refine and_congr_left fun _ => ?_
  rw [Option.some.injEq, decide_eq_false_iff_not]
  omega

theorem passes_of_exists (hyear : 1900 ≤ c.year) (h : c.Exists) : Passes c := by
  obtain ⟨hday, hhour, hminute, hsecond⟩ := h
  exact (passes_iff hyear).mpr ⟨⟨hhour, hminute, by omega⟩, Or.inr hday⟩

theorem secondsOf_of_not_passes (h : ¬Passes c) (hoffset : -1000000 ≤ offset) : secondsOf c offset = 0 := by
  rw [secondsOf]
  split_ifs with hexists
  · rcases Nat.lt_or_ge c.year 1900 with hlt | hge
    · have hearly := epochSeconds_lt hexists hlt
      have h₁₉₀₀ := daysBefore_eq 1900
      have h₁₉₇₀ := daysBefore_eq 1970
      exact max_eq_left (by omega)
    · exact absurd (passes_of_exists hge hexists) h
  · rfl

/-- **A date with the month as a number** gives the right time exactly where the condition holds. -/
theorem numeric_iff (hoffset : -1000000 ≤ offset) :
    finish (.time (tmOf c) 0) = some (secondsOf c offset) ↔ Exact (.numeric c offset) := by
  rw [Exact]
  by_cases hpasses : Passes c
  · rw [finish_of_passes 0 hpasses, forall_prop_of_true hpasses]
    simp only [sub_zero, Option.map_id']
    rcases Nat.lt_or_ge c.year 1970 with hlt | hge
    · -- before 1970 the time is 0
      rw [apTm2sec_before hlt, if_pos hlt, Option.some.injEq, secondsOf]
      by_cases hexists : c.Exists
      · rw [if_pos hexists, forall_prop_of_true hexists]
        omega
      · rw [if_neg hexists]
        exact iff_of_true rfl fun h => absurd h hexists
    · rw [if_neg (Nat.not_lt.mpr hge)]
      obtain ⟨⟨hhour, hminute, -⟩, hmonth | hday⟩ := (passes_iff (by omega)).mp hpasses
      · -- the month 00
        rw [apTm2sec_zero hge hmonth.1]
        refine iff_of_false (Option.some_ne_none _).symm fun h => ?_
        have := h.1.1.1
        omega
      · rw [apTm2sec_eq hge hday.1 hday.2.1 hday.2.2.1, Option.some.injEq, secondsOf]
        have hsecond := second_le_epochSeconds hge
        by_cases hexists : c.Exists
        · rw [if_pos hexists, and_iff_right hexists]
          omega
        · rw [if_neg hexists]
          have hsixty : ¬c.second < 60 := fun h => hexists ⟨hday, hhour, hminute, h⟩
          exact iff_of_false (by omega) fun h => hexists h.1
  · rw [not_passes hpasses, secondsOf_of_not_passes hpasses hoffset]
    exact iff_of_true rfl fun h => absurd h hpasses

/-- **A date with the name of the month.** -/
theorem named_iff (hoffset : -1000000 ≤ offset) (hmonth : 1 ≤ c.month) :
    finish (.time (tmOf c) offset) = some (secondsOf c offset) ↔ Exact (.named c offset) := by
  rw [Exact]
  by_cases hpasses : Passes c
  · rw [finish_of_passes offset hpasses, forall_prop_of_true hpasses]
    rcases Nat.lt_or_ge c.year 1970 with hlt | hge
    · -- before 1970 the offset is taken from 0
      rw [apTm2sec_before hlt, if_pos hlt, Option.map_some, Option.some.injEq, secondsOf]
      by_cases hexists : c.Exists
      · have hneg := epochSeconds_neg hexists hlt
        rw [if_pos hexists]
        omega
      · rw [if_neg hexists]
        omega
    · rw [if_neg (Nat.not_lt.mpr hge)]
      obtain ⟨⟨hhour, hminute, -⟩, hzero | hday⟩ := (passes_iff (by omega)).mp hpasses
      · omega
      · rw [apTm2sec_eq hge hday.1 hday.2.1 hday.2.2.1, Option.map_some, Option.some.injEq, secondsOf]
        by_cases hsecond : c.second < 60
        · rw [if_pos ⟨hday, hhour, hminute, hsecond⟩]
          omega
        · rw [if_neg fun h => hsecond h.2.2.2]
          omega
  · rw [not_passes hpasses, secondsOf_of_not_passes hpasses hoffset]
    exact iff_of_true rfl fun h => absurd h hpasses

end Seconds

/-! ## All texts -/

variable {s : List UInt8} {f : Form}

theorem bounds_of_written (h : Written s f) : (∀ c offset, f = .numeric c offset → -1000000 ≤ offset) ∧
    ∀ c offset, f = .named c offset → -1000000 ≤ offset ∧ 1 ≤ c.month := by
  have hzone : ∀ {zone : List UInt8} {offset : ℤ}, ZoneText zone offset → -1000000 ≤ offset := by
    intro zone offset hz
    cases hz with
    | plus hh hm => omega
    | minus hh hm => omega
    | other hs => omega
  refine ⟨fun c offset hf => ?_, fun c offset hf => ?_⟩
  · cases h <;> cases hf <;> omega
  · cases h with
    | rfc1123 hw hy hk hd hh hmi hs hz => cases hf; exact ⟨hzone hz, Nat.succ_le_succ (Nat.zero_le _)⟩
    | rfc1123Short hw hy hk hd hh hmi hs hz => cases hf; exact ⟨hzone hz, Nat.succ_le_succ (Nat.zero_le _)⟩
    | rfc850 hw hy hk hd hh hmi hs hz => cases hf; exact ⟨hzone hz, Nat.succ_le_succ (Nat.zero_le _)⟩
    | asctime hw hy hk hday hh hmi hs => cases hf; exact ⟨by decide, Nat.succ_le_succ (Nat.zero_le _)⟩
    | _ => cases hf

/-- **What a text says** gives the right time exactly where the condition for it holds. -/
theorem finish_eq_expected_iff (h : Written s f) : finish (scanFormats s) = some f.expected ↔ Exact f := by
  obtain ⟨hnumeric, hnamed⟩ := bounds_of_written h
  rw [finish_of_written h]
  cases f with
  | timestamp n =>
    rw [Form.result, Form.expected, Exact]
    by_cases hn : n < 0x80000000
    · rw [if_pos hn]
      exact iff_of_true rfl hn
    · rw [if_neg hn]
      exact iff_of_false (Option.some_ne_none _).symm hn
  | numeric c offset => exact numeric_iff (hnumeric c offset rfl)
  | named c offset => exact named_iff (hnamed c offset rfl).1 (hnamed c offset rfl).2

/-- **The time of a date is right exactly where the condition holds for what its text says.** -/
theorem dateRight_iff (date : CString) : DateRight date ↔ ∀ f, Names date f → Exact f := by
  constructor
  · rintro ⟨r, hr, hexpected, -⟩ f hf
    refine (finish_eq_expected_iff hf).mp ?_
    rw [← hexpected f hf]
    exact hr
  · intro h
    by_cases hsome : ∃ f, Names date f
    · obtain ⟨f, hf⟩ := hsome
      have hfinish := (finish_eq_expected_iff hf).mpr (h f hf)
      refine ⟨f.expected, hfinish, fun g hg => ?_, fun hnone => absurd hf (hnone f)⟩
      have hother := (finish_eq_expected_iff hg).mpr (h g hg)
      exact Option.some.inj (hfinish.symm.trans hother)
    · have hnone : ∀ f, ¬Names date f := not_exists.mp hsome
      exact ⟨0, finish_of_not_written hnone, fun f hf => absurd hf (hnone f), fun _ => rfl⟩

/-- The month 00. -/
theorem not_forall_dateRight : ¬∀ date : CString, DateRight date := by
  intro h
  obtain ⟨r, hr, -, -⟩ := h (CString.take (bytes "2004-00-01"))
  have hnone : udmHttpDate2TimeT (CString.take (bytes "2004-00-01")).val = none := by decide
  exact Option.some_ne_none r (hr.symm.trans hnone)

end MnoGoSearch.Date
