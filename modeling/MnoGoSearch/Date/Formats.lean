import MnoGoSearch.Date.Written

/-!
# Reading a date

What `UdmHttpDate2Time_t` (`date.c`) reads from a text that is written in one of the formats (`scanFormats_of_written`), and
that nothing comes of any other text (`finish_of_not_written`).
-/

namespace MnoGoSearch.Date

set_option maxRecDepth 2000

open Lib.Calendar Url

/-! ## Fields -/

/-- The fields for a date and a time. -/
def tmOf (c : Civil) : Tm :=
  ⟨some (c.year - 1900), some (c.month - 1), some c.day, some c.hour, some c.minute, some c.second⟩

/-- What is returned for what a text says. -/
def Form.result : Form → Option ℤ
  | .timestamp n => if n < 0x80000000 then some (n : ℤ) else none
  | .numeric c _ => finish (.time (tmOf c) 0)
  | .named c offset => finish (.time (tmOf c) offset)

section Fields

variable {s t : List UInt8} {i n : ℕ}

theorem digitAt_eq (hn : n < 10) (h : s.drop i = digit n :: t) : digitAt s i = n := by
  have hget : s.getD i 0 = digit n := by
    rw [List.getD_eq_getElem?_getD, ← List.head?_drop, h]
    rfl
  rw [digitAt, hget, (maskChar_digit n hn).2.1]
  push_cast
  omega

theorem twoDigits_eq (hn : n < 100) (h : s.drop i = dec2 n ++ t) : twoDigits s i = n := by
  have hsecond : s.drop (i + 1) = digit (n % 10) :: t := by
    rw [← List.drop_drop, h]
    rfl
  rw [twoDigits, digitAt_eq (by omega) h, digitAt_eq (Nat.mod_lt n (by decide)) hsecond]
  push_cast
  omega

theorem scanYyyy_eq (hn : n < 10000) (ds : Tm) : scanYyyy ds (dec4 n ++ t) = { ds with year := some ((n : ℤ) - 1900) } := by
  have h₀ : twoDigits (dec4 n ++ t) 0 = (n / 100 : ℕ) := by
    refine twoDigits_eq (t := digit (n / 10 % 10) :: digit (n % 10) :: t) (by omega) ?_
    rw [dec2, show n / 100 / 10 = n / 1000 by omega]
    rfl
  have h₂ : digitAt (dec4 n ++ t) 2 = (n / 10 % 10 : ℕ) := digitAt_eq (Nat.mod_lt _ (by decide)) rfl
  have h₃ : digitAt (dec4 n ++ t) 3 = (n % 10 : ℕ) := digitAt_eq (Nat.mod_lt _ (by decide)) rfl
  have hyear : ((n / 100 : ℕ) - 19 : ℤ) * 100 + (n / 10 % 10 : ℕ) * 10 + (n % 10 : ℕ) = (n : ℤ) - 1900 := by
    push_cast
    omega
  rw [scanYyyy, h₀, h₂, h₃, hyear]

theorem scanYyyyMmDd_eq {y m d : ℕ} (hy : y < 10000) (hm : m < 100) (hd : d < 100) (ds : Tm) :
    scanYyyyMmDd ds (dec4 y ++ 0x2D :: (dec2 m ++ 0x2D :: (dec2 d ++ t))) =
      { ds with year := some ((y : ℤ) - 1900), mon := some ((m : ℤ) - 1), mday := some (d : ℤ) } := by
  have hyear := congrArg Tm.year (@scanYyyy_eq (0x2D :: (dec2 m ++ 0x2D :: (dec2 d ++ t))) y hy ds)
  have hmon : twoDigits (dec4 y ++ 0x2D :: (dec2 m ++ 0x2D :: (dec2 d ++ t))) 5 = m :=
    twoDigits_eq (t := 0x2D :: (dec2 d ++ t)) hm rfl
  have hmday : twoDigits (dec4 y ++ 0x2D :: (dec2 m ++ 0x2D :: (dec2 d ++ t))) 8 = d := twoDigits_eq hd rfl
  simp only [scanYyyy, Option.some.injEq] at hyear
  rw [scanYyyyMmDd, hyear, hmon, hmday]

theorem scanHhMmSs_eq {h m sec : ℕ} (hh : h < 100) (hm : m < 100) (hs : sec < 100) (ds : Tm) :
    scanHhMmSs ds (timeText h m sec ++ t) = { ds with hour := some (h : ℤ), min := some (m : ℤ), sec := some (sec : ℤ) } := by
  have hhour : twoDigits (timeText h m sec ++ t) 0 = h := twoDigits_eq (t := 0x3A :: (dec2 m ++ 0x3A :: (dec2 sec ++ t))) hh rfl
  have hmin : twoDigits (timeText h m sec ++ t) 3 = m := twoDigits_eq (t := 0x3A :: (dec2 sec ++ t)) hm rfl
  have hsec : twoDigits (timeText h m sec ++ t) 6 = sec := twoDigits_eq hs rfl
  rw [scanHhMmSs, hhour, hmin, hsec]

theorem scanMonthName_eq {name : List UInt8} (hname : IsName name) (ds : Tm) :
    scanMonthName ds (name ++ t) = { ds with mon := some (monthIndex name : ℤ) } := by
  obtain ⟨a, b, c, rfl, -⟩ := hname
  rfl

theorem scanTimeZone_eq {zone : List UInt8} {offset : ℤ} (h : ZoneText zone offset) : scanTimeZone 0 zone = offset := by
  have hplus : bytes "+####" = [0x2B, 0x23, 0x23, 0x23, 0x23] := by decide
  have hminus : bytes "-####" = [0x2D, 0x23, 0x23, 0x23, 0x23] := by decide
  have hmask : ∀ {h m : ℕ}, h < 100 → m < 100 → apCheckmask (dec2 h ++ dec2 m) [0x23, 0x23, 0x23, 0x23] = true := by
    intro h m hh hm
    have hm' := @apCheckmask_dec2 m [] [] hm
    rw [List.append_nil] at hm'
    rw [apCheckmask_dec2 hh, hm']
    rfl
  rw [scanTimeZone, hplus, hminus]
  cases h with
  | @plus h m hh hm =>
    have hm' : twoDigits (0x2B :: (dec2 h ++ dec2 m)) 3 = m := twoDigits_eq (t := []) hm rfl
    rw [if_pos (Or.inl (by rw [apCheckmask_literal (by decide), hmask hh hm])), twoDigits_eq (t := dec2 m) hh rfl, hm']
    exact mul_one _
  | @minus h m hh hm =>
    have hm' : twoDigits (0x2D :: (dec2 h ++ dec2 m)) 3 = m := twoDigits_eq (t := []) hm rfl
    rw [if_pos (Or.inr (by rw [apCheckmask_literal (by decide), hmask hh hm])), twoDigits_eq (t := dec2 m) hh rfl, hm']
    exact mul_neg_one _
  | other hs =>
    rw [if_neg]
    have hinv : ∀ {c : UInt8}, isLiteral c = true → apCheckmask zone [c, 0x23, 0x23, 0x23, 0x23] = true →
        ∃ h < 100, ∃ m < 100, zone = c :: (dec2 h ++ dec2 m) := by
      intro c hc hzone
      obtain ⟨u, rfl, hu⟩ := exists_literal_of_apCheckmask hc hzone
      obtain ⟨h, hh, v, rfl, hv⟩ := exists_dec2_of_apCheckmask hu
      obtain ⟨m, hm, w, rfl, hw⟩ := exists_dec2_of_apCheckmask hv
      rw [apCheckmask, List.isEmpty_iff] at hw
      exact ⟨h, hh, m, hm, by rw [hw, List.append_nil]⟩
    rintro (hp | hp)
    · obtain ⟨h, hh, m, hm, hz⟩ := hinv (by decide) hp
      exact (hs h hh m hm).1 hz
    · obtain ⟨h, hh, m, hm, hz⟩ := hinv (by decide) hp
      exact (hs h hh m hm).2 hz

end Fields

/-! ## The formats with a weekday -/

section Weekday

variable {name : List UInt8} {y d h mi sec : ℕ}

theorem scanWeekdayFormats_rfc1123 (hd : d < 100) (hname : IsName name) (hy : y < 10000) (hh : h < 100) (hmi : mi < 100)
    (hsec : sec < 100) (zone : List UInt8) :
    scanWeekdayFormats (dec2 d ++ 0x20 :: (name ++ 0x20 :: (dec4 y ++ 0x20 :: (timeText h mi sec ++ 0x20 :: zone)))) =
      .time (tmOf ⟨y, monthIndex name + 1, d, h, mi, sec⟩) (scanTimeZone 0 zone) := by
  obtain ⟨s, hs⟩ : ∃ s, s = dec2 d ++ 0x20 :: (name ++ 0x20 :: (dec4 y ++ 0x20 :: (timeText h mi sec ++ 0x20 :: zone))) :=
    ⟨_, rfl⟩
  have hmask := apCheckmask_rfc1123.mpr ⟨d, hd, name, hname, y, hy, _,
    apCheckmask_timeSpace.mpr ⟨h, hh, mi, hmi, sec, hsec, zone, rfl⟩, hs⟩
  rw [← hs, scanWeekdayFormats, if_pos hmask]
  have hmday : twoDigits s 0 = d := twoDigits_eq hd hs
  have hyear := scanYyyy_eq (t := 0x20 :: (timeText h mi sec ++ 0x20 :: zone)) hy .unset
  have hmonth := scanMonthName_eq (t := 0x20 :: (dec4 y ++ 0x20 :: (timeText h mi sec ++ 0x20 :: zone))) hname
  have htime := scanHhMmSs_eq (t := 0x20 :: zone) hh hmi hsec
  obtain ⟨a, b, c, rfl, -⟩ := hname
  have h₃ : s.drop 3 = [a, b, c] ++ 0x20 :: (dec4 y ++ 0x20 :: (timeText h mi sec ++ 0x20 :: zone)) := by rw [hs]; rfl
  have h₇ : s.drop 7 = dec4 y ++ 0x20 :: (timeText h mi sec ++ 0x20 :: zone) := by rw [hs]; rfl
  have h₁₂ : s.drop 12 = timeText h mi sec ++ 0x20 :: zone := by rw [hs]; rfl
  have h₂₁ : s.drop 21 = zone := by rw [hs]; rfl
  simp only [hmday, h₃, h₇, h₁₂, h₂₁, hyear, hmonth, htime]
  simp [tmOf]

theorem scanWeekdayFormats_rfc1123Short (hd : d < 10) (hname : IsName name) (hy : y < 10000) (hh : h < 100) (hmi : mi < 100)
    (hsec : sec < 100) (zone : List UInt8) :
    scanWeekdayFormats (digit d :: 0x20 :: (name ++ 0x20 :: (dec4 y ++ 0x20 :: (timeText h mi sec ++ 0x20 :: zone)))) =
      .time (tmOf ⟨y, monthIndex name + 1, d, h, mi, sec⟩) (scanTimeZone 0 zone) := by
  obtain ⟨s, hs⟩ : ∃ s, s = digit d :: 0x20 :: (name ++ 0x20 :: (dec4 y ++ 0x20 :: (timeText h mi sec ++ 0x20 :: zone))) :=
    ⟨_, rfl⟩
  have hmask := apCheckmask_rfc1123Short.mpr ⟨d, hd, name, hname, y, hy, _,
    apCheckmask_timeSpace.mpr ⟨h, hh, mi, hmi, sec, hsec, zone, rfl⟩, hs⟩
  have hno := @apCheckmask_of_clash _ (bytes "## @$$ #### ##:##:## *") (by decide) _ hmask
  rw [← hs, scanWeekdayFormats, hno, if_neg Bool.false_ne_true, if_pos hmask]
  have hmday : digitAt s 0 = d := digitAt_eq hd hs
  have hyear := scanYyyy_eq (t := 0x20 :: (timeText h mi sec ++ 0x20 :: zone)) hy .unset
  have hmonth := scanMonthName_eq (t := 0x20 :: (dec4 y ++ 0x20 :: (timeText h mi sec ++ 0x20 :: zone))) hname
  have htime := scanHhMmSs_eq (t := 0x20 :: zone) hh hmi hsec
  obtain ⟨a, b, c, rfl, -⟩ := hname
  have h₂ : s.drop 2 = [a, b, c] ++ 0x20 :: (dec4 y ++ 0x20 :: (timeText h mi sec ++ 0x20 :: zone)) := by rw [hs]; rfl
  have h₆ : s.drop 6 = dec4 y ++ 0x20 :: (timeText h mi sec ++ 0x20 :: zone) := by rw [hs]; rfl
  have h₁₁ : s.drop 11 = timeText h mi sec ++ 0x20 :: zone := by rw [hs]; rfl
  have h₂₀ : s.drop 20 = zone := by rw [hs]; rfl
  simp only [hmday, h₂, h₆, h₁₁, h₂₀, hyear, hmonth, htime]
  simp [tmOf]

theorem scanWeekdayFormats_rfc850 {yy : ℕ} (hd : d < 100) (hname : IsName name) (hyy : yy < 100) (hh : h < 100)
    (hmi : mi < 100) (hsec : sec < 100) (zone : List UInt8) :
    scanWeekdayFormats (dec2 d ++ 0x2D :: (name ++ 0x2D :: (dec2 yy ++ 0x20 :: (timeText h mi sec ++ 0x20 :: zone)))) =
      .time (tmOf ⟨centuryYear yy, monthIndex name + 1, d, h, mi, sec⟩) (scanTimeZone 0 zone) := by
  obtain ⟨s, hs⟩ : ∃ s, s = dec2 d ++ 0x2D :: (name ++ 0x2D :: (dec2 yy ++ 0x20 :: (timeText h mi sec ++ 0x20 :: zone))) :=
    ⟨_, rfl⟩
  have hmask := apCheckmask_rfc850.mpr ⟨d, hd, name, hname, yy, hyy, _,
    apCheckmask_timeSpace.mpr ⟨h, hh, mi, hmi, sec, hsec, zone, rfl⟩, hs⟩
  have hno₁ := @apCheckmask_of_clash _ (bytes "## @$$ #### ##:##:## *") (by decide) _ hmask
  have hno₂ := @apCheckmask_of_clash _ (bytes "# @$$ #### ##:##:## *") (by decide) _ hmask
  rw [← hs, scanWeekdayFormats, hno₁, hno₂, if_neg Bool.false_ne_true, if_neg Bool.false_ne_true, if_pos hmask]
  have hmday : twoDigits s 0 = d := twoDigits_eq hd hs
  have hyear : twoDigits (s.drop 7) 0 = yy := twoDigits_eq (t := 0x20 :: (timeText h mi sec ++ 0x20 :: zone)) hyy (by
    obtain ⟨a, b, c, rfl, -⟩ := hname
    rw [hs]
    rfl)
  have hmonth := scanMonthName_eq (t := 0x2D :: (dec2 yy ++ 0x20 :: (timeText h mi sec ++ 0x20 :: zone))) hname
  have htime := scanHhMmSs_eq (t := 0x20 :: zone) hh hmi hsec
  obtain ⟨a, b, c, rfl, -⟩ := hname
  have h₃ : s.drop 3 = [a, b, c] ++ 0x2D :: (dec2 yy ++ 0x20 :: (timeText h mi sec ++ 0x20 :: zone)) := by rw [hs]; rfl
  have h₁₀ : s.drop 10 = timeText h mi sec ++ 0x20 :: zone := by rw [hs]; rfl
  have h₁₉ : s.drop 19 = zone := by rw [hs]; rfl
  have hcentury : (if (yy : ℤ) < 70 then (yy : ℤ) + 100 else yy) = (centuryYear yy : ℤ) - 1900 := by
    rw [centuryYear]
    split_ifs <;> push_cast <;> omega
  simp only [scanYy, hmday, hyear, hcentury, h₃, h₁₀, h₁₉, hmonth, htime]
  simp [tmOf]

theorem scanWeekdayFormats_asctime {day : List UInt8} (hname : IsName name) (hday : DayText day d) (hh : h < 100)
    (hmi : mi < 100) (hsec : sec < 100) (hy : y < 10000) (rest : List UInt8) :
    scanWeekdayFormats (name ++ 0x20 :: (day ++ 0x20 :: (timeText h mi sec ++ 0x20 :: (dec4 y ++ rest)))) =
      .time (tmOf ⟨y, monthIndex name + 1, d, h, mi, sec⟩) 0 := by
  obtain ⟨s, hs⟩ : ∃ s, s = name ++ 0x20 :: (day ++ 0x20 :: (timeText h mi sec ++ 0x20 :: (dec4 y ++ rest))) := ⟨_, rfl⟩
  have hmask := apCheckmask_asctime.mpr ⟨name, hname, day, d, hday, h, hh, mi, hmi, sec, hsec, y, hy, rest, hs⟩
  have hno₁ := @apCheckmask_of_clash _ (bytes "## @$$ #### ##:##:## *") (by decide) _ hmask
  have hno₂ := @apCheckmask_of_clash _ (bytes "# @$$ #### ##:##:## *") (by decide) _ hmask
  have hno₃ := @apCheckmask_of_clash _ (bytes "##-@$$-## ##:##:## *") (by decide) _ hmask
  rw [← hs, scanWeekdayFormats, hno₁, hno₂, hno₃, if_neg Bool.false_ne_true, if_neg Bool.false_ne_true,
    if_neg Bool.false_ne_true, if_pos hmask]
  have hyear := scanYyyy_eq (t := rest) hy .unset
  have hmonth := scanMonthName_eq (t := 0x20 :: (day ++ 0x20 :: (timeText h mi sec ++ 0x20 :: (dec4 y ++ rest)))) hname
  rw [← hs] at hmonth
  have htime := scanHhMmSs_eq (t := 0x20 :: (dec4 y ++ rest)) hh hmi hsec
  have hmday : (if s.getD 4 0 = 0x20 then 0 else digitAt s 4 * 10) + digitAt s 5 = d := by
    obtain ⟨a, b, c, rfl, -⟩ := hname
    cases hday with
    | two hd =>
      have hfour : s.getD 4 0 = digit (d / 10) := by rw [hs]; rfl
      have htwo : twoDigits s 4 = d := twoDigits_eq (t := 0x20 :: (timeText h mi sec ++ 0x20 :: (dec4 y ++ rest))) hd
        (by rw [hs]; rfl)
      rw [hfour, if_neg (maskChar_digit (d / 10) (by omega)).2.2]
      exact htwo
    | one hd =>
      have hfour : s.getD 4 0 = 0x20 := by rw [hs]; rfl
      have hone : digitAt s 5 = d := digitAt_eq (t := 0x20 :: (timeText h mi sec ++ 0x20 :: (dec4 y ++ rest))) hd
        (by rw [hs]; rfl)
      rw [hfour, if_pos rfl, hone, zero_add]
  have hlen : ∃ e f, day = [e, f] := by
    cases hday with
    | two hd => exact ⟨_, _, rfl⟩
    | one hd => exact ⟨_, _, rfl⟩
  obtain ⟨a, b, c, rfl, -⟩ := hname
  obtain ⟨e, f, rfl⟩ := hlen
  have h₇ : s.drop 7 = timeText h mi sec ++ 0x20 :: (dec4 y ++ rest) := by rw [hs]; rfl
  have h₁₆ : s.drop 16 = dec4 y ++ rest := by rw [hs]; rfl
  simp only [hmday, h₇, h₁₆, hyear, hmonth, htime]
  simp [tmOf]

/-- **What is read behind a weekday**: a date with a name that is in the table, or a month that does not exist. -/
theorem scanWeekdayFormats_cases (s : List UInt8) : scanWeekdayFormats s = .bad ∨
    ∃ c offset, scanWeekdayFormats s = .time (tmOf c) offset ∧
      (c.month = 13 ∨ ∀ w : List UInt8, (0x20 : UInt8) ∉ w → Written (w ++ 0x20 :: s) (.named c offset)) := by
  have hzone : ∀ zone : List UInt8, ZoneText zone (scanTimeZone 0 zone) := by
    intro zone
    by_cases hplus : ∃ h < 100, ∃ m < 100, zone = 0x2B :: (dec2 h ++ dec2 m)
    · obtain ⟨h, hh, m, hm, rfl⟩ := hplus
      have hz := ZoneText.plus hh hm
      rwa [scanTimeZone_eq hz]
    · by_cases hminus : ∃ h < 100, ∃ m < 100, zone = 0x2D :: (dec2 h ++ dec2 m)
      · obtain ⟨h, hh, m, hm, rfl⟩ := hminus
        have hz := ZoneText.minus hh hm
        rwa [scanTimeZone_eq hz]
      · have hz : ZoneText zone 0 := .other fun h hh m hm =>
          ⟨fun heq => hplus ⟨h, hh, m, hm, heq⟩, fun heq => hminus ⟨h, hh, m, hm, heq⟩⟩
        rwa [scanTimeZone_eq hz]
  -- a name is that of a month, or it is not in the table
  have hmonth : ∀ {name : List UInt8}, IsName name → monthIndex name + 1 = 13 ∨
      ∃ k < 12, name = monthName k ∧ monthIndex name = k := by
    intro name hname
    rcases Nat.lt_or_ge (monthIndex name) 12 with hlt | hge
    · exact Or.inr ⟨_, hlt, eq_monthName hname hlt, rfl⟩
    · exact Or.inl (congrArg Nat.succ (le_antisymm (monthIndex_le name) hge))
  by_cases h₁ : apCheckmask s (bytes "## @$$ #### ##:##:## *") = true
  · obtain ⟨d, hd, name, hname, y, hy, t, ht, rfl⟩ := apCheckmask_rfc1123.mp h₁
    obtain ⟨h, hh, mi, hmi, sec, hsec, zone, rfl⟩ := apCheckmask_timeSpace.mp ht
    refine Or.inr ⟨_, _, scanWeekdayFormats_rfc1123 hd hname hy hh hmi hsec zone, (hmonth hname).imp_right ?_⟩
    rintro ⟨k, hk, rfl, hindex⟩ w hw
    rw [hindex]
    exact .rfc1123 hw hy hk hd hh hmi hsec (hzone zone)
  by_cases h₂ : apCheckmask s (bytes "# @$$ #### ##:##:## *") = true
  · obtain ⟨d, hd, name, hname, y, hy, t, ht, rfl⟩ := apCheckmask_rfc1123Short.mp h₂
    obtain ⟨h, hh, mi, hmi, sec, hsec, zone, rfl⟩ := apCheckmask_timeSpace.mp ht
    refine Or.inr ⟨_, _, scanWeekdayFormats_rfc1123Short hd hname hy hh hmi hsec zone, (hmonth hname).imp_right ?_⟩
    rintro ⟨k, hk, rfl, hindex⟩ w hw
    rw [hindex]
    exact .rfc1123Short hw hy hk hd hh hmi hsec (hzone zone)
  by_cases h₃ : apCheckmask s (bytes "##-@$$-## ##:##:## *") = true
  · obtain ⟨d, hd, name, hname, yy, hyy, t, ht, rfl⟩ := apCheckmask_rfc850.mp h₃
    obtain ⟨h, hh, mi, hmi, sec, hsec, zone, rfl⟩ := apCheckmask_timeSpace.mp ht
    refine Or.inr ⟨_, _, scanWeekdayFormats_rfc850 hd hname hyy hh hmi hsec zone, (hmonth hname).imp_right ?_⟩
    rintro ⟨k, hk, rfl, hindex⟩ w hw
    rw [hindex]
    exact .rfc850 hw hyy hk hd hh hmi hsec (hzone zone)
  by_cases h₄ : apCheckmask s (bytes "@$$ ~# ##:##:## ####*") = true
  · obtain ⟨name, hname, day, d, hday, h, hh, mi, hmi, sec, hsec, y, hy, rest, rfl⟩ := apCheckmask_asctime.mp h₄
    refine Or.inr ⟨_, _, scanWeekdayFormats_asctime hname hday hh hmi hsec hy rest, (hmonth hname).imp_right ?_⟩
    rintro ⟨k, hk, rfl, hindex⟩ w hw
    rw [hindex]
    exact .asctime hw hy hk hday hh hmi hsec
  · rw [scanWeekdayFormats, if_neg h₁, if_neg h₂, if_neg h₃, if_neg h₄]
    exact Or.inl rfl

end Weekday

/-! ## All formats -/

theorem scanFormats_of_space {w : List UInt8} (hw : (0x20 : UInt8) ∉ w) (s : List UInt8) :
    scanFormats (w ++ 0x20 :: s) = scanWeekdayFormats s := by
  have hspace : (0x20 : UInt8) ∈ w ++ 0x20 :: s := List.mem_append_right _ List.mem_cons_self
  have hno : ∀ {mask : List UInt8}, (∀ m ∈ mask, m ≠ 0x2A ∧ m ≠ 0x7E ∧ m ≠ 0x20) →
      ¬apCheckmask (w ++ 0x20 :: s) mask = true := fun hmask hs => not_mem_of_apCheckmask hmask hs hspace
  have hdrop : (w ++ 0x20 :: s).dropWhile (· ≠ 0x20) = 0x20 :: s := by
    rw [List.dropWhile_append_of_pos fun c hc => decide_eq_true (ne_of_mem_of_not_mem hc hw)]
    rfl
  have hor : ∀ {p q : Prop}, ¬p → ¬q → ¬(p ∨ q) := fun hp hq => not_or.mpr ⟨hp, hq⟩
  rw [scanFormats, if_neg (List.append_ne_nil_of_right_ne_nil _ (List.cons_ne_nil _ _)), if_neg (hno (by decide)),
    if_neg (hno (by decide)), if_neg (hor (hno (by decide)) (hor (hno (by decide)) (hor (hno (by decide)) (hno (by decide))))),
    if_neg (hor (hno (by decide)) (hno (by decide))), hdrop]

theorem scanFormats_iso {y m d : ℕ} (hy : y < 10000) (hm : m < 100) (hd : d < 100) :
    scanFormats (dec4 y ++ 0x2D :: (dec2 m ++ 0x2D :: dec2 d)) = .date (tmOf ⟨y, m, d, 0, 0, 0⟩) := by
  have hmask := apCheckmask_iso.mpr ⟨y, hy, m, hm, d, hd, rfl⟩
  have hscan := scanYyyyMmDd_eq (t := []) hy hm hd .unset
  rw [List.append_nil] at hscan
  have hne : dec4 y ++ 0x2D :: (dec2 m ++ 0x2D :: dec2 d) ≠ [] := List.cons_ne_nil _ _
  rw [scanFormats, if_neg hne, if_pos hmask, hscan]
  rfl

theorem scanFormats_german {y m d : ℕ} (hy : y < 10000) (hm : m < 100) (hd : d < 100) :
    scanFormats (dec2 d ++ 0x2E :: (dec2 m ++ 0x2E :: dec4 y)) = .date (tmOf ⟨y, m, d, 0, 0, 0⟩) := by
  obtain ⟨s, hs⟩ : ∃ s, s = dec2 d ++ 0x2E :: (dec2 m ++ 0x2E :: dec4 y) := ⟨_, rfl⟩
  have hmask := apCheckmask_german.mpr ⟨y, hy, m, hm, d, hd, hs⟩
  have hno := @apCheckmask_of_clash _ (bytes "####-##-##") (by decide) _ hmask
  have hyear := scanYyyy_eq (t := []) hy .unset
  rw [List.append_nil] at hyear
  have hdrop : s.drop 6 = dec4 y := by rw [hs]; rfl
  have hmon : twoDigits s 3 = m := twoDigits_eq (t := 0x2E :: dec4 y) hm (by rw [hs]; rfl)
  have hmday : twoDigits s 0 = d := twoDigits_eq (t := 0x2E :: (dec2 m ++ 0x2E :: dec4 y)) hd (by rw [hs]; rfl)
  have hne : s ≠ [] := by rw [hs]; exact List.cons_ne_nil _ _
  rw [← hs, scanFormats, if_neg hne, hno, if_neg Bool.false_ne_true, if_pos hmask, hdrop, hyear, hmon, hmday]
  rfl

variable {c : Civil} {s : List UInt8}

theorem scanFormats_dateTime (hc : Bounded c) {t : List UInt8}
    (hmask : apCheckmask (dateTimeText c ++ t) (bytes "####-##-##T##:##:##Z") = true ∨
      apCheckmask (dateTimeText c ++ t) (bytes "####-##-##T##:##:##.##Z") = true ∨
      apCheckmask (dateTimeText c ++ t) (bytes "####-##-##T##:##:##+##:##") = true ∨
      apCheckmask (dateTimeText c ++ t) (bytes "####-##-##T##:##:##-##:##") = true) :
    scanFormats (dateTimeText c ++ t) = .time (tmOf c) 0 := by
  obtain ⟨s, hs⟩ : ∃ s, s = dateTimeText c ++ t := ⟨_, rfl⟩
  have hstar := apCheckmask_dateTime.mpr ⟨c, hc, t, hs, (rfl : apCheckmask t [0x2A] = true)⟩
  have hno₁ := @apCheckmask_of_clash _ (bytes "####-##-##") (by decide) _ hstar
  have hno₂ := @apCheckmask_of_clash _ (bytes "##.##.####") (by decide) _ hstar
  obtain ⟨hy, hm, hd, hh, hmi, hsec⟩ := hc
  have hdate := scanYyyyMmDd_eq (t := 0x54 :: (timeText c.hour c.minute c.second ++ t)) hy hm hd .unset
  have htext : s = dec4 c.year ++ 0x2D :: (dec2 c.month ++ 0x2D :: (dec2 c.day ++ 0x54 ::
      (timeText c.hour c.minute c.second ++ t))) := by
    rw [hs, dateTimeText]
    simp only [List.append_assoc, List.cons_append]
  have hdrop : s.drop 11 = timeText c.hour c.minute c.second ++ t := by rw [htext]; rfl
  have hne : s ≠ [] := by rw [htext]; exact List.cons_ne_nil _ _
  rw [← hs] at hmask ⊢
  rw [← htext] at hdate
  rw [scanFormats, if_neg hne, hno₁, hno₂, if_neg Bool.false_ne_true, if_neg Bool.false_ne_true, if_pos hmask, hdrop, hdate,
    scanHhMmSs_eq hh hmi hsec]
  rfl

theorem bytes_w3cPlus : bytes "####-##-##T##:##:##+##:##" = bytes "####-##-##T##:##:##" ++ 0x2B :: bytes "##:##" := by decide

theorem bytes_w3cMinus : bytes "####-##-##T##:##:##-##:##" = bytes "####-##-##T##:##:##" ++ 0x2D :: bytes "##:##" := by decide

theorem bytes_digits : bytes "##########" = List.replicate 10 0x23 ∧ bytes "#########" = List.replicate 9 0x23 := by decide

theorem scanFormats_timestamp (hs : ∀ c ∈ s, isdigit c = true) (hlen : s.length = 9 ∨ s.length = 10) :
    scanFormats s = .timestamp s := by
  have hmask : apCheckmask s (bytes "##########") = true ∨ apCheckmask s (bytes "#########") = true := by
    rw [bytes_digits.1, bytes_digits.2, apCheckmask_digits, apCheckmask_digits]
    exact hlen.symm.imp (fun h => ⟨hs, h⟩) fun h => ⟨hs, h⟩
  have hno : ∀ {mask : List UInt8}, clash (bytes "##########") mask = true → clash (bytes "#########") mask = true →
      ¬apCheckmask s mask = true := by
    intro mask h₁₀ h₉ h
    rcases hmask with h' | h'
    · exact Bool.false_ne_true ((apCheckmask_of_clash h₁₀ h').symm.trans h)
    · exact Bool.false_ne_true ((apCheckmask_of_clash h₉ h').symm.trans h)
  have hor : ∀ {p q : Prop}, ¬p → ¬q → ¬(p ∨ q) := fun hp hq => not_or.mpr ⟨hp, hq⟩
  have hne : s ≠ [] := by
    rintro rfl
    exact hlen.elim (by decide) (by decide)
  rw [scanFormats, if_neg hne, if_neg (hno (by decide) (by decide)), if_neg (hno (by decide) (by decide)),
    if_neg (hor (hno (by decide) (by decide)) (hor (hno (by decide) (by decide)) (hor (hno (by decide) (by decide))
      (hno (by decide) (by decide))))), if_pos hmask]

theorem atoi_timestamp (hs : ∀ c ∈ s, isdigit c = true) :
    atoi s = if digitsValue s < 0x80000000 then some (digitsValue s : ℤ) else none := by
  have hnumber : numberAt s = digitsValue s := by
    rw [numberAt]
    rcases s with _ | ⟨c, s⟩
    · rfl
    · have hc := @forall_byte (fun c => isdigit c = true → (c == 0x20 || (0x09 ≤ c && c ≤ 0x0D)) = false ∧ c ≠ 0x2D ∧
        c ≠ 0x2B) (by decide +kernel) c (hs c List.mem_cons_self)
      rw [List.dropWhile_cons_of_neg (by rw [hc.1]; exact Bool.false_ne_true)]
      split
      · rename_i heq
        exact absurd (List.cons.inj heq).1 hc.2.1
      · rename_i heq
        exact absurd (List.cons.inj heq).1 hc.2.2
      · rfl
  rw [atoi, hnumber]
  split_ifs <;> first | rfl | omega

/-- **What comes of a text in one of the formats.** -/
theorem finish_of_written {f : Form} (h : Written s f) : finish (scanFormats s) = f.result := by
  have hmidnight : ∀ y m d : ℕ, finish (.date (tmOf ⟨y, m, d, 0, 0, 0⟩)) = finish (.time (tmOf ⟨y, m, d, 0, 0, 0⟩) 0) :=
    fun _ _ _ => rfl
  cases h with
  | iso hy hm hd => rw [scanFormats_iso hy hm hd, hmidnight]; rfl
  | german hy hm hd => rw [scanFormats_german hy hm hd, hmidnight]; rfl
  | w3c hc => rw [scanFormats_dateTime hc (Or.inl (apCheckmask_w3c.mpr ⟨_, hc, rfl⟩))]; rfl
  | w3cFraction hc hf =>
    rw [scanFormats_dateTime hc (Or.inr (Or.inl (apCheckmask_w3cFraction.mpr ⟨_, hc, _, hf, rfl⟩)))]
    rfl
  | w3cPlus hc hoh hom =>
    rw [scanFormats_dateTime hc (Or.inr (Or.inr (Or.inl (by
      rw [bytes_w3cPlus]
      exact (apCheckmask_w3cOffset (by decide)).mpr ⟨_, hc, _, hoh, _, hom, rfl⟩))))]
    rfl
  | w3cMinus hc hoh hom =>
    rw [scanFormats_dateTime hc (Or.inr (Or.inr (Or.inr (by
      rw [bytes_w3cMinus]
      exact (apCheckmask_w3cOffset (by decide)).mpr ⟨_, hc, _, hoh, _, hom, rfl⟩))))]
    rfl
  | timestamp hs hlen => rw [scanFormats_timestamp hs hlen, finish, atoi_timestamp hs]; rfl
  | rfc1123 hw hy hk hd hh hmi hs hzone =>
    rw [scanFormats_of_space hw, scanWeekdayFormats_rfc1123 hd (isName_monthName hk) hy hh hmi hs, monthIndex_monthName hk,
      scanTimeZone_eq hzone]
    rfl
  | rfc1123Short hw hy hk hd hh hmi hs hzone =>
    rw [scanFormats_of_space hw, scanWeekdayFormats_rfc1123Short hd (isName_monthName hk) hy hh hmi hs,
      monthIndex_monthName hk, scanTimeZone_eq hzone]
    rfl
  | rfc850 hw hy hk hd hh hmi hs hzone =>
    rw [scanFormats_of_space hw, scanWeekdayFormats_rfc850 hd (isName_monthName hk) hy hh hmi hs, monthIndex_monthName hk,
      scanTimeZone_eq hzone]
    rfl
  | asctime hw hy hk hday hh hmi hs =>
    rw [scanFormats_of_space hw, scanWeekdayFormats_asctime (isName_monthName hk) hday hh hmi hs hy, monthIndex_monthName hk]
    rfl

theorem badDate_thirteen (hc : c.month = 13) : badDate (tmOf c) = some true := by
  have hmon : (c.month : ℤ) - 1 > 11 := by
    rw [hc]
    decide
  simp only [badDate, tmOf, Option.bind_eq_bind, Option.bind_some]
  by_cases hday : (c.day : ℤ) ≤ 0 ∨ (c.day : ℤ) > 31
  · rw [if_pos hday]
    rfl
  · rw [if_neg hday, if_pos hmon]
    rfl

theorem finish_thirteen (hc : c.month = 13) (offset : ℤ) : finish (.time (tmOf c) offset) = some 0 := by
  have htime : ∃ b, badTime (tmOf c) = some b := by
    simp only [badTime, tmOf, Option.bind_eq_bind, Option.bind_some]
    split_ifs <;> exact ⟨_, rfl⟩
  obtain ⟨b, hb⟩ := htime
  simp only [finish, checkValidDate, hb, badDate_thirteen hc, Option.bind_eq_bind, Option.bind_some]
  cases b <;> rfl

/-- **Nothing comes of any other text.** -/
theorem finish_of_not_written (h : ∀ f, ¬Written s f) : finish (scanFormats s) = some 0 := by
  have hiso : ¬apCheckmask s (bytes "####-##-##") = true := fun hs => by
    obtain ⟨y, hy, m, hm, d, hd, rfl⟩ := apCheckmask_iso.mp hs
    exact h _ (.iso hy hm hd)
  have hgerman : ¬apCheckmask s (bytes "##.##.####") = true := fun hs => by
    obtain ⟨y, hy, m, hm, d, hd, rfl⟩ := apCheckmask_german.mp hs
    exact h _ (.german hy hm hd)
  have hw3c : ¬(apCheckmask s (bytes "####-##-##T##:##:##Z") = true ∨
      apCheckmask s (bytes "####-##-##T##:##:##.##Z") = true ∨
      apCheckmask s (bytes "####-##-##T##:##:##+##:##") = true ∨
      apCheckmask s (bytes "####-##-##T##:##:##-##:##") = true) := by
    rw [bytes_w3cPlus, bytes_w3cMinus]
    rintro (hs | hs | hs | hs)
    · obtain ⟨c, hc, rfl⟩ := apCheckmask_w3c.mp hs
      exact h _ (.w3c hc)
    · obtain ⟨c, hc, f, hf, rfl⟩ := apCheckmask_w3cFraction.mp hs
      exact h _ (.w3cFraction hc hf)
    · obtain ⟨c, hc, oh, hoh, om, hom, rfl⟩ := (apCheckmask_w3cOffset (by decide)).mp hs
      exact h _ (.w3cPlus hc hoh hom)
    · obtain ⟨c, hc, oh, hoh, om, hom, rfl⟩ := (apCheckmask_w3cOffset (by decide)).mp hs
      exact h _ (.w3cMinus hc hoh hom)
  have htimestamp : ¬(apCheckmask s (bytes "##########") = true ∨ apCheckmask s (bytes "#########") = true) := by
    rw [bytes_digits.1, bytes_digits.2, apCheckmask_digits, apCheckmask_digits]
    rintro (⟨hs, hlen⟩ | ⟨hs, hlen⟩)
    · exact h _ (.timestamp hs (Or.inr hlen))
    · exact h _ (.timestamp hs (Or.inl hlen))
  by_cases hnil : s = []
  · rw [scanFormats, if_pos hnil]
    rfl
  rw [scanFormats, if_neg hnil, if_neg hiso, if_neg hgerman, if_neg hw3c, if_neg htimestamp]
  cases hdrop : s.dropWhile (· ≠ 0x20) with
  | nil => rfl
  | cons c t =>
    have hsplit := List.takeWhile_append_dropWhile (p := fun c : UInt8 => decide (c ≠ 0x20)) (l := s)
    rw [hdrop] at hsplit
    have hc : c = 0x20 := by
      have hhead := List.head?_dropWhile_not (fun c : UInt8 => decide (c ≠ 0x20)) s
      rw [hdrop] at hhead
      simpa using hhead
    have hw : (0x20 : UInt8) ∉ s.takeWhile fun c => decide (c ≠ 0x20) := fun hmem => by
      have := List.mem_takeWhile_imp hmem
      simp at this
    subst hc
    rcases scanWeekdayFormats_cases t with hbad | ⟨c, offset, hscan, hmonth⟩
    · simp only [hbad]
      rfl
    · simp only [hscan]
      rcases hmonth with hthirteen | hwritten
      · exact finish_thirteen hthirteen offset
      · exact absurd (hsplit ▸ hwritten _ hw) (h _)

end MnoGoSearch.Date
