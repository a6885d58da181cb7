import MnoGoSearch.Url.Idempotent

/-!
# Dates

`UdmHttpDate2Time_t` (`date.c`) reads a date in one of several formats. A format is a mask; each one fills a `struct tm` in
its own way. Then the fields are checked, and the seconds are computed.
-/

namespace MnoGoSearch.Date

open Url

/-! ## Masks -/

/-- A character stands at the place of a character of a mask. -/
def maskChar (m c : UInt8) : Bool :=
  if m = 0x40 then 0x41 ≤ c && c ≤ 0x5A
  else if m = 0x24 then 0x61 ≤ c && c ≤ 0x7A
  else if m = 0x23 then isdigit c
  else if m = 0x26 then isdigit c || (0x41 ≤ c && c ≤ 0x46) || (0x61 ≤ c && c ≤ 0x66)
  else if m = 0x7E then c == 0x20 || isdigit c
  else c == m

/-- `ap_checkmask`, for the masks below; they have less than 256 characters. -/
def apCheckmask : List UInt8 → List UInt8 → Bool
  | data, [] => data.isEmpty
  | data, m :: mask => m == 0x2A || (data.head?.any (maskChar m) && apCheckmask data.tail mask)

/-! ## Fields -/

/-- The fields of `struct tm` that are used; a field that has not been set has no value. -/
structure Tm where
  year : Option ℤ
  mon : Option ℤ
  mday : Option ℤ
  hour : Option ℤ
  min : Option ℤ
  sec : Option ℤ

/-- `ds` at the beginning. -/
def Tm.unset : Tm := ⟨none, none, none, none, none, none⟩

/-- `s[i] - '0'`. -/
def digitAt (s : List UInt8) (i : ℕ) : ℤ := (s.getD i 0).toNat - 0x30

/-- Two digits. -/
def twoDigits (s : List UInt8) (i : ℕ) : ℤ := digitAt s i * 10 + digitAt s (i + 1)

/-- `scan_yyyy`. -/
def scanYyyy (ds : Tm) (date : List UInt8) : Tm :=
  { ds with year := some ((twoDigits date 0 - 19) * 100 + digitAt date 2 * 10 + digitAt date 3) }

/-- `scan_yyyy_mm_dd`. -/
def scanYyyyMmDd (ds : Tm) (date : List UInt8) : Tm :=
  { ds with
    year := some ((twoDigits date 0 - 19) * 100 + digitAt date 2 * 10 + digitAt date 3)
    mon := some (twoDigits date 5 - 1)
    mday := some (twoDigits date 8) }

/-- `scan_hh_mm_ss`. -/
def scanHhMmSs (ds : Tm) (timstr : List UInt8) : Tm :=
  { ds with hour := some (twoDigits timstr 0), min := some (twoDigits timstr 3), sec := some (twoDigits timstr 6) }

/-- Three characters in an `int`. -/
def packChars (a b c : UInt8) : ℕ := a.toNat <<< 16 ||| b.toNat <<< 8 ||| c.toNat

/-- `months`. -/
def months : List ℕ :=
  [packChars 0x4A 0x61 0x6E, packChars 0x46 0x65 0x62, packChars 0x4D 0x61 0x72, packChars 0x41 0x70 0x72,
    packChars 0x4D 0x61 0x79, packChars 0x4A 0x75 0x6E, packChars 0x4A 0x75 0x6C, packChars 0x41 0x75 0x67,
    packChars 0x53 0x65 0x70, packChars 0x4F 0x63 0x74, packChars 0x4E 0x6F 0x76, packChars 0x44 0x65 0x63]

/-- `scan_month_name`; a name that is not known is the month 12. -/
def scanMonthName (ds : Tm) (monstr : List UInt8) : Tm :=
  { ds with mon := some (months.idxOf (packChars (monstr.getD 0 0) (monstr.getD 1 0) (monstr.getD 2 0)) : ℕ) }

/-- `scan_time_zone`. -/
def scanTimeZone (zone : ℤ) (str : List UInt8) : ℤ :=
  if apCheckmask str (bytes "+####") ∨ apCheckmask str (bytes "-####") then
    (twoDigits str 1 * 60 + twoDigits str 3) * 60 * if str.getD 0 0 = 0x2D then -1 else 1
  else zone

/-- The two digits of the year in the format of RFC 850. -/
def scanYy (ds : Tm) (date : List UInt8) : Tm :=
  let year := twoDigits date 0
  { ds with year := some (if year < 70 then year + 100 else year) }

/-! ## Formats -/

/-- What is known when the checks begin. -/
inductive Scanned where
  /-- `return BAD_DATE`. -/
  | bad
  /-- `return atoi(date)`. -/
  | timestamp (date : List UInt8)
  /-- `goto check_valid_date`. -/
  | date (ds : Tm)
  /-- The time is checked first. -/
  | time (ds : Tm) (zone : ℤ)

/-- The formats with a weekday; `date` is what is behind the first space. -/
def scanWeekdayFormats (date : List UInt8) : Scanned :=
  if apCheckmask date (bytes "## @$$ #### ##:##:## *") then
    let ds := scanYyyy .unset (date.drop 7)
    let ds := { ds with mday := some (twoDigits date 0) }
    .time (scanHhMmSs (scanMonthName ds (date.drop 3)) (date.drop 12)) (scanTimeZone 0 (date.drop 21))
  else if apCheckmask date (bytes "# @$$ #### ##:##:## *") then
    let ds := scanYyyy .unset (date.drop 6)
    let ds := { ds with mday := some (digitAt date 0) }
    .time (scanHhMmSs (scanMonthName ds (date.drop 2)) (date.drop 11)) (scanTimeZone 0 (date.drop 20))
  else if apCheckmask date (bytes "##-@$$-## ##:##:## *") then
    let ds := scanYy .unset (date.drop 7)
    let ds := { ds with mday := some (twoDigits date 0) }
    .time (scanHhMmSs (scanMonthName ds (date.drop 3)) (date.drop 10)) (scanTimeZone 0 (date.drop 19))
  else if apCheckmask date (bytes "@$$ ~# ##:##:## ####*") then
    let ds := scanYyyy .unset (date.drop 16)
    let ds := { ds with mday := some ((if date.getD 4 0 = 0x20 then 0 else digitAt date 4 * 10) + digitAt date 5) }
    .time (scanHhMmSs (scanMonthName ds date) (date.drop 7)) 0
  else .bad

/-- The formats. -/
def scanFormats (date : List UInt8) : Scanned :=
  if date = [] then .bad
  else if apCheckmask date (bytes "####-##-##") then
    .date { scanYyyyMmDd .unset date with hour := some 0, min := some 0, sec := some 0 }
  else if apCheckmask date (bytes "##.##.####") then
    .date { scanYyyy .unset (date.drop 6) with
      mon := some (twoDigits date 3 - 1), mday := some (twoDigits date 0), hour := some 0, min := some 0, sec := some 0 }
  else if apCheckmask date (bytes "####-##-##T##:##:##Z") ∨ apCheckmask date (bytes "####-##-##T##:##:##.##Z") ∨
      apCheckmask date (bytes "####-##-##T##:##:##+##:##") ∨ apCheckmask date (bytes "####-##-##T##:##:##-##:##") then
    .time (scanHhMmSs (scanYyyyMmDd .unset date) (date.drop 11)) 0
  else if apCheckmask date (bytes "##########") ∨ apCheckmask date (bytes "#########") then .timestamp date
  else
    match date.dropWhile (· ≠ 0x20) with
    | [] => .bad
    | _ :: date => scanWeekdayFormats date

/-! ## Checks -/

/-- The check of the time. -/
def badTime (ds : Tm) : Option Bool := do
  if (← ds.hour) > 23 then return true
  if (← ds.min) > 59 then return true
  return (← ds.sec) > 61

/-- The check of the date. -/
def badDate (ds : Tm) : Option Bool := do
  let mday ← ds.mday
  if mday ≤ 0 ∨ mday > 31 then return true
  let mon ← ds.mon
  if mon > 11 then return true
  if mday = 31 ∧ (mon = 3 ∨ mon = 5 ∨ mon = 8 ∨ mon = 10) then return true
  if mon ≠ 1 then return false
  if mday > 29 then return true
  if mday ≠ 29 then return false
  let year ← ds.year
  return year % 4 ≠ 0 ∨ (year.tmod 100 = 0 ∧ year.tmod 400 ≠ 100)

/-- `dayoffset`. -/
def dayoffset : List ℤ := [306, 337, 0, 31, 61, 92, 122, 153, 184, 214, 245, 275]

/-- An element of `dayoffset`; there is none behind the ends. -/
def dayoffsetAt (mon : ℤ) : Option ℤ := if 0 ≤ mon then dayoffset[mon.toNat]? else none

/-- `ap_tm2sec`, where `time_t` has 64 bits. -/
def apTm2sec (t : Tm) : Option ℤ := do
  let year ← t.year
  if year < 70 then return 0
  let mon ← t.mon
  let year := if mon < 2 then year - 1 else year
  let days := year * 365 + year.tdiv 4 - year.tdiv 100 + (year.tdiv 100 + 3).tdiv 4
  let days := days + ((← dayoffsetAt mon) + (← t.mday) - 1)
  let days := days - 25508
  let secs := ((days * 24 + (← t.hour)) * 60 + (← t.min)) * 60 + (← t.sec)
  return if secs < 0 then 0 else secs

/-- What is done behind `check_valid_date`. -/
def checkValidDate (ds : Tm) (zone : ℤ) : Option ℤ := do
  if ← badDate ds then return 0
  return (← apTm2sec ds) - zone

/-- What is done with the fields. -/
def finish : Scanned → Option ℤ
  | .bad => some 0
  | .timestamp date => atoi date
  | .date ds => checkValidDate ds 0
  | .time ds zone => do
    if ← badTime ds then return 0
    checkValidDate ds zone

/-- `UdmHttpDate2Time_t`: the time, where only fields that have been set and elements of the tables are read. -/
def udmHttpDate2TimeT (date : List UInt8) : Option ℤ :=
  finish (scanFormats (date.dropWhile fun c => c == 0x20 || (0x09 ≤ c && c ≤ 0x0D)))

example : udmHttpDate2TimeT (bytes "Sun, 06 Nov 1994 08:49:37 GMT") = some 784111777 := by decide

end MnoGoSearch.Date
