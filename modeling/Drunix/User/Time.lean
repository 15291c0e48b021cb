import Drunix.Lib.Bytes

/-!
# The date of a time

`gmtime_r` of the user runtime (`user/runtime/time.c`): the time of day by division, the weekday
from the number of days, and the date by two loops that take away the days of a year and of a
month. `time_t` is a `long`: 32 bits on x86, and 64 bits on arm64.

`IsDate` says what the date of a time is in the proleptic Gregorian calendar, with the days
before a year and before a month in closed form. `gmtime_date_iff`: `gmtime_r` gives the one date
of a time exactly if the number of its days, and four more, fits into the `unsigned int` in which
the code counts them. A 32-bit time always fits; 2^32 days after the epoch it is the epoch again
(`far_day_is_epoch`).

Mirroring notes:
- The two pointers are an optional time, and whether there is a place for the result.
- The `int` of the year does not overflow: 2^32 days are less than twelve million years.
-/

namespace Drunix.User

open Lib

/-- `struct tm`; `year` counts from 1900. -/
structure Tm where
  sec : Nat
  min : Nat
  hour : Nat
  mday : Nat
  mon : Nat
  year : Int
  wday : Nat
  yday : Nat
  isdst : Nat

/-- `is_leap_year`. -/
def isLeapYear (year : Int) : Bool := (year % 4 == 0 && year % 100 != 0) || year % 400 == 0

/-- `month_len`. -/
def monthLen (year : Int) (month : Nat) : Nat :=
  if month = 1 ∧ isLeapYear year then 29
  else [31, 28, 31, 30, 31, 30, 31, 31, 30, 31, 30, 31].getD month 0

/-- `ydays`. -/
def yearDays (year : Int) : Nat := if isLeapYear year then 366 else 365

theorem yearDays_pos (year : Int) : 0 < yearDays year := by
  unfold yearDays
  split <;> decide

/-- The loop over the years: the days that are left, and the year. -/
def yearLoop (days : Nat) (year : Int) : Nat × Int :=
  if days < yearDays year then (days, year) else yearLoop (days - yearDays year) (year + 1)
termination_by days
decreasing_by
  have := yearDays_pos year
  omega

/-- The loop over the months. -/
def monthLoop (year : Int) (days month : Nat) : Nat × Nat :=
  if month < 12 then
    if days < monthLen year month then (days, month)
    else monthLoop year (days - monthLen year month) (month + 1)
  else (days, month)
termination_by 12 - month

/-- `gmtime_r`, with the days and the seconds of the day. -/
def fillTm (days rem : Nat) : Tm :=
  let (yday, year) := yearLoop days 1970
  let (mday, month) := monthLoop year yday 0
  { hour := rem / 3600, min := rem % 3600 / 60, sec := rem % 3600 % 60, wday := u32 (days + 4) % 7,
    year := year - 1900, yday := yday, mon := month, mday := mday + 1, isdst := 0 }

/-- `gmtime_r`. -/
def gmtimeR (timer : Option Int) (result : Bool) : Option Tm :=
  match timer with
  | none => none
  | some seconds =>
    if !result then none
    else if seconds < 0 then none
    else some (fillTm (u32 (seconds / 86400).toNat) (u32 (seconds % 86400).toNat))

/-! ## The calendar -/

/-- The days from the beginning of the year 1 to the beginning of a year. -/
def daysBeforeYear (year : Int) : Int :=
  365 * (year - 1) + (year - 1) / 4 - (year - 1) / 100 + (year - 1) / 400

/-- The days of a year before a month. -/
def daysBeforeMonth (leap : Bool) (month : Nat) : Nat :=
  [0, 31, 59, 90, 120, 151, 181, 212, 243, 273, 304, 334, 365].getD month 0 +
    if leap = true ∧ 2 ≤ month then 1 else 0

/-- The date and time of day `t` seconds after the beginning of 1970. The year 1 began on a
Monday. -/
structure IsDate (tm : Tm) (t : Nat) : Prop where
  sec : tm.sec < 60
  min : tm.min < 60
  hour : tm.hour < 24
  mon : tm.mon < 12
  mday : 1 ≤ tm.mday ∧ tm.mday ≤ monthLen (tm.year + 1900) tm.mon
  yday : tm.yday + 1 = daysBeforeMonth (isLeapYear (tm.year + 1900)) tm.mon + tm.mday
  wday : (tm.wday : Int) = (daysBeforeYear (tm.year + 1900) + tm.yday + 1) % 7
  isdst : tm.isdst = 0
  seconds : (t : Int) = (daysBeforeYear (tm.year + 1900) - daysBeforeYear 1970 +
    daysBeforeMonth (isLeapYear (tm.year + 1900)) tm.mon + tm.mday - 1) * 86400 +
    tm.hour * 3600 + tm.min * 60 + tm.sec

theorem daysBeforeYear_succ (year : Int) :
    daysBeforeYear (year + 1) = daysBeforeYear year + yearDays year := by
  unfold daysBeforeYear yearDays isLeapYear
  split
  next h =>
    simp at h
    omega
  next h =>
    simp at h
    omega

theorem daysBeforeYear_mono {y y' : Int} (h : y ≤ y') : daysBeforeYear y ≤ daysBeforeYear y' := by
  unfold daysBeforeYear
  omega

theorem daysBeforeMonth_succ (year : Int) {month : Nat} (h : month < 12) :
    daysBeforeMonth (isLeapYear year) (month + 1) =
      daysBeforeMonth (isLeapYear year) month + monthLen year month := by
  unfold monthLen
  cases isLeapYear year <;> interval_cases month <;> rfl

theorem daysBeforeMonth_end (year : Int) :
    daysBeforeMonth (isLeapYear year) 12 = yearDays year := by
  unfold yearDays
  cases isLeapYear year <;> rfl

theorem daysBeforeMonth_mono (leap : Bool) :
    ∀ m' ≤ 12, ∀ m ≤ m', daysBeforeMonth leap m ≤ daysBeforeMonth leap m' := by
  cases leap <;> decide

/-- A day belongs to one year. -/
theorem year_unique {y y' : Int} {d d' : Nat} (hd : d < yearDays y) (hd' : d' < yearDays y')
    (h : daysBeforeYear y + d = daysBeforeYear y' + d') : y = y' := by
  have hy := daysBeforeYear_succ y
  have hy' := daysBeforeYear_succ y'
  rcases lt_trichotomy y y' with hlt | heq | hlt
  · have := daysBeforeYear_mono (show y + 1 ≤ y' from hlt)
    omega
  · exact heq
  · have := daysBeforeYear_mono (show y' + 1 ≤ y from hlt)
    omega

/-- A day of a year belongs to one month. -/
theorem month_unique (year : Int) {m m' d d' : Nat} (hm : m < 12) (hm' : m' < 12)
    (hd : d < monthLen year m) (hd' : d' < monthLen year m')
    (h : daysBeforeMonth (isLeapYear year) m + d = daysBeforeMonth (isLeapYear year) m' + d') :
    m = m' := by
  have hs := daysBeforeMonth_succ year hm
  have hs' := daysBeforeMonth_succ year hm'
  rcases lt_trichotomy m m' with hlt | heq | hlt
  · have := daysBeforeMonth_mono (isLeapYear year) m' hm'.le (m + 1) hlt
    omega
  · exact heq
  · have := daysBeforeMonth_mono (isLeapYear year) m hm.le (m' + 1) hlt
    omega

theorem IsDate.yday_lt {tm : Tm} {t : Nat} (h : IsDate tm t) :
    tm.yday < yearDays (tm.year + 1900) := by
  have hend := daysBeforeMonth_mono (isLeapYear (tm.year + 1900)) 12 le_rfl (tm.mon + 1) h.mon
  rw [daysBeforeMonth_succ _ h.mon, daysBeforeMonth_end] at hend
  have := h.yday
  have := h.mday
  omega

/-- A time has one date. -/
theorem IsDate.unique {tm tm' : Tm} {t : Nat} (h : IsDate tm t) (h' : IsDate tm' t) : tm' = tm := by
  have hs := h.seconds
  have hs' := h'.seconds
  obtain ⟨sec, min, hour, mday, mon, year, wday, yday, isdst⟩ := tm
  obtain ⟨sec', min', hour', mday', mon', year', wday', yday', isdst'⟩ := tm'
  obtain ⟨hsec, hmin, hhour, hmon, hmday, hyday, hwday, hisdst, -⟩ := id h
  obtain ⟨hsec', hmin', hhour', hmon', hmday', hyday', hwday', hisdst', -⟩ := id h'
  have hlt := h.yday_lt
  have hlt' := h'.yday_lt
  dsimp only at *
  obtain rfl : year = year' := by
    have := year_unique hlt hlt' (by omega)
    omega
  obtain rfl : mon = mon' :=
    month_unique (year + 1900) hmon hmon' (show mday - 1 < _ by omega) (show mday' - 1 < _ by omega)
      (by omega)
  obtain rfl : yday = yday' := by omega
  obtain ⟨rfl, rfl, rfl, rfl⟩ : hour = hour' ∧ min = min' ∧ sec = sec' ∧ mday = mday' := by omega
  obtain rfl : wday = wday' := by omega
  rw [hisdst, hisdst']

/-! ## The loops -/

/-- The loop over the years moves days from the count into the year. -/
theorem yearLoop_spec (days : Nat) (year : Int) :
    (yearLoop days year).1 < yearDays (yearLoop days year).2 ∧
      daysBeforeYear (yearLoop days year).2 + (yearLoop days year).1 =
        daysBeforeYear year + days := by
  fun_induction yearLoop days year with
  | case1 days year hlt => exact ⟨hlt, rfl⟩
  | case2 days year hge ih =>
    have := daysBeforeYear_succ year
    exact ⟨ih.1, by omega⟩

/-- The loop over the months ends before the year does. -/
theorem monthLoop_spec (year : Int) (days month : Nat) (hm : month ≤ 12)
    (hd : daysBeforeMonth (isLeapYear year) month + days < yearDays year) :
    let out := monthLoop year days month
    out.2 < 12 ∧ out.1 < monthLen year out.2 ∧
      daysBeforeMonth (isLeapYear year) out.2 + out.1 =
        daysBeforeMonth (isLeapYear year) month + days := by
  fun_induction monthLoop year days month with
  | case1 days month hlt hin => exact ⟨hlt, hin, rfl⟩
  | case2 days month hlt hout ih =>
    have hsucc := daysBeforeMonth_succ year hlt
    obtain ⟨h1, h2, h3⟩ := ih hlt (by omega)
    exact ⟨h1, h2, by omega⟩
  | case3 days month hge =>
    obtain rfl : month = 12 := by omega
    rw [daysBeforeMonth_end] at hd
    omega

/-- What `gmtime_r` fills in is the date of as many days, but for the weekday. -/
theorem fillTm_spec (days : Nat) {rem w : Nat} (hrem : rem < 86400) (hw : w = (days + 4) % 7) :
    IsDate { fillTm days rem with wday := w } (days * 86400 + rem) := by
  have hyear := yearLoop_spec days 1970
  unfold fillTm
  generalize yearLoop days 1970 = out at hyear ⊢
  obtain ⟨yday, year⟩ := out
  obtain ⟨hlt, hdays⟩ := hyear
  have hmonth := monthLoop_spec year yday 0 (by decide) (by simpa [daysBeforeMonth] using hlt)
  dsimp only at hmonth ⊢
  generalize monthLoop year yday 0 = out at hmonth ⊢
  obtain ⟨mday, month⟩ := out
  obtain ⟨hmon, hmday, hyday⟩ := hmonth
  have hzero : daysBeforeMonth (isLeapYear year) 0 = 0 := by simp [daysBeforeMonth]
  have hepoch : daysBeforeYear 1970 = 719162 := rfl
  dsimp only at hdays hmon hmday hyday
  refine ⟨?_, ?_, ?_, hmon, ?_, ?_, ?_, rfl, ?_⟩ <;>
    simp only [Int.sub_add_cancel] <;> omega

/-- A sum that wraps around is of another weekday: 2^32 is not a number of weeks. -/
theorem lt_of_weekday {days : Nat} (hlt : days < 4294967296)
    (h : u32 (days + 4) % 7 = (days + 4) % 7) : days + 4 < 4294967296 := by
  refine Nat.lt_of_not_le fun hge => ?_
  obtain ⟨k, rfl⟩ := Nat.exists_eq_add_of_le (show 4294967292 ≤ days by omega)
  have hk : k < 4 := by omega
  clear hlt hge
  interval_cases k <;> simp [u32] at h

/-- `gmtime_r` gives the one date of a time exactly if the number of its days, and four more, is
an `unsigned int`. -/
theorem gmtime_date_iff (t : Nat) :
    (∃ tm, gmtimeR (some t) true = some tm ∧ IsDate tm t ∧ ∀ tm', IsDate tm' t → tm' = tm) ↔
      t / 86400 + 4 < 4294967296 := by
  have hrem : t % 86400 < 86400 := Nat.mod_lt _ (by decide)
  have hret : gmtimeR (some t) true = some (fillTm (u32 (t / 86400)) (u32 (t % 86400))) := rfl
  have hdays : u32 (t / 86400) = t / 86400 % 4294967296 := rfl
  rw [hret, u32_of_lt (by omega : t % 86400 < 4294967296)]
  generalize u32 (t / 86400) = days at hdays ⊢
  constructor
  · rintro ⟨tm, htm, h, -⟩
    cases htm
    have hdate := fillTm_spec days hrem rfl
    have hseconds : (t : Int) = (days * 86400 + t % 86400 : Nat) :=
      h.seconds.trans hdate.seconds.symm
    have hwday : ((u32 (days + 4) % 7 : Nat) : Int) = ((days + 4) % 7 : Nat) :=
      h.wday.trans hdate.wday.symm
    rw [show t / 86400 = days by omega]
    exact lt_of_weekday (hdays ▸ Nat.mod_lt _ (by decide)) (Int.ofNat_inj.mp hwday)
  · intro hfits
    have hdate := fillTm_spec days (w := u32 (days + 4) % 7) hrem
      (by rw [u32_of_lt (by omega)])
    rw [show days * 86400 + t % 86400 = t by omega] at hdate
    exact ⟨_, rfl, hdate, fun _ h' => hdate.unique h'⟩

/-- 2^32 days after the epoch it is the first of January 1970. -/
theorem far_day_is_epoch :
    ∃ tm, gmtimeR (some 371085174374400) true = some tm ∧ tm.year = 70 ∧ tm.yday = 0 ∧
      ¬ IsDate tm 371085174374400 := by
  have hfill : fillTm 0 0 = ⟨0, 0, 0, 1, 0, 70, 4, 0, 0⟩ := by
    simp [fillTm, yearLoop, monthLoop, yearDays, monthLen, isLeapYear, u32]
  refine ⟨fillTm 0 0, rfl, by rw [hfill], by rw [hfill], fun h => ?_⟩
  rw [hfill] at h
  exact absurd h.seconds (by decide)

end Drunix.User
