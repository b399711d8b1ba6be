import Mathlib.Data.Nat.Find
import Mathlib.Tactic

/-!
# Calendar time

Seconds since 1970 and the broken-down time of the Gregorian calendar. `timegm` counts the days
before a year and before a month; `gmtime` looks for the last year and the last month that begin no
later than the day. `timegm_gmtime` says that the one undoes the other, and `valid_gmtime` that the
fields are in their ranges, with a year of four digits exactly up to the end of 9999.
-/

namespace Lib

/-- `struct tm`, with the year itself in place of the years since 1900; `mon` counts from 0. -/
structure Tm where
  year : ℤ
  mon : ℤ
  mday : ℤ
  hour : ℤ
  min : ℤ
  sec : ℤ
  deriving DecidableEq

/-- Whether a year has a 29 February. -/
def isLeap (y : ℤ) : Bool := y % 4 = 0 && (y % 100 ≠ 0 || y % 400 = 0)

/-- The days from 1 January 1970 to 1 January of a year. -/
def daysBeforeYear (y : ℤ) : ℤ :=
  365 * (y - 1970) + ((y - 1) / 4 - 492) - ((y - 1) / 100 - 19) + ((y - 1) / 400 - 4)

/-- The days from 1 January to the first day of a month. -/
def daysBeforeMonth (leap : Bool) (m : ℕ) : ℤ :=
  [0, 31, 59, 90, 120, 151, 181, 212, 243, 273, 304, 334].getD m 365 +
    if leap ∧ 2 ≤ m then 1 else 0

/-- `timegm`: the seconds since 1970 of a broken-down time; months beyond December run into the next
years, and the fields below may have any value. -/
def timegm (tm : Tm) : ℤ :=
  let y := tm.year + tm.mon / 12
  let days := daysBeforeYear y + daysBeforeMonth (isLeap y) (tm.mon % 12).toNat + (tm.mday - 1)
  ((days * 24 + tm.hour) * 60 + tm.min) * 60 + tm.sec

/-- The year of a day, as the years since 1970. -/
def yearOf (day : ℕ) : ℕ :=
  Nat.findGreatest (fun k => daysBeforeYear (1970 + k) ≤ day) (day / 365)

/-- The month of a day of a year. -/
def monthOf (leap : Bool) (yday : ℤ) : ℕ :=
  Nat.findGreatest (fun m => daysBeforeMonth leap m ≤ yday) 11

/-- `gmtime_r`: the broken-down time of a time from 1970 on. -/
def gmtime (t : ℕ) : Tm :=
  let day := t / 86400
  let y : ℤ := 1970 + yearOf day
  let yday : ℤ := day - daysBeforeYear y
  let m := monthOf (isLeap y) yday
  { year := y
    mon := m
    mday := yday - daysBeforeMonth (isLeap y) m + 1
    hour := (t % 86400 / 3600 : ℕ)
    min := (t % 3600 / 60 : ℕ)
    sec := (t % 60 : ℕ) }

theorem daysBeforeYear_succ (y : ℤ) :
    daysBeforeYear (y + 1) = daysBeforeYear y + 365 + if isLeap y then 1 else 0 := by
  simp only [daysBeforeYear, isLeap, Bool.and_eq_true, Bool.or_eq_true, decide_eq_true_eq]
  split_ifs with h <;> omega

theorem le_daysBeforeYear (k : ℕ) : 365 * (k : ℤ) ≤ daysBeforeYear (1970 + k) := by
  unfold daysBeforeYear
  omega

theorem yearOf_spec (day : ℕ) :
    daysBeforeYear (1970 + yearOf day) ≤ day ∧ (day : ℤ) < daysBeforeYear (1970 + yearOf day + 1) := by
  have hfirst : daysBeforeYear (1970 + (0 : ℕ)) ≤ day := by
    rw [Nat.cast_zero, add_zero, show daysBeforeYear 1970 = 0 by decide]
    omega
  refine ⟨Nat.findGreatest_spec (P := fun k : ℕ => daysBeforeYear (1970 + k) ≤ day)
    (Nat.zero_le _) hfirst, ?_⟩
  have hnext := le_daysBeforeYear (yearOf day + 1)
  push_cast [← add_assoc] at hnext
  by_contra! hle
  have hin : yearOf day + 1 ≤ day / 365 := by omega
  refine Nat.findGreatest_is_greatest (P := fun k : ℕ => daysBeforeYear (1970 + k) ≤ day)
    (Nat.lt_succ_self (yearOf day)) hin ?_
  push_cast [← add_assoc]
  exact hle

theorem monthOf_spec (leap : Bool) (yday : ℤ) (h0 : 0 ≤ yday)
    (h1 : yday < 365 + if leap then 1 else 0) :
    monthOf leap yday ≤ 11 ∧ daysBeforeMonth leap (monthOf leap yday) ≤ yday ∧
      yday < daysBeforeMonth leap (monthOf leap yday) + 31 := by
  have hle : monthOf leap yday ≤ 11 := Nat.findGreatest_le 11
  have hfirst : daysBeforeMonth leap 0 ≤ yday := by
    simpa [daysBeforeMonth] using h0
  have hspec : daysBeforeMonth leap (monthOf leap yday) ≤ yday :=
    Nat.findGreatest_spec (P := fun m => daysBeforeMonth leap m ≤ yday) (Nat.zero_le _) hfirst
  refine ⟨hle, hspec, ?_⟩
  -- no month has more than 31 days, and December ends with the year
  have hstep : ∀ (leap : Bool), ∀ m < 11, daysBeforeMonth leap (m + 1) ≤ daysBeforeMonth leap m + 31 := by
    decide
  have hlast : ∀ (leap : Bool), daysBeforeMonth leap 11 + 31 = 365 + if leap then 1 else 0 := by
    decide
  rcases hle.lt_or_eq with hlt | heq
  · by_contra! hge
    refine Nat.findGreatest_is_greatest (P := fun m => daysBeforeMonth leap m ≤ yday)
      (Nat.lt_succ_self (monthOf leap yday)) hlt ?_
    exact (hstep leap _ hlt).trans hge
  · rw [heq, hlast]
    exact h1

theorem timegm_gmtime (t : ℕ) : timegm (gmtime t) = t := by
  obtain ⟨hlo, hhi⟩ := yearOf_spec (t / 86400)
  rw [daysBeforeYear_succ] at hhi
  obtain ⟨hm, -, -⟩ := monthOf_spec (isLeap (1970 + yearOf (t / 86400)))
    ((t / 86400 : ℕ) - daysBeforeYear (1970 + yearOf (t / 86400))) (by omega) (by omega)
  simp only [timegm, gmtime]
  generalize monthOf _ _ = m at *
  have hdiv : (m : ℤ) / 12 = 0 := by omega
  have hmod : ((m : ℤ) % 12).toNat = m := by omega
  rw [hdiv, hmod, add_zero]
  push_cast
  omega

/-- A broken-down time whose fields are in their ranges. -/
structure Tm.Valid (tm : Tm) : Prop where
  mon_nonneg : 0 ≤ tm.mon
  mon_lt : tm.mon < 12
  mday_pos : 1 ≤ tm.mday
  mday_le : tm.mday ≤ 31
  hour_nonneg : 0 ≤ tm.hour
  hour_lt : tm.hour < 24
  min_nonneg : 0 ≤ tm.min
  min_lt : tm.min < 60
  sec_nonneg : 0 ≤ tm.sec
  sec_lt : tm.sec < 60

theorem valid_gmtime (t : ℕ) : (gmtime t).Valid := by
  obtain ⟨hlo, hhi⟩ := yearOf_spec (t / 86400)
  rw [daysBeforeYear_succ] at hhi
  obtain ⟨hm, hle, hlt⟩ := monthOf_spec (isLeap (1970 + yearOf (t / 86400)))
    ((t / 86400 : ℕ) - daysBeforeYear (1970 + yearOf (t / 86400))) (by omega) (by omega)
  exact
    { mon_nonneg := by simp only [gmtime]; omega
      mon_lt := by simp only [gmtime]; omega
      mday_pos := by simp only [gmtime]; omega
      mday_le := by simp only [gmtime]; omega
      hour_nonneg := by simp only [gmtime]; omega
      hour_lt := by simp only [gmtime]; omega
      min_nonneg := by simp only [gmtime]; omega
      min_lt := by simp only [gmtime]; omega
      sec_nonneg := by simp only [gmtime]; omega
      sec_lt := by simp only [gmtime]; omega }

theorem le_year_gmtime (t : ℕ) : 1970 ≤ (gmtime t).year := by
  simp only [gmtime]
  omega

theorem year_gmtime_lt_iff (t : ℕ) : (gmtime t).year < 10000 ↔ t < 253402300800 := by
  obtain ⟨hlo, hhi⟩ := yearOf_spec (t / 86400)
  simp only [gmtime]
  unfold daysBeforeYear at hlo hhi
  omega

example : gmtime 951782400 = ⟨2000, 1, 29, 0, 0, 0⟩ := by decide

end Lib
