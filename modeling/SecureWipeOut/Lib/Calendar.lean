import Mathlib.Tactic

/-! # Dates and times of day

Times of the Gregorian calendar with a resolution of a second, the number of seconds up to
them, and their decimal stamps: the fields of a time written one behind the other, two
digits each but for the year. Stamps order times rightly, but the difference of two stamps
is a time only as long as no field above the minutes changes.
-/
namespace SecureWipeOut.Calendar

def isLeap (year : ℕ) : Bool := year % 4 == 0 && (year % 100 != 0 || year % 400 == 0)

def daysInMonth (year month : ℕ) : ℕ :=
  if month = 2 then if isLeap year then 29 else 28
  else if month = 4 ∨ month = 6 ∨ month = 9 ∨ month = 11 then 30
  else 31

structure DateTime where
  year : ℕ
  month : ℕ
  day : ℕ
  hour : ℕ
  minute : ℕ
  second : ℕ
  year_lt : year < 10000
  month_pos : 0 < month
  month_le : month ≤ 12
  day_pos : 0 < day
  day_le : day ≤ daysInMonth year month
  hour_lt : hour < 24
  minute_lt : minute < 60
  second_lt : second < 60

/-- Days before a day, counted from the first day of the year 0. -/
def dayNumber (year month day : ℕ) : ℕ :=
  ((List.range year).map fun y => if isLeap y then 366 else 365).sum +
    ((List.range (month - 1)).map fun m => daysInMonth year (m + 1)).sum + (day - 1)

example : dayNumber 4 3 1 = dayNumber 4 2 28 + 2 ∧ dayNumber 5 1 1 = dayNumber 4 12 31 + 1 := by decide

namespace DateTime
variable (a b : DateTime)

def seconds : ℕ := 3600 * a.hour + 60 * a.minute + a.second

/-- The seconds up to a time. -/
def instant : ℕ := 86400 * dayNumber a.year a.month a.day + a.seconds

/-- YYYYMMDDhh. -/
def hourStamp : ℕ := ((a.year * 100 + a.month) * 100 + a.day) * 100 + a.hour

/-- YYYYMMDDhhmmss. -/
def stamp : ℕ := (a.hourStamp * 100 + a.minute) * 100 + a.second

def SameHour : Prop := a.year = b.year ∧ a.month = b.month ∧ a.day = b.day ∧ a.hour = b.hour

/-- At most so many seconds apart. -/
def Within (n : ℕ) : Prop := a.instant ≤ b.instant + n ∧ b.instant ≤ a.instant + n

theorem day_lt : a.day < 100 := by
  have h := a.day_le
  unfold daysInMonth at h
  split_ifs at h <;> omega

variable {a b}

theorem hourStamp_eq_iff : a.hourStamp = b.hourStamp ↔ a.SameHour b := by
  have := a.day_lt
  have := b.day_lt
  have := a.hour_lt
  have := b.hour_lt
  have := a.month_le
  have := b.month_le
  unfold hourStamp SameHour
  omega

theorem stamp_pos : 0 < a.stamp := by
  have := a.month_pos
  unfold stamp hourStamp
  omega

theorem stamp_lt : a.stamp < 10 ^ 14 := by
  have := a.year_lt
  have := a.month_le
  have := a.day_lt
  have := a.hour_lt
  have := a.minute_lt
  have := a.second_lt
  unfold stamp hourStamp
  omega

/-- Within an hour, a difference of 100 between stamps is a difference of 60 seconds. -/
theorem SameHour.stamp_iff (h : a.SameHour b) :
    (a.stamp ≤ b.stamp + 100 ∧ b.stamp ≤ a.stamp + 100) ↔ a.Within b 60 := by
  have hstamp := hourStamp_eq_iff.mpr h
  obtain ⟨hy,hm,hd,hh⟩ := h
  have := a.minute_lt
  have := b.minute_lt
  have := a.second_lt
  have := b.second_lt
  unfold Within instant seconds stamp
  rw [hy,hm,hd,hh,hstamp]
  omega

/-- Stamps of different hours are far apart. -/
theorem stamp_far (h : ¬a.SameHour b) : a.stamp + 4000 < b.stamp ∨ b.stamp + 4000 < a.stamp := by
  have hne := mt hourStamp_eq_iff.mp h
  have := a.minute_lt
  have := b.minute_lt
  have := a.second_lt
  have := b.second_lt
  unfold stamp
  omega

end DateTime

end SecureWipeOut.Calendar
