import SStock.Framework.Gregorian

namespace Framework.Gregorian

/-- How a locale numbers weeks: the weekday a week begins with, Sunday being 1,
and the least number of days that the first week has in its year. -/
structure WeekRule where
  firstWeekday : ℕ
  minimalDays : ℕ
  firstWeekday_pos : 1≤firstWeekday
  firstWeekday_le : firstWeekday≤7
  minimalDays_pos : 1 ≤ minimalDays
  minimalDays_le : minimalDays≤7

namespace WeekRule

variable (r : WeekRule) (year : ℕ)

/-- The number of the first day of the week of day `n`. -/
def weekOf (n : ℕ) : ℤ := n-((n+8-r.firstWeekday)%7 : ℕ)

/-- The number of the first day of week 1, the week of the day of January given
by `minimalDays`. -/
def weekStart : ℤ := r.weekOf (yearStart year+r.minimalDays)

/-- The year that the week of `d` is counted to. -/
def weekYear (d : Date) : ℕ :=
  if d.dayNumber<r.weekStart d.year then d.year-1
  else if d.dayNumber<r.weekStart (d.year+1) then d.year
  else d.year+1

/-- The week of `d` is counted to its calendar year: it is neither before the
first week of this year nor in the first week of the next one. -/
def InOwnYear (d : Date) : Prop :=
  r.weekStart d.year≤d.dayNumber ∧ d.dayNumber<r.weekStart (d.year+1)

variable {r year} {d : Date}

/-- Week 1 begins on the first weekday. -/
theorem weekStart_weekday (h : d.dayNumber=r.weekStart year) :
    d.weekday+1=r.firstWeekday := by
  have hpos := r.firstWeekday_pos
  have hle := r.firstWeekday_le
  unfold weekStart weekOf at h
  unfold Date.weekday
  omega

variable (r year) in
/-- Week 1 has the minimal number of days in its year, and the week before has
fewer. -/
theorem weekStart_minimal : yearStart year+r.minimalDays<r.weekStart year+7 ∧
    r.weekStart year≤yearStart year+r.minimalDays := by
  unfold weekStart weekOf
  omega

theorem weekYear_eq_year : r.weekYear d=d.year ↔ r.InOwnYear d := by
  have hpos := d.year_pos
  unfold weekYear InOwnYear
  split_ifs with hbefore hafter <;> omega

theorem year_le_weekYear (h : r.weekStart d.year≤d.dayNumber) : d.year≤r.weekYear d := by
  unfold weekYear
  split_ifs <;> omega

theorem weekYear_lt_year (h : d.dayNumber<r.weekStart d.year) : r.weekYear d<d.year := by
  have hpos := d.year_pos
  rw [weekYear,if_pos h]
  omega

/-- From the seventh of January to the twenty-fifth of December all rules count
a week to its calendar year. -/
theorem inOwnYear_of_midyear (hjan : yearStart d.year+7≤d.dayNumber)
    (hdec : d.dayNumber+6≤yearStart (d.year+1)) : r.InOwnYear d := by
  have hthis := weekStart_minimal r d.year
  have hnext := weekStart_minimal r (d.year+1)
  have hpos := r.minimalDays_pos
  have hle := r.minimalDays_le
  constructor
  · omega
  · omega

end WeekRule

end Framework.Gregorian
