/-!
# The civil calendar

Dates of the proleptic Gregorian calendar and the days they number. Day 0 is 1970-01-01. Years
may be zero or negative; the year before 1 is 0.

A date is turned into its day by adding up the days before its year and before its month
(`Date.toDay`), and a day is turned back by finding the year that holds it and walking through
that year's months (`Date.ofDay`). Adding months keeps the day of the month where the target
month has it, and takes that month's last day where it has not.
-/

namespace Tenure

/-- A day of the calendar: month 1 to 12, day of the month from 1. -/
structure Date where
  year : Int
  month : Nat
  day : Nat
  deriving DecidableEq, Repr

namespace Date

/-! ## Years and months -/

/-- Every fourth year is a leap year, except the centuries that 400 does not divide. -/
def isLeap (year : Int) : Bool :=
  year % 4 == 0 && (year % 100 != 0 || year % 400 == 0)

def daysInMonth (year : Int) (month : Nat) : Nat :=
  match month with
  | 2 => if isLeap year then 29 else 28
  | 4 | 6 | 9 | 11 => 30
  | _ => 31

/-- Days from 0001-01-01 to the first of January of `year`; negative for earlier years. -/
def daysBeforeYear (year : Int) : Int :=
  365 * (year - 1) + (year - 1) / 4 - (year - 1) / 100 + (year - 1) / 400

/-- Days of `year` before the first of `month`. -/
def daysBeforeMonth (year : Int) : Nat → Nat
  | 0 | 1 => 0
  | month + 2 => daysBeforeMonth year (month + 1) + daysInMonth year (month + 1)

/-- The year that holds the day which comes `n` days after 0001-01-01. An average year has
146097/400 days, which misses the year by at most one. -/
def yearOf (n : Int) : Int :=
  let guess := 400 * n / 146097 + 1
  if n < daysBeforeYear guess then guess - 1
  else if daysBeforeYear (guess + 1) ≤ n then guess + 1
  else guess

theorem daysBeforeYear_yearOf_le (n : Int) : daysBeforeYear (yearOf n) ≤ n := by
  unfold yearOf daysBeforeYear
  grind

theorem lt_daysBeforeYear_yearOf (n : Int) : n < daysBeforeYear (yearOf n + 1) := by
  unfold yearOf daysBeforeYear
  grind

/-- Walk from `month` through at most `left` further months; `rest` counts the days from the
first of `month`. Gives the month reached and the days left within it. -/
def walkMonths (year : Int) : (left month rest : Nat) → Nat × Nat
  | 0, month, rest => (month, rest)
  | left + 1, month, rest =>
    if rest < daysInMonth year month then (month, rest)
    else walkMonths year left (month + 1) (rest - daysInMonth year month)

/-! ## Dates and days -/

/-- Days from 0001-01-01 to 1970-01-01. -/
def epochOffset : Int := 719162

/-- The day a date names. -/
def toDay (d : Date) : Int :=
  daysBeforeYear d.year + daysBeforeMonth d.year d.month + (d.day - 1) - epochOffset

def ofDay (day : Int) : Date :=
  let n := day + epochOffset
  let year := yearOf n
  let (month, rest) := walkMonths year 11 1 (n - daysBeforeYear year).toNat
  ⟨year, month, rest + 1⟩

def isValid (d : Date) : Bool :=
  1 ≤ d.month && d.month ≤ 12 && 1 ≤ d.day && d.day ≤ daysInMonth d.year d.month

/-! ## Adding months -/

/-- The date `n` months later, on the same day of the month or the last one there is. -/
def addMonths (d : Date) (n : Nat) : Date :=
  let months := d.year * 12 + (d.month - 1) + n
  let year := months / 12
  let month := (months % 12).toNat + 1
  ⟨year, month, min d.day (daysInMonth year month)⟩

/-! ## Text -/

/-- Decimal digits of `n`, with zeros in front up to `width` of them. -/
def padded (width n : Nat) : String :=
  let digits := toString n
  "".pushn '0' (width - digits.length) ++ digits

/-- Years 0 to 9999 have four digits; any other has a sign and at least four. -/
def yearText (year : Int) : String :=
  if 0 ≤ year ∧ year ≤ 9999 then padded 4 year.toNat
  else if year < 0 then "-" ++ padded 4 year.natAbs
  else "+" ++ padded 4 year.natAbs

/-- The date as `2024-01-31`. -/
def text (d : Date) : String :=
  yearText d.year ++ "-" ++ padded 2 d.month ++ "-" ++ padded 2 d.day

end Date

end Tenure
