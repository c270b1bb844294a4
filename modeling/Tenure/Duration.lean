import Tenure.Instant

/-!
# Durations

How long a phase of a plan lasts: a number of days, calendar months or years, or without end.
`Duration.addTo` gives the instant at which a period that starts at a given instant is over.
-/

namespace Tenure

inductive TimeUnit
  | days | months | years | unlimited
  deriving DecidableEq, Repr

def TimeUnit.all : List TimeUnit := [.days, .months, .years, .unlimited]

structure Duration where
  unit : TimeUnit
  number : Nat
  deriving DecidableEq, Repr

namespace Duration

def isUnlimited (d : Duration) : Bool := d.unit = .unlimited

/-- The end of a period that starts at `start`. An unlimited period has none, nor has one that
ends beyond the calendar. Years are counted as twelve months each, in 32 bits. -/
def addTo (d : Duration) (start : Instant) : Option Instant :=
  match d.unit with
  | .days => start.addDays? d.number
  | .months => start.addMonths? d.number
  | .years => if d.number * 12 < UInt32.size then start.addMonths? (d.number * 12) else none
  | .unlimited => none

end Duration

end Tenure
