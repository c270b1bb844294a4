import Tenure.Instant

/-!
# Timestamps

In documents a date is a timestamp, `2024-01-31T00:00:00Z`. It is written in UTC (`text`) and read
from any offset and with some leniency (`ofText?`): numbers may have fewer digits than usual and
blanks around them, the part of a second may have any number of digits, of which nine count, and
years beyond four digits have a sign.

A timestamp may name a leap second, as the 60th of its minute.
-/

namespace Tenure.Timestamp

/-- The form dates have in documents, `2024-01-31T00:00:00Z`. -/
def text (t : Instant) : String := t.date.text ++ "T" ++ t.clockText ++ "Z"

/-! ## Reading off the front -/

/-- Takes something off the front of a text. -/
abbrev Reader := StateT (List Char) Option

/-- White space as Unicode has it. -/
def isBlank (c : Char) : Bool :=
  let n := c.toNat
  (9 ≤ n && n ≤ 13) || n == 0x20 || n == 0x85 || n == 0xa0 || n == 0x1680
    || (0x2000 ≤ n && n ≤ 0x200a) || n == 0x2028 || n == 0x2029 || n == 0x202f || n == 0x205f
    || n == 0x3000

def skip (p : Char → Bool) : Reader Unit := fun cs => some ((), cs.dropWhile p)

/-- One character, which has to pass. -/
def single (p : Char → Bool) : Reader Char
  | c :: cs => if p c then some (c, cs) else none
  | [] => none

def decimal (digits : List Char) : Nat :=
  digits.foldl (fun n c => 10 * n + (c.toNat - 48)) 0

/-- As many digits as there are, but at least one and at most `most`. -/
def digits (most : Nat) : Reader (List Char) := fun cs =>
  let found := (cs.take most).takeWhile Char.isDigit
  if found.isEmpty then none else some (found, cs.drop found.length)

def separator (c : Char) : Reader Unit := do
  skip isBlank
  let _ ← single (· == c)

/-- A field of one or two digits. -/
def field : Reader Nat := do
  skip isBlank
  return decimal (← digits 2)

/-! ## Date and time -/

/-- A year of up to four digits, or of any number of them behind a sign. -/
def year : Reader Int := do
  skip isBlank
  let rest ← get
  match rest with
  | '-' :: cs =>
    set cs
    return -(decimal (← digits cs.length))
  | '+' :: cs =>
    set cs
    return decimal (← digits cs.length)
  | _ => return decimal (← digits 4)

def date : Reader Date := do
  let year ← year
  separator '-'
  let month ← field
  separator '-'
  let day ← field
  return ⟨year, month, day⟩

/-- The part of a second in nanoseconds. Digits after the ninth are passed over. -/
def fraction : Reader Nat := do
  let rest ← get
  match rest with
  | '.' :: cs =>
    set cs
    let found ← digits 9
    skip Char.isDigit
    return decimal (found.rightpad 9 '0')
  | _ => return 0

/-- A reading of a clock. The second may be the 60th. -/
structure Clock where
  hour : Nat
  minute : Nat
  second : Nat
  nanos : Nat

namespace Clock

def isValid (c : Clock) : Bool := c.hour ≤ 23 && c.minute ≤ 59 && c.second ≤ 60

/-- Ticks since midnight. The 60th second is a leap second behind the one before it. -/
def timeOfDay (c : Clock) : Int :=
  ((c.hour * 60 + c.minute) * 60 + min c.second 59 : Nat) * ticksPerSecond
    + (c.second / 60 * 1000000000 + c.nanos : Nat)

end Clock

def clock : Reader Clock := do
  let hour ← field
  separator ':'
  let minute ← field
  separator ':'
  let second ← field
  return ⟨hour, minute, second, ← fraction⟩

/-! ## Offset -/

def isSign (c : Char) : Bool := c == '+' || c == '-' || c == '\u2212'

/-- Hours and minutes east of UTC, in minutes. Both have two digits; colons and blanks between
them do not matter. -/
def numericOffset : Reader Int := do
  let sign ← single isSign
  let hourDigits := [← single Char.isDigit, ← single Char.isDigit]
  skip fun c => c == ':' || isBlank c
  let minuteDigits := [← single fun c => '0' ≤ c && c ≤ '5', ← single Char.isDigit]
  let minutes : Int := (decimal hourDigits * 60 + decimal minuteDigits : Nat)
  return if sign == '+' then minutes else -minutes

/-- Minutes east of UTC, or the words for none. -/
def offset : Reader Int := do
  skip isBlank
  let rest ← get
  if (rest.take 3).map Char.toLower = ['u', 't', 'c'] then
    set (rest.drop 3)
    return 0
  match rest with
  | 'Z' :: cs | 'z' :: cs =>
    set cs
    return 0
  | _ => numericOffset

/-! ## The whole -/

/-- Date, clock and offset, one after the other. -/
def parts : Reader (Date × Clock × Int) := do
  let date ← date
  let _ ← single fun c => c == 'T' || c == 't' || c == ' '
  let clock ← clock
  return (date, clock, ← offset)

/-- The instant that date, clock and offset name. The date has to be one of the calendar, also as it
stands before the offset is taken off. -/
def ofParts? (date : Date) (clock : Clock) (offset : Int) : Option Instant := do
  guard (date.isValid && clock.isValid && offset.natAbs < 24 * 60)
  let reading ← Instant.ofDate? date clock.timeOfDay
  Instant.ofTick? (reading.tick - offset * 60 * ticksPerSecond)

/-- The instant that a text names, if nothing but blanks follows it. -/
def ofText? (s : String) : Option Instant := do
  let ((date, clock, offset), rest) ← parts.run s.toList
  guard (rest.all isBlank)
  ofParts? date clock offset

end Tenure.Timestamp
