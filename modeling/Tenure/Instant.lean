import Tenure.Calendar

/-!
# Instants

An instant is a moment of the calendar in nanoseconds, from the first moment of the year -262143
to the last one of 262142. A second may be followed by a leap second, which the calendar gives no
second of its own: it is told as further nanoseconds of the second before it.

So a second has room for two, and an instant is kept as its place among all of these, its tick.
Ticks come in the order of time. Nanoseconds and milliseconds since 1970-01-01T00:00:00Z do not
count leap seconds: those of a leap second are those of the second that follows it.

Stored dates keep milliseconds only, and `Instant.floorMillis` is what is left of a date. It comes
in the order of time, too, but for leap seconds (`floorMillis_mono`).
-/

namespace Tenure

def nanosPerMilli : Int := 1000000
def nanosPerSecond : Int := 1000000000
def nanosPerDay : Int := 86400000000000
def ticksPerSecond : Int := 2000000000
def ticksPerDay : Int := 172800000000000

/-- A moment of the calendar. -/
@[ext] structure Instant where
  /-- The place among all nanoseconds, with room for a leap second behind every second. -/
  tick : Int
  inCalendar : -16669202457600000000000 ≤ tick ∧ tick ≤ 16420533753599999999999

namespace Instant

instance : DecidableEq Instant := fun a b =>
  if h : a.tick = b.tick then isTrue (Instant.ext h)
  else isFalse fun e => h (congrArg tick e)

instance : LE Instant := ⟨fun a b => a.tick ≤ b.tick⟩
instance : LT Instant := ⟨fun a b => a.tick < b.tick⟩
instance (a b : Instant) : Decidable (a ≤ b) := inferInstanceAs (Decidable (a.tick ≤ b.tick))
instance (a b : Instant) : Decidable (a < b) := inferInstanceAs (Decidable (a.tick < b.tick))

theorem le_def {a b : Instant} : a ≤ b ↔ a.tick ≤ b.tick := Iff.rfl
theorem lt_def {a b : Instant} : a < b ↔ a.tick < b.tick := Iff.rfl

/-- The first moment of the year -262143. -/
def first : Instant := ⟨-16669202457600000000000, by decide⟩

/-- The last moment of the year 262142, in the leap second that may end it. -/
def last : Instant := ⟨16420533753599999999999, by decide⟩

theorem le_last (t : Instant) : t ≤ last := t.inCalendar.2

instance : Inhabited Instant := ⟨⟨0, by decide⟩⟩

/-- The later of two instants. -/
def later (a b : Instant) : Instant := if a ≤ b then b else a

/-! ## Seconds -/

/-- The instant at a tick, if the calendar has it. -/
def ofTick? (tick : Int) : Option Instant :=
  if h : -16669202457600000000000 ≤ tick ∧ tick ≤ 16420533753599999999999 then some ⟨tick, h⟩
  else none

/-- Whole seconds since the epoch. -/
def second (t : Instant) : Int := t.tick / ticksPerSecond

/-- Nanoseconds into the second, more than a second has in a leap second behind it. -/
def fraction (t : Instant) : Int := t.tick % ticksPerSecond

def isLeap (t : Instant) : Bool := nanosPerSecond ≤ t.fraction

/-- Nanoseconds since the epoch. -/
def nanos (t : Instant) : Int := t.second * nanosPerSecond + t.fraction

/-- The instant outside of leap seconds that a number of nanoseconds names, if the calendar has
it. -/
def ofNanos? (nanos : Int) : Option Instant :=
  ofTick? (nanos / nanosPerSecond * ticksPerSecond + nanos % nanosPerSecond)

/-! ## Milliseconds -/

/-- The instant that a number of milliseconds names, if the calendar has it. -/
def ofMillis? (millis : Int) : Option Instant :=
  ofNanos? (millis * nanosPerMilli)

/-- Whole milliseconds since the epoch, rounded down. -/
def millis (t : Instant) : Int := t.nanos / nanosPerMilli

/-- The nanoseconds that `millis` leaves out. -/
def subMilli (t : Instant) : Int := t.nanos % nanosPerMilli

/-- The instant that the milliseconds of another name. No instant has those of a leap second at the
end of the calendar; they stay where they are. -/
def floorMillis (t : Instant) : Instant :=
  (ofMillis? t.millis).getD ⟨t.tick / 1000000 * 1000000, by have := t.inCalendar; omega⟩

theorem ofTick?_tick (t : Instant) : ofTick? t.tick = some t := dif_pos t.inCalendar

theorem ofTick?_eq_some {tick : Int} {t : Instant} : ofTick? tick = some t ↔ t.tick = tick := by
  constructor
  · intro h
    unfold ofTick? at h
    split at h
    · cases h
      rfl
    · cases h
  · rintro rfl
    exact t.ofTick?_tick

theorem ofTick?_eq_none {tick : Int} :
    ofTick? tick = none ↔ tick < first.tick ∨ last.tick < tick := by
  unfold ofTick? first last
  split
  next hin => simp only [reduceCtorEq, false_iff]; omega
  next hout => simp only [true_iff]; omega

theorem isLeap_iff {t : Instant} : t.isLeap = true ↔ nanosPerSecond ≤ t.fraction :=
  decide_eq_true_iff

theorem millis_eq (t : Instant) : t.millis = t.second * 1000 + t.fraction / 1000000 := by
  unfold millis nanos nanosPerSecond nanosPerMilli
  omega

/-- Outside of leap seconds, and behind the last second of the calendar, a date is rounded down. In
any other leap second it is taken for one in the second that follows. -/
theorem tick_floorMillis (t : Instant) : t.floorMillis.tick =
    if t.isLeap = true ∧ t.second < last.second then (t.tick + 1000000000) / 1000000 * 1000000
    else t.tick / 1000000 * 1000000 := by
  have hlast : last.second = 8210266876799 := by decide
  have hcalendar := t.inCalendar
  rw [floorMillis, ofMillis?, ofNanos?, millis_eq]
  simp only [isLeap_iff, hlast]
  unfold second fraction nanosPerMilli nanosPerSecond ticksPerSecond
  cases h : ofTick? ((t.tick / 2000000000 * 1000 + t.tick % 2000000000 / 1000000) * 1000000 /
      1000000000 * 2000000000 +
    (t.tick / 2000000000 * 1000 + t.tick % 2000000000 / 1000000) * 1000000 % 1000000000) with
  | none =>
    have hout := ofTick?_eq_none.1 h
    simp only [first, last] at hout
    simp only [Option.getD_none]
    split <;> omega
  | some u =>
    have htick := ofTick?_eq_some.1 h
    have hcalendar' := u.inCalendar
    simp only [Option.getD_some]
    split <;> omega

/-- Rounding does not move the instant into the next second. -/
def RoundsDown (t : Instant) : Prop := t.floorMillis ≤ t

theorem roundsDown_iff {t : Instant} :
    t.RoundsDown ↔ (t.isLeap = true → last.second ≤ t.second) := by
  have h := tick_floorMillis t
  have hlast : last.second = 8210266876799 := by decide
  simp only [RoundsDown, le_def, isLeap_iff, hlast] at *
  unfold second fraction nanosPerSecond ticksPerSecond at *
  split at h <;> omega

theorem roundsDown_of_not_leap {t : Instant} (h : t.isLeap = false) : t.RoundsDown :=
  roundsDown_iff.2 fun h' => by simp [h] at h'

/-- What is left as it is. -/
theorem floorMillis_eq_self_iff {t : Instant} : t.floorMillis = t ↔
    t.tick % 1000000 = 0 ∧ (t.isLeap = true → last.second ≤ t.second) := by
  have h := tick_floorMillis t
  have hlast : last.second = 8210266876799 := by decide
  simp only [Instant.ext_iff, isLeap_iff, hlast] at *
  unfold second fraction nanosPerSecond ticksPerSecond at *
  split at h <;> omega

@[simp] theorem floorMillis_floorMillis (t : Instant) :
    t.floorMillis.floorMillis = t.floorMillis := by
  have hlast : last.second = 8210266876799 := by decide
  have hcalendar := t.inCalendar
  have h := tick_floorMillis t
  have h' := tick_floorMillis t.floorMillis
  simp only [isLeap_iff, hlast] at h h'
  unfold second fraction nanosPerSecond ticksPerSecond at h h'
  ext
  rw [h']
  split at h <;> split <;> omega

theorem roundsDown_of_floorMillis {t : Instant} (h : t.floorMillis = t) : t.RoundsDown :=
  Int.le_of_eq (congrArg tick h)

/-- Rounding keeps the order unless the earlier instant lies in a leap second. -/
theorem floorMillis_mono {a b : Instant} (ha : a.RoundsDown) (h : a ≤ b) :
    a.floorMillis ≤ b.floorMillis := by
  have hlast : last.second = 8210266876799 := by decide
  have hcalendar := b.inCalendar
  have hfloor := tick_floorMillis a
  have hfloor' := tick_floorMillis b
  simp only [isLeap_iff, hlast] at hfloor hfloor'
  unfold second fraction nanosPerSecond ticksPerSecond at hfloor hfloor'
  unfold RoundsDown at ha
  rw [le_def] at *
  split at hfloor <;> split at hfloor' <;> omega

/-! ## Going on -/

/-- The instant that comes `nanos` nanoseconds later, or earlier if they are negative. A leap second
lasts as long as others, but it is not gone through when it lies in between. -/
def shift? (t : Instant) (nanos : Int) : Option Instant :=
  if !t.isLeap then ofNanos? (t.nanos + nanos)
  else if ticksPerSecond ≤ t.fraction + nanos then ofNanos? (t.nanos - nanosPerSecond + nanos)
  else if nanos ≤ -nanosPerSecond then ofNanos? (t.nanos + nanos)
  else ofTick? (t.tick + nanos)

/-! ## Date and time of day -/

/-- The calendar date the instant falls on. -/
def date (t : Instant) : Date := Date.ofDay (t.tick / ticksPerDay)

/-- Ticks since midnight. -/
def timeOfDay (t : Instant) : Int := t.tick % ticksPerDay

/-- The instant at `time` ticks after midnight of `date`, if the calendar has it. -/
def ofDate? (date : Date) (time : Int) : Option Instant :=
  ofTick? (date.toDay * ticksPerDay + time)

def addDays? (t : Instant) (n : Nat) : Option Instant := t.shift? (n * nanosPerDay)

/-- The same time of day `n` months later. -/
def addMonths? (t : Instant) (n : Nat) : Option Instant :=
  ofDate? (t.date.addMonths n) t.timeOfDay

/-! ## Text -/

/-- The part of a second: nothing, or the fewest of three, six or nine digits that lose nothing. -/
def fractionText (nanos : Nat) : String :=
  if nanos = 0 then ""
  else if nanos % 1000000 = 0 then "." ++ Date.padded 3 (nanos / 1000000)
  else if nanos % 1000 = 0 then "." ++ Date.padded 6 (nanos / 1000)
  else "." ++ Date.padded 9 nanos

/-- The time of day as `hh:mm:ss` and the part of a second. A leap second is the 60th. -/
def clockText (t : Instant) : String :=
  let seconds := (t.timeOfDay / ticksPerSecond).toNat
  let nanos := t.fraction.toNat
  Date.padded 2 (seconds / 3600) ++ ":" ++ Date.padded 2 (seconds / 60 % 60) ++ ":"
    ++ Date.padded 2 (seconds % 60 + nanos / 1000000000) ++ fractionText (nanos % 1000000000)

/-- The form dates have in messages, `2024-01-31 00:00:00 UTC`. -/
def text (t : Instant) : String := t.date.text ++ " " ++ t.clockText ++ " UTC"

end Instant

end Tenure
