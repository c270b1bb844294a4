import Tenure.Proofs.Calendar
import Tenure.Run

/-!
# Where a period ends

A phase of a plan lasts for some days, months or years, and where it ends the next one begins.

**Theorem (`periods_end_on_the_calendar`).** Days are of 86400 seconds. Months lead to the same day
of a later month, at the same time of day, or to the last day of a month that is too short, and a
year is as long as twelve months. A period ends no earlier than it starts, a longer one ends later,
and one has no end only if it is unlimited, if its months outgrow 32 bits or if it outlasts the
calendar.

The calendar ends with the last day of a month. So months outlast it just when the month that they
lead to comes behind the last one, whatever the day (`Instant.addMonths?_eq_none`).
-/

namespace Tenure

/-! ## The end of the calendar -/

theorem Date.toDay_le_addMonths {d : Date} (h : d.isValid = true) (n : Nat) :
    d.toDay ≤ (d.addMonths n).toDay := by
  rcases Nat.eq_zero_or_pos n with rfl | hpos
  · rw [addMonths_zero h]
  · have hmonths := months_addMonths d n
    exact Int.le_of_lt (toDay_lt h (isValid_addMonths h n) (by omega))

namespace Instant

theorem date_last : last.date = ⟨262142, 12, 31⟩ := by decide

theorem timeOfDay_last : last.timeOfDay = ticksPerDay - 1 := by decide

theorem toDay_le_last {d : Date} (h : d.isValid = true) :
    d.toDay ≤ last.date.toDay ↔ d.months ≤ last.date.months := by
  constructor
  · intro hle
    by_contra hlater
    have hlt := Date.toDay_lt last.isValid_date h (Int.not_le.1 hlater)
    omega
  · intro hle
    rcases Int.lt_or_eq_of_le hle with hlt | heq
    · exact Int.le_of_lt (Date.toDay_lt h last.isValid_date hlt)
    · -- In the month itself no day comes behind the last.
      have hday := (Date.isValid_iff.1 h).2.2.2
      rw [← Date.monthLength_months h, heq, Date.monthLength_months last.isValid_date] at hday
      have hlength : Date.daysInMonth last.date.year last.date.month = last.date.day := by
        rw [date_last]
        rfl
      rw [Date.toDay_eq h, Date.toDay_eq last.isValid_date, heq]
      omega

/-- There is no such instant only where the month lies behind the last one. -/
theorem addMonths?_eq_none {t : Instant} {n : Nat} :
    t.addMonths? n = none ↔ last.date.months < t.date.months + n := by
  have hlast := toDay_le_last (Date.isValid_addMonths t.isValid_date n)
  have hlater := Date.toDay_le_addMonths t.isValid_date n
  have htick := t.tick_eq
  have htickLast := last.tick_eq
  have hfirst : first.tick ≤ t.tick := t.inCalendar.1
  obtain ⟨htime, htime'⟩ := t.timeOfDay_bounds
  rw [timeOfDay_last] at htickLast
  rw [Date.months_addMonths] at hlast
  rw [addMonths?, ofDate?, ofTick?_eq_none]
  unfold ticksPerDay at *
  omega

theorem addDays?_eq_none {t : Instant} {n : Nat} :
    t.addDays? n = none ↔ last.elapsed < t.elapsed + n * nanosPerDay := by
  obtain ⟨hfirst, hlast⟩ := t.elapsed_bounds
  rw [addDays?]
  rcases Nat.eq_zero_or_pos n with rfl | hpos
  · rw [Int.natCast_zero, Int.zero_mul, shift?_zero]
    simp only [reduceCtorEq, false_iff]
    omega
  · have hlong : nanosPerSecond ≤ n * nanosPerDay := by
      unfold nanosPerSecond nanosPerDay
      omega
    rw [shift?_of_long hlong, ofNanos?_eq_none]
    unfold nanosPerSecond nanosPerDay at *
    omega

end Instant

/-! ## Periods -/

namespace Duration

/-- The period would end behind the last instant of the calendar. -/
def Outlasts (d : Duration) (start : Instant) : Prop :=
  match d.unit with
  | .days => Instant.last.elapsed < start.elapsed + d.number * (86400 * nanosPerSecond)
  | .months => Instant.last.date.months < start.date.months + d.number
  | .years => Instant.last.date.months < start.date.months + (12 * d.number : Nat)
  | .unlimited => False

variable {start finish : Instant} {n : Nat}

theorem addTo_days_eq_some : addTo ⟨.days, n⟩ start = some finish ↔ start.DaysLater n finish :=
  Instant.addDays?_eq_some

theorem addTo_years : addTo ⟨.years, n⟩ start =
    if 12 * n < 2 ^ 32 then addTo ⟨.months, 12 * n⟩ start else none := by
  show (if n * 12 < 2 ^ 32 then start.addMonths? (n * 12) else none) = _
  rw [Nat.mul_comm]
  rfl

theorem addTo_months_eq_none : addTo ⟨.months, n⟩ start = none ↔
    Instant.last.date.months < start.date.months + n :=
  Instant.addMonths?_eq_none

theorem addTo_eq_none (d : Duration) (start : Instant) : d.addTo start = none ↔
    d.unit = .unlimited ∨ d.unit = .years ∧ 2 ^ 32 ≤ 12 * d.number ∨ d.Outlasts start := by
  obtain ⟨unit, n⟩ := d
  cases unit with
  | days =>
    have hdays : addTo ⟨.days, n⟩ start = none ↔ Outlasts ⟨.days, n⟩ start :=
      Instant.addDays?_eq_none
    simp [hdays]
  | months =>
    have hmonths : addTo ⟨.months, n⟩ start = none ↔ Outlasts ⟨.months, n⟩ start :=
      addTo_months_eq_none
    simp [hmonths]
  | years =>
    have hmonths : addTo ⟨.months, 12 * n⟩ start = none ↔ Outlasts ⟨.years, n⟩ start :=
      addTo_months_eq_none
    rw [addTo_years]
    by_cases hfits : 12 * n < 2 ^ 32
    · simp only [if_pos hfits, hmonths, Nat.not_le.2 hfits, reduceCtorEq, and_false, false_or]
    · simp only [if_neg hfits, Nat.not_lt.1 hfits, reduceCtorEq, and_true, true_or, or_true]
  | unlimited => simp [addTo]

/-- **Periods end on the calendar.** Days, months and years lead where they should. A period that
has an end does not end before it starts, ends after it starts if it has a length, and ends before
any longer one of its unit does. It has no end just when it is unlimited, when its years come to
more months than 32 bits hold, or when it outlasts the calendar. -/
theorem periods_end_on_the_calendar (start : Instant) (n : Nat) :
    (∀ finish, addTo ⟨.days, n⟩ start = some finish ↔ start.DaysLater n finish) ∧
    (∀ finish, addTo ⟨.months, n⟩ start = some finish ↔ start.MonthsLater n finish) ∧
    (12 * n < 2 ^ 32 → addTo ⟨.years, n⟩ start = addTo ⟨.months, 12 * n⟩ start) ∧
    ∀ unit,
      (∀ finish, addTo ⟨unit, n⟩ start = some finish →
        start ≤ finish ∧ (0 < n → start < finish) ∧
          ∀ m later, n < m → addTo ⟨unit, m⟩ start = some later → finish < later) ∧
      (addTo ⟨unit, n⟩ start = none ↔
        unit = .unlimited ∨ unit = .years ∧ 2 ^ 32 ≤ 12 * n ∨ Outlasts ⟨unit, n⟩ start) := by
  refine ⟨fun _ => addTo_days_eq_some, fun _ => Instant.addMonths?_eq_some, fun hfits => ?_,
    fun unit => ⟨fun finish hfinish => ?_, addTo_eq_none ⟨unit, n⟩ start⟩⟩
  · rw [addTo_years, if_pos hfits]
  · exact ⟨le_of_addTo hfinish, fun hpos => lt_of_addTo_of_pos hpos hfinish,
      fun _ _ hlt hlater => addTo_lt_addTo hlt hfinish hlater⟩

/-- A month from the last day of January 2024 on, and a year from the leap day at its end on. -/
theorem periods_end_on_the_calendar_sample :
    (Sample.day 19753).date = ⟨2024, 1, 31⟩ ∧ (Sample.day 19782).date = ⟨2024, 2, 29⟩ ∧
      (Sample.day 20147).date = ⟨2025, 2, 28⟩ ∧
      addTo ⟨.months, 1⟩ (Sample.day 19753) = some (Sample.day 19782) ∧
      addTo ⟨.years, 1⟩ (Sample.day 19782) = some (Sample.day 20147) ∧
      Sample.day 19753 < Sample.day 19782 ∧
      addTo ⟨.years, 2 ^ 31⟩ (Sample.day 19753) = none := by
  obtain ⟨-, hmonths, -, hall⟩ := periods_end_on_the_calendar (Sample.day 19753) 1
  obtain ⟨-, -, hyear, -⟩ := periods_end_on_the_calendar (Sample.day 19782) 1
  obtain ⟨-, hmonths', -⟩ := periods_end_on_the_calendar (Sample.day 19782) (12 * 1)
  obtain ⟨-, -, -, hnone⟩ := periods_end_on_the_calendar (Sample.day 19753) (2 ^ 31)
  have hmonth : addTo ⟨.months, 1⟩ (Sample.day 19753) = some (Sample.day 19782) :=
    (hmonths _).2 ⟨by decide, by decide, by decide⟩
  refine ⟨by decide, by decide, by decide, hmonth, ?_, ?_, ?_⟩
  · rw [hyear (by decide)]
    exact (hmonths' _).2 ⟨by decide, by decide, by decide⟩
  · exact ((hall .months).1 _ hmonth).2.1 (by decide)
  · exact (hnone .years).2.2 (.inr (.inl ⟨rfl, by decide⟩))

end Duration

end Tenure
