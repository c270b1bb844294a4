import Mathlib.Tactic.Ring
import Tenure.Duration

/-!
# Periods move forward

Every day has one date. Turning a day into its date and back gives the day (`Date.toDay_ofDay`), and
so it is the other way round for a date that the calendar has (`Date.ofDay_toDay`). Months are
numbered through from the year 0, and each is over when a later one begins, so a date in a later
month lies on a later day, whatever becomes of the day of the month (`Date.toDay_lt`). A longer
period therefore ends later (`Duration.addTo_lt_addTo`), and one with a positive length ends after
it starts (`Duration.lt_of_addTo`).
-/

namespace Tenure

namespace Date

/-! ## Days of a year -/

theorem daysInMonth_pos (year : Int) (month : Nat) : 1 ≤ daysInMonth year month := by
  unfold daysInMonth
  split
  · split <;> omega
  all_goals omega

theorem daysBeforeYear_succ (year : Int) :
    daysBeforeYear (year + 1) = daysBeforeYear year + (daysBeforeMonth year 12 + 31 : Nat) := by
  by_cases hleap : isLeap year = true
  · have hdays : daysBeforeMonth year 12 = 335 := by simp [daysBeforeMonth, daysInMonth, hleap]
    rw [hdays]
    simp only [isLeap, Bool.and_eq_true, Bool.or_eq_true, beq_iff_eq, bne_iff_ne] at hleap
    unfold daysBeforeYear
    omega
  · have hdays : daysBeforeMonth year 12 = 334 := by simp [daysBeforeMonth, daysInMonth, hleap]
    rw [hdays]
    simp only [isLeap, Bool.and_eq_true, Bool.or_eq_true, beq_iff_eq, bne_iff_ne] at hleap
    unfold daysBeforeYear
    omega

/-- A walk through the months loses no day, and stops within a month or at the last one. -/
theorem walkMonths_spec (year : Int) (left month rest : Nat) (hmonth : 1 ≤ month) :
    month ≤ (walkMonths year left month rest).1 ∧
      (walkMonths year left month rest).1 ≤ month + left ∧
      daysBeforeMonth year (walkMonths year left month rest).1 +
        (walkMonths year left month rest).2 = daysBeforeMonth year month + rest ∧
      ((walkMonths year left month rest).2 <
          daysInMonth year (walkMonths year left month rest).1 ∨
        (walkMonths year left month rest).1 = month + left) := by
  induction left generalizing month rest with
  | zero => simp [walkMonths]
  | succ left ih =>
    unfold walkMonths
    split
    next hlt => exact ⟨Nat.le_refl _, by omega, rfl, .inl hlt⟩
    next hge =>
      obtain ⟨h1, h2, h3, h4⟩ := ih (month + 1) (rest - daysInMonth year month) (by omega)
      have hnext : daysBeforeMonth year (month + 1) =
          daysBeforeMonth year month + daysInMonth year month := by
        obtain ⟨k, rfl⟩ := Nat.exists_eq_add_of_le hmonth
        rw [Nat.add_comm 1 k]
        rfl
      refine ⟨by omega, by omega, by omega, ?_⟩
      rcases h4 with h4 | h4
      · exact .inl h4
      · exact .inr (by omega)

/-- The date of a day is one that the calendar has, and names that day. -/
theorem ofDay_spec (day : Int) :
    1 ≤ (ofDay day).month ∧ (ofDay day).month ≤ 12 ∧ 1 ≤ (ofDay day).day ∧
      (ofDay day).day ≤ daysInMonth (ofDay day).year (ofDay day).month ∧
      (ofDay day).toDay = day := by
  have hle := daysBeforeYear_yearOf_le (day + epochOffset)
  have hlt := lt_daysBeforeYear_yearOf (day + epochOffset)
  rw [daysBeforeYear_succ] at hlt
  generalize hyear : yearOf (day + epochOffset) = year at hle hlt
  obtain ⟨h1, h2, h3, h4⟩ :=
    walkMonths_spec year 11 1 (day + epochOffset - daysBeforeYear year).toNat (Nat.le_refl 1)
  have hdate : ofDay day = ⟨year,
      (walkMonths year 11 1 (day + epochOffset - daysBeforeYear year).toNat).1,
      (walkMonths year 11 1 (day + epochOffset - daysBeforeYear year).toNat).2 + 1⟩ := by
    unfold ofDay
    simp only [hyear]
  rw [hdate]
  generalize walkMonths year 11 1 (day + epochOffset - daysBeforeYear year).toNat = reached at *
  obtain ⟨month, rest⟩ := reached
  simp only [daysBeforeMonth, Nat.zero_add] at h1 h2 h3 h4 ⊢
  refine ⟨h1, h2, by omega, ?_, ?_⟩
  · rcases h4 with h4 | rfl
    · exact h4
    · have hdecember : daysInMonth year (1 + 11) = 31 := rfl
      have hbefore : daysBeforeMonth year (1 + 11) = daysBeforeMonth year 12 := rfl
      omega
  · unfold toDay
    push_cast
    omega

theorem toDay_ofDay (day : Int) : (ofDay day).toDay = day := (ofDay_spec day).2.2.2.2

theorem isValid_iff {d : Date} : d.isValid = true ↔
    1 ≤ d.month ∧ d.month ≤ 12 ∧ 1 ≤ d.day ∧ d.day ≤ daysInMonth d.year d.month := by
  simp [isValid, and_assoc]

theorem isValid_ofDay (day : Int) : (ofDay day).isValid = true := by
  obtain ⟨h1, h2, h3, h4, -⟩ := ofDay_spec day
  exact isValid_iff.2 ⟨h1, h2, h3, h4⟩

/-! ## Months numbered through -/

/-- The first day of a month, months being numbered from January of the year 0. -/
def monthStart (months : Int) : Int :=
  daysBeforeYear (months / 12) + daysBeforeMonth (months / 12) ((months % 12).toNat + 1)

/-- How many days that month has. -/
def monthLength (months : Int) : Nat := daysInMonth (months / 12) ((months % 12).toNat + 1)

theorem monthStart_succ (months : Int) :
    monthStart (months + 1) = monthStart months + monthLength months := by
  unfold monthStart monthLength
  by_cases hend : months % 12 = 11
  · have hyear : (months + 1) / 12 = months / 12 + 1 := by omega
    have hmonth : (months + 1) % 12 = 0 := by omega
    rw [hyear, hmonth, hend, daysBeforeYear_succ]
    show _ + (0 : Int) = _ + (daysBeforeMonth _ 12 : Int) + (31 : Int)
    push_cast
    omega
  · have hyear : (months + 1) / 12 = months / 12 := by omega
    have hmonth : ((months + 1) % 12).toNat + 1 = ((months % 12).toNat + 1) + 1 := by omega
    rw [hyear, hmonth]
    show _ + ((daysBeforeMonth _ ((months % 12).toNat + 1) +
      daysInMonth _ ((months % 12).toNat + 1) : Nat) : Int) = _
    push_cast
    omega

theorem monthStart_mono {a b : Int} (h : a ≤ b) : monthStart a ≤ monthStart b := by
  obtain ⟨n, rfl⟩ := Int.le.dest h
  induction n with
  | zero => simp
  | succ n ih =>
    have hnext : a + ((n + 1 : Nat) : Int) = a + (n : Int) + 1 := by
      push_cast
      ring
    have hle := ih (by omega)
    rw [hnext, monthStart_succ]
    omega

theorem monthStart_add_monthLength_le {a b : Int} (h : a < b) :
    monthStart a + monthLength a ≤ monthStart b := by
  rw [← monthStart_succ]
  exact monthStart_mono h

/-- The number of the month that a date lies in. -/
def months (d : Date) : Int := d.year * 12 + (d.month - 1)

section Valid

variable {d e : Date}

theorem year_of_months (h : d.isValid = true) : d.months / 12 = d.year := by
  have := isValid_iff.1 h
  unfold months
  omega

theorem month_of_months (h : d.isValid = true) : (d.months % 12).toNat + 1 = d.month := by
  have := isValid_iff.1 h
  unfold months
  omega

theorem monthLength_months (h : d.isValid = true) :
    monthLength d.months = daysInMonth d.year d.month := by
  rw [monthLength, year_of_months h, month_of_months h]

theorem toDay_eq (h : d.isValid = true) :
    d.toDay = monthStart d.months + (d.day - 1) - epochOffset := by
  rw [monthStart, year_of_months h, month_of_months h]
  rfl

theorem toDay_lt (hd : d.isValid = true) (he : e.isValid = true) (h : d.months < e.months) :
    d.toDay < e.toDay := by
  have hover := monthStart_add_monthLength_le h
  rw [monthLength_months hd] at hover
  obtain ⟨-, -, -, hday⟩ := isValid_iff.1 hd
  obtain ⟨-, -, hday', -⟩ := isValid_iff.1 he
  rw [toDay_eq hd, toDay_eq he]
  omega

theorem toDay_inj (hd : d.isValid = true) (he : e.isValid = true) (h : d.toDay = e.toDay) :
    d = e := by
  have hmonths : d.months = e.months := by
    rcases Int.lt_trichotomy d.months e.months with hlt | heq | hlt
    · exact absurd h (Int.ne_of_lt (toDay_lt hd he hlt))
    · exact heq
    · exact absurd h.symm (Int.ne_of_lt (toDay_lt he hd hlt))
  have hyear : d.year = e.year := by rw [← year_of_months hd, hmonths, year_of_months he]
  have hmonth : d.month = e.month := by rw [← month_of_months hd, hmonths, month_of_months he]
  have hday : d.day = e.day := by
    rw [toDay_eq hd, toDay_eq he, hmonths] at h
    omega
  cases d
  cases e
  rw [mk.injEq]
  exact ⟨hyear, hmonth, hday⟩

theorem ofDay_toDay (h : d.isValid = true) : ofDay d.toDay = d :=
  toDay_inj (isValid_ofDay _) h (toDay_ofDay _)

/-! ## Months later -/

theorem months_addMonths (d : Date) (n : Nat) : (d.addMonths n).months = d.months + n := by
  simp only [addMonths, months]
  omega

theorem isValid_addMonths (h : d.isValid = true) (n : Nat) : (d.addMonths n).isValid = true := by
  have hday := (isValid_iff.1 h).2.2.1
  have hpos := daysInMonth_pos (d.addMonths n).year (d.addMonths n).month
  rw [isValid_iff]
  simp only [addMonths] at hpos ⊢
  omega

/-- Months later is told by the month reached and the day in it. -/
theorem eq_addMonths_iff (he : e.isValid = true) {n : Nat} : e = d.addMonths n ↔
    e.months = d.months + n ∧ e.day = min d.day (daysInMonth e.year e.month) := by
  constructor
  · rintro rfl
    exact ⟨months_addMonths d n, rfl⟩
  · rintro ⟨hmonths, hday⟩
    have hyear := year_of_months he
    have hmonth := month_of_months he
    rw [hmonths] at hyear hmonth
    unfold months at hyear hmonth
    cases e
    rw [addMonths, mk.injEq, hyear, hmonth]
    exact ⟨rfl, rfl, hday⟩

theorem addMonths_zero (h : d.isValid = true) : d.addMonths 0 = d :=
  ((eq_addMonths_iff h).2
    ⟨(Int.add_zero _).symm, (Nat.min_eq_left (isValid_iff.1 h).2.2.2).symm⟩).symm

end Valid

end Date

/-! ## Instants -/

namespace Instant

/-- The nanoseconds of an instant, those of a leap second counted as if it took the place of the
second that it follows. -/
def elapsed (t : Instant) : Int := t.second * nanosPerSecond + t.fraction % nanosPerSecond

theorem elapsed_bounds (t : Instant) : first.elapsed ≤ t.elapsed ∧ t.elapsed ≤ last.elapsed := by
  have hfirst : first.elapsed = -8334601228800000000000 := by decide
  have hlast : last.elapsed = 8210266876799999999999 := by decide
  have hcalendar := t.inCalendar
  rw [hfirst, hlast]
  unfold elapsed second fraction ticksPerSecond nanosPerSecond
  omega

theorem ofNanos?_eq_some {nanos : Int} {t : Instant} :
    ofNanos? nanos = some t ↔ t.isLeap = false ∧ t.elapsed = nanos := by
  rw [ofNanos?, ofTick?_eq_some, ← Bool.not_eq_true, isLeap_iff]
  unfold elapsed second fraction ticksPerSecond nanosPerSecond
  omega

theorem ofNanos?_eq_none {nanos : Int} :
    ofNanos? nanos = none ↔ nanos < first.elapsed ∨ last.elapsed < nanos := by
  have hfirst : first.elapsed = -8334601228800000000000 := by decide
  have hlast : last.elapsed = 8210266876799999999999 := by decide
  rw [ofNanos?, ofTick?_eq_none, hfirst, hlast]
  simp only [first, last, ticksPerSecond, nanosPerSecond]
  omega

theorem isValid_date (t : Instant) : t.date.isValid = true := Date.isValid_ofDay _

theorem timeOfDay_bounds (t : Instant) : 0 ≤ t.timeOfDay ∧ t.timeOfDay < ticksPerDay := by
  unfold timeOfDay ticksPerDay
  omega

theorem tick_eq (t : Instant) : t.tick = t.date.toDay * ticksPerDay + t.timeOfDay := by
  rw [date, Date.toDay_ofDay, timeOfDay, ticksPerDay]
  omega

section Days

variable {t u : Instant} {n : Nat}

/-- `u` comes `n` days after `t`, which is in a leap second only if it is `t` itself. -/
structure DaysLater (n : Nat) (t u : Instant) : Prop where
  elapsed : u.elapsed = t.elapsed + n * (86400 * nanosPerSecond)
  isLeap : u.isLeap = (t.isLeap && n == 0)

theorem eq_of_elapsed (h : t.elapsed = u.elapsed) (hleap : t.isLeap = u.isLeap) : t = u := by
  rw [Bool.eq_iff_iff, isLeap_iff, isLeap_iff] at hleap
  unfold Instant.elapsed second fraction nanosPerSecond ticksPerSecond at *
  ext
  omega

theorem lt_of_elapsed (h : t.elapsed + nanosPerSecond ≤ u.elapsed) : t < u := by
  rw [lt_def]
  unfold Instant.elapsed second fraction nanosPerSecond ticksPerSecond at *
  omega

theorem nanos_eq (t : Instant) :
    t.nanos = t.elapsed + if t.isLeap = true then nanosPerSecond else 0 := by
  simp only [isLeap_iff]
  unfold Instant.nanos Instant.elapsed fraction nanosPerSecond ticksPerSecond
  split <;> omega

theorem shift?_of_not_leap (h : t.isLeap = false) (nanos : Int) :
    t.shift? nanos = ofNanos? (t.elapsed + nanos) := by
  rw [shift?, nanos_eq, h]
  simp

/-- A second on and more, an instant goes on as if it were in no leap second. -/
theorem shift?_of_long {nanos : Int} (h : nanosPerSecond ≤ nanos) :
    t.shift? nanos = ofNanos? (t.elapsed + nanos) := by
  cases hleap : t.isLeap with
  | false => exact shift?_of_not_leap hleap nanos
  | true =>
    have hover : ticksPerSecond ≤ t.fraction + nanos := by
      rw [isLeap_iff] at hleap
      unfold ticksPerSecond nanosPerSecond at *
      omega
    rw [shift?, nanos_eq, hleap, if_neg (by simp), if_pos hover, if_pos rfl]
    congr 1
    omega

theorem shift?_zero (t : Instant) : t.shift? 0 = some t := by
  cases hleap : t.isLeap with
  | false =>
    rw [shift?_of_not_leap hleap, Int.add_zero, ofNanos?_eq_some]
    exact ⟨hleap, rfl⟩
  | true =>
    have hwithin : ¬ ticksPerSecond ≤ t.fraction + 0 := by
      unfold fraction ticksPerSecond
      omega
    rw [shift?, hleap, if_neg (by simp), if_neg hwithin, if_neg (by decide), Int.add_zero,
      ofTick?_tick]

theorem addDays?_eq_some : t.addDays? n = some u ↔ t.DaysLater n u := by
  rw [addDays?]
  cases hleap : t.isLeap with
  | false =>
    rw [shift?_of_not_leap hleap, ofNanos?_eq_some]
    exact ⟨fun ⟨hu, helapsed⟩ => ⟨helapsed, by rw [hu, hleap]; rfl⟩,
      fun h => ⟨by rw [h.isLeap, hleap]; rfl, h.elapsed⟩⟩
  | true =>
    rcases Nat.eq_zero_or_pos n with rfl | hpos
    · rw [Int.natCast_zero, Int.zero_mul, shift?_zero, Option.some.injEq]
      exact ⟨fun h => h ▸ ⟨by simp, by simp⟩,
        fun h => eq_of_elapsed (by simpa using h.elapsed.symm) (by simpa using h.isLeap.symm)⟩
    · have hlong : nanosPerSecond ≤ n * nanosPerDay := by
        unfold nanosPerSecond nanosPerDay
        omega
      rw [shift?_of_long hlong, ofNanos?_eq_some]
      exact ⟨fun ⟨hu, helapsed⟩ => ⟨helapsed, by rw [hu]; simp; omega⟩,
        fun h => ⟨by rw [h.isLeap]; simp; omega, h.elapsed⟩⟩

end Days

section Months

variable {t u : Instant} {n : Nat}

theorem ofDate?_eq_some {d : Date} (hd : d.isValid = true) {time : Int} (htime : 0 ≤ time)
    (htime' : time < ticksPerDay) : ofDate? d time = some t ↔ t.date = d ∧ t.timeOfDay = time := by
  rw [ofDate?, ofTick?_eq_some]
  constructor
  · intro h
    have hday : t.tick / ticksPerDay = d.toDay := by
      rw [h]
      unfold ticksPerDay at *
      omega
    refine ⟨by rw [date, hday, Date.ofDay_toDay hd], ?_⟩
    rw [timeOfDay, h]
    unfold ticksPerDay at *
    omega
  · rintro ⟨rfl, rfl⟩
    exact t.tick_eq

/-- `u` comes `n` months after `t`: in the month that is `n` months later, on the same day of the
month or on the last one of a month that is too short, and at the same time of day. -/
structure MonthsLater (n : Nat) (t u : Instant) : Prop where
  month : u.date.months = t.date.months + n
  day : u.date.day = min t.date.day (Date.daysInMonth u.date.year u.date.month)
  timeOfDay : u.timeOfDay = t.timeOfDay

theorem addMonths?_eq_some : t.addMonths? n = some u ↔ t.MonthsLater n u := by
  obtain ⟨htime, htime'⟩ := t.timeOfDay_bounds
  rw [addMonths?, ofDate?_eq_some (Date.isValid_addMonths t.isValid_date n) htime htime',
    Date.eq_addMonths_iff u.isValid_date]
  exact ⟨fun ⟨⟨hmonth, hday⟩, htime⟩ => ⟨hmonth, hday, htime⟩,
    fun ⟨hmonth, hday, htime⟩ => ⟨⟨hmonth, hday⟩, htime⟩⟩

theorem lt_of_months_lt (h : t.date.months < u.date.months) : t < u := by
  have hday := Date.toDay_lt t.isValid_date u.isValid_date h
  have ht := t.tick_eq
  have hu := u.tick_eq
  have := t.timeOfDay_bounds
  have := u.timeOfDay_bounds
  rw [lt_def]
  unfold ticksPerDay at *
  omega

theorem addMonths?_zero (t : Instant) : t.addMonths? 0 = some t := by
  rw [addMonths?, Date.addMonths_zero t.isValid_date, ofDate?, ← tick_eq, ofTick?_tick]

theorem addMonths?_lt {m : Nat} {v : Instant} (h : n < m) (hu : t.addMonths? n = some u)
    (hv : t.addMonths? m = some v) : u < v := by
  have hmonth := (addMonths?_eq_some.1 hu).month
  have hmonth' := (addMonths?_eq_some.1 hv).month
  exact lt_of_months_lt (by omega)

theorem addDays?_lt {m : Nat} {v : Instant} (h : n < m) (hu : t.addDays? n = some u)
    (hv : t.addDays? m = some v) : u < v := by
  have helapsed := (addDays?_eq_some.1 hu).elapsed
  have helapsed' := (addDays?_eq_some.1 hv).elapsed
  refine lt_of_elapsed ?_
  unfold nanosPerSecond at *
  omega

end Months

theorem floorMillis_addDays? {t u : Instant} {n : Nat} (ht : t.floorMillis = t)
    (h : t.addDays? n = some u) : u.floorMillis = u := by
  have hlater := addDays?_eq_some.1 h
  rcases Nat.eq_zero_or_pos n with rfl | hpos
  · rw [addDays?, Int.natCast_zero, Int.zero_mul, shift?_zero] at h
    cases h
    exact ht
  · have helapsed := hlater.elapsed
    have hleap : u.isLeap = false := by
      rw [hlater.isLeap]
      simp
      omega
    rw [floorMillis_eq_self_iff] at *
    refine ⟨?_, fun h => by simp [hleap] at h⟩
    unfold Instant.elapsed second fraction nanosPerSecond ticksPerSecond at *
    omega

theorem floorMillis_addMonths? {t u : Instant} {n : Nat} (ht : t.floorMillis = t)
    (h : t.addMonths? n = some u) : u.floorMillis = u := by
  have htime := (addMonths?_eq_some.1 h).timeOfDay
  have hle : t ≤ u := by
    rcases Nat.eq_zero_or_pos n with rfl | hpos
    · rw [addMonths?_zero] at h
      cases h
      exact Int.le_refl _
    · exact Int.le_of_lt (addMonths?_lt hpos (addMonths?_zero t) h)
  rw [floorMillis_eq_self_iff, isLeap_iff] at *
  rw [le_def] at hle
  unfold timeOfDay second fraction nanosPerSecond ticksPerSecond ticksPerDay at *
  omega

theorem roundsDown_addDays? {t u : Instant} {n : Nat} (ht : t.RoundsDown)
    (h : t.addDays? n = some u) : u.RoundsDown := by
  rcases Nat.eq_zero_or_pos n with rfl | hpos
  · rw [addDays?, Int.natCast_zero, Int.zero_mul, shift?_zero] at h
    cases h
    exact ht
  · refine roundsDown_of_not_leap ?_
    rw [(addDays?_eq_some.1 h).isLeap]
    simp
    omega

theorem roundsDown_addMonths? {t u : Instant} {n : Nat} (ht : t.RoundsDown)
    (h : t.addMonths? n = some u) : u.RoundsDown := by
  have htime := (addMonths?_eq_some.1 h).timeOfDay
  have hle : t ≤ u := by
    rcases Nat.eq_zero_or_pos n with rfl | hpos
    · rw [addMonths?_zero] at h
      cases h
      exact Int.le_refl _
    · exact Int.le_of_lt (addMonths?_lt hpos (addMonths?_zero t) h)
  rw [roundsDown_iff, isLeap_iff] at *
  rw [le_def] at hle
  unfold timeOfDay second fraction nanosPerSecond ticksPerSecond ticksPerDay at *
  omega

end Instant

/-! ## Periods -/

/-- A limited duration that is positive. -/
def Duration.IsPositive (d : Duration) : Prop := d.isUnlimited = false → 1 ≤ d.number

instance (d : Duration) : Decidable d.IsPositive :=
  inferInstanceAs (Decidable (d.isUnlimited = false → 1 ≤ d.number))

namespace Duration

variable {start finish : Instant}

theorem addTo_lt_addTo {unit : TimeUnit} {n m : Nat} {finish' : Instant} (h : n < m)
    (hfinish : addTo ⟨unit, n⟩ start = some finish)
    (hfinish' : addTo ⟨unit, m⟩ start = some finish') : finish < finish' := by
  unfold addTo at hfinish hfinish'
  cases unit with
  | days => exact Instant.addDays?_lt h hfinish hfinish'
  | months => exact Instant.addMonths?_lt h hfinish hfinish'
  | years =>
    obtain ⟨-, hfinish⟩ := Option.ite_none_right_eq_some.1 hfinish
    obtain ⟨-, hfinish'⟩ := Option.ite_none_right_eq_some.1 hfinish'
    exact Instant.addMonths?_lt (Nat.mul_lt_mul_of_pos_right h (by decide)) hfinish hfinish'
  | unlimited => cases hfinish

theorem addTo_zero {unit : TimeUnit} (h : unit ≠ .unlimited) (start : Instant) :
    addTo ⟨unit, 0⟩ start = some start := by
  cases unit with
  | days =>
    show start.shift? ((0 : Nat) * nanosPerDay) = some start
    rw [Int.natCast_zero, Int.zero_mul, Instant.shift?_zero]
  | months => exact Instant.addMonths?_zero start
  | years =>
    show (if 0 * 12 < UInt32.size then start.addMonths? (0 * 12) else none) = some start
    rw [if_pos (by decide)]
    exact Instant.addMonths?_zero start
  | unlimited => exact absurd rfl h

theorem unit_ne_of_addTo {d : Duration} (h : d.addTo start = some finish) :
    d.unit ≠ .unlimited := by
  intro hunit
  rw [addTo, hunit] at h
  cases h

theorem lt_of_addTo_of_pos {d : Duration} (hpos : 0 < d.number)
    (h : d.addTo start = some finish) : start < finish :=
  addTo_lt_addTo hpos (addTo_zero (unit_ne_of_addTo h) start) h

theorem lt_of_addTo {d : Duration} (hpos : d.IsPositive) (h : d.addTo start = some finish) :
    start < finish :=
  lt_of_addTo_of_pos (hpos (decide_eq_false (unit_ne_of_addTo h))) h

theorem le_of_addTo {d : Duration} (h : d.addTo start = some finish) : start ≤ finish := by
  obtain ⟨unit, n⟩ := d
  rcases Nat.eq_zero_or_pos n with rfl | hpos
  · rw [addTo_zero (unit_ne_of_addTo h)] at h
    cases h
    exact Int.le_refl _
  · exact Int.le_of_lt (lt_of_addTo_of_pos hpos h)

/-- What is true of where a period starts is true of where it ends. -/
def Keeps (P : Instant → Prop) : Prop :=
  ∀ {d : Duration} {start finish : Instant}, P start → d.addTo start = some finish → P finish

theorem keeps_of_units {P : Instant → Prop}
    (hdays : ∀ {start finish : Instant} {n : Nat}, P start → start.addDays? n = some finish →
      P finish)
    (hmonths : ∀ {start finish : Instant} {n : Nat}, P start → start.addMonths? n = some finish →
      P finish) : Keeps P := by
  intro d start finish hstart h
  unfold addTo at h
  split at h
  · exact hdays hstart h
  · exact hmonths hstart h
  · split at h
    · exact hmonths hstart h
    · cases h
  · cases h

/-- A period that starts with a millisecond ends with one. -/
theorem keeps_millis : Keeps fun t => t.floorMillis = t :=
  keeps_of_units Instant.floorMillis_addDays? Instant.floorMillis_addMonths?

theorem keeps_roundsDown : Keeps Instant.RoundsDown :=
  keeps_of_units Instant.roundsDown_addDays? Instant.roundsDown_addMonths?

end Duration

end Tenure
