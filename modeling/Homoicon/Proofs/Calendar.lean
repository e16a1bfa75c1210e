import Homoicon.Calendar
import Mathlib.Tactic.IntervalCases
import Mathlib.Tactic.Ring

/-!
# Dates and days

Days are numbered as the dates of the calendar follow each other.  A date is counted in the year
that begins in March, whose last day is the leap day; a cycle of such years is taken apart into
centuries, into groups of four years, into years, and into the days of a year.
-/

namespace Homoicon.Calendar

/-! ## The calendar -/

/-- A year with a leap day. -/
def IsLeap (year : Int) : Prop := year % 4 = 0 ∧ (year % 100 ≠ 0 ∨ year % 400 = 0)

instance (year : Int) : Decidable (IsLeap year) := inferInstanceAs (Decidable (_ ∧ _))

/-- The days of a month. -/
def monthLength (year month : Int) : Int :=
  if month = 2 then if IsLeap year then 29 else 28
  else if month = 4 ∨ month = 6 ∨ month = 9 ∨ month = 11 then 30 else 31

/-- A date of the calendar, in any year. -/
structure Civil where
  year : Int
  month : Int
  day : Int
  months : 1 ≤ month ∧ month ≤ 12
  days : 1 ≤ day ∧ day ≤ monthLength year month

/-- A year that 32 bits hold. -/
def InRange (year : Int) : Prop := -2147483648 ≤ year ∧ year ≤ Bits.greatest32

namespace Civil

/-- The number of a date. -/
def number (d : Civil) : Int := daysFromCivil d.year d.month d.day

/-- Dates in their order. -/
instance : LT Civil where
  lt d d' := d.year < d'.year ∨ d.year = d'.year ∧
    (d.month < d'.month ∨ d.month = d'.month ∧ d.day < d'.day)

theorem lt_iff {d d' : Civil} : d < d' ↔ d.year < d'.year ∨ d.year = d'.year ∧
    (d.month < d'.month ∨ d.month = d'.month ∧ d.day < d'.day) := Iff.rfl

end Civil

theorem monthLength_pos (year month : Int) : 28 ≤ monthLength year month := by
  unfold monthLength
  split_ifs <;> decide

/-- The date after another. -/
def Civil.next (d : Civil) : Civil :=
  if within : d.day < monthLength d.year d.month then
    { d with day := d.day + 1, days := ⟨by have := d.days; omega, within⟩ }
  else if before : d.month < 12 then
    { year := d.year, month := d.month + 1, day := 1
      months := by have := d.months; omega
      days := by have := monthLength_pos d.year (d.month + 1); omega }
  else
    { year := d.year + 1, month := 1, day := 1
      months := by decide
      days := by have := monthLength_pos (d.year + 1) 1; omega }

/-! ## Years that begin in March -/

/-- The days before a year, from the beginning of year 0. -/
def yearStart (year : Int) : Int := 365 * year + year / 4 - year / 100 + year / 400

/-- The year that begins in March and has a month of a year. -/
def marchYear (year month : Int) : Int := if month ≤ 2 then year - 1 else year

/-- A month counted from March. -/
def marchMonth (month : Int) : Int := if 2 < month then month - 3 else month + 9

theorem yearStart_succ (year : Int) :
    yearStart (year + 1) = yearStart year + if IsLeap (year + 1) then 366 else 365 := by
  unfold yearStart
  split_ifs with leap <;> unfold IsLeap at leap <;> omega

theorem yearStart_mono {year year' : Int} (before : year < year') :
    yearStart (year + 1) ≤ yearStart year' := by
  unfold yearStart
  omega

theorem yearStart_cycle (year cycle : Int) :
    yearStart (year + cycle * 400) = yearStart year + cycle * 146097 := by
  unfold yearStart
  omega

/-- A date counts the days before its year, before its month and before its day. -/
theorem daysFromCivil_eq (year month day : Int) :
    daysFromCivil year month day = yearStart (marchYear year month) +
      daysBeforeMonth (marchMonth month) + day - 719469 := by
  let y := marchYear year month
  change y / 400 * 146097 + ((y - y / 400 * 400) * 365 + (y - y / 400 * 400) / 4 -
    (y - y / 400 * 400) / 100 + (daysBeforeMonth (marchMonth month) + day - 1)) - 719468 = _
  change _ = yearStart y + _ + _ - _
  unfold yearStart
  omega

namespace Civil

/-- Months lie behind each other, with the leap day behind the last one. -/
theorem month_end (d : Civil) :
    daysBeforeMonth (marchMonth d.month) + monthLength d.year d.month =
      if d.month = 2 then if IsLeap d.year then 366 else 365
      else daysBeforeMonth (marchMonth d.month + 1) := by
  obtain ⟨year, month, day, months, -⟩ := d
  simp only
  obtain ⟨lower, upper⟩ := months
  interval_cases month <;> simp [marchMonth, daysBeforeMonth, monthLength]
  split_ifs <;> rfl

/-- A date lies in its year. -/
theorem year_end (d : Civil) :
    yearStart (marchYear d.year d.month) + daysBeforeMonth (marchMonth d.month) + d.day ≤
      yearStart (marchYear d.year d.month + 1) := by
  have month := d.month_end
  have last := d.days.2
  have range := d.months
  rw [yearStart_succ]
  by_cases february : d.month = 2
  · have year : marchYear d.year d.month + 1 = d.year := by
      rw [marchYear, if_pos (by omega)]
      omega
    rw [if_pos february] at month
    rw [year]
    omega
  · rw [if_neg february] at month
    have early : daysBeforeMonth (marchMonth d.month + 1) ≤ 337 := by
      unfold marchMonth daysBeforeMonth
      split_ifs <;> omega
    split_ifs <;> omega

/-- Dates are numbered in their order. -/
theorem number_lt {d d' : Civil} (before : d < d') : d.number < d'.number := by
  have range := d.months
  have range' := d'.months
  have first' := d'.days.1
  unfold number
  rw [daysFromCivil_eq, daysFromCivil_eq]
  obtain year | year : marchYear d.year d.month < marchYear d'.year d'.month ∨
      marchYear d.year d.month = marchYear d'.year d'.month := by
    rw [lt_iff] at before
    unfold marchYear
    split_ifs <;> omega
  · have start := yearStart_mono year
    have last := d.year_end
    have positive : 0 ≤ daysBeforeMonth (marchMonth d'.month) := by
      unfold marchMonth daysBeforeMonth
      split_ifs <;> omega
    omega
  · rw [year]
    obtain month | ⟨month, day⟩ : marchMonth d.month < marchMonth d'.month ∨
        d.month = d'.month ∧ d.day < d'.day := by
      rw [lt_iff] at before
      unfold marchYear at year
      unfold marchMonth
      split_ifs at year ⊢ <;> omega
    · have inside := d.month_end
      have last := d.days.2
      have february : d.month ≠ 2 := by
        rintro same
        unfold marchMonth at month
        split_ifs at month <;> omega
      rw [if_neg february] at inside
      have onward : daysBeforeMonth (marchMonth d.month + 1) ≤
          daysBeforeMonth (marchMonth d'.month) := by
        unfold daysBeforeMonth
        omega
      omega
    · rw [month]
      omega

theorem lt_trichotomy (d d' : Civil) : d < d' ∨ d = d' ∨ d' < d := by
  obtain ⟨year, month, day, -, -⟩ := d
  obtain ⟨year', month', day', -, -⟩ := d'
  simp only [lt_iff, mk.injEq]
  omega

theorem number_lt_iff {d d' : Civil} : d < d' ↔ d.number < d'.number := by
  refine ⟨number_lt, fun less => ?_⟩
  obtain before | rfl | behind := lt_trichotomy d d'
  · exact before
  · exact absurd less (lt_irrefl _)
  · exact absurd (number_lt behind) less.not_gt

theorem number_injective {d d' : Civil} (same : d.number = d'.number) : d = d' := by
  obtain before | same | behind := lt_trichotomy d d'
  · exact absurd (number_lt before) (by omega)
  · exact same
  · exact absurd (number_lt behind) (by omega)

/-- The date after another is one day later. -/
theorem number_next (d : Civil) : d.next.number = d.number + 1 := by
  have month := d.month_end
  have range := d.months
  have last := d.days.2
  unfold next number
  split_ifs with within before
  · simp only [daysFromCivil_eq]
    omega
  · simp only [daysFromCivil_eq]
    by_cases february : d.month = 2
    · rw [if_pos february] at month
      have march : daysBeforeMonth (marchMonth (d.month + 1)) = 0 := by
        rw [february]
        rfl
      have earlier : marchYear d.year d.month = d.year - 1 := if_pos (by omega)
      have later : marchYear d.year (d.month + 1) = d.year := if_neg (by omega)
      have start := yearStart_succ (d.year - 1)
      rw [sub_add_cancel] at start
      rw [march, earlier, later]
      omega
    · rw [if_neg february] at month
      have year : marchYear d.year (d.month + 1) = marchYear d.year d.month := by
        unfold marchYear
        split_ifs <;> omega
      have onward : marchMonth (d.month + 1) = marchMonth d.month + 1 := by
        unfold marchMonth
        split_ifs <;> omega
      rw [year, onward]
      omega
  · simp only [daysFromCivil_eq]
    have december : d.month = 12 := by omega
    have same : marchYear (d.year + 1) 1 = d.year := by simp [marchYear]
    rw [december] at month last within ⊢
    have winter : daysBeforeMonth (marchMonth 1) = daysBeforeMonth (marchMonth 12 + 1) := rfl
    have here : marchYear d.year 12 = d.year := if_neg (by decide)
    rw [same, here, winter]
    omega

end Civil

/-! ## The date with a number -/

/-- The year of a cycle that a day of the cycle lies in. -/
def yearOfCycle (day : Int) : Int := (day - day / 1460 + day / 36524 - day / 146096) / 365

/-- A day of a cycle lies in a century, in a group of four years and in a year of it. -/
structure Splits (day century group year rest : Int) : Prop where
  centuries : 0 ≤ century ∧ century ≤ 3
  groups : 0 ≤ group ∧ group ≤ 24
  years : 0 ≤ year ∧ year ≤ 3
  first : 0 ≤ rest
  last : rest ≤ 364 ∨ rest = 365 ∧ year = 3 ∧ (group < 24 ∨ century = 3)
  day : day = 36524 * century + 1461 * group + 365 * year + rest

theorem cycle_split {day : Int} (first : 0 ≤ day) (last : day < 146097) :
    ∃ century group year rest, Splits day century group year rest := by
  refine ⟨min 3 (day / 36524), (day - 36524 * min 3 (day / 36524)) / 1461,
    min 3 ((day - 36524 * min 3 (day / 36524)) % 1461 / 365), _, ?_, ?_, ?_, ?_, ?_,
    (add_sub_cancel _ day).symm⟩
  all_goals omega

namespace Splits

variable {day century group year rest : Int}

theorem yearOfCycle_eq (splits : Splits day century group year rest) :
    yearOfCycle day = 100 * century + 4 * group + year := by
  obtain ⟨centuries, groups, years, first, last, same⟩ := splits
  have quarters : day / 1460 = 25 * century + group ∧ rest ≤ 364 ∨
      day / 1460 = 25 * century + group + 1 ∧ 1 ≤ rest := by omega
  -- The last day of a cycle is the only one that no century counts as its own.
  have full : day / 36524 - day / 146096 = century := by
    obtain short | ⟨long, -, early | late⟩ := last
    · have inside : day / 36524 = century := by omega
      omega
    · have inside : day / 36524 = century := by omega
      omega
    · by_cases early : group < 24
      · have inside : day / 36524 = century := by omega
        omega
      · omega
  unfold yearOfCycle
  omega

theorem yearStart_eq (splits : Splits day century group year rest) :
    365 * yearOfCycle day + yearOfCycle day / 4 - yearOfCycle day / 100 = day - rest := by
  rw [splits.yearOfCycle_eq]
  obtain ⟨centuries, groups, years, -, -, same⟩ := splits
  omega

theorem isLeap (splits : Splits day century group year rest) (cycle : Int) :
    rest < 365 ∨ rest = 365 ∧ IsLeap (yearOfCycle day + cycle * 400 + 1) := by
  rw [splits.yearOfCycle_eq]
  obtain ⟨centuries, groups, years, -, last, -⟩ := splits
  unfold IsLeap
  omega

end Splits

/-- A day lies some days behind the start of a year that begins in March. -/
structure Counts (day year rest : Int) : Prop where
  day : day = yearStart year + rest
  first : 0 ≤ rest
  last : rest < 365 ∨ rest = 365 ∧ IsLeap (year + 1)

/-- The day of its cycle that a day is. -/
def dayOfCycle (day : Int) : Int := day - day / 146097 * 146097

/-- The days of its year before a day of a cycle, where the year begins in March. -/
def dayOfYear (day : Int) : Int :=
  day - (365 * yearOfCycle day + yearOfCycle day / 4 - yearOfCycle day / 100)

/-- The formulas find the year of a day and the day in it. -/
theorem counts_cycle (day : Int) :
    Counts day (yearOfCycle (dayOfCycle day) + day / 146097 * 400)
      (dayOfYear (dayOfCycle day)) := by
  obtain ⟨century, group, year, rest, splits⟩ :=
    cycle_split (show 0 ≤ dayOfCycle day by unfold dayOfCycle; omega)
      (by unfold dayOfCycle; omega)
  have start := splits.yearStart_eq
  have range : 0 ≤ yearOfCycle (dayOfCycle day) ∧ yearOfCycle (dayOfCycle day) < 400 := by
    rw [splits.yearOfCycle_eq]
    obtain ⟨centuries, groups, years, -, -, -⟩ := splits
    omega
  have behind : dayOfYear (dayOfCycle day) = rest := by
    unfold dayOfYear
    omega
  rw [behind]
  refine ⟨?_, splits.first, splits.isLeap _⟩
  have whole : day = day / 146097 * 146097 + dayOfCycle day := by
    unfold dayOfCycle
    omega
  rw [yearStart_cycle]
  unfold yearStart
  omega

theorem cycle_eq (day : Int) :
    (if 0 ≤ day then day else day - 146096).tdiv 146097 = day / 146097 := by
  split_ifs with natural
  · exact Int.tdiv_eq_ediv_of_nonneg natural
  · rw [Int.tdiv_eq_ediv, show Int.sign 146097 = 1 from rfl]
    omega

/-- A month counted from March as a month of the calendar. -/
def calendarMonth (month : Int) : Int := if month < 10 then month + 3 else month - 9

/-- A day of a year lies in a month. -/
theorem month_split {rest : Int} (first : 0 ≤ rest) (last : rest ≤ 365) :
    let month := (5 * rest + 2) / 153
    0 ≤ month ∧ month ≤ 11 ∧ daysBeforeMonth month ≤ rest ∧ rest < daysBeforeMonth (month + 1) := by
  unfold daysBeforeMonth
  omega

theorem Counts.civil {day year rest : Int} (counts : Counts day year rest) :
    ∃ d : Civil, d.number = day - 719468 ∧
      let month := (5 * rest + 2) / 153
      d.year = year + (if calendarMonth month ≤ 2 then 1 else 0) ∧
        d.month = calendarMonth month ∧ d.day = rest - daysBeforeMonth month + 1 := by
  obtain ⟨same, first, last⟩ := counts
  obtain ⟨low, high, before, behind⟩ := month_split first (by omega)
  generalize (5 * rest + 2) / 153 = month at *
  have length : rest - daysBeforeMonth month + 1 ≤
      monthLength (year + if calendarMonth month ≤ 2 then 1 else 0) (calendarMonth month) := by
    by_cases february : month = 11
    · subst february
      change rest - 337 + 1 ≤ if IsLeap (year + 1) then 29 else 28
      obtain short | ⟨long, leap⟩ := last
      · split_ifs <;> omega
      · rw [if_pos leap]
        omega
    · interval_cases month <;>
        simp [calendarMonth, daysBeforeMonth, monthLength] at february before behind ⊢ <;> omega
  refine ⟨⟨year + (if calendarMonth month ≤ 2 then 1 else 0), calendarMonth month,
    rest - daysBeforeMonth month + 1, ?_, by omega, length⟩, ?_, rfl, rfl, rfl⟩
  · unfold calendarMonth
    split_ifs <;> omega
  · unfold Civil.number
    simp only
    rw [daysFromCivil_eq]
    have years : marchYear (year + if calendarMonth month ≤ 2 then 1 else 0) (calendarMonth month) =
        year := by
      unfold marchYear
      split_ifs <;> omega
    have months : marchMonth (calendarMonth month) = month := by
      unfold marchMonth calendarMonth
      split_ifs <;> omega
    rw [years, months, same]
    omega

/-- The date that lies some days behind the start of a year that begins in March. -/
theorem civilFromDays_eq (n : Int) :
    ∃ year rest, Counts (n + 719468) year rest ∧
      let month := (5 * rest + 2) / 153
      civilFromDays n = (Bits.wrap32 (year + if calendarMonth month ≤ 2 then 1 else 0),
        calendarMonth month, rest - daysBeforeMonth month + 1) := by
  refine ⟨_, _, counts_cycle _, ?_⟩
  have cycle : (if 0 ≤ fromMarch n then fromMarch n else fromMarch n - 146096).tdiv 146097 =
      fromMarch n / 146097 := cycle_eq _
  unfold civilFromDays
  simp only
  rw [cycle]
  rfl

/-- The bounds that the dates of the held years keep to. -/
theorem Civil.number_bounds (d : Civil) (year : InRange d.year) :
    -800000000000 ≤ d.number ∧ d.number ≤ 800000000000 := by
  obtain ⟨low, high⟩ := year
  have start := d.days.1
  have last := d.year_end
  have positive : 0 ≤ daysBeforeMonth (marchMonth d.month) := by
    have range := d.months
    unfold marchMonth daysBeforeMonth
    split_ifs <;> omega
  unfold number
  rw [daysFromCivil_eq]
  have range : d.year - 1 ≤ marchYear d.year d.month ∧ marchYear d.year d.month ≤ d.year := by
    unfold marchYear
    split_ifs <;> omega
  unfold yearStart at *
  simp only [Bits.greatest32] at high
  omega

/-- The formulas give the date with a number whose year is held. -/
theorem Civil.ofNumber (d : Civil) (year : InRange d.year) :
    civilFromDays d.number = (d.year, d.month, d.day) := by
  obtain ⟨start, rest, counts, found⟩ := civilFromDays_eq d.number
  obtain ⟨d', number, years, months, days⟩ := counts.civil
  obtain rfl : d' = d := number_injective (by omega)
  rw [found, ← years, ← months, ← days, Bits.wrap32_of_le year.1 year.2]

/-- Each number is the number of a date. -/
theorem Civil.exists_number (n : Int) : ∃ d : Civil, d.number = n := by
  obtain ⟨d, number, -⟩ := (counts_cycle (n + 719468)).civil
  exact ⟨d, by omega⟩

/-- The conversion between dates and days is a bijection that keeps the order: a date whose year is
held is given back, the days from the first to the last such date all have their date, and the date
after another is one day later. -/
theorem civil_days_bijective :
    (∀ d : Civil, InRange d.year →
      civilFromDays (daysFromCivil d.year d.month d.day) = (d.year, d.month, d.day)) ∧
    (∀ n, daysFromCivil (-2147483648) 1 1 ≤ n → n ≤ daysFromCivil 2147483647 12 31 →
      ∃ d : Civil, InRange d.year ∧ civilFromDays n = (d.year, d.month, d.day) ∧
        daysFromCivil d.year d.month d.day = n) ∧
    (∀ d d' : Civil, d < d' ↔
      daysFromCivil d.year d.month d.day < daysFromCivil d'.year d'.month d'.day) ∧
    (∀ d : Civil, daysFromCivil d.next.year d.next.month d.next.day =
      daysFromCivil d.year d.month d.day + 1) ∧
    daysFromCivil 1970 1 1 = 0 := by
  refine ⟨fun d year => d.ofNumber year, fun n low high => ?_,
    fun d d' => Civil.number_lt_iff, fun d => d.number_next, by decide⟩
  obtain ⟨d, rfl⟩ := Civil.exists_number n
  let first : Civil := ⟨-2147483648, 1, 1, by decide, by decide⟩
  let last : Civil := ⟨2147483647, 12, 31, by decide, by decide⟩
  have year : InRange d.year := by
    have early : ¬ d < first := fun less => absurd (Civil.number_lt less) (not_lt.mpr low)
    have late : ¬ last < d := fun less => absurd (Civil.number_lt less) (not_lt.mpr high)
    have early' : ¬ d.year < -2147483648 := fun less => early (.inl less)
    have late' : ¬ 2147483647 < d.year := fun less => late (.inl less)
    exact ⟨not_lt.mp early', not_lt.mp late'⟩
  exact ⟨d, year, d.ofNumber year, rfl⟩

theorem civil_days_bijective_leapDay :
    InRange 2024 ∧ civilFromDays (daysFromCivil 2024 2 29) = (2024, 2, 29) ∧
      daysFromCivil (-2147483648) 1 1 ≤ 19782 ∧ 19782 ≤ daysFromCivil 2147483647 12 31 ∧
      ∃ d : Civil, InRange d.year ∧ civilFromDays 19782 = (d.year, d.month, d.day) ∧
        daysFromCivil d.year d.month d.day = 19782 := by
  let leap : Civil := ⟨2024, 2, 29, by decide, by decide⟩
  have year : InRange 2024 := ⟨by decide, by decide⟩
  have low : daysFromCivil (-2147483648) 1 1 ≤ 19782 := by decide
  have high : 19782 ≤ daysFromCivil 2147483647 12 31 := by decide
  exact ⟨year, civil_days_bijective.1 leap year, low, high, civil_days_bijective.2.1 _ low high⟩

end Homoicon.Calendar
