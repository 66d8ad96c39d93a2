import OrbitGraph.History.Instants

/-!
Dates of day numbers, and the timestamps that the clock is written as.

The calendar is converted in three places: `days_from_civil` when a timestamp is read,
and one `civil_from_days` each for the cutoff of a recommendation and for the reports.
The two that write agree, and are inverse to the one that reads, wherever they do not
overflow. A cutoff that is written is read again as the instant that it is unless its
year needs a fifth digit: no check keeps such an instant from being written.
-/

namespace OrbitGraph.History

open Lib Lib.Calendar

/-! ### The source -/

/-- What `shifted` is divided by the length of an era for, rounding down. -/
def shiftedDaysI64 (shifted : Int) : Except Fault Int :=
  if shifted ≥ 0 then .ok shifted else unchecked (shifted - 146096)

/-- `civil_from_days` of the recommendations, one operation after the other. -/
def civilFromDays (daysSinceUnixEpoch : Int) : Except Fault (Int × Int × Int) := do
  let shifted ← unchecked (daysSinceUnixEpoch + 719468)
  let rounded ← shiftedDaysI64 shifted
  let era := rounded.tdiv 146097
  let eraDays ← unchecked (era * 146097)
  let dayOfEra ← unchecked (shifted - eraDays)
  let withoutLeaps ← unchecked (dayOfEra - dayOfEra.tdiv 1460)
  let withCenturies ← unchecked (withoutLeaps + dayOfEra.tdiv 36524)
  let common ← unchecked (withCenturies - dayOfEra.tdiv 146096)
  let yearOfEra := common.tdiv 365
  let eraYears ← unchecked (era * 400)
  let year ← unchecked (yearOfEra + eraYears)
  let years ← unchecked (365 * yearOfEra)
  let withLeaps ← unchecked (years + yearOfEra.tdiv 4)
  let before ← unchecked (withLeaps - yearOfEra.tdiv 100)
  let dayOfYear ← unchecked (dayOfEra - before)
  let fives ← unchecked (5 * dayOfYear)
  let scaled ← unchecked (fives + 2)
  let monthPart := scaled.tdiv 153
  let months ← unchecked (153 * monthPart)
  let monthDays ← unchecked (months + 2)
  let inMonth ← unchecked (dayOfYear - monthDays.tdiv 5)
  let day ← unchecked (inMonth + 1)
  let month ← unchecked (monthPart + if monthPart < 10 then 3 else -9)
  let year ← unchecked (year + if month ≤ 2 then 1 else 0)
  return (year, month, day)

/-- A `u64` operation without a check. -/
def uncheckedU64 (value : Int) : Except Fault Int :=
  if 0 ≤ value ∧ value < 2 ^ 64 then .ok value else .error .overflow

/-- `as u64`. -/
def asU64 (value : Int) : Int := value % 2 ^ 64

/-- `as i64`, of a `u64`. -/
def asI64 (value : Int) : Int := if value < 2 ^ 63 then value else value - 2 ^ 64

/-- `as u32`. -/
def asU32 (value : Int) : Int := value % 2 ^ 32

/-- `civil_from_days` of the reports, one operation after the other. -/
def civilFromDaysReport (daysSinceEpoch : Int) : Except Fault (Int × Int × Int) := do
  let z ← unchecked (daysSinceEpoch + 719468)
  let rounded ← shiftedDaysI64 z
  let era := rounded.tdiv 146097
  let eraDays ← unchecked (era * 146097)
  let difference ← unchecked (z - eraDays)
  let dayOfEra := asU64 difference
  let withoutLeaps ← uncheckedU64 (dayOfEra - dayOfEra / 1460)
  let withCenturies ← uncheckedU64 (withoutLeaps + dayOfEra / 36524)
  let common ← uncheckedU64 (withCenturies - dayOfEra / 146096)
  let yearOfEra := common / 365
  let eraYears ← unchecked (era * 400)
  let year ← unchecked (asI64 yearOfEra + eraYears)
  let years ← uncheckedU64 (365 * yearOfEra)
  let withLeaps ← uncheckedU64 (years + yearOfEra / 4)
  let before ← uncheckedU64 (withLeaps - yearOfEra / 100)
  let dayOfYear ← uncheckedU64 (dayOfEra - before)
  let fives ← uncheckedU64 (5 * dayOfYear)
  let scaled ← uncheckedU64 (fives + 2)
  let monthPosition := scaled / 153
  let months ← uncheckedU64 (153 * monthPosition)
  let monthDays ← uncheckedU64 (months + 2)
  let inMonth ← uncheckedU64 (dayOfYear - monthDays / 5)
  let dayWide ← uncheckedU64 (inMonth + 1)
  let day := asU32 dayWide
  let monthWide ← uncheckedU64 (if monthPosition < 10 then monthPosition + 3 else monthPosition - 9)
  let month := asU32 monthWide
  let year ← if month ≤ 2 then unchecked (year + 1) else .ok year
  return (year, month, day)

/-- `{value:0width}`: zeros after the sign, up to the width. -/
def zeroPadded (width : Nat) : Int → Text
  | .ofNat n => List.replicate (width - (decimal n).length) '0' ++ decimal n
  | .negSucc n => '-' :: (List.replicate (width - 1 - (decimal (n + 1)).length) '0' ++ decimal (n + 1))

/-- The time that has passed since 1970, as the clock gives it. -/
structure Elapsed where
  seconds : Nat
  nanoseconds : Nat
  secondsFit : seconds < 2 ^ 64
  nanosecondsFit : nanoseconds < 10 ^ 9

/-- `current_observation_cutoff`, for a clock that shows `now` or lies before 1970. -/
def currentObservationCutoff (now : Except Text Elapsed) : Except Fault (Except GraphError Text) :=
  match now with
  | .error reason => .ok (.error (.invalidData "capture recommendation observation time" reason))
  | .ok elapsed =>
    if elapsed.seconds < 2 ^ 63 then do
      let days := (elapsed.seconds : Int) / 86400
      let daySeconds := (elapsed.seconds : Int) % 86400
      let (year, month, day) ← civilFromDays days
      let hour := daySeconds.tdiv 3600
      let minute := (daySeconds.tmod 3600).tdiv 60
      let second := daySeconds.tmod 60
      return .ok (zeroPadded 4 year ++ '-' :: (zeroPadded 2 month ++ '-' :: (zeroPadded 2 day ++
        'T' :: (zeroPadded 2 hour ++ ':' :: (zeroPadded 2 minute ++ ':' :: (zeroPadded 2 second ++
          '.' :: (zeroPadded 9 elapsed.nanoseconds ++ "Z")))))))
    else .ok (.error (.invalidData "capture recommendation observation time"
      "out of range integral type conversion attempted"))

/-! ### The date of a day -/

/-- The date of a day: the era, its year, and the month of that year. -/
def civilOf (days : Int) : Int × Int × Int :=
  let shifted := days + 719468
  let year := yearOfEra (shifted % 146097)
  let dayOfYear := shifted % 146097 - daysBeforeYearOfEra year
  let monthPart := (5 * dayOfYear + 2) / 153
  let month := monthPart + if monthPart < 10 then 3 else -9
  (year + shifted / 146097 * 400 + if month ≤ 2 then 1 else 0, month,
    dayOfYear - daysBeforeMarchMonth monthPart + 1)

/-- A date of the calendar, as `parse_rfc3339` checks it. -/
def IsDate (year month day : Int) : Prop := ∃ days, daysInMonth year month = some days ∧ 1 ≤ day ∧ day ≤ days

/-- The day numbers that can be shifted to the era that contains 1970. -/
def InRange (days : Int) : Prop := -2 ^ 63 ≤ days ∧ days + 719468 < 2 ^ 63

structure MarchDate (days era year day : Int) : Prop where
  split : days + 719468 = era * 146097 + (daysBeforeYearOfEra year + day)
  first : 0 ≤ year
  last : year < 400
  isDay : IsMarchDay year day

namespace MarchDate

variable {days era year day : Int}

theorem exists_parts (days : Int) : ∃ era year day, MarchDate days era year day := by
  obtain ⟨year, day, first, last, isDay, same⟩ :=
    exists_yearOfEra ((days + 719468) % 146097) (by omega) (by omega)
  exact ⟨(days + 719468) / 146097, year, day, by omega, first, last, isDay⟩

theorem dayOfEra_bounds (parts : MarchDate days era year day) :
    0 ≤ daysBeforeYearOfEra year + day ∧ daysBeforeYearOfEra year + day < 146097 := by
  obtain ⟨-, first, last, low, high⟩ := parts
  unfold IsLongMarchYear at high
  unfold daysBeforeYearOfEra
  omega

theorem day_bounds (parts : MarchDate days era year day) : 0 ≤ day ∧ day ≤ 365 := by
  obtain ⟨low, high⟩ := parts.isDay
  omega

theorem era_eq (parts : MarchDate days era year day) : (days + 719468) / 146097 = era := by
  have bounds := parts.dayOfEra_bounds
  have split := parts.split
  omega

theorem dayOfEra_eq (parts : MarchDate days era year day) :
    (days + 719468) % 146097 = daysBeforeYearOfEra year + day := by
  have bounds := parts.dayOfEra_bounds
  have split := parts.split
  omega

theorem civilOf_eq (parts : MarchDate days era year day) :
    civilOf days =
      (year + era * 400 + (if (5 * day + 2) / 153 + (if (5 * day + 2) / 153 < 10 then 3 else -9) ≤ 2 then 1 else 0),
        (5 * day + 2) / 153 + (if (5 * day + 2) / 153 < 10 then 3 else -9),
        day - daysBeforeMarchMonth ((5 * day + 2) / 153) + 1) := by
  have dayOfYear : daysBeforeYearOfEra year + day - daysBeforeYearOfEra year = day := by omega
  unfold civilOf
  dsimp only
  rw [parts.era_eq, parts.dayOfEra_eq, yearOfEra_eq parts.first parts.last parts.isDay, dayOfYear]

end MarchDate

theorem shiftedDaysI64_tdiv (shifted : Int) (low : -2 ^ 63 + 146096 ≤ shifted) :
    ∃ rounded, shiftedDaysI64 shifted = .ok rounded ∧ rounded.tdiv 146097 = shifted / 146097 := by
  unfold shiftedDaysI64
  by_cases sign : shifted ≥ 0
  · exact ⟨_, if_pos sign, Int.tdiv_eq_ediv_of_nonneg sign⟩
  · rw [if_neg sign]
    refine ⟨_, unchecked_ok (by omega), ?_⟩
    rw [← Int.neg_neg (shifted - 146096), Int.neg_tdiv, Int.tdiv_eq_ediv_of_nonneg (by omega)]
    omega

theorem daysBeforeYearOfEra_bounds {year : Int} (first : 0 ≤ year) (last : year < 400) :
    0 ≤ daysBeforeYearOfEra year ∧ daysBeforeYearOfEra year < 146097 := by
  unfold daysBeforeYearOfEra
  omega

theorem ok_bind {α β : Type} {a : α} {next : α → Except Fault β} : (Except.ok a >>= next) = next a := rfl

/-- The recommendations compute the date, without overflow. -/
theorem civilFromDays_eq {days : Int} (inRange : InRange days) : civilFromDays days = .ok (civilOf days) := by
  obtain ⟨era, year, day, parts⟩ := MarchDate.exists_parts days
  obtain ⟨low, high⟩ := inRange
  have eraBounds := parts.dayOfEra_bounds
  have split := parts.split
  have beforeBounds := daysBeforeYearOfEra_bounds parts.first parts.last
  have yearBounds := And.intro parts.first parts.last
  have dayBounds := parts.day_bounds
  obtain ⟨monthLow, monthHigh, -, -⟩ := marchMonth_bounds parts.isDay
  obtain ⟨rounded, shifted, eraEq⟩ := shiftedDaysI64_tdiv (days + 719468) (by omega)
  have yearEq := yearOfEra_eq parts.first parts.last parts.isDay
  have dayOfEra : days + 719468 - era * 146097 = daysBeforeYearOfEra year + day := by omega
  have inYear : daysBeforeYearOfEra year + day - daysBeforeYearOfEra year = day := by omega
  have before : 365 * year + year / 4 - year / 100 = daysBeforeYearOfEra year := rfl
  rw [parts.civilOf_eq]
  unfold civilFromDays
  rw [unchecked_bind (by omega), shifted, ok_bind]
  rw [eraEq, parts.era_eq, unchecked_bind (by omega), dayOfEra, unchecked_bind (by omega)]
  clear shifted eraEq dayOfEra
  generalize daysBeforeYearOfEra year + day = n at *
  unfold yearOfEra at yearEq
  simp only [Int.tdiv_eq_ediv_of_nonneg eraBounds.1]
  rw [unchecked_bind (by omega), unchecked_bind (by omega),
    unchecked_bind (by omega), Int.tdiv_eq_ediv_of_nonneg (by omega), yearEq,
    Int.tdiv_eq_ediv_of_nonneg yearBounds.1, Int.tdiv_eq_ediv_of_nonneg yearBounds.1]
  clear yearEq
  rw [unchecked_bind (by omega), unchecked_bind (by omega),
    unchecked_bind (by omega), unchecked_bind (by omega),
    unchecked_bind (by omega)]
  rw [before, inYear, unchecked_bind (by omega), unchecked_bind (by omega),
    unchecked_bind (by omega), Int.tdiv_eq_ediv_of_nonneg (by omega)]
  generalize (5 * day + 2) / 153 = month at *
  rw [unchecked_bind (by omega), unchecked_bind (by omega),
    Int.tdiv_eq_ediv_of_nonneg (by omega), unchecked_bind (by omega),
    unchecked_bind (by omega), unchecked_bind (by split_ifs <;> omega),
    unchecked_bind (by split_ifs <;> omega)]
  rfl

variable {value : Int}

theorem uncheckedU64_bind {α : Type} {next : Int → Except Fault α} (bounds : 0 ≤ value ∧ value < 2 ^ 64) :
    (uncheckedU64 value >>= next) = next value := by
  unfold uncheckedU64
  rw [if_pos bounds]
  rfl

theorem asU64_eq (bounds : 0 ≤ value ∧ value < 2 ^ 64) : asU64 value = value := Int.emod_eq_of_lt bounds.1 bounds.2

theorem asU32_eq (bounds : 0 ≤ value ∧ value < 2 ^ 32) : asU32 value = value := Int.emod_eq_of_lt bounds.1 bounds.2

theorem asI64_eq (high : value < 2 ^ 63) : asI64 value = value := if_pos high

/-- The reports compute the date as well: nothing is lost where they change the type. -/
theorem civilFromDaysReport_eq {days : Int} (inRange : InRange days) :
    civilFromDaysReport days = .ok (civilOf days) := by
  obtain ⟨era, year, day, parts⟩ := MarchDate.exists_parts days
  obtain ⟨low, high⟩ := inRange
  have eraBounds := parts.dayOfEra_bounds
  have split := parts.split
  have beforeBounds := daysBeforeYearOfEra_bounds parts.first parts.last
  have yearBounds := And.intro parts.first parts.last
  have dayBounds := parts.day_bounds
  obtain ⟨monthLow, monthHigh, startLow, -⟩ := marchMonth_bounds parts.isDay
  obtain ⟨rounded, shifted, eraEq⟩ := shiftedDaysI64_tdiv (days + 719468) (by omega)
  have yearEq := yearOfEra_eq parts.first parts.last parts.isDay
  have dayOfEra : days + 719468 - era * 146097 = daysBeforeYearOfEra year + day := by omega
  have inYear : daysBeforeYearOfEra year + day - daysBeforeYearOfEra year = day := by omega
  have before : 365 * year + year / 4 - year / 100 = daysBeforeYearOfEra year := rfl
  have monthsBefore : ∀ month, (153 * month + 2) / 5 = daysBeforeMarchMonth month := fun _ => rfl
  rw [parts.civilOf_eq]
  unfold civilFromDaysReport
  rw [unchecked_bind (by omega), shifted, ok_bind, eraEq, parts.era_eq,
    unchecked_bind (by omega), dayOfEra, unchecked_bind (by omega)]
  clear shifted eraEq dayOfEra
  generalize daysBeforeYearOfEra year + day = n at *
  unfold yearOfEra at yearEq
  rw [asU64_eq (by omega), uncheckedU64_bind (by omega), uncheckedU64_bind (by omega),
    uncheckedU64_bind (by omega), yearEq]
  clear yearEq
  dsimp only
  rw [asI64_eq (by omega), unchecked_bind (by omega), unchecked_bind (by omega),
    uncheckedU64_bind (by omega), uncheckedU64_bind (by omega),
    uncheckedU64_bind (by omega)]
  rw [before, uncheckedU64_bind (by omega), inYear, uncheckedU64_bind (by omega),
    uncheckedU64_bind (by omega)]
  have monthBound : daysBeforeMarchMonth ((5 * day + 2) / 153) ≤ 400 := by omega
  have monthStart : 0 ≤ daysBeforeMarchMonth ((5 * day + 2) / 153) := by
    unfold daysBeforeMarchMonth
    omega
  generalize (5 * day + 2) / 153 = month at *
  have monthEq : (if month < 10 then month + 3 else month - 9) = month + if month < 10 then 3 else -9 := by
    split_ifs <;> omega
  rw [uncheckedU64_bind (by omega), uncheckedU64_bind (by omega), monthsBefore,
    uncheckedU64_bind (by omega), uncheckedU64_bind (by omega), monthEq,
    uncheckedU64_bind (by split_ifs <;> omega)]
  rw [asU32_eq (by split_ifs <;> omega), asU32_eq (by omega)]
  by_cases early : month + (if month < 10 then 3 else -9) ≤ 2
  · rw [if_pos early, if_pos early, unchecked_bind (by omega)]
    rfl
  · rw [if_neg early, if_neg early, ok_bind, Int.add_zero]
    rfl

/-! ### The inverse -/

theorem daysInMonth_february {year : Int} : daysInMonth year 2 =
    some (if IsLongMarchYear (year - 1) then 29 else 28) := by
  have leap : (year.tmod 4 = 0 ∧ (year.tmod 100 ≠ 0 ∨ year.tmod 400 = 0)) ↔ IsLongMarchYear (year - 1) := by
    unfold IsLongMarchYear
    rw [Int.sub_add_cancel]
    simp only [ne_eq, ← Int.dvd_iff_tmod_eq_zero, ← Int.dvd_iff_emod_eq_zero]
  unfold daysInMonth
  simp only [leap]
  rfl

/-- The year, the month and the day that `days_from_civil` counts from March. -/
def marchYear (year month : Int) : Int := year - if month ≤ 2 then 1 else 0

def marchMonth (month : Int) : Int := month + if month > 2 then -3 else 9

def marchDay (month day : Int) : Int := daysBeforeMarchMonth (marchMonth month) + day - 1

theorem isDate_iff {year month day : Int} (first : 1 ≤ month) (last : month ≤ 12) :
    IsDate year month day ↔ 1 ≤ day ∧ IsMarchDay (marchYear year month) (marchDay month day) ∧
      marchDay month day < daysBeforeMarchMonth (marchMonth month + 1) := by
  have length : ∃ days, daysInMonth year month = some days ∧
      (1 ≤ day ∧ day ≤ days ↔ 1 ≤ day ∧ IsMarchDay (marchYear year month) (marchDay month day) ∧
        marchDay month day < daysBeforeMarchMonth (marchMonth month + 1)) := by
    by_cases february : month = 2
    · subst february
      refine ⟨_, daysInMonth_february, ?_⟩
      have next : daysBeforeMarchMonth (marchMonth 2 + 1) = 367 := by decide
      have inYear : marchDay 2 day = 337 + day - 1 := rfl
      have before : marchYear year 2 = year - 1 := rfl
      rw [next, inYear, before, IsMarchDay]
      by_cases long : IsLongMarchYear (year - 1)
      · simp only [long, if_true, and_true]
        omega
      · simp only [long, if_false, and_false, or_false]
        omega
    · unfold IsMarchDay marchYear marchDay marchMonth daysBeforeMarchMonth
      interval_cases month
      · exact ⟨31, rfl, by omega⟩
      · exact absurd rfl february
      · exact ⟨31, rfl, by omega⟩
      · exact ⟨30, rfl, by omega⟩
      · exact ⟨31, rfl, by omega⟩
      · exact ⟨30, rfl, by omega⟩
      · exact ⟨31, rfl, by omega⟩
      · exact ⟨31, rfl, by omega⟩
      · exact ⟨30, rfl, by omega⟩
      · exact ⟨31, rfl, by omega⟩
      · exact ⟨30, rfl, by omega⟩
      · exact ⟨31, rfl, by omega⟩
  obtain ⟨days, length, bounds⟩ := length
  unfold IsDate
  rw [← bounds]
  constructor
  · rintro ⟨_, same, inside⟩
    obtain rfl := Option.mem_unique same length
    exact inside
  · exact fun inside => ⟨days, length, inside⟩

theorem marchMonth_of_part {part : Int} (first : 0 ≤ part) (last : part ≤ 11) :
    1 ≤ part + (if part < 10 then 3 else -9) ∧ part + (if part < 10 then 3 else -9) ≤ 12 ∧
      marchMonth (part + if part < 10 then 3 else -9) = part := by
  unfold marchMonth
  split_ifs <;> omega

theorem civilOf_isDate (days : Int) : 1 ≤ (civilOf days).2.1 ∧ (civilOf days).2.1 ≤ 12 ∧
      IsDate (civilOf days).1 (civilOf days).2.1 (civilOf days).2.2 ∧
      daysFromCivil (civilOf days).1 (civilOf days).2.1 (civilOf days).2.2 = days := by
  obtain ⟨era, year, day, parts⟩ := MarchDate.exists_parts days
  obtain ⟨partLow, partHigh, dayLow, dayHigh⟩ := marchMonth_bounds parts.isDay
  obtain ⟨monthLow, monthHigh, monthEq⟩ := marchMonth_of_part partLow partHigh
  rw [parts.civilOf_eq]
  dsimp only
  generalize (5 * day + 2) / 153 = part at *
  generalize part + (if part < 10 then 3 else -9) = month at *
  have yearEq : marchYear (year + era * 400 + if month ≤ 2 then 1 else 0) month = year + era * 400 := by
    unfold marchYear
    omega
  have dayEq : marchDay month (day - daysBeforeMarchMonth part + 1) = day := by
    unfold marchDay
    rw [monthEq]
    omega
  refine ⟨monthLow, monthHigh, ?_, ?_⟩
  · rw [isDate_iff monthLow monthHigh, yearEq, dayEq, monthEq]
    refine ⟨by omega, ⟨parts.isDay.1, ?_⟩, dayHigh⟩
    have long : IsLongMarchYear year → IsLongMarchYear (year + era * 400) := by
      unfold IsLongMarchYear
      omega
    exact parts.isDay.2.imp_right fun last => ⟨last.1, long last.2⟩
  · have floor := daysFromCivil_floor (year + era * 400 + if month ≤ 2 then 1 else 0)
      (day - daysBeforeMarchMonth part + 1) monthLow monthHigh
    change _ = marchYear _ month / 400 * 146097 + (daysBeforeYearOfEra (marchYear _ month % 400) +
      marchDay month (day - daysBeforeMarchMonth part + 1)) - 719468 at floor
    have first := parts.first
    have last := parts.last
    have eraEq : (year + era * 400) / 400 = era := by omega
    have inEra : (year + era * 400) % 400 = year := by omega
    rw [floor, yearEq, dayEq, eraEq, inEra]
    have split := parts.split
    omega

theorem civilOf_daysFromCivil {year month day : Int} (first : 1 ≤ month) (last : month ≤ 12)
    (isDate : IsDate year month day) : civilOf (daysFromCivil year month day) = (year, month, day) := by
  obtain ⟨dayLow, isDay, inMonth⟩ := (isDate_iff first last).mp isDate
  have floor := daysFromCivil_floor year day first last
  change _ = marchYear year month / 400 * 146097 + (daysBeforeYearOfEra (marchYear year month % 400) +
    marchDay month day) - 719468 at floor
  have parts : MarchDate (daysFromCivil year month day) (marchYear year month / 400) (marchYear year month % 400)
      (marchDay month day) := by
    refine ⟨by omega, by omega, by omega, isDay.1, ?_⟩
    have long : IsLongMarchYear (marchYear year month) → IsLongMarchYear (marchYear year month % 400) := by
      unfold IsLongMarchYear
      omega
    exact isDay.2.imp_right fun last => ⟨last.1, long last.2⟩
  have monthBounds : 0 ≤ marchMonth month ∧ marchMonth month ≤ 11 := by
    unfold marchMonth
    split_ifs <;> omega
  have monthEq := marchMonth_eq (marchDay month day) monthBounds.1 monthBounds.2
    (by unfold marchDay; omega) inMonth
  have back : marchMonth month + (if marchMonth month < 10 then 3 else -9) = month := by
    unfold marchMonth
    split_ifs <;> omega
  rw [parts.civilOf_eq, monthEq, back]
  have yearEq : marchYear year month % 400 + marchYear year month / 400 * 400 + (if month ≤ 2 then 1 else 0) =
      year := by
    unfold marchYear
    omega
  have dayEq : marchDay month day - daysBeforeMarchMonth (marchMonth month) + 1 = day := by
    unfold marchDay
    omega
  rw [yearEq, dayEq]

/-! ### The texts -/

theorem zeroPadded_isNumeral (width n : Nat) (fits : n < 10 ^ width) (positive : 0 < width) :
    IsNumeral width (zeroPadded width n) ∧ numeralValue (zeroPadded width n) = n := by
  have short : (decimal n).length ≤ width := (Nat.length_toDigits_le_iff (by decide) positive).mpr fits
  have zeros : ∀ k, numeralValue (List.replicate k '0' ++ decimal n) = n := by
    intro k
    induction k with
    | zero => exact numeralValue_decimal n
    | succ k ih => exact ih
  change IsNumeral width (List.replicate (width - (decimal n).length) '0' ++ decimal n) ∧
    numeralValue (List.replicate (width - (decimal n).length) '0' ++ decimal n) = n
  refine ⟨⟨?_, ?_⟩, zeros _⟩
  · rw [List.length_append, List.length_replicate]
    omega
  · rw [List.all_append, Bool.and_eq_true]
    refine ⟨?_, (decimal_isDigits n).2⟩
    rw [List.all_replicate]
    simp

theorem fraction_zeroPadded {width n : Nat} (fits : n < 10 ^ width) (positive : 0 < width) :
    Decimals.fraction (Decimals.strip (zeroPadded width n)) = n / 10 ^ width := by
  obtain ⟨numeral, value⟩ := zeroPadded_isNumeral width n fits positive
  obtain ⟨zeros, same⟩ := Decimals.exists_strip (zeroPadded width n)
  have unstripped := Decimals.fraction_append_zeros (Decimals.strip (zeroPadded width n)) zeros
  rw [← same] at unstripped
  rw [← unstripped, Decimals.fraction_eq_div, numeral.length]
  exact congrArg (fun number : Nat => (number : ℚ) / 10 ^ width) value

/-- The date and the time of day as both clocks write them, up to what follows the seconds. -/
def dateTimeText (date : Int × Int × Int) (hour minute second : Nat) (tail : Text) : Text :=
  zeroPadded 4 date.1 ++ '-' :: (zeroPadded 2 date.2.1 ++ '-' :: (zeroPadded 2 date.2.2 ++
    'T' :: (zeroPadded 2 hour ++ ':' :: (zeroPadded 2 minute ++ ':' :: (zeroPadded 2 second ++ tail)))))

/-- The first day of the year 10000. -/
def yearTenThousand : Int := 2932897

theorem civilOf_year (days : Int) (low : 0 ≤ days) :
    0 ≤ (civilOf days).1 ∧ ((civilOf days).1 < 10000 ↔ days < yearTenThousand) := by
  obtain ⟨era, year, day, parts⟩ := MarchDate.exists_parts days
  obtain ⟨monthLow, monthHigh, monthEq⟩ := marchMonth_of_part (marchMonth_bounds parts.isDay).1
    (marchMonth_bounds parts.isDay).2.1
  obtain ⟨partLow, partHigh, startLow, startHigh⟩ := marchMonth_bounds parts.isDay
  have early : (5 * day + 2) / 153 + (if (5 * day + 2) / 153 < 10 then 3 else -9) ≤ 2 ↔ 306 ≤ day := by
    split_ifs <;> omega
  rw [parts.civilOf_eq]
  simp only [early]
  obtain ⟨split, first, last, dayLow, dayHigh⟩ := parts
  have atMost : day ≤ 365 := by omega
  clear dayHigh early monthLow monthHigh monthEq partLow partHigh startLow startHigh
  unfold daysBeforeYearOfEra at split
  unfold yearTenThousand
  split_ifs with late <;> omega

theorem spells_dateTimeText (seconds : Nat) (fourDigits : ((seconds : Int) / 86400) < yearTenThousand)
    {secfrac : Text} {fraction : List Char} (isFraction : IsFraction secfrac fraction) :
    ∃ t, Spells (dateTimeText (civilOf ((seconds : Int) / 86400)) (seconds % 86400 / 3600)
        (seconds % 86400 % 3600 / 60) (seconds % 86400 % 60) (secfrac ++ "Z")) t ∧
      t.timestamp = ⟨seconds, Decimals.strip fraction⟩ := by
  obtain ⟨monthLow, monthHigh, isDate, inverse⟩ := civilOf_isDate ((seconds : Int) / 86400)
  obtain ⟨yearLow, yearHigh⟩ := civilOf_year ((seconds : Int) / 86400) (by omega)
  generalize civilOf ((seconds : Int) / 86400) = date at *
  obtain ⟨year, month, day⟩ := date
  obtain ⟨days, length, dayLow, dayHigh⟩ := isDate
  dsimp only at *
  obtain ⟨year, rfl⟩ := Int.eq_ofNat_of_zero_le yearLow
  obtain ⟨month, rfl⟩ := Int.eq_ofNat_of_zero_le (by omega : 0 ≤ month)
  obtain ⟨day, rfl⟩ := Int.eq_ofNat_of_zero_le (by omega : 0 ≤ day)
  rw [daysInMonth_eq year (by omega) (by omega)] at length
  obtain rfl := Option.some.inj length
  have monthDays := monthLength_le year month
  have yearText := zeroPadded_isNumeral 4 year (by have := yearHigh.mpr fourDigits; omega) (by decide)
  have monthText := zeroPadded_isNumeral 2 month (by omega) (by decide)
  have dayText := zeroPadded_isNumeral 2 day (by omega) (by decide)
  have hourText := zeroPadded_isNumeral 2 (seconds % 86400 / 3600) (by omega) (by decide)
  have minuteText := zeroPadded_isNumeral 2 (seconds % 86400 % 3600 / 60) (by omega) (by decide)
  have secondText := zeroPadded_isNumeral 2 (seconds % 86400 % 60) (by omega) (by decide)
  have spells := Spells.intro yearText.1 monthText.1 dayText.1 (.inl rfl) hourText.1 minuteText.1 secondText.1
    isFraction IsOffset.utc (by rw [monthText.2]; omega) (by rw [monthText.2]; omega) (by rw [dayText.2]; omega)
    (by rw [yearText.2, monthText.2, dayText.2]; omega) (by rw [hourText.2]; omega) (by rw [minuteText.2]; omega)
    (by rw [secondText.2]; omega)
  refine ⟨_, spells, ?_⟩
  unfold DateTime.timestamp
  dsimp only
  rw [yearText.2, monthText.2, dayText.2, hourText.2, minuteText.2, secondText.2,
    ← daysFromCivil_eq year (by omega) (by omega) (by omega), inverse]
  congr 1
  omega

theorem parseTimestamp_fiveDigits (digits tail : Text) (isDigits : digits.all Char.isDigit = true)
    (long : 5 ≤ digits.length) (field : Text) :
    parseTimestamp field (digits ++ tail) = .error (invalidTimestamp field (digits ++ tail)) := by
  have isDigit : ∀ place c, place < digits.length → (digits ++ tail)[place]? = some c → c.isDigit = true := by
    intro place c inside found
    rw [List.getElem?_append_left inside] at found
    exact List.all_eq_true.mp isDigits c (List.mem_of_getElem? found)
  have notUnix : Text.stripPrefix "unix:" (digits ++ tail) = none := by
    rw [Option.eq_none_iff_forall_ne_some]
    intro rest found
    have first := isDigit 0 'u' (by omega) (by rw [Text.stripPrefix_eq_some.mp found]; rfl)
    cases first
  have unread : parseRfc3339 (digits ++ tail) = none := by
    rw [Option.eq_none_iff_forall_ne_some]
    intro t read
    obtain ⟨-, ⟨sep, -⟩, -⟩ := parseRfc3339_eq_some.mp read
    have fifth := isDigit 4 '-' (by omega) sep
    cases fifth
  unfold parseTimestamp
  rw [notUnix, unread]

/-- From the year 10000 on, what is written is not read: the fifth digit is where the month
should be set off. -/
theorem dateTimeText_unread (seconds : Nat) (fiveDigits : yearTenThousand ≤ (seconds : Int) / 86400) (field tail : Text)
    (hour minute second : Nat) :
    ∃ e, parseTimestamp field (dateTimeText (civilOf ((seconds : Int) / 86400)) hour minute second tail) = .error e := by
  obtain ⟨yearLow, yearHigh⟩ := civilOf_year ((seconds : Int) / 86400) (by omega)
  have later : ¬ (civilOf ((seconds : Int) / 86400)).1 < 10000 := fun early => by
    have := yearHigh.mp early
    omega
  unfold dateTimeText
  generalize civilOf ((seconds : Int) / 86400) = date at *
  obtain ⟨year, month, day⟩ := date
  obtain ⟨year, rfl⟩ := Int.eq_ofNat_of_zero_le yearLow
  have long : 5 ≤ (decimal year).length := by
    by_contra short
    have small := (Nat.length_toDigits_le_iff (b := 10) (k := 4) (n := year) (by decide) (by decide)).mp
      (Nat.le_of_lt_succ (Nat.lt_of_not_le short))
    dsimp only at later
    omega
  have unpadded : zeroPadded 4 (year : Int) = decimal year := by
    have none : 4 - (decimal year).length = 0 := by omega
    change List.replicate (4 - (decimal year).length) '0' ++ decimal year = decimal year
    rw [none]
    rfl
  dsimp only
  rw [unpadded]
  exact ⟨_, parseTimestamp_fiveDigits _ _ (decimal_isDigits year).2 long field⟩

/-! ### The round trip -/

def Elapsed.instant (elapsed : Elapsed) : ℚ := elapsed.seconds + elapsed.nanoseconds / 10 ^ 9

/-- The conversions are inverse: each day number in range has one date in both copies, which
counts back to it, each date of the calendar is that of its day number, and a cutoff
that is written for `elapsed` is read as its instant. -/
structure CalendarRoundTrip (elapsed : Elapsed) : Prop where
  dayDate : ∀ days, InRange days → ∃ year month day,
    civilFromDays days = .ok (year, month, day) ∧ civilFromDaysReport days = .ok (year, month, day) ∧
      IsDate year month day ∧ daysFromCivilI64 year month day = .ok days
  dateDay : ∀ year month day days, IsDate year month day → daysFromCivilI64 year month day = .ok days →
    InRange days → civilFromDays days = .ok (year, month, day) ∧ civilFromDaysReport days = .ok (year, month, day)
  written : ∃ answer, currentObservationCutoff (.ok elapsed) = .ok answer
  cutoff : ∀ text, currentObservationCutoff (.ok elapsed) = .ok (.ok text) → ∀ field,
    ∃ t, parseTimestamp field text = .ok t ∧ t.value = elapsed.instant

theorem unchecked_eq_ok {value result : Int} (run : unchecked value = .ok result) : value = result := by
  unfold unchecked at run
  split_ifs at run
  exact Except.ok.inj run

theorem unchecked_bind_ok {α : Type} {next : Int → Except Fault α} {result : α}
    (run : (unchecked value >>= next) = .ok result) : next value = .ok result := by
  obtain ⟨same, passed, run⟩ := bind_eq_ok.mp run
  rw [unchecked_eq_ok passed]
  exact run

theorem daysFromCivilI64_sound {year month day days : Int} (run : daysFromCivilI64 year month day = .ok days) :
    daysFromCivil year month day = days := by
  have yearEq : (if month ≤ 2 then year - 1 else year) = year - if month ≤ 2 then 1 else 0 := by
    split_ifs <;> omega
  unfold daysFromCivilI64 at run
  replace run := unchecked_bind_ok run
  obtain ⟨shifted, era, run⟩ := bind_eq_ok.mp run
  unfold daysFromCivil
  simp only [yearEq]
  generalize year - (if month ≤ 2 then 1 else 0) = civil at *
  have shiftedEq : (if civil ≥ 0 then civil else civil - 399) = shifted := by
    unfold shiftedYearI64 at era
    split_ifs at era ⊢
    · exact Except.ok.inj era
    · exact unchecked_eq_ok era
  rw [shiftedEq]
  iterate 13 replace run := unchecked_bind_ok run
  exact unchecked_eq_ok run

theorem currentObservationCutoff_eq (elapsed : Elapsed) (fits : elapsed.seconds < 2 ^ 63) :
    currentObservationCutoff (.ok elapsed) = .ok (.ok (dateTimeText (civilOf ((elapsed.seconds : Int) / 86400))
      (elapsed.seconds % 86400 / 3600) (elapsed.seconds % 86400 % 3600 / 60) (elapsed.seconds % 86400 % 60)
      ('.' :: zeroPadded 9 elapsed.nanoseconds ++ "Z"))) := by
  have inRange : InRange ((elapsed.seconds : Int) / 86400) := by
    unfold InRange
    omega
  have hours : ((elapsed.seconds : Int) % 86400).tdiv 3600 = ((elapsed.seconds % 86400 / 3600 : Nat) : Int) := by
    rw [Int.tdiv_eq_ediv_of_nonneg (by omega)]
    omega
  have minutes : (((elapsed.seconds : Int) % 86400).tmod 3600).tdiv 60 =
      ((elapsed.seconds % 86400 % 3600 / 60 : Nat) : Int) := by
    rw [Int.tmod_eq_emod_of_nonneg (by omega), Int.tdiv_eq_ediv_of_nonneg (by omega)]
    omega
  have seconds : ((elapsed.seconds : Int) % 86400).tmod 60 = ((elapsed.seconds % 86400 % 60 : Nat) : Int) := by
    rw [Int.tmod_eq_emod_of_nonneg (by omega)]
    omega
  unfold currentObservationCutoff
  simp only [if_pos fits]
  rw [civilFromDays_eq inRange, ok_bind, hours, minutes, seconds]
  rfl

theorem currentObservationCutoff_wide (elapsed : Elapsed) (wide : ¬ elapsed.seconds < 2 ^ 63) :
    currentObservationCutoff (.ok elapsed) = .ok (.error (.invalidData
      "capture recommendation observation time" "out of range integral type conversion attempted")) :=
  if_neg wide

/-- The conversions are inverse for every clock; what is written is read again before the
year 10000, and nothing is written when the seconds do not fit a signed number. -/
theorem calendarRoundTrip_iff (elapsed : Elapsed) : CalendarRoundTrip elapsed ↔
    elapsed.seconds < 253402300800 ∨ 2 ^ 63 ≤ elapsed.seconds := by
  constructor
  · intro trip
    by_contra outside
    obtain ⟨late, fits⟩ := not_or.mp outside
    have written := currentObservationCutoff_eq elapsed (by omega)
    obtain ⟨t, read, -⟩ := trip.cutoff _ written []
    obtain ⟨e, unread⟩ := dateTimeText_unread elapsed.seconds
      (by unfold yearTenThousand; omega) [] ('.' :: zeroPadded 9 elapsed.nanoseconds ++ "Z")
      (elapsed.seconds % 86400 / 3600) (elapsed.seconds % 86400 % 3600 / 60) (elapsed.seconds % 86400 % 60)
    cases read.symm.trans unread
  · intro early
    constructor
    · intro days inRange
      obtain ⟨monthLow, monthHigh, isDate, inverse⟩ := civilOf_isDate days
      refine ⟨(civilOf days).1, (civilOf days).2.1, (civilOf days).2.2, civilFromDays_eq inRange,
        civilFromDaysReport_eq inRange, isDate, ?_⟩
      obtain ⟨length, found, dayLow, dayHigh⟩ := isDate
      have atMost := (daysInMonth_bounds found).2
      have fits : -2 ^ 63 ≤ daysFromCivil (civilOf days).1 (civilOf days).2.1 (civilOf days).2.2 ∧
          daysFromCivil (civilOf days).1 (civilOf days).2.1 (civilOf days).2.2 + 719468 < 2 ^ 63 := by
        rw [inverse]
        exact inRange
      rw [daysFromCivilI64_ok ⟨monthLow, monthHigh⟩ ⟨dayLow, dayHigh.trans atMost⟩ fits.1 fits.2, inverse]
    · intro year month day days isDate run inRange
      have same := daysFromCivilI64_sound run
      obtain ⟨length, found, -⟩ := id isDate
      obtain ⟨⟨first, last⟩, -⟩ := daysInMonth_bounds found
      rw [civilFromDays_eq inRange, civilFromDaysReport_eq inRange, ← same, civilOf_daysFromCivil first last isDate]
      exact ⟨rfl, rfl⟩
    · by_cases fits : elapsed.seconds < 2 ^ 63
      · exact ⟨_, currentObservationCutoff_eq elapsed fits⟩
      · exact ⟨_, currentObservationCutoff_wide elapsed fits⟩
    · intro text written field
      have fits : elapsed.seconds < 2 ^ 63 := by
        by_contra wide
        cases (currentObservationCutoff_wide elapsed wide).symm.trans written
      have positive : zeroPadded 9 (elapsed.nanoseconds : Int) ≠ [] := by
        have length := (zeroPadded_isNumeral 9 elapsed.nanoseconds elapsed.nanosecondsFit (by decide)).1.length
        intro empty
        rw [empty] at length
        cases length
      have isFraction := IsFraction.digits positive
        (zeroPadded_isNumeral 9 elapsed.nanoseconds elapsed.nanosecondsFit (by decide)).1.digits
      obtain ⟨t, spells, timestamp⟩ := spells_dateTimeText elapsed.seconds
        (by unfold yearTenThousand; omega) isFraction
      rw [currentObservationCutoff_eq elapsed fits] at written
      obtain rfl := Except.ok.inj (Except.ok.inj written)
      refine ⟨t.timestamp, parseTimestamp_spells field spells, ?_⟩
      rw [timestamp, Timestamp.value, fraction_zeroPadded elapsed.nanosecondsFit (by decide)]
      rfl

namespace Sample

def tenThousand : Elapsed := ⟨253402300800, 0, by decide, by decide⟩

/-- The first cutoff that is written with five digits is refused when it is read. -/
theorem cutoff_unread_tenThousand :
    currentObservationCutoff (.ok tenThousand) = .ok (.ok "10000-01-01T00:00:00.000000000Z") ∧
      parseTimestamp "recommendation cutoff" "10000-01-01T00:00:00.000000000Z" =
        .error (invalidTimestamp "recommendation cutoff" "10000-01-01T00:00:00.000000000Z") ∧
      ¬ CalendarRoundTrip tenThousand := by
  have written : currentObservationCutoff (.ok tenThousand) =
      .ok (.ok "10000-01-01T00:00:00.000000000Z") := by decide +kernel
  have unread := parseTimestamp_fiveDigits "10000" "-01-01T00:00:00.000000000Z"
    (by decide) (by decide) "recommendation cutoff"
  refine ⟨written, unread, fun trip => ?_⟩
  obtain ⟨t, read, -⟩ := trip.cutoff _ written "recommendation cutoff"
  cases read.symm.trans unread

end Sample

end OrbitGraph.History
