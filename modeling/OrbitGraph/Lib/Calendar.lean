import Mathlib.Tactic.IntervalCases
import Mathlib.Tactic.Linarith
import Mathlib.Tactic.Ring

/-!
The proleptic Gregorian calendar, day by day.

Days are counted from the first of January of the year 0. The count is by recursion over
the years and the months, so that it says nothing but how long each of them is; its
closed form is a theorem.
-/

namespace Lib.Calendar

/-- Years with a 29th of February. -/
def IsLeap (year : Nat) : Prop := 4 ∣ year ∧ (¬ 100 ∣ year ∨ 400 ∣ year)

instance (year : Nat) : Decidable (IsLeap year) := inferInstanceAs (Decidable (_ ∧ _))

def yearLength (year : Nat) : Nat := if IsLeap year then 366 else 365

/-- The days of a month; there are none in a month that is not one to twelve. -/
def monthLength (year month : Nat) : Nat :=
  if month = 2 then if IsLeap year then 29 else 28
  else if month = 4 ∨ month = 6 ∨ month = 9 ∨ month = 11 then 30
  else if 1 ≤ month ∧ month ≤ 12 then 31
  else 0

def daysBeforeYear : Nat → Nat
  | 0 => 0
  | year + 1 => daysBeforeYear year + yearLength year

def daysBeforeMonth (year : Nat) : Nat → Nat
  | 0 => 0
  | month + 1 => daysBeforeMonth year month + monthLength year month

/-- How many days lie before a date. -/
def dayNumber (year month day : Nat) : Nat := daysBeforeYear year + daysBeforeMonth year month + (day - 1)

/-- A leap year each four years, without those that end a century, with those that end four centuries. -/
theorem daysBeforeYear_eq (year : Nat) :
    daysBeforeYear year + (year + 99) / 100 = 365 * year + (year + 3) / 4 + (year + 399) / 400 := by
  induction year with
  | zero => rfl
  | succ year ih =>
    rw [daysBeforeYear, yearLength]
    split_ifs with leap
    · unfold IsLeap at leap
      omega
    · unfold IsLeap at leap
      omega

theorem daysBeforeMonth_eq (year : Nat) {month : Nat} (first : 3 ≤ month) (last : month ≤ 12) :
    daysBeforeMonth year month = 31 + monthLength year 2 + (153 * (month - 3) + 2) / 5 := by
  interval_cases month <;> simp [daysBeforeMonth, monthLength]

theorem monthLength_february (year : Nat) : monthLength year 2 + 337 = yearLength year := by
  by_cases leap : IsLeap year <;> simp [monthLength, yearLength, leap]

theorem monthLength_le (year month : Nat) : monthLength year month ≤ 31 := by
  unfold monthLength
  split_ifs <;> omega

theorem daysBeforeMonth_le (year month : Nat) : daysBeforeMonth year month ≤ 31 * month := by
  induction month with
  | zero => exact Nat.zero_le _
  | succ month ih =>
    have length := monthLength_le year month
    rw [daysBeforeMonth]
    omega

theorem daysBeforeYear_le (year : Nat) : daysBeforeYear year ≤ 366 * year := by
  induction year with
  | zero => exact Nat.zero_le _
  | succ year ih =>
    rw [daysBeforeYear, yearLength]
    split_ifs <;> omega

/-! ### Years that begin in March

An era is 400 years that begin in March, so that a leap day is the last day of its year.
Years and months of an era are counted from 0, and March is month 0.
-/

def yearOfEra (day : Int) : Int := (day - day / 1460 + day / 36524 - day / 146096) / 365

def daysBeforeYearOfEra (year : Int) : Int := 365 * year + year / 4 - year / 100

def daysBeforeMarchMonth (month : Int) : Int := (153 * month + 2) / 5

def IsLongMarchYear (year : Int) : Prop :=
  (year + 1) % 4 = 0 ∧ ((year + 1) % 100 ≠ 0 ∨ (year + 1) % 400 = 0)

instance (year : Int) : Decidable (IsLongMarchYear year) := inferInstanceAs (Decidable (_ ∧ _))

def IsMarchDay (year day : Int) : Prop := 0 ≤ day ∧ (day < 365 ∨ day = 365 ∧ IsLongMarchYear year)

theorem centuries_eq {century : Int} (day : Int) (first : 0 ≤ century) (last : century ≤ 3) (low : 0 ≤ day)
    (high : day < 36524 ∨ day = 36524 ∧ century = 3) :
    (36524 * century + day) / 36524 - (36524 * century + day) / 146096 = century := by
  rcases high with short | ⟨rfl, rfl⟩
  · omega
  · decide

theorem early_leapDay (extra : Int) {rest day : Int} (extraLow : 0 ≤ extra) (extraHigh : extra ≤ 96) (first : 0 ≤ rest)
    (last : rest ≤ 3) (low : 0 ≤ day) (high : day < 365 ∨ day = 365 ∧ rest = 3) :
    0 ≤ day - (extra + 365 * rest + day) / 1460 ∧ day - (extra + 365 * rest + day) / 1460 < 365 := by
  interval_cases rest <;> omega

theorem daysBeforeYearOfEra_eq {century olympiad rest : Int} (olympiadLow : 0 ≤ olympiad)
    (olympiadHigh : olympiad ≤ 24) (restLow : 0 ≤ rest) (restHigh : rest ≤ 3) :
    daysBeforeYearOfEra (100 * century + 4 * olympiad + rest) = 36524 * century + (1461 * olympiad + 365 * rest) := by
  unfold daysBeforeYearOfEra
  omega

theorem yearOfEra_eq {year day : Int} (first : 0 ≤ year) (last : year < 400) (isDay : IsMarchDay year day) :
    yearOfEra (daysBeforeYearOfEra year + day) = year := by
  obtain ⟨low, high⟩ := isDay
  unfold IsLongMarchYear at high
  obtain ⟨century, olympiad, rest, centuryLow, centuryHigh, olympiadLow, olympiadHigh, restLow, restHigh, rfl⟩ :
      ∃ c q r : Int, 0 ≤ c ∧ c ≤ 3 ∧ 0 ≤ q ∧ q ≤ 24 ∧ 0 ≤ r ∧ r ≤ 3 ∧ year = 100 * c + 4 * q + r :=
    ⟨year / 100, year % 100 / 4, year % 4, by omega, by omega, by omega, by omega, by omega, by omega, by omega⟩
  have long : day < 365 ∨ day = 365 ∧ rest = 3 ∧ (olympiad = 24 → century = 3) := by omega
  clear high first last
  have centuries := centuries_eq (1461 * olympiad + 365 * rest + day) centuryLow centuryHigh
    (by omega) (by omega)
  have early := early_leapDay (24 * century + olympiad) (by omega) (by omega) restLow restHigh low
    (long.imp_right fun h => ⟨h.1, h.2.1⟩)
  have olympiads : (36524 * century + (1461 * olympiad + 365 * rest + day)) / 1460 =
      (24 * century + olympiad + 365 * rest + day) / 1460 + (25 * century + olympiad) := by
    rw [← Int.add_mul_ediv_left _ _ (by decide : (1460 : Int) ≠ 0)]
    congr 1
    ring
  rw [daysBeforeYearOfEra_eq olympiadLow olympiadHigh restLow restHigh, add_assoc, yearOfEra, olympiads]
  generalize (24 * century + olympiad + 365 * rest + day) / 1460 = late at early
  rw [Int.ediv_eq_iff_of_pos (by decide)]
  clear olympiads long
  constructor <;> linarith [early.1, early.2]

theorem exists_yearOfEra (dayOfEra : Int) (low : 0 ≤ dayOfEra) (high : dayOfEra < 146097) :
    ∃ year day, 0 ≤ year ∧ year < 400 ∧ IsMarchDay year day ∧ dayOfEra = daysBeforeYearOfEra year + day := by
  obtain ⟨century, inCentury, centuryLow, centuryHigh, dayLow, dayHigh, rfl⟩ :
      ∃ c d : Int, 0 ≤ c ∧ c ≤ 3 ∧ 0 ≤ d ∧ (d < 36524 ∨ d = 36524 ∧ c = 3) ∧ dayOfEra = 36524 * c + d :=
    ⟨min (dayOfEra / 36524) 3, dayOfEra - 36524 * min (dayOfEra / 36524) 3, by omega, by omega, by omega, by omega,
      by omega⟩
  clear low high
  obtain ⟨olympiad, inOlympiad, olympiadLow, olympiadHigh, dayLow', dayHigh', last, rfl⟩ :
      ∃ q d : Int, 0 ≤ q ∧ q ≤ 24 ∧ 0 ≤ d ∧ d ≤ 1460 ∧ (q = 24 → d = 1460 → century = 3) ∧
        inCentury = 1461 * q + d :=
    ⟨inCentury / 1461, inCentury % 1461, by omega, by omega, by omega, by omega, by omega, by omega⟩
  obtain ⟨rest, day, restLow, restHigh, dayLow'', dayHigh'', rfl⟩ :
      ∃ r d : Int, 0 ≤ r ∧ r ≤ 3 ∧ 0 ≤ d ∧ (d < 365 ∨ d = 365 ∧ r = 3) ∧ inOlympiad = 365 * r + d :=
    ⟨min (inOlympiad / 365) 3, inOlympiad - 365 * min (inOlympiad / 365) 3, by omega, by omega, by omega, by omega,
      by omega⟩
  refine ⟨100 * century + 4 * olympiad + rest, day, by omega, by omega, ⟨dayLow'', ?_⟩, ?_⟩
  · rcases dayHigh'' with short | ⟨rfl, rfl⟩
    · exact .inl short
    · right
      unfold IsLongMarchYear
      omega
  · rw [daysBeforeYearOfEra_eq olympiadLow olympiadHigh restLow restHigh]
    ring

theorem marchMonth_eq {month : Int} (day : Int) (first : 0 ≤ month) (last : month ≤ 11)
    (low : daysBeforeMarchMonth month ≤ day) (high : day < daysBeforeMarchMonth (month + 1)) :
    (5 * day + 2) / 153 = month := by
  unfold daysBeforeMarchMonth at low high
  interval_cases month <;> omega

theorem marchMonth_bounds {year day : Int} (isDay : IsMarchDay year day) :
    0 ≤ (5 * day + 2) / 153 ∧ (5 * day + 2) / 153 ≤ 11 ∧ daysBeforeMarchMonth ((5 * day + 2) / 153) ≤ day ∧
      day < daysBeforeMarchMonth ((5 * day + 2) / 153 + 1) := by
  obtain ⟨low, high⟩ := isDay
  have atMost : day ≤ 365 := by omega
  clear high
  unfold daysBeforeMarchMonth
  omega

end Lib.Calendar
