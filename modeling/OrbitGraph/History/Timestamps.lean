import OrbitGraph.CodeIndex.Names
import OrbitGraph.History.Validation
import OrbitGraph.Lib.Calendar
import OrbitGraph.Lib.Decimals

/-!
The order of timestamps, and the arithmetic that they are read with.

A timestamp is seconds since 1970 and the digits of a fraction, and its order is that of
the number that these stand for. The reading is written a second time here with every
operation of 64 bits, to see that none overflows.
-/

namespace OrbitGraph.History

open Lib Lib.Calendar

/-! ### The order of timestamps -/

/-- `Ord::cmp`; the shorter fraction is filled with zeros. -/
def Timestamp.cmp (a b : Timestamp) : Ordering :=
  let width := max a.fraction.length b.fraction.length
  let padded (fraction : List Char) := (List.range width).map fun index => fraction[index]?.getD '0'
  (compareOfLessAndEq a.seconds b.seconds).then
    ((padded a.fraction).compareLex Decimals.byNumber (padded b.fraction))

def Timestamp.value (t : Timestamp) : ℚ := t.seconds + Decimals.fraction t.fraction

/-- Fractions are kept as digits without final zeros. -/
structure Timestamp.Normal (t : Timestamp) : Prop where
  digits : t.fraction.all Char.isDigit = true
  stripped : t.fraction.getLast? ≠ some '0'

theorem padded_eq (fraction : List Char) {width : Nat} (fits : fraction.length ≤ width) :
    ((List.range width).map fun index => fraction[index]?.getD '0') =
      fraction ++ List.replicate (width - fraction.length) '0' := by
  refine List.ext_getElem (by simp; omega) fun index left right => ?_
  rw [List.getElem_map, List.getElem_range, List.getElem_append]
  split_ifs with within
  · rw [List.getElem?_eq_getElem within, Option.getD_some]
  · rw [List.getElem?_eq_none (Nat.not_lt.mp within), Option.getD_none, List.getElem_replicate]

theorem all_append_zeros {fraction : List Char} (digits : fraction.all Char.isDigit = true) (n : Nat) :
    (fraction ++ List.replicate n '0').all Char.isDigit = true := by
  rw [List.all_append, digits, Bool.true_and, List.all_replicate]
  split_ifs <;> rfl

/-- The order of timestamps is that of what they stand for. -/
theorem Timestamp.cmp_compares {s t : Timestamp} (left : s.Normal) (right : t.Normal) :
    (s.cmp t).Compares s.value t.value := by
  have lengths : ∀ width, s.fraction.length ≤ width → t.fraction.length ≤ width →
      (s.fraction ++ List.replicate (width - s.fraction.length) '0').length =
        (t.fraction ++ List.replicate (width - t.fraction.length) '0').length := by
    intro width _ _
    simp only [List.length_append, List.length_replicate]
    omega
  have fractions := Decimals.compareLex_compares
    (lengths _ (Nat.le_max_left s.fraction.length t.fraction.length) (Nat.le_max_right _ _))
    (all_append_zeros left.digits _) (all_append_zeros right.digits _)
  rw [Decimals.fraction_append_zeros, Decimals.fraction_append_zeros] at fractions
  obtain ⟨nonneg, below⟩ := Decimals.fraction_bounds left.digits
  obtain ⟨nonneg', below'⟩ := Decimals.fraction_bounds right.digits
  simp only [Timestamp.cmp, padded_eq _ (Nat.le_max_left s.fraction.length t.fraction.length),
    padded_eq _ (Nat.le_max_right s.fraction.length t.fraction.length), Timestamp.value]
  rcases Int.lt_trichotomy s.seconds t.seconds with less | equal | greater
  · have step : (s.seconds : ℚ) + 1 ≤ t.seconds := by exact_mod_cast less
    rw [compareOfLessAndEq, if_pos less]
    change _ < _
    linarith
  · rw [compareOfLessAndEq, if_neg (by omega), if_pos equal, equal, Ordering.eq_then]
    generalize List.compareLex _ _ _ = order at fractions
    cases order with
    | lt | gt => exact Rat.add_lt_add_left.mpr fractions
    | eq => exact congrArg _ fractions
  · have step : (t.seconds : ℚ) + 1 ≤ s.seconds := by exact_mod_cast greater
    rw [compareOfLessAndEq, if_neg (by omega), if_neg (by omega)]
    change _ > _
    linarith

theorem Timestamp.eq_iff_cmp {s t : Timestamp} (left : s.Normal) (right : t.Normal) : s = t ↔ s.cmp t = .eq := by
  constructor
  · rintro rfl
    exact (Timestamp.cmp_compares left left).eq_eq.mpr rfl
  · intro order
    simp only [Timestamp.cmp, padded_eq _ (Nat.le_max_left s.fraction.length t.fraction.length),
      padded_eq _ (Nat.le_max_right s.fraction.length t.fraction.length), Ordering.then_eq_eq] at order
    obtain ⟨seconds, digits⟩ := order
    have sameSeconds : s.seconds = t.seconds := by
      unfold compareOfLessAndEq at seconds
      split_ifs at seconds with less equal
      exact equal
    have sameDigits := congrArg Decimals.strip (Std.LawfulEqCmp.eq_of_compare digits)
    rw [Decimals.strip_append_zeros left.stripped, Decimals.strip_append_zeros right.stripped] at sameDigits
    obtain ⟨_, _⟩ := s
    obtain ⟨_, _⟩ := t
    exact congrArg₂ Timestamp.mk sameSeconds sameDigits

/-! ### Days -/

/-- How many days a date lies after the first of January 1970. -/
def sinceEpoch (year month day : Nat) : Int := dayNumber year month day - dayNumber 1970 1 1

theorem period_days (year : Int) :
    year / 400 * 146097 + ((year - year / 400 * 400) * 365 + (year - year / 400 * 400) / 4 -
      (year - year / 400 * 400) / 100) = 365 * year + year / 4 - year / 100 + year / 400 := by
  have fours : (year - year / 400 * 400) / 4 = year / 4 - year / 400 * 100 := by omega
  have centuries : (year - year / 400 * 400) / 100 = year / 100 - year / 400 * 4 := by omega
  rw [fours, centuries]
  omega

theorem era_eq (year : Int) : (if year ≥ 0 then year else year - 399).tdiv 400 = year / 400 := by
  split_ifs with sign
  · exact Int.tdiv_eq_ediv_of_nonneg sign
  · rw [← Int.neg_neg (year - 399), Int.neg_tdiv, Int.tdiv_eq_ediv_of_nonneg (by omega)]
    omega

theorem daysFromCivil_floor (year day : Int) {month : Int} (first : 1 ≤ month) (last : month ≤ 12) :
    daysFromCivil year month day =
      (year - if month ≤ 2 then 1 else 0) / 400 * 146097 +
        (daysBeforeYearOfEra ((year - if month ≤ 2 then 1 else 0) % 400) +
          (daysBeforeMarchMonth (month + if month > 2 then -3 else 9) + day - 1)) - 719468 := by
  have yearEq : (if month ≤ 2 then year - 1 else year) = year - if month ≤ 2 then 1 else 0 := by
    split_ifs <;> omega
  unfold daysFromCivil daysBeforeYearOfEra daysBeforeMarchMonth
  simp only [yearEq]
  generalize year - (if month ≤ 2 then 1 else 0) = shifted
  have inEra : shifted - shifted / 400 * 400 = shifted % 400 := by omega
  have inEraLow : 0 ≤ shifted % 400 := by omega
  rw [era_eq, inEra, Int.tdiv_eq_ediv_of_nonneg inEraLow, Int.tdiv_eq_ediv_of_nonneg inEraLow,
    Int.tdiv_eq_ediv_of_nonneg (by split_ifs <;> omega)]
  omega

theorem daysFromCivil_eq (year : Nat) {month day : Nat} (first : 1 ≤ month) (last : month ≤ 12) (positive : 1 ≤ day) :
    daysFromCivil year month day = sinceEpoch year month day := by
  have epoch : dayNumber 1970 1 1 = 719528 := by
    have years := daysBeforeYear_eq 1970
    have january : daysBeforeMonth 1970 1 = 0 := rfl
    rw [dayNumber, january]
    omega
  unfold sinceEpoch daysFromCivil
  rw [epoch, dayNumber]
  by_cases early : month ≤ 2
  · -- The source begins its years in March: these months are the last of the year before.
    have months : daysBeforeMonth year month = 31 * (month - 1) := by
      interval_cases month <;> rfl
    have years := daysBeforeYear_eq year
    have period := period_days (year - 1)
    have before : (month : Int) ≤ 2 := by omega
    simp only [before, if_pos, show ¬ ((month : Int) > 2) from by omega, if_neg, not_false_eq_true, era_eq]
    rw [Int.tdiv_eq_ediv_of_nonneg (by omega), Int.tdiv_eq_ediv_of_nonneg (by omega),
      Int.tdiv_eq_ediv_of_nonneg (by omega), months]
    omega
  · have months := daysBeforeMonth_eq year (Nat.lt_of_not_le early) last
    have years := daysBeforeYear_eq (year + 1)
    have february := monthLength_february year
    have period := period_days year
    rw [daysBeforeYear] at years
    simp only [show ¬ ((month : Int) ≤ 2) from by omega, if_neg, show (month : Int) > 2 from by omega, if_pos,
      not_false_eq_true, show (year : Int) ≥ 0 from by omega]
    rw [Int.tdiv_eq_ediv_of_nonneg (by omega), Int.tdiv_eq_ediv_of_nonneg (by omega),
      Int.tdiv_eq_ediv_of_nonneg (by omega), Int.tdiv_eq_ediv_of_nonneg (by omega), months]
    omega

/-! ### The arithmetic of 64 bits -/

/-- Why a string yields no timestamp: it is refused, or an operation overflows that the source does not check. -/
inductive Fault where
  | refused
  | overflow
  deriving DecidableEq

/-- The `?` operator in `parse_rfc3339`. -/
def orRefused {α : Type} : Option α → Except Fault α
  | some a => .ok a
  | none => .error .refused

/-- An `i64` operation without a check. -/
def unchecked (value : Int) : Except Fault Int :=
  if -2 ^ 63 ≤ value ∧ value < 2 ^ 63 then .ok value else .error .overflow

/-- The year that the era is computed from. -/
def shiftedYearI64 (year : Int) : Except Fault Int := if year ≥ 0 then .ok year else unchecked (year - 399)

/-- `days_from_civil`, one operation after the other. A division by a positive number cannot overflow. -/
def daysFromCivilI64 (year month day : Int) : Except Fault Int := do
  let year ← unchecked (year - if month ≤ 2 then 1 else 0)
  let shifted ← shiftedYearI64 year
  let era := shifted.tdiv 400
  let eraYears ← unchecked (era * 400)
  let yoe ← unchecked (year - eraYears)
  let adjustedMonth ← unchecked (month + if month > 2 then -3 else 9)
  let scaled ← unchecked (153 * adjustedMonth)
  let rounded ← unchecked (scaled + 2)
  let through ← unchecked (rounded.tdiv 5 + day)
  let doy ← unchecked (through - 1)
  let common ← unchecked (yoe * 365)
  let withLeaps ← unchecked (common + yoe.tdiv 4)
  let withoutCenturies ← unchecked (withLeaps - yoe.tdiv 100)
  let doe ← unchecked (withoutCenturies + doy)
  let eraDays ← unchecked (era * 146097)
  let days ← unchecked (eraDays + doe)
  unchecked (days - 719468)

/-- The offset that ends a timestamp, one operation after the other. -/
def parseOffsetI64 : List Char → Except Fault Int
  | ['Z'] => .ok 0
  | ['z'] => .ok 0
  | [sign, h₁, h₂, ':', m₁, m₂] =>
    if sign = '+' ∨ sign = '-' then do
      let offsetHour ← orRefused (number [h₁, h₂])
      let offsetMinute ← orRefused (number [m₁, m₂])
      if offsetHour > 23 ∨ offsetMinute > 59 then .error .refused
      else do
        let hours ← orRefused (checked (offsetHour * 3600))
        let minutes ← unchecked (offsetMinute * 60)
        let value ← orRefused (checked (hours + minutes))
        if sign = '+' then .ok value else unchecked (-value)
    else .error .refused
  | _ => .error .refused

/-- `parse_rfc3339`, one operation after the other. -/
def parseRfc3339I64 (timestamp : Text) : Except Fault Timestamp := do
  if ¬ 20 ≤ timestamp.length then .error .refused
  if ¬ (timestamp[4]? = some '-' ∧ timestamp[7]? = some '-' ∧
      (timestamp[10]? = some 'T' ∨ timestamp[10]? = some 't') ∧
      timestamp[13]? = some ':' ∧ timestamp[16]? = some ':') then .error .refused
  let component (start stop : Nat) := orRefused (number ((timestamp.take stop).drop start))
  let year ← component 0 4
  let month ← component 5 7
  let day ← component 8 10
  let hour ← component 11 13
  let minute ← component 14 16
  let second ← component 17 19
  let days ← orRefused (daysInMonth year month)
  if day = 0 ∨ day > days ∨ hour > 23 ∨ minute > 59 ∨ second > 60 then .error .refused
  let (fraction, zone) ← orRefused (parseFraction (timestamp.drop 19))
  let offset ← parseOffsetI64 zone
  let civil ← daysFromCivilI64 year month day
  let midnight ← orRefused (checked (civil * 86400))
  let hourSeconds ← orRefused (checked (hour * 3600))
  let hours ← orRefused (checked (midnight + hourSeconds))
  let minuteSeconds ← orRefused (checked (minute * 60))
  let minutes ← orRefused (checked (hours + minuteSeconds))
  let local' ← orRefused (checked (minutes + second))
  let seconds ← orRefused (checked (local' - offset))
  return { seconds, fraction }

theorem unchecked_ok {value : Int} (bounds : -2 ^ 63 ≤ value ∧ value < 2 ^ 63) : unchecked value = .ok value :=
  if_pos bounds

theorem checked_some {value : Int} (bounds : -2 ^ 63 ≤ value ∧ value < 2 ^ 63) : checked value = some value :=
  if_pos bounds

variable {α : Type}

variable {next : Int → Except Fault α}

theorem unchecked_bind {value : Int} (bounds : -2 ^ 63 ≤ value ∧ value < 2 ^ 63) :
    (unchecked value >>= next) = next value := by
  rw [unchecked_ok bounds]
  rfl

theorem checked_bind {value : Int} (bounds : -2 ^ 63 ≤ value ∧ value < 2 ^ 63) :
    (orRefused (checked value) >>= next) = next value := by
  rw [checked_some bounds]
  rfl

variable {year month day : Int}

/-- Nothing overflows where the day number, and its distance from the first era, fit. -/
theorem daysFromCivilI64_ok (hMonth : 1 ≤ month ∧ month ≤ 12) (hDay : 1 ≤ day ∧ day ≤ 31)
    (low : -2 ^ 63 ≤ daysFromCivil year month day) (high : daysFromCivil year month day + 719468 < 2 ^ 63) :
    daysFromCivilI64 year month day = .ok (daysFromCivil year month day) := by
  have yearEq : (if month ≤ 2 then year - 1 else year) = year - if month ≤ 2 then 1 else 0 := by
    split_ifs <;> omega
  have monthBounds : 0 ≤ month + (if month > 2 then -3 else 9) ∧ month + (if month > 2 then -3 else 9) ≤ 11 := by
    split_ifs <;> omega
  unfold daysFromCivil at low high
  unfold daysFromCivilI64 daysFromCivil
  simp only [yearEq] at low high ⊢
  generalize month + (if month > 2 then -3 else 9) = adjusted at monthBounds low high ⊢
  have yearBounds : year - 1 ≤ year - (if month ≤ 2 then 1 else 0) ∧ year - (if month ≤ 2 then 1 else 0) ≤ year := by
    split_ifs <;> omega
  generalize year - (if month ≤ 2 then 1 else 0) = civil at yearBounds low high ⊢
  have yoe : 0 ≤ civil - civil / 400 * 400 ∧ civil - civil / 400 * 400 < 400 := by omega
  rw [era_eq] at low high
  have era : civil = civil / 400 * 400 + (civil - civil / 400 * 400) := by omega
  have shifted : civil - 399 ≥ -2 ^ 63 → civil < 2 ^ 63 →
      shiftedYearI64 civil = .ok (if civil ≥ 0 then civil else civil - 399) := by
    intro below above
    unfold shiftedYearI64
    split_ifs
    · rfl
    · exact unchecked_ok ⟨below, by omega⟩
  have rest : Except.ok (ε := Fault) (if civil ≥ 0 then civil else civil - 399) = pure _ := rfl
  rw [Int.tdiv_eq_ediv_of_nonneg (a := 153 * adjusted + 2) (by omega),
    Int.tdiv_eq_ediv_of_nonneg yoe.1, Int.tdiv_eq_ediv_of_nonneg yoe.1] at low high
  have days : 0 ≤ (153 * adjusted + 2) / 5 + day - 1 ∧ (153 * adjusted + 2) / 5 + day - 1 ≤ 400 := by omega
  have eraBounds : -63132000000000 ≤ civil / 400 ∧ civil / 400 ≤ 63132000000000 := by
    generalize civil - civil / 400 * 400 = inEra at yoe low high
    omega
  rw [unchecked_bind (by omega), shifted (by omega) (by omega), rest, pure_bind, era_eq]
  rw [unchecked_bind (by omega), unchecked_bind (by omega)]
  clear shifted rest era
  generalize civil - civil / 400 * 400 = inEra at yoe low high ⊢
  rw [unchecked_bind (by omega), unchecked_bind (by omega),
    unchecked_bind (by omega), Int.tdiv_eq_ediv_of_nonneg (a := 153 * adjusted + 2) (by omega),
    Int.tdiv_eq_ediv_of_nonneg (a := inEra) (by omega), Int.tdiv_eq_ediv_of_nonneg (a := inEra) (by omega)]
  -- What is left are the additions: none comes near the bounds but the last.
  iterate 8 rw [unchecked_bind (by omega)]
  exact unchecked_ok (by omega)

theorem daysFromCivilI64_eq (hYear : 0 ≤ year ∧ year ≤ 9999) (hMonth : 1 ≤ month ∧ month ≤ 12)
    (hDay : 1 ≤ day ∧ day ≤ 31) : daysFromCivilI64 year month day = .ok (daysFromCivil year month day) := by
  have floor := daysFromCivil_floor year day hMonth.1 hMonth.2
  unfold daysBeforeYearOfEra daysBeforeMarchMonth at floor
  have monthBounds : 0 ≤ month + (if month > 2 then -3 else 9) ∧ month + (if month > 2 then -3 else 9) ≤ 11 := by
    split_ifs <;> omega
  have yearBounds : -1 ≤ year - (if month ≤ 2 then 1 else 0) ∧ year - (if month ≤ 2 then 1 else 0) ≤ 9999 := by
    split_ifs <;> omega
  generalize month + (if month > 2 then -3 else 9) = adjusted at monthBounds floor
  generalize year - (if month ≤ 2 then 1 else 0) = civil at yearBounds floor
  exact daysFromCivilI64_ok hMonth hDay (by omega) (by omega)

/-! ### Numerals -/

def numeralValue (digits : Text) : Nat := Nat.ofDigitChars 10 digits 0

structure IsNumeral (width : Nat) (digits : Text) : Prop where
  length : digits.length = width
  digits : digits.all Char.isDigit = true

theorem foldl_digits (digits : Text) (start : Nat) :
    digits.foldl (fun (n : Int) c => n * 10 + (c.toNat - '0'.toNat : Nat)) start = Nat.ofDigitChars 10 digits start := by
  induction digits generalizing start with
  | nil => rfl
  | cons c rest ih =>
    rw [List.foldl_cons, Nat.ofDigitChars_cons, ← ih]
    push_cast
    rw [Int.mul_comm]

variable {digits : Text}

theorem ofDigitChars_lt (isDigits : digits.all Char.isDigit = true) (start : Nat) :
    Nat.ofDigitChars 10 digits start < (start + 1) * 10 ^ digits.length := by
  induction digits generalizing start with
  | nil => simp
  | cons c rest ih =>
    rw [List.all_cons, Bool.and_eq_true] at isDigits
    have bounds := Decimals.digit_bounds isDigits.1
    have later := ih isDigits.2 (10 * start + (c.toNat - '0'.toNat))
    have atMost : 10 * start + (c.toNat - '0'.toNat) + 1 ≤ (start + 1) * 10 := by omega
    rw [Nat.ofDigitChars_cons, List.length_cons, Nat.pow_succ', ← Nat.mul_assoc]
    exact lt_of_lt_of_le later (Nat.mul_le_mul_right _ atMost)

theorem number_eq_some {value : Int} : number digits = some value ↔
      digits ≠ [] ∧ digits.all Char.isDigit = true ∧ numeralValue digits = value ∧ value < 2 ^ 63 := by
  unfold number
  rw [← Int.natCast_zero, foldl_digits]
  unfold checked
  change _ ↔ _ ∧ _ ∧ ((Nat.ofDigitChars 10 digits 0 : Nat) : Int) = value ∧ _
  split_ifs with valid bounds
  · rw [Option.some_inj]
    constructor
    · rintro rfl
      exact ⟨valid.1, valid.2, rfl, bounds.2⟩
    · exact fun h => h.2.2.1
  · simp only [false_iff]
    rintro ⟨-, -, rfl, small⟩
    exact bounds ⟨by omega, small⟩
  · simp only [false_iff]
    exact fun h => valid ⟨h.1, h.2.1⟩

theorem number_of_numeral {width : Nat} (numeral : IsNumeral width digits) (positive : 0 < width)
    (short : width ≤ 4) : number digits = some ↑(numeralValue digits) := by
  refine number_eq_some.mpr ⟨?_, numeral.digits, rfl, ?_⟩
  · rintro rfl
    exact absurd numeral.length (by simp only [List.length_nil]; omega)
  · have small := ofDigitChars_lt numeral.digits 0
    have power : 10 ^ digits.length ≤ 10 ^ 4 := Nat.pow_le_pow_right (by omega) (numeral.length ▸ short)
    unfold numeralValue
    omega

theorem numeral_of_number {value : Int} (read : number digits = some value) :
    IsNumeral digits.length digits ∧ ↑(numeralValue digits) = value ∧ 0 ≤ value ∧ value < 10 ^ digits.length := by
  obtain ⟨-, isDigits, rfl, -⟩ := number_eq_some.mp read
  have small := ofDigitChars_lt isDigits 0
  refine ⟨⟨rfl, isDigits⟩, rfl, Int.natCast_nonneg _, ?_⟩
  rw [Nat.zero_add, Nat.one_mul] at small
  exact_mod_cast small

/-! ### Nothing overflows -/

theorem orRefused_bind {α β : Type} {o : Option α} {f : α → Except Fault β} {g : α → Option β}
    (same : ∀ a, o = some a → f a = orRefused (g a)) : (orRefused o >>= f) = orRefused (o >>= g) := by
  cases o with
  | none => rfl
  | some a => exact same a rfl

variable {f : Except Fault α} {g : Option α} {p : Prop}

theorem orRefused_ite [Decidable p]
    (same : p → f = orRefused g) :
    (if ¬ p then .error .refused else f) = orRefused (do guard p; g) := by
  by_cases holds : p
  · rw [if_neg (not_not.mpr holds), same holds]
    simp [guard, holds]
  · rw [if_pos holds]
    simp [guard, holds, orRefused]

theorem orRefused_unless [Decidable p]
    (same : ¬ p → f = orRefused g) :
    (if p then .error .refused else f) = orRefused (do guard ¬ p; g) := by
  by_cases holds : p
  · rw [if_pos holds]
    simp [guard, holds, orRefused]
  · rw [if_neg holds, same holds]
    simp [guard, holds]

theorem parseOffsetI64_eq (zone : List Char) : parseOffsetI64 zone = orRefused (parseOffset zone) := by
  unfold parseOffsetI64
  split
  · rfl
  · rfl
  next sign h₁ h₂ m₁ m₂ =>
    rw [parseOffset]
    by_cases isSign : sign = '+' ∨ sign = '-'
    · rw [if_pos isSign, if_pos isSign]
      refine orRefused_bind fun hour readHour => orRefused_bind fun minute readMinute => ?_
      obtain ⟨-, -, hourLow, hourHigh⟩ := numeral_of_number readHour
      obtain ⟨-, -, minuteLow, minuteHigh⟩ := numeral_of_number readMinute
      simp only [List.length_cons, List.length_nil] at hourHigh minuteHigh
      by_cases outside : hour > 23 ∨ minute > 59
      · rw [if_pos outside, if_pos outside]
        rfl
      · rw [if_neg outside, if_neg outside, checked_some (by omega), orRefused,
          unchecked_ok (by omega)]
        change (do
          let value ← orRefused (checked (hour * 3600 + minute * 60))
          if sign = '+' then .ok value else unchecked (-value)) = _
        rw [checked_some (by omega)]
        change (if sign = '+' then .ok (hour * 3600 + minute * 60) else unchecked (-(hour * 3600 + minute * 60))) =
          orRefused (some (if sign = '+' then hour * 3600 + minute * 60 else -(hour * 3600 + minute * 60)))
        by_cases plus : sign = '+'
        · rw [if_pos plus, if_pos plus]
          rfl
        · rw [if_neg plus, if_neg plus]
          exact unchecked_ok (by omega)
    · rw [if_neg isSign, if_neg isSign]
      rfl
  next notUtc notLower other =>
    rw [parseOffset]
    · rfl
    · exact notUtc
    · exact notLower
    · exact other

/-- The bounds that the checks of `parse_rfc3339` put on the parts. -/
theorem daysInMonth_bounds {year month days : Int} (length : daysInMonth year month = some days) :
    (1 ≤ month ∧ month ≤ 12) ∧ days ≤ 31 := by
  unfold daysInMonth at length
  dsimp only at length
  simp only [List.mem_cons, List.not_mem_nil, or_false] at length
  split_ifs at length <;> cases length <;> omega

/-- Every string is read without an overflow: with machine arithmetic the outcome is the same. -/
theorem parseRfc3339I64_eq (timestamp : Text) : parseRfc3339I64 timestamp = orRefused (parseRfc3339 timestamp) := by
  unfold parseRfc3339I64 parseRfc3339
  refine orRefused_ite fun _ => orRefused_ite fun _ => ?_
  refine orRefused_bind fun year readYear => orRefused_bind fun month _ => orRefused_bind fun day readDay => ?_
  refine orRefused_bind fun hour readHour => orRefused_bind fun minute readMinute => ?_
  refine orRefused_bind fun second readSecond => orRefused_bind fun days length => ?_
  refine orRefused_unless fun inside => orRefused_bind ?_
  rintro ⟨fraction, zone⟩ -
  obtain ⟨-, -, yearLow, yearHigh⟩ := numeral_of_number readYear
  obtain ⟨-, -, dayLow, -⟩ := numeral_of_number readDay
  obtain ⟨-, -, hourLow, -⟩ := numeral_of_number readHour
  obtain ⟨-, -, minuteLow, -⟩ := numeral_of_number readMinute
  obtain ⟨-, -, secondLow, -⟩ := numeral_of_number readSecond
  obtain ⟨months, atMost⟩ := daysInMonth_bounds length
  have width : ((timestamp.take 4).drop 0).length ≤ 4 := by
    simp only [List.drop_zero, List.length_take]
    omega
  have yearBound : year ≤ 9999 := by
    have power : (10 : Int) ^ ((timestamp.take 4).drop 0).length ≤ 10 ^ 4 := pow_le_pow_right₀ (by omega) width
    omega
  have dayBounds : 1 ≤ day ∧ day ≤ 31 := by omega
  have civil := daysFromCivilI64_eq ⟨yearLow, yearBound⟩ months dayBounds
  dsimp only
  rw [parseOffsetI64_eq]
  refine orRefused_bind fun offset _ => ?_
  rw [civil]
  refine orRefused_bind fun midnight _ => ?_
  rw [checked_bind (by omega)]
  refine orRefused_bind fun hours _ => ?_
  rw [checked_bind (by omega)]
  exact orRefused_bind fun minutes _ => orRefused_bind fun local' _ => orRefused_bind fun seconds _ => rfl

/-- `parse_timestamp`, one operation after the other. -/
def parseTimestampI64 (timestamp : Text) : Except Fault Timestamp :=
  match Text.stripPrefix "unix:" timestamp with
  | some seconds =>
    match parseI64 seconds with
    | some value => if seconds = signedDecimal value then .ok { seconds := value, fraction := [] } else .error .refused
    | none => .error .refused
  | none => parseRfc3339I64 timestamp

theorem parseTimestampI64_eq (field timestamp : Text) :
    parseTimestampI64 timestamp = orRefused (parseTimestamp field timestamp).toOption := by
  unfold parseTimestampI64 parseTimestamp
  cases Text.stripPrefix "unix:" timestamp with
  | some seconds =>
    dsimp only
    cases parseI64 seconds with
    | some value =>
      dsimp only
      split_ifs <;> rfl
    | none => rfl
  | none =>
    rw [parseRfc3339I64_eq]
    cases parseRfc3339 timestamp <;> rfl

end OrbitGraph.History
