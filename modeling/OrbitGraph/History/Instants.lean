import OrbitGraph.History.Timestamps

/-!
Timestamps as instants.

What a string means is defined apart from how it is read: the grammar of RFC 3339, days
counted in the calendar, and a minute with a second in it, so that a leap second has a
place of its own. What is read is in the order of what is meant.
-/

namespace OrbitGraph.History

open Lib Lib.Calendar

/-! ### What a string means -/

/-- The parts of a timestamp of RFC 3339: the fraction as its digits, the offset in minutes east of Greenwich. -/
structure DateTime where
  year : Nat
  month : Nat
  day : Nat
  hour : Nat
  minute : Nat
  second : Nat
  fraction : List Char
  offset : Int

/-- A second of a minute. Minutes are counted from 1970 on; a leap second is second 60 of its minute. -/
structure Instant where
  minute : Int
  second : ℚ

instance : LT Instant := ⟨fun i j => i.minute < j.minute ∨ i.minute = j.minute ∧ i.second < j.second⟩

/-- Seconds since 1970 on a clock without leap seconds: second 60 is the first of the next minute. -/
def Instant.posix (i : Instant) : ℚ := 60 * i.minute + i.second

def DateTime.instant (t : DateTime) : Instant where
  minute := sinceEpoch t.year t.month t.day * 1440 + t.hour * 60 + t.minute - t.offset
  second := t.second + Decimals.fraction t.fraction

/-- `time-secfrac`, with the digits of the fraction. -/
inductive IsFraction : Text → List Char → Prop where
  | absent : IsFraction [] []
  | digits {ds : List Char} : ds ≠ [] → ds.all Char.isDigit = true → IsFraction ('.' :: ds) ds

/-- `time-offset`, with the offset in minutes. -/
inductive IsOffset : Text → Int → Prop where
  | utc : IsOffset ['Z'] 0
  | lower : IsOffset ['z'] 0
  | east {hours minutes : Text} : IsNumeral 2 hours → IsNumeral 2 minutes → numeralValue hours ≤ 23 →
      numeralValue minutes ≤ 59 →
      IsOffset ('+' :: (hours ++ ':' :: minutes)) (numeralValue hours * 60 + numeralValue minutes)
  | west {hours minutes : Text} : IsNumeral 2 hours → IsNumeral 2 minutes → numeralValue hours ≤ 23 →
      numeralValue minutes ≤ 59 →
      IsOffset ('-' :: (hours ++ ':' :: minutes)) (-(numeralValue hours * 60 + numeralValue minutes))

/-- `date-time`: a date of the calendar, a time of day with a leap second at most, and an offset. -/
inductive Spells : Text → DateTime → Prop where
  | intro {year month day hour minute second secfrac zone : Text} {t : Char} {fraction : List Char} {offset : Int} :
      IsNumeral 4 year → IsNumeral 2 month → IsNumeral 2 day → (t = 'T' ∨ t = 't') →
      IsNumeral 2 hour → IsNumeral 2 minute → IsNumeral 2 second →
      IsFraction secfrac fraction → IsOffset zone offset →
      1 ≤ numeralValue month → numeralValue month ≤ 12 → 1 ≤ numeralValue day →
      numeralValue day ≤ monthLength (numeralValue year) (numeralValue month) →
      numeralValue hour ≤ 23 → numeralValue minute ≤ 59 → numeralValue second ≤ 60 →
      Spells (year ++ '-' :: (month ++ '-' :: (day ++ t :: (hour ++ ':' :: (minute ++ ':' ::
          (second ++ (secfrac ++ zone)))))))
        ⟨numeralValue year, numeralValue month, numeralValue day, numeralValue hour, numeralValue minute,
          numeralValue second, fraction, offset⟩

/-- The instants that strings stand for. -/
inductive Denotes : Text → Instant → Prop where
  | unix {seconds : Int} : -2 ^ 63 ≤ seconds → seconds < 2 ^ 63 →
      Denotes ("unix:" ++ signedDecimal seconds) ⟨seconds / 60, (seconds % 60 : Int)⟩
  | dateTime {text : Text} {t : DateTime} : Spells text t → Denotes text t.instant

/-! ### What is read is what the string means -/

def DateTime.timestamp (t : DateTime) : Timestamp where
  seconds := sinceEpoch t.year t.month t.day * 86400 + t.hour * 3600 + t.minute * 60 + t.second - t.offset * 60
  fraction := Decimals.strip t.fraction

theorem bind_eq_some {α β : Type} {o : Option α} {f : α → Option β} {b : β} {P : α → Prop}
    (later : ∀ a, f a = some b ↔ P a) : (o >>= f) = some b ↔ ∃ a, o = some a ∧ P a := by
  rw [Option.bind_eq_bind, Option.bind_eq_some_iff]
  exact exists_congr fun a => and_congr_right fun _ => later a

theorem guard_bind_eq_some {β : Type} {p : Prop} [Decidable p] {o : Option β} {b : β} {P : Prop}
    (later : o = some b ↔ P) : (do guard p; o) = some b ↔ p ∧ P := by
  by_cases holds : p
  · simp [guard, holds, later]
  · simp [guard, holds]

theorem parseRfc3339_eq_some {timestamp : Text} {t : Timestamp} : parseRfc3339 timestamp = some t ↔
      20 ≤ timestamp.length ∧
      (timestamp[4]? = some '-' ∧ timestamp[7]? = some '-' ∧ (timestamp[10]? = some 'T' ∨ timestamp[10]? = some 't') ∧
        timestamp[13]? = some ':' ∧ timestamp[16]? = some ':') ∧
      ∃ year, number ((timestamp.take 4).drop 0) = some year ∧
      ∃ month, number ((timestamp.take 7).drop 5) = some month ∧
      ∃ day, number ((timestamp.take 10).drop 8) = some day ∧
      ∃ hour, number ((timestamp.take 13).drop 11) = some hour ∧
      ∃ minute, number ((timestamp.take 16).drop 14) = some minute ∧
      ∃ second, number ((timestamp.take 19).drop 17) = some second ∧ ∃ days, daysInMonth year month = some days ∧
      ¬(day = 0 ∨ day > days ∨ hour > 23 ∨ minute > 59 ∨ second > 60) ∧
      ∃ rest, parseFraction (timestamp.drop 19) = some rest ∧ ∃ offset, parseOffset rest.2 = some offset ∧
      ∃ midnight, checked (daysFromCivil year month day * 86400) = some midnight ∧
      ∃ hours, checked (midnight + hour * 3600) = some hours ∧
      ∃ minutes, checked (hours + minute * 60) = some minutes ∧ ∃ local', checked (minutes + second) = some local' ∧
      ∃ seconds, checked (local' - offset) = some seconds ∧ ⟨seconds, rest.1⟩ = t := by
  unfold parseRfc3339
  refine guard_bind_eq_some <| guard_bind_eq_some <| bind_eq_some fun year => bind_eq_some fun month =>
    bind_eq_some fun day => bind_eq_some fun hour => bind_eq_some fun minute => bind_eq_some fun second => ?_
  refine bind_eq_some fun days => guard_bind_eq_some <| bind_eq_some fun rest => bind_eq_some fun offset => ?_
  refine bind_eq_some fun midnight => bind_eq_some fun hours => bind_eq_some fun minutes => ?_
  exact bind_eq_some fun local' => bind_eq_some fun seconds => Option.some_inj

theorem daysInMonth_eq (year : Nat) {month : Nat} (first : 1 ≤ month) (last : month ≤ 12) :
    daysInMonth year month = some ↑(monthLength year month) := by
  have leap : ((year : Int).tmod 4 = 0 ∧ ((year : Int).tmod 100 ≠ 0 ∨ (year : Int).tmod 400 = 0)) ↔ IsLeap year := by
    rw [Int.tmod_eq_emod_of_nonneg (by omega), Int.tmod_eq_emod_of_nonneg (by omega),
      Int.tmod_eq_emod_of_nonneg (by omega), IsLeap]
    omega
  unfold daysInMonth monthLength
  simp only [leap]
  interval_cases month <;> simp

theorem parseFraction_of_isFraction {secfrac zone : Text} {fraction : List Char} (isFraction : IsFraction secfrac fraction)
    (head : ∀ c ∈ zone.head?, c.isDigit = false ∧ c ≠ '.') :
    parseFraction (secfrac ++ zone) = some (Decimals.strip fraction, zone) := by
  cases isFraction with
  | absent =>
    cases zone with
    | nil => rfl
    | cons c rest =>
      rw [List.nil_append, parseFraction]
      · rfl
      · rintro _ ⟨⟩
        exact (head _ rfl).2 rfl
  | digits nonempty isDigits =>
    have all := List.all_eq_true.mp isDigits
    have stops : zone.takeWhile Char.isDigit = [] ∧ zone.dropWhile Char.isDigit = zone := by
      cases zone with
      | nil => exact ⟨rfl, rfl⟩
      | cons c rest =>
        have notDigit : ¬ c.isDigit = true := by
          rw [(head c rfl).1]
          exact Bool.false_ne_true
        exact ⟨List.takeWhile_cons_of_neg notDigit, List.dropWhile_cons_of_neg notDigit⟩
    rw [List.cons_append, parseFraction, List.takeWhile_append_of_pos all, List.dropWhile_append_of_pos all, stops.1,
      stops.2, List.append_nil, if_neg nonempty]
    rfl

theorem isFraction_of_parseFraction {text zone : Text} {stripped : List Char}
    (read : parseFraction text = some (stripped, zone)) :
    ∃ secfrac fraction, IsFraction secfrac fraction ∧ text = secfrac ++ zone ∧ stripped = Decimals.strip fraction := by
  unfold parseFraction at read
  split at read
  next rest =>
    dsimp only at read
    split_ifs at read with empty
    obtain ⟨rfl, rfl⟩ := Prod.mk.inj (Option.some.inj read)
    have isDigits : (rest.takeWhile Char.isDigit).all Char.isDigit = true := List.all_takeWhile
    refine ⟨_, _, .digits empty isDigits, ?_, rfl⟩
    rw [List.cons_append, List.takeWhile_append_dropWhile]
  next =>
    obtain ⟨rfl, rfl⟩ := Prod.mk.inj (Option.some.inj read)
    exact ⟨_, _, .absent, rfl, rfl⟩

variable {zone : Text}

theorem IsOffset.head {offset : Int} (isOffset : IsOffset zone offset) :
    zone ≠ [] ∧ ∀ c ∈ zone.head?, c.isDigit = false ∧ c ≠ '.' := by
  cases isOffset <;>
    exact ⟨List.cons_ne_nil _ _, fun c mem => by
      obtain rfl := Option.some.inj mem
      decide⟩

theorem eq_pair {digits : Text} (numeral : IsNumeral 2 digits) : ∃ a b, digits = [a, b] :=
  List.length_eq_two.mp numeral.length

theorem parseOffset_signed {sign : Char} {hours minutes : Text} (isSign : sign = '+' ∨ sign = '-')
    (isHours : IsNumeral 2 hours) (isMinutes : IsNumeral 2 minutes) (hourBound : numeralValue hours ≤ 23)
    (minuteBound : numeralValue minutes ≤ 59) :
    parseOffset (sign :: (hours ++ ':' :: minutes)) =
      some (if sign = '+' then ((numeralValue hours * 60 + numeralValue minutes) * 60 : Int)
        else -(numeralValue hours * 60 + numeralValue minutes) * 60) := by
  have readHours := number_of_numeral isHours (by omega) (by omega)
  have readMinutes := number_of_numeral isMinutes (by omega) (by omega)
  obtain ⟨h₁, h₂, rfl⟩ := eq_pair isHours
  obtain ⟨m₁, m₂, rfl⟩ := eq_pair isMinutes
  change parseOffset [sign, h₁, h₂, ':', m₁, m₂] = _
  rw [parseOffset, if_pos isSign, readHours, readMinutes]
  generalize numeralValue [h₁, h₂] = hour at hourBound
  generalize numeralValue [m₁, m₂] = minute at minuteBound
  change (if (hour : Int) > 23 ∨ (minute : Int) > 59 then none
    else some (if sign = '+' then (hour : Int) * 3600 + minute * 60 else -(hour * 3600 + minute * 60))) = _
  rw [if_neg (by omega), Option.some_inj]
  split_ifs <;> omega

theorem parseOffset_of_isOffset {offset : Int} (isOffset : IsOffset zone offset) :
    parseOffset zone = some (offset * 60) := by
  cases isOffset with
  | utc => rfl
  | lower => rfl
  | east isHours isMinutes hourBound minuteBound =>
    exact parseOffset_signed (.inl rfl) isHours isMinutes hourBound minuteBound
  | west isHours isMinutes hourBound minuteBound =>
    exact parseOffset_signed (.inr rfl) isHours isMinutes hourBound minuteBound

theorem isOffset_of_parseOffset {seconds : Int} (read : parseOffset zone = some seconds) :
    ∃ offset, IsOffset zone offset := by
  unfold parseOffset at read
  split at read
  · exact ⟨0, .utc⟩
  · exact ⟨0, .lower⟩
  next sign h₁ h₂ m₁ m₂ =>
    by_cases isSign : sign = '+' ∨ sign = '-'
    · rw [if_pos isSign] at read
      simp only [bind, Option.bind_eq_some_iff] at read
      obtain ⟨hour, readHour, minute, readMinute, read⟩ := read
      by_cases outside : hour > 23 ∨ minute > 59
      · rw [if_pos outside] at read
        cases read
      · obtain ⟨isHours, rfl, -⟩ := numeral_of_number readHour
        obtain ⟨isMinutes, rfl, -⟩ := numeral_of_number readMinute
        rcases isSign with rfl | rfl
        · exact ⟨_, IsOffset.east isHours isMinutes (by omega) (by omega)⟩
        · exact ⟨_, IsOffset.west isHours isMinutes (by omega) (by omega)⟩
    · rw [if_neg isSign] at read
      cases read
  · cases read

theorem IsOffset.bounds {offset : Int} (isOffset : IsOffset zone offset) : -1440 < offset ∧ offset < 1440 := by
  cases isOffset <;> omega

theorem sinceEpoch_bounds {year month day : Nat} (yearHigh : year < 10000) (monthHigh : month ≤ 12)
    (dayHigh : day ≤ 31) : -1000000 < sinceEpoch year month day ∧ sinceEpoch year month day < 10000000 := by
  have years := daysBeforeYear_le year
  have months := daysBeforeMonth_le year month
  have epoch := daysBeforeYear_le 1970
  have january : daysBeforeMonth 1970 1 = 0 := rfl
  simp only [sinceEpoch, dayNumber, january]
  omega

variable {text : Text}

variable {t : DateTime}

theorem parseRfc3339_of_spells (spells : Spells text t) : parseRfc3339 text = some t.timestamp := by
  obtain @⟨year, month, day, hour, minute, second, secfrac, zone, sep, fraction, offset, isYear, isMonth, isDay, isSep,
    isHour, isMinute, isSecond, isFraction, isOffset, monthLow, monthHigh, dayLow, dayHigh, hourHigh, minuteHigh,
    secondHigh⟩ := spells
  have readYear := number_of_numeral isYear (by omega) (by omega)
  have readMonth := number_of_numeral isMonth (by omega) (by omega)
  have readDay := number_of_numeral isDay (by omega) (by omega)
  have readHour := number_of_numeral isHour (by omega) (by omega)
  have readMinute := number_of_numeral isMinute (by omega) (by omega)
  have readSecond := number_of_numeral isSecond (by omega) (by omega)
  have yearHigh : numeralValue year < 10000 := by
    have small := ofDigitChars_lt isYear.digits 0
    rw [isYear.length] at small
    exact small
  have length := daysInMonth_eq (numeralValue year) monthLow monthHigh
  have civil := daysFromCivil_eq (numeralValue year) monthLow monthHigh dayLow
  have offsetBounds := isOffset.bounds
  obtain ⟨y₁, y₂, y₃, y₄, rfl⟩ : ∃ a b c d, year = [a, b, c, d] := by
    have four := isYear.length
    match year, four with
    | [a, b, c, d], _ => exact ⟨a, b, c, d, rfl⟩
  obtain ⟨m₁, m₂, rfl⟩ := eq_pair isMonth
  obtain ⟨d₁, d₂, rfl⟩ := eq_pair isDay
  obtain ⟨h₁, h₂, rfl⟩ := eq_pair isHour
  obtain ⟨n₁, n₂, rfl⟩ := eq_pair isMinute
  obtain ⟨s₁, s₂, rfl⟩ := eq_pair isSecond
  have nonempty : 1 ≤ (secfrac ++ zone).length := by
    have zoneLength := List.length_pos_iff.mpr isOffset.head.1
    rw [List.length_append]
    omega
  have readFraction := parseFraction_of_isFraction isFraction isOffset.head.2
  have readOffset : parseOffset (Decimals.strip fraction, zone).2 = some (offset * 60) :=
    parseOffset_of_isOffset isOffset
  refine parseRfc3339_eq_some.mpr ⟨?_, ⟨rfl, rfl, ?_, rfl, rfl⟩, _, readYear, _, readMonth, _, readDay, _, readHour, _,
    readMinute, _, readSecond, _, length, ?_, _, readFraction, _, readOffset, ?_⟩
  · simp only [List.length_append, List.length_cons, List.length_nil] at nonempty ⊢
    omega
  · exact isSep.imp (congrArg some) (congrArg some)
  · omega
  · have days : -1000000 < sinceEpoch _ _ _ ∧ sinceEpoch _ _ _ < 10000000 :=
      sinceEpoch_bounds yearHigh monthHigh (dayHigh.trans (monthLength_le _ _))
    rw [civil]
    refine ⟨_, checked_some (by omega), _, checked_some (by omega), _,
      checked_some (by omega), _, checked_some (by omega), _,
      checked_some (by omega), ?_⟩
    rfl

variable {start stop : Nat}

theorem drop_eq_part (order : start ≤ stop) (inside : stop ≤ text.length) :
    text.drop start = (text.take stop).drop start ++ text.drop stop := by
  have cut := congrArg (List.drop start) (List.take_append_drop stop text)
  have fits : start ≤ (text.take stop).length := by
    rw [List.length_take]
    omega
  rwa [List.drop_append_of_le_length fits, eq_comm] at cut

theorem drop_eq_field {c : Char} (order : start ≤ stop) (sep : text[stop]? = some c) :
    text.drop start = (text.take stop).drop start ++ c :: text.drop (stop + 1) := by
  obtain ⟨inside, rfl⟩ := List.getElem?_eq_some_iff.mp sep
  rw [drop_eq_part order inside.le, List.drop_eq_getElem_cons inside]

variable {value : Int}

theorem numeral_of_part (width : Nat)
    (read : number ((text.take stop).drop start) = some value) (inside : stop ≤ text.length)
    (size : stop = start + width) :
    IsNumeral width ((text.take stop).drop start) ∧ ↑(numeralValue ((text.take stop).drop start)) = value := by
  obtain ⟨⟨-, isDigits⟩, same, -⟩ := numeral_of_number read
  refine ⟨⟨?_, isDigits⟩, same⟩
  rw [List.length_drop, List.length_take]
  omega

theorem daysInMonth_eq_some {year month : Nat} {days : Int} (length : daysInMonth year month = some days) :
    1 ≤ month ∧ month ≤ 12 ∧ days = monthLength year month := by
  obtain ⟨⟨first, last⟩, -⟩ := daysInMonth_bounds length
  rw [daysInMonth_eq year (by omega) (by omega)] at length
  exact ⟨by omega, by omega, (Option.some.inj length).symm⟩

theorem spells_of_parseRfc3339 {s : Timestamp} (read : parseRfc3339 text = some s) :
    ∃ t, Spells text t ∧ s = t.timestamp := by
  obtain ⟨long, ⟨sep₄, sep₇, sep₁₀, sep₁₃, sep₁₆⟩, year, readYear, month, readMonth, day, readDay, hour, readHour,
    minute, readMinute, second, readSecond, days, length, inside, ⟨stripped, zone⟩, readFraction, offset, readOffset, -⟩ :=
    parseRfc3339_eq_some.mp read
  obtain ⟨isYear, rfl⟩ := numeral_of_part 4 readYear (by omega) rfl
  obtain ⟨isMonth, rfl⟩ := numeral_of_part 2 readMonth (by omega) rfl
  obtain ⟨isDay, rfl⟩ := numeral_of_part 2 readDay (by omega) rfl
  obtain ⟨isHour, rfl⟩ := numeral_of_part 2 readHour (by omega) rfl
  obtain ⟨isMinute, rfl⟩ := numeral_of_part 2 readMinute (by omega) rfl
  obtain ⟨isSecond, rfl⟩ := numeral_of_part 2 readSecond (by omega) rfl
  obtain ⟨first, last, rfl⟩ := daysInMonth_eq_some length
  obtain ⟨secfrac, fraction, isFraction, rest, -⟩ := isFraction_of_parseFraction readFraction
  obtain ⟨minutes, isOffset⟩ := isOffset_of_parseOffset readOffset
  obtain ⟨t, isT, sepT⟩ : ∃ t, (t = 'T' ∨ t = 't') ∧ text[10]? = some t := by
    rcases sep₁₀ with sep | sep
    · exact ⟨_, .inl rfl, sep⟩
    · exact ⟨_, .inr rfl, sep⟩
  have whole : text = text.drop 0 := rfl
  rw [drop_eq_field (Nat.zero_le 4) sep₄, drop_eq_field (by omega) sep₇, drop_eq_field (by omega) sepT,
    drop_eq_field (by omega) sep₁₃, drop_eq_field (by omega) sep₁₆, drop_eq_part (Nat.le_add_right 17 2) (by omega),
    rest] at whole
  have spelled := Spells.intro isYear isMonth isDay isT isHour isMinute isSecond isFraction isOffset first last
    (by omega) (by omega) (by omega) (by omega) (by omega)
  have spells : Spells text _ := (congrArg (fun found => Spells found _) whole).mpr spelled
  exact ⟨_, spells, Option.mem_unique read (parseRfc3339_of_spells spells)⟩

/-! ### Unix seconds -/

theorem decimal_isDigits (n : Nat) : decimal n ≠ [] ∧ (decimal n).all Char.isDigit = true :=
  ⟨CodeIndex.decimal_ne_nil n, List.all_eq_true.mpr fun _ mem => CodeIndex.decimal_isDigit mem⟩

theorem numeralValue_decimal (n : Nat) : numeralValue (decimal n) = n := Nat.ofDigitChars_ten_toDigits

theorem parseI64_signedDecimal (low : -2 ^ 63 ≤ value) (high : value < 2 ^ 63) :
    parseI64 (signedDecimal value) = some value := by
  cases value with
  | ofNat n =>
    have read : number (decimal n) = some ↑n :=
      number_eq_some.mpr ⟨(decimal_isDigits n).1, (decimal_isDigits n).2, congrArg _ (numeralValue_decimal n), high⟩
    have noSign : ∀ c ∈ decimal n, c ≠ '-' ∧ c ≠ '+' := by
      intro c mem
      have isDigit := CodeIndex.decimal_isDigit mem
      constructor <;> rintro rfl <;> cases isDigit
    change parseI64 (decimal n) = _
    unfold parseI64
    split
    next digits same => exact absurd rfl (noSign '-' (same ▸ List.mem_cons_self)).1
    next digits same => exact absurd rfl (noSign '+' (same ▸ List.mem_cons_self)).2
    next => exact read
  | negSucc n =>
    change (if decimal (n + 1) ≠ [] ∧ (decimal (n + 1)).all Char.isDigit = true then
      checked (-((decimal (n + 1)).foldl (fun n c => n * 10 + (c.toNat - '0'.toNat : Nat)) 0 : Int)) else none) = _
    have folded := foldl_digits (decimal (n + 1)) 0
    rw [Int.natCast_zero] at folded
    rw [if_pos (decimal_isDigits (n + 1)), folded]
    change checked (-(numeralValue (decimal (n + 1)) : Int)) = _
    rw [numeralValue_decimal]
    exact checked_some (by omega)

theorem parseTimestamp_unix (field : Text) {seconds : Int} (low : -2 ^ 63 ≤ seconds) (high : seconds < 2 ^ 63) :
    parseTimestamp field ("unix:" ++ signedDecimal seconds) = .ok ⟨seconds, []⟩ := by
  unfold parseTimestamp
  rw [Text.stripPrefix_eq_some.mpr rfl]
  dsimp only
  rw [parseI64_signedDecimal low high]
  exact if_pos rfl

theorem parseTimestamp_spells (field : Text) (spells : Spells text t) :
    parseTimestamp field text = .ok t.timestamp := by
  have notUnix : Text.stripPrefix "unix:" text = none := by
    rw [Option.eq_none_iff_forall_ne_some]
    intro rest found
    have unix := Text.stripPrefix_eq_some.mp found
    have read := parseRfc3339_of_spells spells
    obtain ⟨-, ⟨sep, -⟩, -⟩ := parseRfc3339_eq_some.mp read
    rw [unix] at sep
    cases Option.some.inj sep
  unfold parseTimestamp
  rw [notUnix]
  dsimp only
  rw [parseRfc3339_of_spells spells]

/-! ### The order of instants -/

/-- The timestamp of an instant, as far as the clock without leap seconds can tell. -/
theorem DateTime.timestamp_value (t : DateTime) : t.timestamp.value = t.instant.posix := by
  obtain ⟨n, same⟩ := Decimals.exists_strip t.fraction
  have fraction : Decimals.fraction (Decimals.strip t.fraction) = Decimals.fraction t.fraction := by
    rw [← Decimals.fraction_append_zeros (Decimals.strip t.fraction) n, ← same]
  unfold Timestamp.value Instant.posix DateTime.timestamp DateTime.instant
  dsimp only
  rw [fraction]
  push_cast
  ring

theorem Spells.isDigits (spells : Spells text t) : t.fraction.all Char.isDigit = true := by
  obtain ⟨-, -, -, -, -, -, -, isFraction, -, -, -, -, -, -, -, -⟩ := spells
  cases isFraction with
  | absent => rfl
  | digits _ isDigits => exact isDigits

theorem Denotes.parsed (field : Text) {i : Instant} (denotes : Denotes text i) :
    ∃ s, parseTimestamp field text = .ok s ∧ s.Normal ∧ s.value = i.posix := by
  cases denotes with
  | @unix seconds low high =>
    refine ⟨_, parseTimestamp_unix field low high, ⟨rfl, nofun⟩, ?_⟩
    have split : 60 * (seconds / 60) + seconds % 60 = seconds := Int.mul_ediv_add_emod seconds 60
    simp only [Timestamp.value, Instant.posix, Decimals.fraction, add_zero]
    exact_mod_cast split.symm
  | @dateTime text t spells =>
    exact ⟨_, parseTimestamp_spells field spells, ⟨Decimals.all_strip spells.isDigits, Decimals.strip_getLast? _⟩,
      t.timestamp_value⟩

theorem checked_range {value result : Int} (fits : checked value = some result) :
    -2 ^ 63 ≤ result ∧ result < 2 ^ 63 := by
  unfold checked at fits
  split_ifs at fits with bounds
  obtain rfl := Option.some.inj fits
  exact bounds

theorem number_range {digits : Text} (read : number digits = some value) : -2 ^ 63 ≤ value ∧ value < 2 ^ 63 := by
  obtain ⟨-, -, rfl, small⟩ := number_eq_some.mp read
  exact ⟨by omega, small⟩

theorem parseI64_range (read : parseI64 text = some value) : -2 ^ 63 ≤ value ∧ value < 2 ^ 63 := by
  unfold parseI64 at read
  split at read
  next digits =>
    split_ifs at read
    exact checked_range read
  next => exact number_range read
  next => exact number_range read

theorem exists_denotes {field text : Text} {s : Timestamp} (parsed : parseTimestamp field text = .ok s) :
    ∃ i, Denotes text i := by
  unfold parseTimestamp at parsed
  split at parsed
  next seconds unix =>
    split at parsed
    next value read =>
      split_ifs at parsed with written
      obtain ⟨low, high⟩ := parseI64_range read
      rw [Text.stripPrefix_eq_some.mp unix, written]
      exact ⟨_, .unix low high⟩
    next => cases parsed
  next =>
    split at parsed
    next s read =>
      obtain ⟨t, spells, -⟩ := spells_of_parseRfc3339 read
      exact ⟨_, .dateTime spells⟩
    next => cases parsed

/-- Without leap seconds instants are in the order of the seconds since 1970. -/
theorem compares_of_posix {o : Ordering} {i j : Instant} (left : 0 ≤ i.second ∧ i.second < 60)
    (right : 0 ≤ j.second ∧ j.second < 60) (posix : o.Compares i.posix j.posix) : o.Compares i j := by
  have before : ∀ {i j : Instant}, 0 ≤ i.second → j.second < 60 → i.posix < j.posix → i < j := by
    intro i j low high less
    unfold Instant.posix at less
    rcases Int.lt_trichotomy i.minute j.minute with earlier | same | later
    · exact .inl earlier
    · rw [same] at less
      exact .inr ⟨same, by linarith⟩
    · have step : (j.minute : ℚ) + 1 ≤ i.minute := by exact_mod_cast later
      linarith
  cases o with
  | lt => exact before left.1 right.2 posix
  | gt => exact before right.1 left.2 posix
  | eq =>
    change i.posix = j.posix at posix
    change i = j
    unfold Instant.posix at posix
    obtain ⟨m, x⟩ := i
    obtain ⟨n, y⟩ := j
    dsimp only at posix left right
    rcases Int.lt_trichotomy m n with earlier | same | later
    · have step : (m : ℚ) + 1 ≤ n := by exact_mod_cast earlier
      linarith
    · rw [same] at posix ⊢
      rw [add_left_cancel posix]
    · have step : (n : ℚ) + 1 ≤ m := by exact_mod_cast later
      linarith

theorem Denotes.second_nonneg {i : Instant} (denotes : Denotes text i) : 0 ≤ i.second := by
  cases denotes with
  | @unix seconds low high =>
    have nonneg := Int.emod_nonneg seconds (show (60 : Int) ≠ 0 by decide)
    exact Int.cast_nonneg nonneg
  | @dateTime text t spells =>
    have fraction := (Decimals.fraction_bounds spells.isDigits).1
    exact add_nonneg (Nat.cast_nonneg _) fraction

/-- Timestamps are in the order of the instants that they denote, if a leap second is taken for the first second of the
next minute; and without leap seconds they are in the order of instants themselves. Those are equal of which neither is
before the other. No operation overflows when a string is read. -/
theorem parseTimestamp_order {field field' a b : Text} {s t : Timestamp} (readA : parseTimestamp field a = .ok s)
    (readB : parseTimestamp field' b = .ok t) :
    (parseTimestampI64 a = .ok s ∧ parseTimestampI64 b = .ok t) ∧ (s = t ↔ s.cmp t = .eq) ∧
      ((∃ i, Denotes a i) ∧ ∃ j, Denotes b j) ∧
      ∀ i j, Denotes a i → Denotes b j → (s.cmp t).Compares i.posix j.posix ∧
        (i.second < 60 → j.second < 60 → (s.cmp t).Compares i j) := by
  have machineA := parseTimestampI64_eq field a
  have machineB := parseTimestampI64_eq field' b
  rw [readA] at machineA
  rw [readB] at machineB
  have agree : ∀ i j, Denotes a i → Denotes b j → s.Normal ∧ t.Normal ∧ s.value = i.posix ∧ t.value = j.posix := by
    intro i j denotesA denotesB
    obtain ⟨s', parsedA, normalA, valueA⟩ := denotesA.parsed field
    obtain ⟨t', parsedB, normalB, valueB⟩ := denotesB.parsed field'
    obtain rfl := Except.ok.inj (readA.symm.trans parsedA)
    obtain rfl := Except.ok.inj (readB.symm.trans parsedB)
    exact ⟨normalA, normalB, valueA, valueB⟩
  obtain ⟨i, denotesA⟩ := exists_denotes readA
  obtain ⟨j, denotesB⟩ := exists_denotes readB
  obtain ⟨normalA, normalB, -⟩ := agree i j denotesA denotesB
  refine ⟨⟨machineA, machineB⟩, Timestamp.eq_iff_cmp normalA normalB, ⟨⟨i, denotesA⟩, j, denotesB⟩, ?_⟩
  intro i j denotesA denotesB
  obtain ⟨-, -, valueA, valueB⟩ := agree i j denotesA denotesB
  have posix : (s.cmp t).Compares i.posix j.posix := by
    rw [← valueA, ← valueB]
    exact Timestamp.cmp_compares normalA normalB
  exact ⟨posix, fun left right =>
    compares_of_posix ⟨denotesA.second_nonneg, left⟩ ⟨denotesB.second_nonneg, right⟩ posix⟩

namespace Sample

def leapSecond : Text := "2016-12-31T23:59:60Z"

def newYear : Text := "2017-01-01T00:00:00Z"

theorem leapSecond_spells : Spells leapSecond ⟨2016, 12, 31, 23, 59, 60, [], 0⟩ :=
  @Spells.intro "2016" "12" "31" "23" "59" "60" [] ['Z'] 'T' [] 0 ⟨rfl, rfl⟩ ⟨rfl, rfl⟩ ⟨rfl, rfl⟩ (.inl rfl) ⟨rfl, rfl⟩ ⟨rfl, rfl⟩
    ⟨rfl, rfl⟩ .absent .utc (by decide) (by decide) (by decide) (by decide) (by decide) (by decide) (by decide)

theorem newYear_spells : Spells newYear ⟨2017, 1, 1, 0, 0, 0, [], 0⟩ :=
  @Spells.intro "2017" "01" "01" "00" "00" "00" [] ['Z'] 'T' [] 0 ⟨rfl, rfl⟩
    ⟨rfl, rfl⟩ ⟨rfl, rfl⟩ (.inl rfl) ⟨rfl, rfl⟩ ⟨rfl, rfl⟩ ⟨rfl, rfl⟩ .absent .utc (by decide) (by decide)
    (by decide) (by decide) (by decide) (by decide) (by decide)

/-- The leap second is before the new year, and both strings are read as the same timestamp. -/
theorem leap_second_not_before_next :
    ∃ s i j, parseTimestamp [] leapSecond = .ok s ∧ parseTimestamp [] newYear = .ok s ∧ Denotes leapSecond i ∧
      Denotes newYear j ∧ i < j ∧ s.cmp s = .eq := by
  have timestamps : DateTime.timestamp ⟨2016, 12, 31, 23, 59, 60, [], 0⟩ =
      DateTime.timestamp ⟨2017, 1, 1, 0, 0, 0, [], 0⟩ := by decide +kernel
  refine ⟨_, _, _, parseTimestamp_spells [] leapSecond_spells, ?_, .dateTime leapSecond_spells,
    .dateTime newYear_spells, .inl ?_, ?_⟩
  · rw [timestamps]
    exact parseTimestamp_spells [] newYear_spells
  · decide +kernel
  · rw [timestamps]
    decide +kernel

/-- Half a second before noon in one zone, and noon in another. -/
theorem parseTimestamp_order_noon :
    ∃ s t, parseTimestamp [] "2020-02-29T11:59:59.500Z" = .ok s ∧
      parseTimestamp [] "2020-02-29T14:30:00+02:30" = .ok t ∧
      (parseTimestampI64 "2020-02-29T11:59:59.500Z" = .ok s ∧
        parseTimestampI64 "2020-02-29T14:30:00+02:30" = .ok t) ∧ (s = t ↔ s.cmp t = .eq) ∧
      ((∃ i, Denotes "2020-02-29T11:59:59.500Z" i) ∧ ∃ j, Denotes "2020-02-29T14:30:00+02:30" j) ∧
      ∀ i j, Denotes "2020-02-29T11:59:59.500Z" i → Denotes "2020-02-29T14:30:00+02:30" j →
        (s.cmp t).Compares i.posix j.posix ∧ (i.second < 60 → j.second < 60 → (s.cmp t).Compares i j) := by
  have readA : parseTimestamp [] "2020-02-29T11:59:59.500Z" = .ok ⟨1582977599, ['5']⟩ := by decide +kernel
  have readB : parseTimestamp [] "2020-02-29T14:30:00+02:30" = .ok ⟨1582977600, []⟩ := by decide +kernel
  exact ⟨_, _, readA, readB, parseTimestamp_order readA readB⟩

end Sample

end OrbitGraph.History
