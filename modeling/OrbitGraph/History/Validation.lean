import OrbitGraph.Lib.Command
import OrbitGraph.History.Redaction

/-!
Checks of envelope values that need no repository: timestamps, temporal facts,
task associations, and the normalised task list of an import.

Timestamps are read character by character; the source reads bytes and accepts
only ASCII.
-/

namespace OrbitGraph.History

open Lib

/-! ### Timestamps -/

/-- An instant: seconds since 1970, and the digits of a fraction of a second. -/
structure Timestamp where
  seconds : Int
  fraction : List Char
  deriving DecidableEq

/-- The result of an `i64` operation, or `none` for an overflow. -/
def checked (value : Int) : Option Int :=
  if -2 ^ 63 ≤ value ∧ value < 2 ^ 63 then some value else none

def number (digits : List Char) : Option Int :=
  if digits ≠ [] ∧ digits.all Char.isDigit = true then
    checked (digits.foldl (fun n c => n * 10 + (c.toNat - '0'.toNat : Nat)) 0)
  else none

/-- `str::parse::<i64>`. -/
def parseI64 : Text → Option Int
  | '-' :: digits =>
    if digits ≠ [] ∧ digits.all Char.isDigit = true then
      checked (-(digits.foldl (fun n c => n * 10 + (c.toNat - '0'.toNat : Nat)) 0 : Int))
    else none
  | '+' :: digits => number digits
  | digits => number digits

def daysFromCivil (year month day : Int) : Int :=
  let year := if month ≤ 2 then year - 1 else year
  let era := (if year ≥ 0 then year else year - 399).tdiv 400
  let yoe := year - era * 400
  let adjustedMonth := month + if month > 2 then -3 else 9
  let doy := (153 * adjustedMonth + 2).tdiv 5 + day - 1
  let doe := yoe * 365 + yoe.tdiv 4 - yoe.tdiv 100 + doy
  era * 146097 + doe - 719468

def daysInMonth (year month : Int) : Option Int :=
  let leap := year.tmod 4 = 0 ∧ (year.tmod 100 ≠ 0 ∨ year.tmod 400 = 0)
  if month ∈ [1, 3, 5, 7, 8, 10, 12] then some 31
  else if month ∈ [4, 6, 9, 11] then some 30
  else if month = 2 then some (if leap then 29 else 28)
  else none

/-- The offset from UTC, in seconds, that ends a timestamp. -/
def parseOffset : List Char → Option Int
  | ['Z'] => some 0
  | ['z'] => some 0
  | [sign, h₁, h₂, ':', m₁, m₂] =>
    if sign = '+' ∨ sign = '-' then do
      let offsetHour ← number [h₁, h₂]
      let offsetMinute ← number [m₁, m₂]
      if offsetHour > 23 ∨ offsetMinute > 59 then none
      else
        let value := offsetHour * 3600 + offsetMinute * 60
        some (if sign = '+' then value else -value)
    else none
  | _ => none

/-- The digits of a fraction that begins with a point, without final zeros, and
what follows them. -/
def parseFraction : List Char → Option (List Char × List Char)
  | '.' :: rest =>
    let digits := rest.takeWhile Char.isDigit
    if digits = [] then none
    else some ((digits.reverse.dropWhile (· = '0')).reverse, rest.dropWhile Char.isDigit)
  | rest => some ([], rest)

def parseRfc3339 (timestamp : Text) : Option Timestamp := do
  guard (20 ≤ timestamp.length)
  guard (timestamp[4]? = some '-' ∧ timestamp[7]? = some '-' ∧
    (timestamp[10]? = some 'T' ∨ timestamp[10]? = some 't') ∧
    timestamp[13]? = some ':' ∧ timestamp[16]? = some ':')
  let component (start stop : Nat) := number ((timestamp.take stop).drop start)
  let year ← component 0 4
  let month ← component 5 7
  let day ← component 8 10
  let hour ← component 11 13
  let minute ← component 14 16
  let second ← component 17 19
  let days ← daysInMonth year month
  guard ¬(day = 0 ∨ day > days ∨ hour > 23 ∨ minute > 59 ∨ second > 60)
  let (fraction, zone) ← parseFraction (timestamp.drop 19)
  let offset ← parseOffset zone
  let midnight ← checked (daysFromCivil year month day * 86400)
  let hours ← checked (midnight + hour * 3600)
  let minutes ← checked (hours + minute * 60)
  let local' ← checked (minutes + second)
  let seconds ← checked (local' - offset)
  return { seconds, fraction }

def invalidTimestamp (field timestamp : Text) : GraphError :=
  .invalidData "validate timestamp"
    (field ++ " must be RFC 3339 or unix:<seconds>; got \"" ++ timestamp ++ "\"")

def parseTimestamp (field timestamp : Text) : Except GraphError Timestamp :=
  match Text.stripPrefix "unix:" timestamp with
  | some seconds =>
    match parseI64 seconds with
    | some value =>
      if seconds = signedDecimal value then .ok { seconds := value, fraction := [] }
      else .error (invalidTimestamp field timestamp)
    | none => .error (invalidTimestamp field timestamp)
  | none =>
    match parseRfc3339 timestamp with
    | some parsed => .ok parsed
    | none => .error (invalidTimestamp field timestamp)

def validateTimestamp (field timestamp : Text) : Except GraphError Unit := do
  let _ ← parseTimestamp field timestamp
  return ()

def isBlank (s : Text) : Bool := Text.trim s = []

def validateTemporalFact (field : Text) (fact : TemporalFact) : Except GraphError Unit :=
  if isBlank fact.source.system then
    .error (.invalidData "validate temporal provenance"
      (field ++ ".source.system must be non-empty"))
  else
    match fact.status, fact.timestamp with
    | .known, some timestamp => validateTimestamp field timestamp
    | .known, none =>
      .error (.invalidData "validate temporal fact"
        (field ++ " is known but has no timestamp"))
    | .uncertain, some timestamp => validateTimestamp field timestamp
    | .uncertain, none => .ok ()
    | .unavailable, none => .ok ()
    | .unavailable, some _ =>
      .error (.invalidData "validate temporal fact"
        (field ++ " is unavailable but supplies a timestamp"))

def validateTaskAssociation (task : TaskAssociation) : Except GraphError Unit := do
  ensure (¬(isBlank task.taskId || isBlank task.source.system || isBlank task.capturedAt))
    (.invalidData "validate delivery task association"
      "task_id, source.system, and captured_at must be non-empty")
  validateTimestamp "task captured_at" task.capturedAt
  validateTemporalFact "task created_at" task.createdAt
  validateTemporalFact "task snapshot_available_at" task.snapshotAvailableAt
  ensure (¬(task.textAvailability = .knownPreExecution ∧ task.snapshotAvailableAt.status ≠ .known))
    (.invalidData "validate task text availability"
      "known_pre_execution requires a known snapshot_available_at timestamp")

/-- The loop of `normalize_tasks` over the sorted tasks; `previous` is the last one
kept. -/
def deduplicateTasks (previous : Option TaskAssociation) :
    List TaskAssociation → Except GraphError (List TaskAssociation)
  | [] => .ok []
  | task :: rest => do
      validateTaskAssociation task
      let task := redactTask task
      match previous with
      | some last =>
        if last.taskId = task.taskId then
          if last = task then deduplicateTasks previous rest
          else
            .error (.invalidData "deduplicate delivery task association"
              ("task " ++ task.taskId ++ " appears with conflicting snapshots"))
        else return task :: (← deduplicateTasks (some task) rest)
      | none => return task :: (← deduplicateTasks (some task) rest)

/-- The tasks by id, validated and redacted, without repetitions. -/
def normalizeTasks (tasks : List TaskAssociation) : Except GraphError (List TaskAssociation) :=
  deduplicateTasks none
    (tasks.insertionSort fun left right => Text.ble left.taskId right.taskId = true)

def normalizeBranch (branch : Text) : Text :=
  (Text.stripPrefix "refs/heads/" (Text.trim branch)).getD (Text.trim branch)

end OrbitGraph.History
