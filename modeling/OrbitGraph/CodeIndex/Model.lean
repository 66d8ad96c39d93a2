import Mathlib.Data.List.Sort
import Std.Data.TreeMap
import OrbitGraph.CodeIndex.Names
import OrbitGraph.Lib.AdvisoryLock
import OrbitGraph.Lib.TransitionSystem

/-!
`sync` of the code-graph index: the index directory, and the calls of any number of
processes on it, each with the thread that builds for it.

A step is one access to the file system, or one look at what the two threads of a call
share. Any step of a caller may fail, a process may crash at any step, and the deadline
passes whenever it likes. The build lock is held as long as its file is open, by the
caller or by the thread it was given to. While a build is published or discarded its
thread holds the slot, and the caller waits. A file knows the call that created it and
how often it was written since.
-/

namespace OrbitGraph.CodeIndex

open Lib

/-! ### Files -/

/-- `EXTRACTOR_VERSION` and `STORE_SCHEMA_VERSION` of a binary. -/
structure Versions where
  extractorVersion : UInt32
  storeSchemaVersion : UInt32
  deriving DecidableEq

/-- `PublishedIndex`, as far as `sync` reads it. -/
structure PublishedIndex where
  database : Text
  versions : Versions
  deriving DecidableEq

/-- What a file holds: a pointer or a record as it decodes, or a database that a build has or has
not completed. -/
inductive Content where
  | pointer (published : PublishedIndex)
  | owned (generations : List Text)
  | database (complete : Bool)
  | other
  deriving DecidableEq

/-- A file, with the call that created it, if one did. -/
structure File where
  content : Content
  origin : Option Nat
  writes : Nat
  deriving DecidableEq

abbrev Fs := Std.TreeMap Text File

namespace Fs

variable (fs : Fs)

def file (path : Path) : Option File := fs[path.name]?

def pointer : Option PublishedIndex :=
  match fs.file .pointer with
  | some ⟨.pointer published, _, _⟩ => some published
  | _ => none

/-- The recorded generations; none when the record is absent or does not decode. -/
def owned : List Text :=
  match fs.file .owned with
  | some ⟨.owned generations, _, _⟩ => generations
  | _ => []

def published : Option File × Option File := (fs.file .pointer, fs.pointer.bind fun index => fs[index.database]?)

/-- The temporary files that are there. -/
def stagingNames : List StagingName :=
  fs.keys.filterMap fun name => if staged : isStagingName name = true then some ⟨name, staged⟩ else none

def unownedDatabases (recorded : List Text) : List Text :=
  ((fs.keys.filterMap graphDatabaseOf).filter fun database => database ∉ recorded).dedup

def taken (extractorVersion : UInt32) (number : UInt64) : Bool :=
  suffixes.any fun suffix => (fs.file (.file (.numbered extractorVersion number) suffix)).isSome

end Fs

/-- What one step does to the index directory. -/
inductive Effect where
  | none
  | write (path : Path) (content : Content)
  | unlink (path : Path)
  | rename (temp : StagingName) (target : Replaced)

def Effect.publishes : Effect → Nat
  | .rename _ .pointer => 1
  | _ => 0

def File.written (call : Nat) (content : Content) : Option File → File
  | some file => { file with content, writes := file.writes + 1 }
  | none => ⟨content, some call, 0⟩

def Effect.apply (call : Nat) (fs : Fs) : Effect → Fs
  | .none => fs
  | .write path content => fs.insert path.name (.written call content (fs.file path))
  | .unlink path => fs.erase path.name
  | .rename temp target =>
    match fs.file (.staging temp) with
    | some file => (fs.erase temp.name).insert target.name file
    | .none => fs

/-! ### A call -/

inductive IndexState where
  | missing
  | incompatible (published : PublishedIndex)
  | ready (published : PublishedIndex)
  deriving DecidableEq

/-- The published generation, if this binary can read it. -/
def IndexState.publishedDatabase : IndexState → Option Text
  | .ready published => some published.database
  | _ => none

inductive SyncPhase where
  | extracting
  | resolving
  deriving DecidableEq

inductive Incomplete where
  | extractionBudget
  | resolutionBudget
  deriving DecidableEq

structure SyncResult where
  incomplete : Option Incomplete
  seeded : Bool
  unowned : List Text
  deriving DecidableEq

abbrev Answer := Except String SyncResult

/-- `atomic_write`: what it does next, with its temporary file. -/
inductive AtomicWrite where
  | create
  | write (temp : StagingName)
  | flush (temp : StagingName)
  | rename (temp : StagingName)
  | flushDir (temp : StagingName)
  | cleanUp (temp : StagingName)
  deriving DecidableEq

/-- Where `atomic_write` has got to after a step. -/
inductive Progress where
  | going (stage : AtomicWrite)
  | written
  | failed

/-- The generation that a call has settled on, with the published one that it starts from and the
databases that nobody recorded. -/
structure Plan where
  generation : Generation
  seed : Option Text
  unowned : List Text
  deriving DecidableEq

/-- Where the caller is, in `sync`. -/
inductive Pc where
  | idle
  | createDir
  | openLock
  | tryLock
  | recordHolder
  | listStaging
  /-- `reclaim_staging_files`. -/
  | reclaim (todo : List StagingName)
  /-- `IndexState::read`. -/
  | readPointer
  | checkDatabase (published : PublishedIndex)
  /-- `remove_superseded_generations`. -/
  | readOwned (previous : IndexState)
  | retire (previous : IndexState) (kept : List Text) (todo : List (Generation × Suffix))
  | readCheckout (previous : IndexState) (owned : List Text)
  | nameGeneration (previous : IndexState) (owned : List Text)
  /-- `write_owned`. -/
  | record (previous : IndexState) (generation : Generation) (recorded : List Text) (stage : AtomicWrite)
  | listUnowned (previous : IndexState) (generation : Generation) (recorded : List Text)
  | createGeneration (plan : Plan)
  | copySeed (seed : Text) (plan : Plan)
  | createLockFile (plan : Plan)
  | spawn (plan : Plan)
  /-- `wait_until`. -/
  | wait (plan : Plan)
  /-- The deadline has passed; the progress is yet to be read. -/
  | expired (plan : Plan)
  | answered (answer : Answer)
  | dead
  deriving DecidableEq

abbrev BuildResult := Except String (Option PublishedIndex)

/-- How `Graph::sync_with_observer` ended. -/
inductive Outcome where
  | completed
  | cancelled
  | failed (operation : String)
  deriving DecidableEq

/-- Why a generation is discarded: the caller has given up, the build was cancelled, or something
failed. -/
inductive Reason where
  | abandoned
  | cancelled
  | failed (operation : String)
  deriving DecidableEq

/-- What the caller is told about a discarded generation, if it waits. -/
def Reason.result : Reason → Option BuildResult
  | .abandoned => none
  | .cancelled => some (.ok none)
  | .failed operation => some (.error operation)

/-- Where the build thread is, in `BuildJob::run`. -/
inductive Job where
  | none
  | building (generation : Generation)
  | decide (generation : Generation) (outcome : Outcome)
  /-- `publish`, up to the pointer. -/
  | finalizing (generation : Generation)
  | pointing (generation : Generation) (stage : AtomicWrite)
  /-- `discard`, which may be called again. -/
  | discard (generation : Generation) (again : Bool) (reason : Reason)
  | discarding (generation : Generation) (again : Bool) (reason : Reason) (todo : List Suffix)
  | unlock (result : Option BuildResult)
  | finish (result : BuildResult)
  | ended
  deriving DecidableEq

inductive Slot where
  | running
  | abandoned
  | finished (result : BuildResult)
  deriving DecidableEq

inductive Thread where
  | caller
  | builder
  deriving DecidableEq

/-- What a thread does next. -/
inductive Action where
  | start
  | next
  | fail
  /-- `is_file` fails, which reads as an absent database. -/
  | statFails
  /-- The number of the new generation. -/
  | choose (number : UInt64)
  /-- A number that is taken, when an existence check fails. -/
  | chooseTaken (number : UInt64)
  /-- A temporary file with a sequence number. -/
  | temp (sequence : UInt64)
  /-- The graph and SQLite, on the files of the generation. -/
  | write (suffix : Suffix)
  | unlink (suffix : Suffix)
  | progress (phase : SyncPhase)
  | complete
  | cancel
  | failBuild (operation : String)
  | timeout
  | crash
  deriving DecidableEq

/-! ### Steps -/

/-- One step of `atomic_write` to a target. -/
def atomicWrite (fs : Fs) (pid : UInt32) (target : Replaced) (content : Content) :
    AtomicWrite → Action → Option (Effect × Progress)
  | .create, .temp sequence =>
    let temp := StagingName.temp target pid sequence
    if (fs.file (.staging temp)).isSome then some (.none, .going (.cleanUp temp))
    else some (.write (.staging temp) .other, .going (.write temp))
  | .create, .fail => some (.none, .failed)
  | .write temp, .next => some (.write (.staging temp) content, .going (.flush temp))
  | .flush temp, .next => some (.none, .going (.rename temp))
  | .rename temp, .next =>
    if (fs.file (.staging temp)).isSome then some (.rename temp target, .going (.flushDir temp))
    else some (.none, .going (.cleanUp temp))
  | .flushDir _, .next => some (.none, .written)
  | .cleanUp temp, .next => some (.unlink (.staging temp), .failed)
  | .cleanUp _, .fail => some (.none, .failed)
  | .write temp, .fail => some (.none, .going (.cleanUp temp))
  | .flush temp, .fail => some (.none, .going (.cleanUp temp))
  | .rename temp, .fail => some (.none, .going (.cleanUp temp))
  | .flushDir temp, .fail => some (.none, .going (.cleanUp temp))
  | _, _ => none

def insertName (name : Text) (names : List Text) : List Text :=
  if name ∈ names then names else names.orderedInsert (fun a b => Text.ble a b = true) name

theorem mem_insertName {name other : Text} {names : List Text} :
    other ∈ insertName name names ↔ other = name ∨ other ∈ names := by
  unfold insertName
  split
  next mem =>
    constructor
    · exact .inr
    · rintro (rfl | other)
      · exact mem
      · exact other
  next => exact List.mem_orderedInsert _

/-- `remove_superseded_generations`, up to its first file: what stays recorded, and the files of the rest. -/
def superseded (previous : IndexState) (recorded : List Text) : Pc :=
  .retire previous (recorded.filter fun database => previous.publishedDatabase = some database)
    (((recorded.filter fun database => previous.publishedDatabase ≠ some database).filterMap Generation.ofName).flatMap
      fun g => suffixes.map fun suffix => (g, suffix))

/-- What a call owns before it names its generation: the published one stays recorded. -/
def stillOwned (previous : IndexState) (kept : List Text) : List Text :=
  match previous.publishedDatabase with
  | some database => if (generationOfAnyExtractor database).isSome then insertName database kept else kept
  | none => kept

/-- The first number that `next_generation_name` tries. -/
def firstNumber (extractorVersion : UInt32) : IndexState → UInt64
  | .ready published => (generationNumber extractorVersion published.database).elim 1 (· + 1)
  | _ => 1

/-- Whether all numbers from the first up to one are taken. -/
def passed (fs : Fs) (extractorVersion : UInt32) (first number : UInt64) : Bool :=
  first ≤ number &&
    (List.range (number.toNat - first.toNat)).all fun i => fs.taken extractorVersion (first + UInt64.ofNat i)

/-- The operation that an error names when a step of the caller fails. -/
def Pc.operation : Pc → Option String
  | .createDir => some "create code-graph index directory"
  | .openLock => some "open code-graph build lock"
  | .tryLock => some "lock code-graph index"
  | .recordHolder => some "record code-graph build lock holder"
  | .listStaging => some "list code-graph index directory"
  | .reclaim _ => some "remove orphaned code-graph staging file"
  | .readPointer => some "read code-graph index pointer"
  | .retire _ _ (_ :: _) => some "remove superseded code-graph generation"
  | .readCheckout .. => some "read repository status for code-graph sync"
  | .listUnowned .. => some "list code-graph index directory"
  | .createGeneration _ => some "create code-graph generation"
  | .copySeed .. => some "copy published code-graph index"
  | .createLockFile _ => some "create code-graph generation"
  | .spawn _ => some "start code-graph build thread"
  | _ => none

/-- The seed of a build: the published generation, unless every file is to be extracted. -/
def seedOf (previous : IndexState) (full : Bool) : Option Text :=
  if full then none else previous.publishedDatabase

section Call

variable (ours : Versions) (pid : UInt32) (full granted : Bool) (fs : Fs)

/-- The next step of a caller up to its wait, for whether the lock would be granted. -/
def prepare : Pc → Action → Option (Effect × Pc)
  | .idle, .start => some (.none, .createDir)
  | .createDir, .next => some (.none, .openLock)
  | .openLock, .next => some (if (fs.file .lock).isSome then .none else .write .lock .other, .tryLock)
  | .tryLock, .next => some (.none, if granted then .recordHolder else .answered (.error "lock code-graph index"))
  | .recordHolder, .next => some (.write .lock .other, .listStaging)
  | .listStaging, .next => some (.none, .reclaim fs.stagingNames)
  | .reclaim (temp :: rest), .next => some (.unlink (.staging temp), .reclaim rest)
  | .reclaim [], .next => some (.none, .readPointer)
  | .readPointer, .next =>
    some (.none, match fs.file .pointer with
      | none => .readOwned .missing
      | some ⟨.pointer published, _, _⟩ =>
        if published.versions ≠ ours then .readOwned (.incompatible published)
        else if isGenerationName ours.extractorVersion published.database then .checkDatabase published
        else .readOwned .missing
      | some _ => .answered (.error "decode code-graph index pointer"))
  | .checkDatabase published, .next =>
    some (.none, .readOwned (if (fs[published.database]?).isSome then .ready published else .missing))
  | .checkDatabase _, .statFails => some (.none, .readOwned .missing)
  | .readOwned previous, .next => some (.none, superseded previous fs.owned)
  -- a record that cannot be read owns nothing
  | .readOwned previous, .fail => some (.none, superseded previous [])
  | .retire previous kept ((g, suffix) :: rest), .next =>
    some (.unlink (.file g suffix), .retire previous kept rest)
  | .retire previous kept [], .next => some (.none, .readCheckout previous (stillOwned previous kept))
  | .readCheckout previous owned, .next => some (.none, .nameGeneration previous owned)
  | .nameGeneration previous owned, .choose number =>
    if passed fs ours.extractorVersion (firstNumber ours.extractorVersion previous) number ∧
        fs.taken ours.extractorVersion number = false then
      let g := Generation.numbered ours.extractorVersion number
      some (.none, .record previous g (insertName g.name owned) .create)
    else none
  | .nameGeneration previous owned, .chooseTaken number =>
    if passed fs ours.extractorVersion (firstNumber ours.extractorVersion previous) number ∧
        fs.taken ours.extractorVersion number = true then
      let g := Generation.numbered ours.extractorVersion number
      some (.none, .record previous g (insertName g.name owned) .create)
    else none
  | .record previous g recorded stage, action =>
    (atomicWrite fs pid .owned (.owned recorded) stage action).map fun (effect, progress) =>
      (effect, match progress with
        | .going stage => .record previous g recorded stage
        | .written => .listUnowned previous g recorded
        | .failed => .answered (.error "write code-graph index file"))
  | .listUnowned previous g recorded, .next =>
    some (.none, .createGeneration ⟨g, seedOf previous full, fs.unownedDatabases recorded⟩)
  | .createGeneration plan, .next =>
    if (fs.file (.file plan.generation .database)).isSome then
      some (.none, .answered (.error "create code-graph generation"))
    else
      some (.write (.file plan.generation .database) (.database false),
        match plan.seed with
        | some seed => .copySeed seed plan
        | none => .createLockFile plan)
  | .copySeed seed plan, .next =>
    if (fs[seed]?).isSome then
      some (.write (.file plan.generation .database) (.database false), .createLockFile plan)
    else some (.none, .answered (.error "open published code-graph index"))
  | .createLockFile plan, .next =>
    if (fs.file (.file plan.generation .lock)).isSome then
      some (.none, .answered (.error "create code-graph generation"))
    else some (.write (.file plan.generation .lock) .other, .spawn plan)
  | pc, .fail => pc.operation.map fun operation => (.none, .answered (.error operation))
  | _, _ => none

/-- What the graph and SQLite write to a file of a generation. -/
def sqliteContent (complete : Bool) : Suffix → Content
  | .database => .database complete
  | _ => .other

/-- The next step of a build thread, for what it finds in the slot. -/
def work (slot : Slot) : Job → Action → Option (Effect × Job)
  | .building g, .write suffix => some (.write (.file g suffix) (sqliteContent false suffix), .building g)
  | .building g, .unlink suffix =>
    if suffix ∈ [Suffix.wal, .shm, .journal] then some (.unlink (.file g suffix), .building g) else none
  | .building g, .complete => some (.write (.file g .database) (.database true), .decide g .completed)
  | .building g, .cancel => some (.none, .decide g .cancelled)
  | .building g, .failBuild operation => some (.none, .decide g (.failed operation))
  -- the slot is taken here, and kept to the end
  | .decide g outcome, .next =>
    some (.none, match slot, outcome with
      | .abandoned, _ => .discard g false .abandoned
      | _, .completed => .finalizing g
      | _, .cancelled => .discard g false .cancelled
      | _, .failed operation => .discard g true (.failed operation))
  | .finalizing g, .write suffix => some (.write (.file g suffix) (sqliteContent true suffix), .finalizing g)
  | .finalizing g, .unlink suffix =>
    if suffix ∈ [Suffix.wal, .shm, .journal] then some (.unlink (.file g suffix), .finalizing g) else none
  | .finalizing g, .next => some (.none, .pointing g .create)
  | .finalizing g, .failBuild operation => some (.none, .discard g false (.failed operation))
  | .pointing g stage, action =>
    (atomicWrite fs pid .pointer (.pointer ⟨g.name, ours⟩) stage action).map fun (effect, progress) =>
      (effect, match progress with
        | .going stage => .pointing g stage
        | .written => .unlock (some (.ok (some ⟨g.name, ours⟩)))
        | .failed => .discard g false (.failed "write code-graph index file"))
  | .discard g again reason, .next => some (.none, .discarding g again reason suffixes)
  | .discarding g again reason (suffix :: rest), .next =>
    some (.unlink (.file g suffix), .discarding g again reason rest)
  | .discarding g again reason (_ :: rest), .fail => some (.none, .discarding g again reason rest)
  | .discarding g again reason [], .next =>
    some (.none, if again then .discard g false reason else .unlock reason.result)
  | .unlock result, .next => some (.none, match result with
      | none => .ended
      | some result => .finish result)
  | .finish _, .next => some (.none, .ended)
  | _, _ => none

end Call

/-- Whether the caller has the lock file open. -/
def Pc.locked : Pc → Bool
  | .recordHolder => true
  | .listStaging => true
  | .reclaim _ => true
  | .readPointer => true
  | .checkDatabase _ => true
  | .readOwned _ => true
  | .retire .. => true
  | .readCheckout .. => true
  | .nameGeneration .. => true
  | .record .. => true
  | .listUnowned .. => true
  | .createGeneration _ => true
  | .copySeed .. => true
  | .createLockFile _ => true
  | .spawn _ => true
  | _ => false

/-- Whether a build has the lock file open: from its start to the end of its publish or discard. -/
def Job.locked : Job → Bool
  | .none => false
  | .finish _ => false
  | .ended => false
  | _ => true

def Job.holdsSlot : Job → Bool
  | .none => false
  | .building _ => false
  | .decide .. => false
  | .ended => false
  | _ => true

/-- How often the next step of a build thread begins to discard its generation. -/
def Job.discards : Job → Nat
  | .discard .. => 1
  | _ => 0

/-- What the next step of a build thread puts into the slot. -/
def Job.post (slot : Slot) : Job → Slot
  | .finish result => .finished result
  | _ => slot

def Answer.isPublished : Answer → Bool
  | .ok result => result.incomplete.isNone
  | .error _ => false

/-- A call of a binary in a process: its two threads, what they share, and what they did. -/
structure Call where
  ours : Versions
  pid : UInt32
  full : Bool
  pc : Pc
  job : Job
  slot : Slot
  phase : Option SyncPhase
  /-- How often the call moved the pointer to its generation. -/
  publishes : Nat
  /-- How often it discarded its generation. -/
  discards : Nat
  /-- Whether it changed the pointer, or the file that the pointer named. -/
  touched : Bool

namespace Call

variable (call : Call)

def locks : List (AdvisoryLock Path) :=
  if call.pc.locked ∨ call.job.locked then [⟨.lock, .exclusive⟩] else []

/-- A call after a process crashed: an answer that was given stays. -/
def crashed : Call :=
  { call with
    pc := match call.pc with
      | .answered answer => .answered answer
      | _ => .dead
    job := .ended }

def answerOf (plan : Plan) : BuildResult → Answer
  | .ok published =>
    .ok { incomplete := if published.isNone then some .extractionBudget else none,
          seeded := plan.seed.isSome, unowned := plan.unowned }
  | .error operation => .error operation

/-- The answer to a build that ran out of time. -/
def expiredAnswer (plan : Plan) : Answer :=
  .ok { incomplete := some (if call.phase = some .resolving then .resolutionBudget else .extractionBudget),
        seeded := plan.seed.isSome, unowned := plan.unowned }

variable (granted : Bool) (fs : Fs)

def advance (action : Action) : Option (Effect × Call) :=
  match call.pc, action with
  | .spawn plan, .next => some (.none, { call with pc := .wait plan, job := .building plan.generation })
  | .wait plan, .next =>
    if call.job.holdsSlot then none
    else match call.slot with
      | .finished result =>
        some (.none, { call with pc := .answered (answerOf plan result), slot := .abandoned })
      -- a wake-up before the deadline, with nothing to see
      | _ => some (.none, call)
  | .wait plan, .timeout =>
    if call.job.holdsSlot then none
    else match call.slot with
      | .finished _ => none
      | _ => some (.none, { call with pc := .expired plan, slot := .abandoned })
  | .expired plan, .next => some (.none, { call with pc := .answered (call.expiredAnswer plan) })
  | pc, action => (prepare call.ours call.pid call.full granted fs pc action).map fun (effect, pc) =>
    (effect, { call with pc })

/-- One step of the build thread, with the ends of publishing and discarding. -/
def build (action : Action) : Option (Effect × Call) :=
  match call.job, action with
  | .building _, .progress phase => some (.none, { call with phase })
  | job, action => (work call.ours call.pid fs call.slot job action).map fun (effect, job') =>
    (effect, { call with
      job := job'
      slot := job.post call.slot
      publishes := call.publishes + effect.publishes
      discards := call.discards + job.discards })

def next : Thread × Action → Option (Effect × Call)
  | (_, .crash) => some (.none, call.crashed)
  | (.caller, action) => call.advance granted fs action
  | (.builder, action) => call.build fs action

end Call

/-- The index directory, the calls, and the file that the pointer named when it was last moved. -/
structure State where
  fs : Fs
  calls : List Call
  current : Option File

namespace State

variable (s : State)

def granted : Bool := decide (AdvisoryLock.Granted Call.locks s.calls ⟨.lock, .exclusive⟩)

/-- One step of the call with a number. -/
def next (label : Nat × Thread × Action) : Option State := do
  let call ← s.calls[label.1]?
  let (effect, call') ← call.next s.granted s.fs label.2
  let fs := effect.apply label.1 s.fs
  some {
    fs
    calls := s.calls.set label.1 { call' with touched := call.touched || decide (fs.published ≠ s.fs.published) }
    current := if effect.publishes = 1 then fs.published.2 else s.current }

end State

/-- A call that has not begun. -/
def Call.Fresh (call : Call) : Prop :=
  call.pc = .idle ∧ call.job = .none ∧ call.slot = .running ∧ call.publishes = 0 ∧ call.discards = 0 ∧
    call.touched = false

/-- Any number of calls on an index directory with a pointer and a record that, if they are there,
nobody can read: whatever else is there is foreign. -/
def index : TransitionSystem State (Nat × Thread × Action) where
  init s := (∀ (name : Text) file, s.fs[name]? = some file → file.origin = none) ∧ s.fs.pointer = none ∧
    s.fs.owned = [] ∧ ∀ call ∈ s.calls, call.Fresh
  step s label t := s.next label = some t

end OrbitGraph.CodeIndex
