import OrbitGraph.Delivery.Landing
import OrbitGraph.History.Growth

/-!
`orbit_sync`: deliveries of task runs, from the host's answers into the history index.

A request names pairs of a task and a run, and tasks whose current run is asked for. Both
count against one bound: first the pairs as they come, with repetitions, then the distinct
ones. Every pair that is examined ends with one outcome; a task has one of its own only
where it gives no pair.

What the host and Git say of an item, and where the surroundings of the index fail, are
answers that a request is run with.
-/

namespace OrbitGraph.History

open Lib Database

def HistoryIndex.delivery (index : HistoryIndex) (env : Environment) (deliveryId : Text) (db : Database) :
    Except GraphError (Option DeliveredChange) := do
  env.check .connection
  return (db.row (index.keyOf deliveryId)).map DeliveryRow.payload

end OrbitGraph.History

namespace OrbitGraph.Plugin

open Lib History
open Delivery (LandedRange LandingMethod)

/-! ### Requests and answers -/

inductive GraphErrorClass where
  | invalidInput
  | notFound
  | git
  | io
  | sqlite
  | invalidData
  | timeout
  | orbitRefused
  | subprocess
  | indexMissing
  | indexIncompatible
  | unsafeStatePath
  | versionMismatch
  deriving DecidableEq

/-- `GraphError::class`, of the errors of the index. -/
def errorClass : GraphError → GraphErrorClass
  | .io _ _ => .io
  | .sqlite _ _ => .sqlite
  | .git _ _ => .git
  | .invalidInput _ _ _ => .invalidInput
  | .invalidData _ _ => .invalidData
  | .timeout _ _ => .timeout
  | .indexMissing _ _ => .indexMissing
  | .indexIncompatible _ _ => .indexIncompatible
  | .versionMismatch _ _ _ _ _ => .versionMismatch

/-- An error, as the report shows it. -/
structure ItemError where
  errorClass : GraphErrorClass
  text : Text

structure TaskRun where
  taskId : Text
  runId : Text
  deriving DecidableEq

def TaskRun.deliveryId (pair : TaskRun) : Text := "orbit-run:" ++ pair.runId ++ ':' :: pair.taskId

/-- What the host's answer and Git attest of a pair that they do not exclude. -/
structure RunEvidence where
  task : TaskAssociation
  range : LandedRange
  method : LandingMethod
  observedAt : Option Text
  runFinishedAt : Option Text
  capturedAt : Text

/-- What is answered about a pair: by the host and Git, and where the index fails. -/
structure PairAnswers where
  evidence : Except ItemError (Except Text RunEvidence)
  env : Environment

structure SyncRequest where
  /-- The requested tasks, and what the host shows of each. -/
  tasks : List (Text × Except ItemError Json)
  taskRuns : List TaskRun
  taskSnapshots : List TaskAssociation
  bound : Nat

/-! ### Verdicts -/

structure VerifiedDelivery (pair : TaskRun) (branch : Text) where
  delivery : DeliveryImport
  suppliedSnapshot : Option TaskAssociation
  method : LandingMethod
  verifiedBy : Text
  deliveryId : delivery.deliveryId = pair.deliveryId
  landingBranch : delivery.landingBranch = branch
  task : delivery.tasks.map TaskAssociation.taskId = [pair.taskId]
  snapshot : ∀ snapshot ∈ suppliedSnapshot, snapshot.taskId = pair.taskId

inductive RunVerdict (pair : TaskRun) (branch : Text) where
  | deliverable (verified : VerifiedDelivery pair branch)
  | excluded (reason : Text)

/-- The landing step's finish time stands for the landing, else that of the run. -/
def deliveredAt (runId : Text) (evidence : RunEvidence) : TemporalFact :=
  match evidence.observedAt, evidence.runFinishedAt with
  | some timestamp, _ =>
    ⟨.uncertain, some timestamp, ⟨"orbit.workflow.run.delivery.landing.observed_at", some runId⟩⟩
  | none, some timestamp =>
    ⟨.uncertain, some timestamp, ⟨"orbit.workflow.run.delivery.run_finished_at", some runId⟩⟩
  | none, none => ⟨.unavailable, none, ⟨"orbit.workflow.run.delivery", some runId⟩⟩

/-- The supplied snapshot of a task: the last of those with its id. -/
def snapshotOf (snapshots : List TaskAssociation) (taskId : Text) : Option TaskAssociation :=
  snapshots.reverse.find? fun snapshot => snapshot.taskId = taskId

theorem snapshotOf_taskId {snapshots : List TaskAssociation} {taskId : Text} {snapshot : TaskAssociation}
    (found : snapshot ∈ snapshotOf snapshots taskId) : snapshot.taskId = taskId := by
  have passes := List.find?_some (p := fun snapshot : TaskAssociation => decide (snapshot.taskId = taskId)) found
  exact of_decide_eq_true passes

def deliveryForTaskRun (pair : TaskRun) (branch : Text) (snapshots : List TaskAssociation) (repositoryIdentity : Text) :
    Except ItemError (Except Text RunEvidence) → Except ItemError (RunVerdict pair branch)
  | .error error => .error error
  | .ok (.error reason) => .ok (.excluded reason)
  | .ok (.ok evidence) =>
    if here : evidence.task.taskId = pair.taskId then
      .ok (.deliverable {
        delivery :=
          { schemaVersion := deliveryImportSchemaVersion
            repository := repositoryIdentity
            landingBranch := branch
            beforeRevision := evidence.range.before.hex
            afterRevision := evidence.range.after.hex
            deliveryId := pair.deliveryId
            evidence := .verifiedDelivery
            source := ⟨"orbit.workflow.run.delivery+git", some pair.runId⟩
            deliveredAt := deliveredAt pair.runId evidence
            capturedAt := evidence.capturedAt
            tasks := [evidence.task] }
        suppliedSnapshot := snapshotOf snapshots pair.taskId
        method := evidence.method
        verifiedBy := evidence.range.verifiedBy
        deliveryId := rfl
        landingBranch := rfl
        task := congrArg (fun id => [id]) here
        snapshot := fun _ found => snapshotOf_taskId found })
    else .ok (.excluded "selected workspace returned a different task ID")

/-! ### Outcomes -/

/-- What an item is named by. -/
inductive Identity where
  | task (taskId : Text)
  | pair (pair : TaskRun)

inductive StoredStatus where
  | inserted
  | alreadyIndexed
  deriving DecidableEq

/-- An entry of the report; the constructor is its status. -/
inductive Outcome where
  | stored (status : StoredStatus) (runId deliveryId : Text) (taskIds : List Text) (method : LandingMethod)
      (verifiedBy : Text) (suppliedSnapshot : Option StoredStatus) (reason : Option Text)
  | excluded (identity : Identity) (reason : Text)
  | failed (identity : Identity) (error : ItemError)

def Outcome.isExcluded : Outcome → Bool
  | .excluded _ _ => true
  | _ => false

def Outcome.isFailed : Outcome → Bool
  | .failed _ _ => true
  | _ => false

/-- The entry of a delivery that the index has. -/
def VerifiedDelivery.outcome {pair : TaskRun} {branch : Text} (verified : VerifiedDelivery pair branch) (status : StoredStatus)
    (suppliedSnapshot : Option StoredStatus) (reason : Option Text) : Outcome :=
  .stored status pair.runId verified.delivery.deliveryId (verified.delivery.tasks.map TaskAssociation.taskId)
    verified.method verified.verifiedBy suppliedSnapshot reason

structure SyncOutcomes where
  entries : List Outcome
  excluded : Nat
  failed : Nat

namespace SyncOutcomes

/-- `SyncOutcomes::default` -/
def empty : SyncOutcomes := ⟨[], 0, 0⟩

variable (outcomes : SyncOutcomes)

def push (outcome : Outcome) : SyncOutcomes := { outcomes with entries := outcomes.entries ++ [outcome] }

def recordExcluded (identity : Identity) (reason : Text) : SyncOutcomes :=
  { outcomes with excluded := outcomes.excluded + 1, entries := outcomes.entries ++ [.excluded identity reason] }

def recordFailed (identity : Identity) (error : ItemError) : SyncOutcomes :=
  { outcomes with failed := outcomes.failed + 1, entries := outcomes.entries ++ [.failed identity error] }

/-- An item that the host's authority could not vouch for. -/
def unverified (identity : Identity) (error : ItemError) : SyncOutcomes :=
  match error.errorClass with
  | .invalidInput => outcomes.recordExcluded identity error.text
  | _ => outcomes.recordFailed identity error

/-- A delivery that the index refused to store. -/
def refused (identity : Identity) (error : ItemError) : SyncOutcomes :=
  match error.errorClass with
  | .invalidInput => outcomes.recordExcluded identity error.text
  | .invalidData => outcomes.recordExcluded identity error.text
  | _ => outcomes.recordFailed identity error

end SyncOutcomes

def stringField (value : Json) (field : Text) : Option Text :=
  match value.get field with
  | some (.string text) => some text
  | _ => none

/-- The loop over the requested tasks, as far as it has got. -/
structure Examined where
  pairs : List TaskRun
  taskIdsExamined : Nat
  truncated : Bool
  outcomes : SyncOutcomes

def noCurrentRun (taskId : Text) : Text :=
  "task " ++ taskId ++ " has no current job_run_id; pass task_runs to name an earlier run"

/-- One round: the task's current run joins the pairs, or the task has an outcome. -/
def examineTask (taskId : Text) (answer : Except ItemError Json) (s : Examined) : Examined :=
  match answer with
  | .ok task =>
    match stringField task "job_run_id" with
    | some runId => { s with pairs := s.pairs ++ [⟨taskId, runId⟩] }
    | none => { s with outcomes := s.outcomes.recordExcluded (.task taskId) (noCurrentRun taskId) }
  | .error error => { s with outcomes := s.outcomes.unverified (.task taskId) error }

def examineTasks (bound : Nat) : List (Text × Except ItemError Json) → Examined → Examined
  | [], s => s
  | (taskId, answer) :: rest, s =>
    if bound ≤ s.pairs.length then { s with truncated := true }
    else examineTasks bound rest (examineTask taskId answer { s with taskIdsExamined := s.taskIdsExamined + 1 })

/-! ### Pairs -/

/-- What the index did with a verified delivery. -/
inductive Stored where
  | known
  | snapshot (inserted : Except GraphError Bool)
  | imported (report : Except GraphError HistoryImportReport)

def sameRange (delivery : DeliveryImport) (existing : DeliveredChange) : Bool :=
  existing.delivery.beforeRevision = delivery.beforeRevision ∧ existing.delivery.afterRevision = delivery.afterRevision

section

variable [GitObjects] (index : HistoryIndex)

/-- The index's part of a round: a delivery that it has keeps its envelope, and gets the supplied snapshot. -/
def storeDelivery {pair : TaskRun} {branch : Text} (env : Environment) (verified : VerifiedDelivery pair branch) :
    Command GraphError Database Stored := do
  let existing ← Command.query (index.delivery env verified.delivery.deliveryId)
  if existing.any (sameRange verified.delivery) then
    match verified.suppliedSnapshot with
    | some snapshot => do
        let inserted ← Command.attempt (index.addSuppliedSnapshot env verified.delivery.deliveryId snapshot)
        return .snapshot inserted
    | none => return .known
  else do
    let report ← Command.attempt (index.importDelivery env verified.delivery verified.suppliedSnapshot.toList)
    return .imported report

variable (describe : GraphError → Text)

def itemError (error : GraphError) : ItemError := ⟨errorClass error, describe error⟩

def SyncOutcomes.recordStored (outcomes : SyncOutcomes) {pair : TaskRun} {branch : Text} (verified : VerifiedDelivery pair branch) : Stored → SyncOutcomes
  | .snapshot (.ok inserted) =>
    outcomes.push (verified.outcome .alreadyIndexed (some (if inserted then .inserted else .alreadyIndexed))
      (some "preserved first-observed delivery task text and provenance"))
  | .snapshot (.error error) => outcomes.refused (.pair pair) (itemError describe error)
  | .known =>
    outcomes.push (verified.outcome .alreadyIndexed none
      (some "preserved immutable first-observed delivery envelope"))
  | .imported (.ok report) =>
    outcomes.push (verified.outcome (if report.inserted then .inserted else .alreadyIndexed) none none)
  | .imported (.error error) => outcomes.refused (.pair pair) (itemError describe error)

variable (branch : Text) (snapshots : List TaskAssociation) (answers : TaskRun → PairAnswers)

/-- One round of the loop over the pairs. -/
def syncPair (outcomes : SyncOutcomes) (pair : TaskRun) : Command GraphError Database SyncOutcomes :=
  match deliveryForTaskRun pair branch snapshots index.repository (answers pair).evidence with
  | .error error => Command.answer (outcomes.unverified (.pair pair) error)
  | .ok (.excluded reason) => Command.answer (outcomes.recordExcluded (.pair pair) reason)
  | .ok (.deliverable verified) => do
      let stored ← storeDelivery index (answers pair).env verified
      return outcomes.recordStored describe verified stored

def syncPairs : List TaskRun → SyncOutcomes → Command GraphError Database SyncOutcomes
  | [], outcomes => Command.answer outcomes
  | pair :: rest, outcomes => do
      let outcomes ← syncPair index describe branch snapshots answers outcomes pair
      syncPairs rest outcomes

end

/-! ### The report -/

structure SyncReport where
  explicitTaskRuns : Nat
  taskIds : Nat
  taskIdsExamined : Nat
  uniqueTaskRuns : Nat
  processed : Nat
  excluded : Nat
  failed : Nat
  truncated : Bool
  outcomes : List Outcome

/-- Where a call fails apart from its items: its private directory, and the status of the index. -/
structure CallAnswers where
  directory : Except GraphError Unit
  status : Except GraphError Unit
  pair : TaskRun → PairAnswers

def syncOrbit [GitObjects] (index : HistoryIndex) (describe : GraphError → Text) (branch : Text) (request : SyncRequest)
    (answers : CallAnswers) : Command GraphError Database SyncReport := do
  require answers.directory
  let examined := examineTasks request.bound request.tasks ⟨request.taskRuns, 0, false, .empty⟩
  let unique := retainUnseen [] examined.pairs
  let truncated := examined.truncated || decide (request.bound < unique.length) ||
    decide (examined.taskIdsExamined < request.tasks.length)
  let pairs := unique.take request.bound
  let outcomes ← syncPairs index describe branch request.taskSnapshots answers.pair pairs examined.outcomes
  require answers.status
  return {
    explicitTaskRuns := request.taskRuns.length
    taskIds := request.tasks.length
    taskIdsExamined := examined.taskIdsExamined
    uniqueTaskRuns := unique.length
    processed := pairs.length
    excluded := outcomes.excluded
    failed := outcomes.failed
    truncated := truncated
    outcomes := outcomes.entries }

/-! ### Accounting -/

def Outcome.About (pair : TaskRun) : Outcome → Prop
  | .stored _ runId deliveryId taskIds _ _ _ _ =>
    runId = pair.runId ∧ deliveryId = pair.deliveryId ∧ taskIds = [pair.taskId]
  | .excluded identity _ => identity = .pair pair
  | .failed identity _ => identity = .pair pair

def Outcome.OfTask (taskId : Text) : Outcome → Prop
  | .stored _ _ _ _ _ _ _ _ => False
  | .excluded identity _ => identity = .task taskId
  | .failed identity _ => identity = .task taskId

namespace SyncOutcomes

/-- The counters are those of the entries. -/
structure Counted (outcomes : SyncOutcomes) : Prop where
  excluded : outcomes.excluded = outcomes.entries.countP Outcome.isExcluded
  failed : outcomes.failed = outcomes.entries.countP Outcome.isFailed

theorem counted_empty : empty.Counted := ⟨rfl, rfl⟩

structure Adds (outcomes : SyncOutcomes) (outcome : Outcome) (outcomes' : SyncOutcomes) : Prop where
  entries : outcomes'.entries = outcomes.entries ++ [outcome]
  counted : outcomes.Counted → outcomes'.Counted

variable {outcomes : SyncOutcomes} {identity : Identity}

theorem adds_push {outcome : Outcome} (notExcluded : outcome.isExcluded = false) (notFailed : outcome.isFailed = false) :
    outcomes.Adds outcome (outcomes.push outcome) where
  entries := rfl
  counted counted := by
    constructor
    · rw [push, List.countP_append, List.countP_singleton, notExcluded, ← counted.excluded]
      rfl
    · rw [push, List.countP_append, List.countP_singleton, notFailed, ← counted.failed]
      rfl

theorem adds_recordExcluded (reason : Text) :
    outcomes.Adds (.excluded identity reason) (outcomes.recordExcluded identity reason) where
  entries := rfl
  counted counted := by
    constructor
    · rw [recordExcluded, List.countP_append, ← counted.excluded]
      rfl
    · rw [recordExcluded, List.countP_append, ← counted.failed]
      rfl

theorem adds_recordFailed (error : ItemError) :
    outcomes.Adds (.failed identity error) (outcomes.recordFailed identity error) where
  entries := rfl
  counted counted := by
    constructor
    · rw [recordFailed, List.countP_append, ← counted.excluded]
      rfl
    · rw [recordFailed, List.countP_append, ← counted.failed]
      rfl

/-- An item that is judged or fails has one entry under its name. -/
inductive Judged (identity : Identity) (error : ItemError) : Outcome → Prop where
  | excluded : Judged identity error (.excluded identity error.text)
  | failed : Judged identity error (.failed identity error)

theorem adds_unverified (error : ItemError) :
    ∃ outcome, Judged identity error outcome ∧ outcomes.Adds outcome (outcomes.unverified identity error) := by
  rw [unverified]
  split
  · exact ⟨_, .excluded, adds_recordExcluded _⟩
  · exact ⟨_, .failed, adds_recordFailed _⟩

theorem adds_refused (error : ItemError) :
    ∃ outcome, Judged identity error outcome ∧ outcomes.Adds outcome (outcomes.refused identity error) := by
  rw [refused]
  split
  · exact ⟨_, .excluded, adds_recordExcluded _⟩
  · exact ⟨_, .excluded, adds_recordExcluded _⟩
  · exact ⟨_, .failed, adds_recordFailed _⟩

variable {error : ItemError}

theorem Judged.about {pair : TaskRun} {outcome : Outcome} (judged : Judged (.pair pair) error outcome) :
    outcome.About pair := by
  cases judged with
  | excluded => rfl
  | failed => rfl

theorem Judged.ofTask {taskId : Text} {outcome : Outcome} (judged : Judged (.task taskId) error outcome) :
    outcome.OfTask taskId := by
  cases judged with
  | excluded => rfl
  | failed => rfl

end SyncOutcomes

/-! ### Tasks are accounted for -/

inductive Gives : Text × Except ItemError Json → TaskRun ⊕ Outcome → Prop where
  | pair {taskId runId : Text} {task : Json} : stringField task "job_run_id" = some runId →
      Gives (taskId, .ok task) (.inl ⟨taskId, runId⟩)
  | outcome {taskId : Text} {answer : Except ItemError Json} {outcome : Outcome} : outcome.OfTask taskId →
      Gives (taskId, answer) (.inr outcome)

def pairsOf (parts : List (TaskRun ⊕ Outcome)) : List TaskRun := parts.filterMap Sum.getLeft?

def outcomesOf (parts : List (TaskRun ⊕ Outcome)) : List Outcome := parts.filterMap Sum.getRight?

theorem examineTask_gives (taskId : Text) (answer : Except ItemError Json) (s : Examined) :
    ∃ part, Gives (taskId, answer) part ∧ (examineTask taskId answer s).pairs = s.pairs ++ pairsOf [part] ∧
      (examineTask taskId answer s).outcomes.entries = s.outcomes.entries ++ outcomesOf [part] ∧
      (s.outcomes.Counted → (examineTask taskId answer s).outcomes.Counted) ∧
      (examineTask taskId answer s).taskIdsExamined = s.taskIdsExamined ∧
      (examineTask taskId answer s).truncated = s.truncated := by
  cases answer with
  | error error =>
    obtain ⟨outcome, judged, adds⟩ := @SyncOutcomes.adds_unverified s.outcomes (.task taskId) error
    exact ⟨.inr outcome, .outcome judged.ofTask, (List.append_nil _).symm, adds.entries, adds.counted, rfl, rfl⟩
  | ok task =>
    cases found : stringField task "job_run_id" with
    | none =>
      have adds := @SyncOutcomes.adds_recordExcluded s.outcomes (.task taskId) (noCurrentRun taskId)
      have step : examineTask taskId (.ok task) s =
          { s with outcomes := s.outcomes.recordExcluded (.task taskId) (noCurrentRun taskId) } := by
        simp only [examineTask, found]
      rw [step]
      exact ⟨.inr (.excluded (.task taskId) (noCurrentRun taskId)), .outcome rfl, (List.append_nil _).symm, adds.entries,
        adds.counted, rfl, rfl⟩
    | some runId =>
      have step : examineTask taskId (.ok task) s = { s with pairs := s.pairs ++ [⟨taskId, runId⟩] } := by
        simp only [examineTask, found]
      rw [step]
      exact ⟨.inl ⟨taskId, runId⟩, .pair found, rfl, (List.append_nil _).symm, id, rfl, rfl⟩

/-- What the loop over the tasks has done: it stops where the pairs fill the bound, and a pair joins only below it. -/
structure TasksExamined (bound : Nat) (tasks : List (Text × Except ItemError Json)) (s s' : Examined)
    (parts : List (TaskRun ⊕ Outcome)) : Prop where
  count : s'.taskIdsExamined = s.taskIdsExamined + parts.length
  gives : List.Forall₂ Gives (tasks.take parts.length) parts
  pairs : s'.pairs = s.pairs ++ pairsOf parts
  outcomes : s'.outcomes.entries = s.outcomes.entries ++ outcomesOf parts
  counted : s.outcomes.Counted → s'.outcomes.Counted
  truncated : s'.truncated = (s.truncated || decide (parts.length < tasks.length))
  within : pairsOf parts ≠ [] → s'.pairs.length ≤ bound

theorem examineTasks_spec (bound : Nat) (tasks : List (Text × Except ItemError Json)) (s : Examined) :
    ∃ parts, TasksExamined bound tasks s (examineTasks bound tasks s) parts := by
  induction tasks generalizing s with
  | nil =>
    exact ⟨[], rfl, .nil, (List.append_nil _).symm, (List.append_nil _).symm, id, (Bool.or_false _).symm,
      fun some => absurd rfl some⟩
  | cons entry rest ih =>
    obtain ⟨taskId, answer⟩ := entry
    rw [examineTasks]
    rcases Decidable.em (bound ≤ s.pairs.length) with full | open'
    · rw [if_pos full]
      refine ⟨[], rfl, .nil, (List.append_nil _).symm, (List.append_nil _).symm, id, ?_, fun some => absurd rfl some⟩
      rw [List.length_nil, List.length_cons, decide_eq_true (Nat.succ_pos _), Bool.or_true]
    · rw [if_neg open']
      obtain ⟨part, gives, pairs, outcomes, counted, count, truncated⟩ :=
        examineTask_gives taskId answer { s with taskIdsExamined := s.taskIdsExamined + 1 }
      obtain ⟨parts, later⟩ := ih (examineTask taskId answer { s with taskIdsExamined := s.taskIdsExamined + 1 })
      have one : (examineTask taskId answer { s with taskIdsExamined := s.taskIdsExamined + 1 }).pairs.length ≤ bound := by
        rw [pairs, List.length_append]
        have := List.length_filterMap_le Sum.getLeft? [part]
        rw [List.length_singleton] at this
        exact (Nat.add_le_add_left this _).trans (Nat.not_le.mp open')
      refine ⟨part :: parts, ?_, .cons gives later.gives, ?_, ?_, fun before => later.counted (counted before), ?_, ?_⟩
      · rw [later.count, count, List.length_cons, Nat.add_assoc, Nat.add_comm 1]
      · rw [later.pairs, pairs, List.append_assoc]
        exact congrArg (s.pairs ++ ·) (List.filterMap_append (l := [part])).symm
      · rw [later.outcomes, outcomes, List.append_assoc]
        exact congrArg (s.outcomes.entries ++ ·) (List.filterMap_append (l := [part])).symm
      · rw [later.truncated, truncated, List.length_cons, List.length_cons]
        simp only [Nat.add_lt_add_iff_right]
      · intro _
        rcases Decidable.em (pairsOf parts = []) with none | some
        · rw [later.pairs, none, List.append_nil]
          exact one
        · exact later.within some

section

variable {index : HistoryIndex} {describe : GraphError → Text} {branch : Text} {snapshots : List TaskAssociation}
  {answers : TaskRun → PairAnswers}

variable {pair : TaskRun}

theorem VerifiedDelivery.about_outcome {branch : Text} (verified : VerifiedDelivery pair branch) (status : StoredStatus)
    (suppliedSnapshot : Option StoredStatus) (reason : Option Text) :
    (verified.outcome status suppliedSnapshot reason).About pair :=
  ⟨rfl, verified.deliveryId, verified.task⟩

theorem adds_recordStored (outcomes : SyncOutcomes) {branch : Text} (verified : VerifiedDelivery pair branch) (stored : Stored) :
    ∃ outcome, outcome.About pair ∧ outcomes.Adds outcome (outcomes.recordStored describe verified stored) := by
  have judged (error : ItemError) :
      ∃ outcome, outcome.About pair ∧ outcomes.Adds outcome (outcomes.refused (.pair pair) error) := by
    obtain ⟨outcome, judged, adds⟩ := @SyncOutcomes.adds_refused outcomes (.pair pair) error
    exact ⟨outcome, judged.about, adds⟩
  cases stored with
  | known => exact ⟨_, verified.about_outcome _ _ _, SyncOutcomes.adds_push rfl rfl⟩
  | snapshot inserted =>
    cases inserted with
    | ok inserted => exact ⟨_, verified.about_outcome _ _ _, SyncOutcomes.adds_push rfl rfl⟩
    | error error => exact judged (itemError describe error)
  | imported report =>
    cases report with
    | ok report => exact ⟨_, verified.about_outcome _ _ _, SyncOutcomes.adds_push rfl rfl⟩
    | error error => exact judged (itemError describe error)

variable [GitObjects] {outcomes outcomes' : SyncOutcomes} {db db' : Database}

theorem syncPair_adds
    (run : syncPair index describe branch snapshots answers outcomes pair db = (.ok outcomes', db')) :
    ∃ outcome, outcome.About pair ∧ outcomes.Adds outcome outcomes' := by
  rw [syncPair] at run
  cases verdict : deliveryForTaskRun pair branch snapshots index.repository (answers pair).evidence with
  | error error =>
    rw [verdict] at run
    obtain rfl := Except.ok.inj (Prod.mk.inj run).1
    obtain ⟨outcome, judged, adds⟩ := @SyncOutcomes.adds_unverified outcomes (.pair pair) error
    exact ⟨outcome, judged.about, adds⟩
  | ok verdict' =>
    rw [verdict] at run
    cases verdict' with
    | excluded reason =>
      obtain rfl := Except.ok.inj (Prod.mk.inj run).1
      exact ⟨.excluded (.pair pair) reason, rfl, SyncOutcomes.adds_recordExcluded reason⟩
    | deliverable verified =>
      obtain ⟨stored, _, -, run⟩ := Command.of_andThen_ok run
      obtain rfl := Except.ok.inj (Prod.mk.inj run).1
      exact adds_recordStored outcomes verified stored

theorem syncPairs_adds {pairs : List TaskRun}
    (run : syncPairs index describe branch snapshots answers pairs outcomes db = (.ok outcomes', db')) :
    ∃ each, List.Forall₂ Outcome.About pairs each ∧ outcomes'.entries = outcomes.entries ++ each ∧
      (outcomes.Counted → outcomes'.Counted) := by
  induction pairs generalizing outcomes db with
  | nil =>
    obtain rfl := Except.ok.inj (Prod.mk.inj run).1
    exact ⟨[], .nil, (List.append_nil _).symm, id⟩
  | cons pair rest ih =>
    obtain ⟨next, _, first, run⟩ := Command.of_andThen_ok run
    obtain ⟨outcome, about, adds⟩ := syncPair_adds first
    obtain ⟨each, others, entries, counted⟩ := ih run
    refine ⟨outcome :: each, .cons about others, ?_, fun before => counted (adds.counted before)⟩
    rw [entries, adds.entries, List.append_assoc]
    rfl

end

/-! ### The report accounts for the request -/

/-- What a report says of a request: `parts` is what the examined tasks gave, `pairs` are the pairs that were processed, and
`each` their outcomes. -/
structure Accounted (request : SyncRequest) (report : SyncReport) (parts : List (TaskRun ⊕ Outcome)) (pairs : List TaskRun)
    (each : List Outcome) : Prop where
  within : pairs = (retainUnseen [] (request.taskRuns ++ pairsOf parts)).take request.bound
  distinct : pairs.Nodup
  outcomes : report.outcomes = outcomesOf parts ++ each
  onePerPair : List.Forall₂ Outcome.About pairs each
  tasks : List.Forall₂ Gives (request.tasks.take report.taskIdsExamined) parts
  contributed : ∀ pair, .inl pair ∈ parts → pair ∈ pairs
  excluded : report.excluded = report.outcomes.countP Outcome.isExcluded
  failed : report.failed = report.outcomes.countP Outcome.isFailed
  processed : report.processed = pairs.length
  total : report.processed + (outcomesOf parts).length = report.outcomes.length
  truncated : report.truncated = true ↔
    (∃ pair ∈ request.taskRuns, pair ∉ pairs) ∨ report.taskIdsExamined < request.tasks.length

variable {request : SyncRequest}

theorem length_retainUnseen_of_pairsOf {parts : List (TaskRun ⊕ Outcome)}
    (within : pairsOf parts ≠ [] → (request.taskRuns ++ pairsOf parts).length ≤ request.bound) (some : pairsOf parts ≠ []) :
    (retainUnseen [] (request.taskRuns ++ pairsOf parts)).length ≤ request.bound :=
  (length_retainUnseen_le _ _).trans (within some)

theorem mem_take_of_le {α : Type} {xs : List α} {n : Nat} (le : xs.length ≤ n) {x : α} (mem : x ∈ xs) : x ∈ xs.take n := by
  rwa [List.take_of_length_le le]

theorem truncated_iff {parts : List (TaskRun ⊕ Outcome)}
    (within : pairsOf parts ≠ [] → (request.taskRuns ++ pairsOf parts).length ≤ request.bound) :
    request.bound < (retainUnseen [] (request.taskRuns ++ pairsOf parts)).length ↔
      ∃ pair ∈ request.taskRuns, pair ∉ (retainUnseen [] (request.taskRuns ++ pairsOf parts)).take request.bound := by
  constructor
  · intro exceeds
    have none : pairsOf parts = [] := by
      by_contra some
      exact Nat.not_lt.mpr (length_retainUnseen_of_pairsOf within some) exceeds
    rw [none, List.append_nil] at exceeds ⊢
    obtain ⟨pair, rest, split⟩ := List.exists_cons_of_ne_nil (l := (retainUnseen [] request.taskRuns).drop request.bound) (by
      rw [← List.length_pos_iff, List.length_drop]
      omega)
    have mem : pair ∈ (retainUnseen [] request.taskRuns).drop request.bound := by
      rw [split]
      exact List.mem_cons_self
    refine ⟨pair, (mem_retainUnseen.mp (List.mem_of_mem_drop mem)).1, fun taken => ?_⟩
    have distinct := nodup_retainUnseen [] request.taskRuns
    rw [← List.take_append_drop request.bound (retainUnseen [] request.taskRuns)] at distinct
    exact List.disjoint_of_nodup_append distinct taken mem
  · rintro ⟨pair, mem, left⟩
    by_contra fits
    refine left (mem_take_of_le (Nat.not_lt.mp fits) (mem_retainUnseen.mpr ⟨?_, List.not_mem_nil⟩))
    exact List.mem_append_left _ mem

theorem accounted_of_run [GitObjects] {index : HistoryIndex} {describe : GraphError → Text} {branch : Text}
    {answers : CallAnswers} {db db' : Database} {report : SyncReport}
    (run : syncOrbit index describe branch request answers db = (.ok report, db')) :
    ∃ parts pairs each, Accounted request report parts pairs each := by
  obtain ⟨_, _, -, run⟩ := Command.of_andThen_ok run
  obtain ⟨parts, examined⟩ := examineTasks_spec request.bound request.tasks ⟨request.taskRuns, 0, false, .empty⟩
  obtain ⟨outcomes, _, paired, run⟩ := Command.of_andThen_ok run
  obtain ⟨_, _, -, run⟩ := Command.of_andThen_ok run
  obtain rfl := Except.ok.inj (Prod.mk.inj run).1
  obtain ⟨each, about, entries, counted⟩ := syncPairs_adds paired
  have count : (examineTasks request.bound request.tasks ⟨request.taskRuns, 0, false, .empty⟩).taskIdsExamined =
      parts.length := by rw [examined.count, Nat.zero_add]
  have own : (examineTasks request.bound request.tasks ⟨request.taskRuns, 0, false, .empty⟩).outcomes.entries =
      outcomesOf parts := by rw [examined.outcomes]; rfl
  have within : pairsOf parts ≠ [] → (request.taskRuns ++ pairsOf parts).length ≤ request.bound := by
    rw [← examined.pairs]
    exact examined.within
  rw [own] at entries
  rw [examined.pairs] at about
  have counted := counted (examined.counted SyncOutcomes.counted_empty)
  refine ⟨parts, _, each, ⟨rfl, ?_, entries, about, ?_, ?_, counted.excluded, counted.failed, ?_, ?_, ?_⟩⟩
  · exact (nodup_retainUnseen _ _).sublist (List.take_sublist _ _)
  · rw [count]
    exact examined.gives
  · intro pair mem
    have there : pair ∈ pairsOf parts := List.mem_filterMap.mpr ⟨.inl pair, mem, rfl⟩
    have small := length_retainUnseen_of_pairsOf within (List.ne_nil_of_mem there)
    exact mem_take_of_le small (mem_retainUnseen.mpr ⟨List.mem_append_right _ there, List.not_mem_nil⟩)
  · rw [examined.pairs]
  · rw [entries, List.length_append, ← about.length_eq, examined.pairs, Nat.add_comm]
  · rw [← truncated_iff within, Bool.or_eq_true, Bool.or_eq_true, decide_eq_true_eq, decide_eq_true_eq, examined.truncated,
      examined.pairs, count, Bool.false_or, decide_eq_true_eq]
    tauto

end OrbitGraph.Plugin
