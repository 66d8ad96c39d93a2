import OrbitGraph.History.Types
import OrbitGraph.Lib.Json

/-!
The host's answer on the delivery of one run.

Every enumeration is closed, so a value that the adapter does not know makes the answer
malformed. Of the answers that are for the requested task and run, one that says `landed`
with a merged landing of a commit is evidence of a delivery, and no other.
-/

namespace OrbitGraph.Delivery

open Lib History

/-! ### The answer -/

inductive DeliveryStatus where
  | landed
  | committed
  | noChange
  | inProgress
  | notDelivered
  | unavailable
  deriving DecidableEq

inductive CommitStatus where
  | committed
  | alreadyCommitted
  | verifiedNoDiff
  | verifiedAlreadyLanded
  | skippedNoDiffExpected
  | pending
  | notReached
  | unavailable
  deriving DecidableEq

inductive LandingStatus where
  | merged
  | notRequested
  | notApplicable
  | pending
  | notReached
  | unavailable
  deriving DecidableEq

inductive LandingMethod where
  | pullRequest
  | localFastForward
  deriving DecidableEq

namespace DeliveryStatus

def wire : List (Text × DeliveryStatus) :=
  [("landed", .landed), ("committed", .committed), ("no_change", .noChange),
    ("in_progress", .inProgress), ("not_delivered", .notDelivered), ("unavailable", .unavailable)]

end DeliveryStatus

namespace CommitStatus

def wire : List (Text × CommitStatus) :=
  [("committed", .committed), ("already_committed", .alreadyCommitted),
    ("verified_no_diff", .verifiedNoDiff), ("verified_already_landed", .verifiedAlreadyLanded),
    ("skipped_no_diff_expected", .skippedNoDiffExpected), ("pending", .pending),
    ("not_reached", .notReached), ("unavailable", .unavailable)]

def wireName : CommitStatus → Text
  | .committed => "committed"
  | .alreadyCommitted => "already_committed"
  | .verifiedNoDiff => "verified_no_diff"
  | .verifiedAlreadyLanded => "verified_already_landed"
  | .skippedNoDiffExpected => "skipped_no_diff_expected"
  | .pending => "pending"
  | .notReached => "not_reached"
  | .unavailable => "unavailable"

end CommitStatus

namespace LandingStatus

def wire : List (Text × LandingStatus) :=
  [("merged", .merged), ("not_requested", .notRequested), ("not_applicable", .notApplicable),
    ("pending", .pending), ("not_reached", .notReached), ("unavailable", .unavailable)]

def wireName : LandingStatus → Text
  | .merged => "merged"
  | .notRequested => "not_requested"
  | .notApplicable => "not_applicable"
  | .pending => "pending"
  | .notReached => "not_reached"
  | .unavailable => "unavailable"

end LandingStatus

def LandingMethod.wire : List (Text × LandingMethod) :=
  [("pull_request", .pullRequest), ("local_fast_forward", .localFastForward)]

structure CommitObservation where
  status : CommitStatus
  baseSha : Option Text
  headSha : Option Text
  reason : Option Text

structure LandingObservation where
  status : LandingStatus
  method : Option LandingMethod
  landedCommit : Option Text
  observedAt : Option Text
  reason : Option Text

structure RunDeliveryObservation where
  workspaceId : Text
  repository : Option Text
  taskId : Text
  runId : Text
  runState : Text
  runFinishedAt : Option Text
  deliveryStatus : DeliveryStatus
  commit : CommitObservation
  landing : LandingObservation

def decodeDeliveryStatus : Json → Except SerdeError DeliveryStatus := Json.decodeVariant DeliveryStatus.wire

def decodeCommit (value : Json) : Except SerdeError CommitObservation := do
  let values ← value.fields ["status", "base_sha", "head_sha", "reason"]
  return {
    status := ← Json.required values "status" (Json.decodeVariant CommitStatus.wire)
    baseSha := ← Json.optional values "base_sha" Json.decodeString
    headSha := ← Json.optional values "head_sha" Json.decodeString
    reason := ← Json.optional values "reason" Json.decodeString }

def decodeLanding (value : Json) : Except SerdeError LandingObservation := do
  let values ← value.fields
    ["status", "method", "landed_commit", "observed_at", "reason"]
  return {
    status := ← Json.required values "status" (Json.decodeVariant LandingStatus.wire)
    method := ← Json.optional values "method" (Json.decodeVariant LandingMethod.wire)
    landedCommit := ← Json.optional values "landed_commit" Json.decodeString
    observedAt := ← Json.optional values "observed_at" Json.decodeString
    reason := ← Json.optional values "reason" Json.decodeString }

def decodeObservation (value : Json) : Except SerdeError RunDeliveryObservation := do
  let values ← value.fields
    ["workspace_id", "repository", "task_id", "run_id", "run_state",
      "run_finished_at", "delivery_status", "commit", "landing"]
  return {
    workspaceId := ← Json.required values "workspace_id" Json.decodeString
    repository := ← Json.optional values "repository" Json.decodeString
    taskId := ← Json.required values "task_id" Json.decodeString
    runId := ← Json.required values "run_id" Json.decodeString
    runState := ← Json.required values "run_state" Json.decodeString
    runFinishedAt := ← Json.optional values "run_finished_at" Json.decodeString
    deliveryStatus := ← Json.required values "delivery_status" decodeDeliveryStatus
    commit := ← Json.required values "commit" decodeCommit
    landing := ← Json.required values "landing" decodeLanding }

def runDeliverySchemaVersion : UInt64 := 1

def isFullSha (value : Text) : Bool :=
  (Text.byteLen value = 40 || Text.byteLen value = 64) && value.all fun c => c.isDigit || ('a' ≤ c && c ≤ 'f')

def decodeOperation : Text := "decode orbit.workflow.run.delivery"

/-- Refuse an id that is not full. -/
def checkSha (field : String) (sha : Option Text) : Except GraphError Unit :=
  ensure (sha.all isFullSha = true)
    (.invalidData decodeOperation (field.toList ++ " is not a full lowercase commit ID"))

/-- `decode_run_delivery`, with the decoder's texts. -/
def decodeRunDelivery (describe : SerdeError → Text) (value : Json) (taskId runId : Text) :
    Except GraphError RunDeliveryObservation := do
  let version := (value.get "schema_version").bind Json.asU64
  ensure (version = some runDeliverySchemaVersion) (.invalidData decodeOperation
    ("unsupported schema_version ".toList ++ version.elim "(missing)".toList (fun version => decimal version.toNat) ++
      "; this plugin reads version " ++ decimal runDeliverySchemaVersion.toNat))
  let observation ← (decodeObservation value).mapError fun error => GraphError.invalidData decodeOperation (describe error)
  ensure (observation.taskId = taskId ∧ observation.runId = runId) (.invalidData decodeOperation
    "the delivery read answered for a different task or run than requested")
  checkSha "commit.base_sha" observation.commit.baseSha
  checkSha "commit.head_sha" observation.commit.headSha
  checkSha "landing.landed_commit" observation.landing.landedCommit
  return observation

/-! ### The evidence in it -/

/-- What a `landed` answer attests, once checked for consistency. -/
structure LandedEvidence where
  base : Text
  head : Option Text
  landedCommit : Option Text
  method : LandingMethod

def landedEvidence (observation : RunDeliveryObservation) : Except Text LandedEvidence :=
  let ⟨_, _, taskId, runId, runState, _, status, commit, landing⟩ := observation
  match status with
  | .committed =>
    .error ("run " ++ runId ++ " committed task " ++ taskId ++
      ", but the host recorded no verified landing (landing.status=" ++ landing.status.wireName ++ ")")
  | .noChange =>
    .error ("the host verified that run " ++ runId ++ " needed no new commit for task " ++ taskId ++
      " (commit.status=" ++ commit.status.wireName ++ "); there is no delivered change")
  | .inProgress =>
    .error ("run " ++ runId ++ " has not reached a terminal outcome (run_state=" ++ runState ++ ")")
  | .notDelivered =>
    .error ("run " ++ runId ++ " ended (run_state=" ++ runState ++
      ") without committing anything for task " ++ taskId ++ " (commit.status=" ++
      commit.status.wireName ++ ")")
  | .unavailable =>
    .error ("the host's delivery evidence for run " ++ runId ++ " is unavailable (commit: " ++
      commit.reason.getD commit.status.wireName ++ ", landing: " ++
      landing.reason.getD landing.status.wireName ++ ")")
  | .landed =>
    if landing.status ≠ .merged ∨ (commit.status ≠ .committed ∧ commit.status ≠ .alreadyCommitted) then
      .error ("run " ++ runId ++ " reported landed with inconsistent evidence (commit.status=" ++
        commit.status.wireName ++ ", landing.status=" ++ landing.status.wireName ++ ")")
    else
      match commit.baseSha with
      | none => .error ("the host recorded no base commit for run " ++ runId)
      | some base =>
        match landing.method with
        | none => .error ("the host recorded no landing method for run " ++ runId)
        | some method => .ok ⟨base, commit.headSha, landing.landedCommit, method⟩

/-! ### What is let through -/

/-- The host's answer is for a task and a run, and says that they landed and were merged. -/
def MarkedLanded (value : Json) (taskId runId : Text) : Prop :=
  value.get "task_id" = some (.string taskId) ∧ value.get "run_id" = some (.string runId) ∧
    (∃ status, value.get "delivery_status" = some status ∧ decodeDeliveryStatus status = .ok .landed) ∧
      ∃ landing merged, value.get "landing" = some landing ∧ decodeLanding landing = .ok merged ∧
        merged.status = .merged

section Marked

variable {value : Json} {observation : RunDeliveryObservation} {evidence : LandedEvidence}

theorem decodeObservation_ok {version : Json} (there : value.get "schema_version" = some version)
    (run : decodeObservation value = .ok observation) :
    value.get "task_id" = some (.string observation.taskId) ∧
      value.get "run_id" = some (.string observation.runId) ∧
        (∃ status, value.get "delivery_status" = some status ∧
          decodeDeliveryStatus status = .ok observation.deliveryStatus) ∧
          ∃ landing, value.get "landing" = some landing ∧ decodeLanding landing = .ok observation.landing := by
  obtain ⟨values, shape, run⟩ := bind_eq_ok.mp run
  obtain ⟨workspaceId, _, run⟩ := bind_eq_ok.mp run
  obtain ⟨repository, _, run⟩ := bind_eq_ok.mp run
  obtain ⟨taskId, task, run⟩ := bind_eq_ok.mp run
  obtain ⟨runId, runOf, run⟩ := bind_eq_ok.mp run
  obtain ⟨runState, _, run⟩ := bind_eq_ok.mp run
  obtain ⟨finished, _, run⟩ := bind_eq_ok.mp run
  obtain ⟨status, delivery, run⟩ := bind_eq_ok.mp run
  obtain ⟨commit, _, run⟩ := bind_eq_ok.mp run
  obtain ⟨landing, landed, run⟩ := bind_eq_ok.mp run
  obtain rfl := Except.ok.inj run
  obtain rfl := Json.fields_of_get there shape
  obtain ⟨found, task, decoded⟩ := Json.required_ok task
  obtain rfl := Json.decodeString_ok decoded
  obtain ⟨found, runOf, decoded⟩ := Json.required_ok runOf
  obtain rfl := Json.decodeString_ok decoded
  exact ⟨task, runOf, Json.required_ok delivery, Json.required_ok landed⟩

variable {describe : SerdeError → Text} {taskId runId : Text}

theorem decodeRunDelivery_ok
    (run : decodeRunDelivery describe value taskId runId = .ok observation) :
    (∃ version, value.get "schema_version" = some version) ∧ decodeObservation value = .ok observation ∧
      observation.taskId = taskId ∧ observation.runId = runId := by
  obtain ⟨_, supported, run⟩ := bind_eq_ok.mp run
  obtain ⟨decoded, read, run⟩ := bind_eq_ok.mp run
  obtain ⟨_, requested, run⟩ := bind_eq_ok.mp run
  obtain ⟨_, _, run⟩ := bind_eq_ok.mp run
  obtain ⟨_, _, run⟩ := bind_eq_ok.mp run
  obtain ⟨_, _, run⟩ := bind_eq_ok.mp run
  obtain rfl := Except.ok.inj run
  obtain ⟨version, there, _⟩ := Option.bind_eq_some_iff.mp (ensure_eq_ok.mp supported)
  exact ⟨⟨version, there⟩, mapError_eq_ok.mp read, ensure_eq_ok.mp requested⟩

theorem landedEvidence_ok (run : landedEvidence observation = .ok evidence) :
    observation.deliveryStatus = .landed ∧ observation.landing.status = .merged ∧
      observation.commit.baseSha = some evidence.base ∧ evidence.head = observation.commit.headSha := by
  obtain ⟨workspaceId, repository, taskId, runId, runState, finished, status, commit, landing⟩ := observation
  unfold landedEvidence at run
  cases status with
  | committed | noChange | inProgress | notDelivered | unavailable => cases run
  | landed =>
    dsimp only at run ⊢
    split at run
    next => cases run
    next consistent =>
      obtain ⟨merged, -⟩ := not_or.mp consistent
      split at run
      next => cases run
      next base recorded =>
        split at run
        next => cases run
        next method _ =>
          obtain rfl := Except.ok.inj run
          exact ⟨rfl, not_not.mp merged, recorded, rfl⟩

theorem markedLanded (decoded : decodeRunDelivery describe value taskId runId = .ok observation)
    (landed : landedEvidence observation = .ok evidence) : MarkedLanded value taskId runId := by
  obtain ⟨⟨version, there⟩, read, rfl, rfl⟩ := decodeRunDelivery_ok decoded
  obtain ⟨status, merged, -, -⟩ := landedEvidence_ok landed
  obtain ⟨task, run, delivery, landing⟩ := decodeObservation_ok there read
  rw [status] at delivery
  obtain ⟨found, landing, decoded⟩ := landing
  exact ⟨task, run, delivery, found, observation.landing, landing, decoded, merged⟩

end Marked

end OrbitGraph.Delivery
