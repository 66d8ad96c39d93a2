import OrbitGraph.History.Git

/-!
Extraction: an envelope is checked against the repository, and Git is asked what
the delivery changed. Deliveries inferred from first-parent commits are made
here too.
-/

namespace OrbitGraph.History

open Lib

def deliveryImportSchemaVersion : Nat := 2

def changeExtractorVersion : Nat := 3

def historyIndexSchemaVersion : Nat := 5

def previousHistoryIndexSchemaVersion : Nat := 4

/-- A handle to the history index: the scope it works on and the database it opens. -/
structure HistoryIndex where
  repository : Text
  landingBranch : Text
  dbPath : Text
  readOnly : Bool
  deriving DecidableEq

section

variable [GitObjects] (repo : Repository)

/-- The answer to an ancestry question must be yes. -/
def checkDescendant (operation : Text) (answer : Except Text Bool) (otherwise : GraphError) :
    Except GraphError Unit :=
  match answer with
  | .error reason => .error (.invalidData operation reason)
  | .ok false => .error otherwise
  | .ok true => .ok ()

/-- The checks of `validate_delivery` that need no repository. -/
def validateEnvelope (delivery : DeliveryImport) : Except GraphError Unit := do
  ensure (delivery.schemaVersion = deliveryImportSchemaVersion)
    (.invalidData "validate delivery import schema"
      ("unsupported schema_version " ++ decimal delivery.schemaVersion ++
        "; expected " ++ decimal deliveryImportSchemaVersion))
  ensure (¬(isBlank delivery.deliveryId || isBlank delivery.capturedAt ||
      isBlank delivery.source.system))
    (.invalidData "validate delivery import"
      "delivery_id, source.system, and captured_at must be non-empty")
  validateTimestamp "delivery captured_at" delivery.capturedAt
  validateTemporalFact "delivered_at" delivery.deliveredAt
  ensure (¬(delivery.evidence = .gitOnly ∧ delivery.deliveredAt.status = .known))
    (.invalidData "validate delivery temporal evidence"
      "git_only evidence cannot assert a known delivery time")
  delivery.tasks.forM validateTaskAssociation

/-- `validate_delivery`: the commits before and after. -/
def validateDelivery (delivery : DeliveryImport) : Except GraphError (Oid × Oid) := do
  validateEnvelope delivery
  let detected ← repo.identity
  ensure (delivery.repository = detected)
    (.invalidData "validate delivery repository"
      "repository mismatch: envelope must use the local credential-free origin identity")
  let before ← repo.resolveCommit delivery.beforeRevision
  let after ← repo.resolveCommit delivery.afterRevision
  let notDescendant := GraphError.invalidData "validate delivery revision ancestry"
    (after.hex ++ " is not a descendant of " ++ before.hex)
  ensure (before ≠ after) notDescendant
  checkDescendant "validate delivery revision ancestry" (repo.descendantOf after before)
    notDescendant
  let tip ← repo.branchTip delivery.landingBranch
  if tip = after then return (before, after)
  else do
    checkDescendant "validate delivery landing branch" (repo.descendantOf tip after)
      (.invalidData "validate delivery landing branch"
        ("after revision " ++ after.hex ++ " is not reachable from branch tip " ++
          tip.hex))
    return (before, after)

/-- `extract_tree_diff`, of the trees of two commits. -/
def extractTreeDiff (before after : Oid) : Except GraphError (List FileChange) :=
  match repo.diffError before after with
  | none => .ok (GitObjects.treeDiff before after)
  | some e => .error e

def extractDelivery (delivery : DeliveryImport) : Except GraphError DeliveredChange := do
  let (before, after) ← validateDelivery repo delivery
  let _ ← repo.findCommit "load before commit" before
  let _ ← repo.findCommit "load after commit" after
  let files ← extractTreeDiff repo before after
  return { delivery, files, suppliedSnapshots := [] }

def lines (s : Text) : List Text :=
  let pieces := Text.splitChar '\n' s
  let last := (pieces.getLast?).getD []
  (pieces.dropLast.map fun line => (Text.stripSuffix ['\r'] line).getD line) ++
    if last = [] then [] else [last]

/-- The task ids that the trailers of a commit message name, in order. -/
def taskIdsFromMessage (message : Text) : List Text :=
  let ids := (lines message).flatMap fun line =>
    match Text.splitOnce ":" line with
    | none => []
    | some (key, value) =>
      let key := (Text.trim key).map Char.toLower
      if key = "task-id" ∨ key = "orbit-task" then
        ((Text.splitChar ',' value).map Text.trim).filter (· ≠ [])
      else []
  (ids.insertionSort fun a b => Text.ble a b = true).dedup

/-- `unix:<seconds>`. -/
def unixTimestamp (seconds : Int) : Text := "unix:" ++ signedDecimal seconds

/-- A task named by the trailer of the commit `oid`. -/
def gitTask (oid : Oid) (subject commitAt capturedAt taskId : Text) : TaskAssociation :=
  let trailer : Provenance := { system := "git_trailer", recordId := some oid.hex }
  { taskId
    title := subject
    description := []
    acceptanceCriteria := []
    source := trailer
    createdAt := { status := .unavailable, timestamp := none, source := trailer }
    snapshotAvailableAt :=
      { status := .uncertain
        timestamp := some commitAt
        source := { system := "git_commit", recordId := some oid.hex } }
    textAvailability := .uncertain
    capturedAt }

/-- The envelope of the first-parent commit `oid`, captured at `capturedAt`. -/
def gitDelivery (index : HistoryIndex) (oid parent : Oid) (capturedAt : Text) : DeliveryImport :=
  let commit := GitObjects.commit oid
  let message := commit.message.getD []
  let subject := Text.trim ((lines message).head?.getD [])
  let commitAt := unixTimestamp commit.time
  { schemaVersion := deliveryImportSchemaVersion
    repository := index.repository
    landingBranch := index.landingBranch
    beforeRevision := parent.hex
    afterRevision := oid.hex
    deliveryId := "git:" ++ oid.hex
    evidence := .gitOnly
    source := { system := "git_first_parent", recordId := some oid.hex }
    deliveredAt :=
      { status := .uncertain
        timestamp := some commitAt
        source := { system := "git_commit", recordId := some oid.hex } }
    capturedAt
    tasks := (taskIdsFromMessage message).map (gitTask oid subject commitAt capturedAt) }

/-- `commit.parent(0)`. -/
def loadParent (operation : Text) (oid : Oid) : Except GraphError Oid :=
  match firstParent oid with
  | none => .error (.git operation "parent 0 does not exist")
  | some parent => do
      let _ ← repo.findCommit operation parent
      return parent

/-- `ingestion_timestamp`; `now` is the system time, which may lie before 1970. -/
def ingestionTimestamp (now : Option Nat) : Except GraphError Text :=
  match now with
  | some seconds => .ok (unixTimestamp seconds)
  | none => .error (.invalidData "capture history ingestion time"
      "second time provided was later than self")

/-- One round of `extract_git_deliveries`; `clock oid` is the time of the round. -/
def extractGitDelivery (index : HistoryIndex) (clock : Oid → Option Nat) (oid : Oid) :
    Except GraphError DeliveredChange := do
  let _ ← repo.findCommit "load Git-only delivery commit" oid
  let parent ← loadParent repo "load Git-only delivery parent" oid
  let capturedAt ← ingestionTimestamp (clock oid)
  extractDelivery repo (gitDelivery index oid parent capturedAt)

def extractGitDeliveries (index : HistoryIndex) (clock : Oid → Option Nat) (commits : List Oid) :
    Except GraphError (List DeliveredChange) :=
  commits.mapM (extractGitDelivery repo index clock)

end

end OrbitGraph.History
