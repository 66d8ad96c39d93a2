import OrbitGraph.Lib.TransitionSystem
import OrbitGraph.History.Versions

/-!
The operations of the history index, as commands over the database file, and the
transition system that they make.

A file without tables is `none`. What an operation reads before it takes the
index lock may be old by then: a sync is given the scope it observed, a rebuild
the repository in which it enumerated commits. Everything from the lock on is
one step, since every writer takes the lock.
-/

namespace OrbitGraph.History

open Lib Database

/-- Where the surroundings of an operation may fail it: the repository, the lock, the
connection, a transaction, or a step of the identity purge. -/
inductive FailurePoint where
  | repository
  | lock
  | connection
  | initializeSchema
  | legacyCopy
  | identityMigration
  | vacuum
  | checkpoint
  | purgeComplete
  | commit
  deriving DecidableEq

/-- What an operation runs in. `readerActive` keeps the write-ahead log from being
truncated. -/
structure Environment where
  repo : Repository
  clock : Oid → Option Nat
  failure : FailurePoint → Option GraphError
  readerActive : Bool

section

variable {σ : Type}

/-- Fail here if the surroundings do. -/
def Environment.check (env : Environment) (point : FailurePoint) : Except GraphError Unit :=
  match env.failure point with
  | none => .ok ()
  | some e => .error e

/-- Fail here if the check fails. -/
def require (check : Except GraphError Unit) : Command GraphError σ Unit :=
  Command.query fun _ => check

end

/-! ### Opening -/

/-- What `initialize_schema` leaves. -/
def initialSchema : Database where
  historyMeta :=
    (.schemaVersion, decimal historyIndexSchemaVersion) ::
      contractVersions.map fun c => (.contract c, decimal c.expected)
  scopes := []
  deliveries := []
  derived := []

/-- The `initialize_schema` of an empty database. -/
def initializeIfEmpty (env : Environment) : Command GraphError (Option Database) Unit
  | some db => (.ok (), some db)
  | none =>
    match env.failure .initializeSchema with
    | some e => (.error e, none)
    | none => (.ok (), some initialSchema)

def onTables {α : Type} (command : Command GraphError Database α) :
    Command GraphError (Option Database) α
  | none => (.error (sqliteError "open history index" "no such table"), none)
  | some db => ((command db).1, some (command db).2)

/-- `read_pending_identity_purge`. -/
def identityPurgePending (db : Database) : Bool :=
  (db.metaValue .originIdentityPurgePending).isSome

/-- The end of `finish_identity_purge`, once something is pending. -/
def purgeIdentity (env : Environment) : Command GraphError Database Unit := do
  require (env.check .vacuum)
  require (env.check .checkpoint)
  require (ensure (¬env.readerActive)
    (.invalidData "checkpoint history identity migration"
      ("a reader prevented purging the old history WAL; close readers and reopen the " ++
        "index").toList))
  Command.transaction (env.failure .purgeComplete) fun db =>
    .ok ((), db.deleteMeta .originIdentityPurgePending)

def finishIdentityPurge (env : Environment) : Command GraphError Database Unit := do
  let pending ← Command.query fun db => .ok (identityPurgePending db)
  if pending then purgeIdentity env else Command.answer ()

/-- The outcome of a legacy copy that copies. -/
def copiedOutcome (previous : Database) : Text :=
  "copied " ++ decimal previous.deliveries.length ++ " deliveries and " ++
    decimal previous.scopes.length ++ " scopes from schema " ++
    decimal previousHistoryIndexSchemaVersion

/-- Whether `read_previous_schema` accepts the versions of the previous database. -/
def previousMatches (previous : Database) : Bool :=
  previous.metaValue .schemaVersion = some (decimal previousHistoryIndexSchemaVersion) &&
    contractVersions.all fun c => previous.metaValue (.contract c) = some (decimal c.expected)

def insertStored (db : Database) (row : DeliveredChange × Contracts) : Except GraphError Database := do
  let (_, db) ← insertDelivery row.1 row.2 db
  return db

def copyPrevious (previous db : Database) : Except GraphError Database := do
  let db ← (previous.deliveries.map fun row => (row.payload, row.extractedUnder)).foldlM
    insertStored db
  previous.scopes.foldlM (fun db row => db.insertScope "copy history scope" row) db

/-- The transaction of `copy_previous_schema_once`. -/
def copyPreviousSchema (previous : Option Database) (db : Database) :
    Except GraphError (Unit × Database) := do
  if (db.metaValue .legacyCopy).isSome then return ((), db)
  if db.deliveries.length + db.scopes.length > 0 then
    return ((), db.putMeta .legacyCopy "skipped: index already populated")
  match previous with
  | none => return ((), db.putMeta .legacyCopy "skipped: no previous index")
  | some previous =>
    if previousMatches previous then
      let db ← copyPrevious previous db
      return ((), db.putMeta .legacyCopy (copiedOutcome previous))
    else
      return ((), db.putMeta .legacyCopy
        "skipped: previous index has incompatible versions")

namespace HistoryIndex

variable (index : HistoryIndex)

/-- `credentialed_repositories`: stored repositories that are the handle's once their
credentials are removed. -/
def credentialedRepositories (db : Database) : List Text :=
  ((db.storedScopes.map Prod.fst).dedup).filter fun repository =>
    repository ≠ index.repository &&
      repositoryIdentityWithoutCredentials repository = index.repository

def branchesOf (db : Database) (repository : Text) : List Text :=
  (db.storedScopes.filter fun scope => scope.1 = repository).map Prod.snd

/-- Take a branch for migration, unless it is taken or in use. -/
def claimBranch (db : Database) (branches : List Text) (branch : Text) :
    Except GraphError (List Text) := do
  ensure ((index.repository, branch) ∉ db.storedScopes ∧ branch ∉ branches)
    (.invalidData "migrate history identity"
      ("credential-free history scopes collide; back up the index and original " ++
        "verified-delivery envelopes, move the old index out of .orbit-graph, then run history " ++
        "sync and reimport envelopes with credential-free repository identities").toList)
  return branches ++ [branch]

def migratedBranches (db : Database) (legacy : List Text) : Except GraphError (List Text) :=
  (legacy.flatMap (branchesOf db)).foldlM (index.claimBranch db) []

/-- Give the version of one contract of a migrated scope to the scope's new key. -/
def moveScopeVersion (legacy : Text) (c : Contract) (db : Database) (version : Text × Text) :
    Except GraphError Database := do
  let db ← db.insertMeta "copy legacy history scope version"
    (.scopeContract c index.repository version.1) version.2
  return db.deleteMeta (.scopeContract c legacy version.1)

def scopeVersionsOf (db : Database) (c : Contract) (repository : Text) (branches : List Text) :
    List (Text × Text) :=
  db.historyMeta.filterMap fun (key, value) =>
    match key with
    | .scopeContract c' repository' branch =>
      if c' = c ∧ repository' = repository ∧ branch ∈ branches then some (branch, value) else none
    | _ => none

def moveScopeVersions (branches : List Text) (legacy : Text) (db : Database) (c : Contract) :
    Except GraphError Database :=
  (scopeVersionsOf db c legacy branches).foldlM (index.moveScopeVersion legacy c) db

/-- A payload under the handle's repository. -/
def rekey (change : DeliveredChange) : DeliveredChange :=
  { change with delivery := { change.delivery with repository := index.repository } }

def copyScopes (legacy : Text) (db : Database) : Except GraphError Database :=
  (db.scopes.filter fun row => row.repository = legacy).foldlM
    (fun db row => db.insertScope "copy legacy history cursors"
      { row with repository := index.repository }) db

/-- One repository's deliveries, inserted again under the handle's. -/
def reinsertDeliveries (legacy : Text) (db : Database) : Except GraphError Database :=
  ((db.deliveries.filter fun row => row.key.repository = legacy).map fun row =>
    (index.rekey row.payload, row.extractedUnder)).foldlM insertStored db

def deleteRepository (legacy : Text) (db : Database) : Database :=
  let kept := db.deleteDeliveries fun key => key.repository = legacy
  { kept with scopes := kept.scopes.filter fun row => row.repository ≠ legacy }

/-- Move everything stored under one repository. -/
def migrateRepository (branches : List Text) (db : Database) (legacy : Text) :
    Except GraphError Database := do
  let db ← index.reinsertDeliveries legacy db
  let db ← index.copyScopes legacy db
  let db ← contractVersions.foldlM (index.moveScopeVersions branches legacy) db
  return deleteRepository legacy db

/-- The transaction of `migrate_credentialed_scopes`. -/
def migrateScopes (db : Database) : Except GraphError (Unit × Database) := do
  let legacy := index.credentialedRepositories db
  let branches ← index.migratedBranches db legacy
  let db ← legacy.foldlM (index.migrateRepository branches) db
  return ((), db.putMeta .originIdentityPurgePending "pending")

def migrateCredentialedScopes (env : Environment) : Command GraphError Database Unit := do
  let legacy ← Command.query fun db => .ok (index.credentialedRepositories db)
  if legacy = [] then finishIdentityPurge env
  else do
    Command.transaction (env.failure .identityMigration) index.migrateScopes
    finishIdentityPurge env

/-- The part of `open` after the tables are there. -/
def openTables (env : Environment) (previous : Option Database) : Command GraphError Database Unit := do
  Command.query index.validateSchemaVersion
  finishIdentityPurge env
  Command.query fun db =>
    if index.credentialedRepositories db = [] then index.validateVersions db
    else index.refuseUnsupportedContracts db
  Command.transaction (env.failure .legacyCopy) (copyPreviousSchema previous)
  index.migrateCredentialedScopes env
  Command.query index.validateVersions

/-- `resolve`, with the database path that the index directory gives. -/
def resolve (env : Environment) (dbPath branch : Text) : Except GraphError HistoryIndex := do
  env.check .repository
  ensure (env.repo.workdir ≠ none)
    (.invalidData "open history Git repository" "bare repositories are unsupported")
  let repository ← env.repo.identity
  let landingBranch := normalizeBranch branch
  ensure (landingBranch ≠ [])
    (.invalidInput "open history index" "branch"
      "landing branch must be non-empty")
  return { repository, landingBranch, dbPath, readOnly := false }

/-- `open`, the writer's. -/
def openWriter (env : Environment) (previous : Option Database) (dbPath branch : Text) :
    Command GraphError (Option Database) HistoryIndex := do
  let index ← Command.query fun _ => resolve env dbPath branch
  require (env.check .lock)
  initializeIfEmpty env
  onTables (index.openTables env previous)
  return index

def refuseCredentialedScope (db : Database) : Except GraphError Unit :=
  if identityPurgePending db then
    .error (.invalidData "open history index"
      ("history identity purge is pending; close readers and run `orbit-graph history sync` " ++
        "before reading status").toList)
  else if index.credentialedRepositories db = [] then .ok ()
  else
    .error (.invalidData "open history index"
      ("a legacy credential-bearing history scope exists; run `orbit-graph history sync " ++
        "--branch <branch>` to migrate it before reading status").toList)

def openReadOnly (env : Environment) (dbPath branch : Text) :
    Command GraphError (Option Database) HistoryIndex := fun file =>
  match resolve env dbPath branch with
  | .error e => (.error e, file)
  | .ok resolved =>
    let index := { resolved with readOnly := true }
    match file with
    | none => (.error (.indexMissing dbPath
        ("no history index for branch " ++ index.landingBranch)), file)
    | some db =>
      let checks : Except GraphError Unit := do
        env.check .connection
        index.validateSchemaVersion db
        index.refuseCredentialedScope db
        index.validateVersions db
      (checks.map fun _ => index, file)

/-- `rebuilding agent-main is refused`. -/
def refuseAgentMain : Except GraphError Unit :=
  ensure (index.landingBranch ≠ "agent-main")
    (.invalidInput "rebuild history" "branch"
      "rebuilding agent-main is refused because it is the agent work branch")

/-- `open_for_rebuild`, to preview. -/
def openPreview (env : Environment) (dbPath branch : Text) :
    Command GraphError (Option Database) HistoryIndex := fun file =>
  let checks : Except GraphError HistoryIndex := do
    let resolved ← resolve env dbPath branch
    resolved.refuseAgentMain
    let index := { resolved with readOnly := true }
    match file with
    | none => return index
    | some db =>
      env.check .connection
      index.validateSchemaVersion db
      index.refuseUnsupportedContracts db
      index.refuseCredentialedScope db
      return index
  (checks, file)

/-- The part of a confirmed `open_for_rebuild` on tables that were there. -/
def checkRebuildable (db : Database) : Except GraphError Unit := do
  index.validateSchemaVersion db
  index.refuseUnsupportedContracts db

/-- The tables of a confirmed `open_for_rebuild`: made, or checked if there. -/
def initializeOrCheck (env : Environment) : Command GraphError (Option Database) Unit := fun file =>
  match file with
  | none => initializeIfEmpty env none
  | some db => onTables (Command.query index.checkRebuildable) (some db)

/-- `open_for_rebuild`, confirmed. -/
def openConfirmed (env : Environment) (dbPath branch : Text) :
    Command GraphError (Option Database) HistoryIndex := do
  let index ← Command.query fun _ => resolve env dbPath branch
  require index.refuseAgentMain
  require (env.check .lock)
  index.initializeOrCheck env
  onTables (index.migrateCredentialedScopes env)
  return index

/-! ### Imports -/

def refuseReadOnly (operation : Text) : Except GraphError Unit :=
  ensure (¬index.readOnly)
    (.invalidData operation
      (index.dbPath ++ (" was opened read-only; write it with `orbit-graph history sync`, " ++
        "`import` or `rebuild`").toList))

def ensureScope (delivery : DeliveryImport) : Except GraphError Unit :=
  ensure (delivery.repository = index.repository ∧ normalizeBranch delivery.landingBranch = index.landingBranch)
    (.invalidData "validate history import scope"
      ("repository/branch mismatch: expected " ++ index.repository ++ " " ++
        index.landingBranch))

/-- The envelope as it is stored: the tasks and the branch in normal form. -/
def normalizeDelivery (delivery : DeliveryImport) (tasks : List TaskAssociation) : DeliveryImport :=
  { delivery with tasks, landingBranch := normalizeBranch delivery.landingBranch }

variable [GitObjects]

/-- What `import_with_supplied_snapshots` does before it takes the lock. -/
def prepareImport (repo : Repository) (delivery : DeliveryImport)
    (suppliedSnapshots : List TaskAssociation) : Except GraphError DeliveredChange := do
  index.refuseReadOnly "import history delivery"
  let tasks ← normalizeTasks delivery.tasks
  let suppliedSnapshots ← normalizeTasks suppliedSnapshots
  suppliedSnapshots.forM fun snapshot =>
    ensure (tasks.any fun task => task.taskId = snapshot.taskId)
      (.invalidData "validate caller-supplied task snapshot"
        ("task " ++ snapshot.taskId ++ " is absent from the observed delivery"))
  let delivery := normalizeDelivery delivery tasks
  index.ensureScope delivery
  let extracted ← extractDelivery repo delivery
  return { extracted with suppliedSnapshots }

/-- `import_with_supplied_snapshots`. -/
def importDelivery (env : Environment) (delivery : DeliveryImport)
    (suppliedSnapshots : List TaskAssociation) :
    Command GraphError Database HistoryImportReport := do
  let extracted ← Command.query fun _ => index.prepareImport env.repo delivery suppliedSnapshots
  require (env.check .lock)
  Command.transaction (env.failure .commit) (insertDelivery extracted .current)

omit [GitObjects] in
/-- The part of `add_supplied_snapshot` that has read the delivery. -/
def attachSnapshot (row : DeliveryRow) (snapshot : TaskAssociation) (db : Database) :
    Except GraphError (Bool × Database) := do
  let change := row.payload
  ensure (change.delivery.evidence = .verifiedDelivery ∧
      change.delivery.tasks.any fun task => task.taskId = snapshot.taskId)
    (.invalidData "validate caller-supplied task snapshot"
      "snapshot requires a verified run-observed delivery with the same task ID")
  match change.suppliedSnapshots.find? fun stored => stored.taskId = snapshot.taskId with
  | some existing => do
      ensure (existing = snapshot)
        (.invalidData "deduplicate caller-supplied task snapshot"
          ("task " ++ snapshot.taskId ++ " already has a different supplied snapshot"))
      return (false, db)
  | none => do
      let db ← insertSnapshot row.key (db.updatePayload row.key (change.extend [snapshot])) snapshot
      return (true, db)

omit [GitObjects] in
/-- The transaction of `add_supplied_snapshot`. -/
def storeSnapshot (deliveryId : Text) (snapshot : TaskAssociation) (db : Database) :
    Except GraphError (Bool × Database) :=
  match db.row
    { repository := index.repository, landingBranch := index.landingBranch, deliveryId } with
  | none => .error (sqliteError "read delivery for task snapshot" "Query returned no rows")
  | some row => attachSnapshot row snapshot db

omit [GitObjects] in
def addSuppliedSnapshot (env : Environment) (deliveryId : Text) (snapshot : TaskAssociation) :
    Command GraphError Database Bool := do
  require (index.refuseReadOnly "store caller-supplied task snapshot")
  require (validateTaskAssociation snapshot)
  require (env.check .lock)
  Command.transaction (env.failure .commit) (index.storeSnapshot deliveryId (redactTask snapshot))

end HistoryIndex

theorem storeSnapshot_ok {index : HistoryIndex} {deliveryId : Text} {snapshot : TaskAssociation}
    {db db' : Database} {stored : Bool} (h : index.storeSnapshot deliveryId snapshot db = .ok (stored, db')) :
    db' = db ∨ ∃ row, db.row row.key = some row ∧
      row.payload.suppliedSnapshots.find? (fun s => s.taskId = snapshot.taskId) = none ∧
      db' = (db.updatePayload row.key (row.payload.extend [snapshot])).withRows row.key [snapshotRow snapshot] := by
  unfold HistoryIndex.storeSnapshot at h
  split at h
  · cases h
  next row found =>
    obtain ⟨_, _, h⟩ := bind_eq_ok.mp h
    split at h
    · obtain ⟨_, _, h⟩ := bind_eq_ok.mp h
      obtain ⟨_, rfl⟩ := Prod.mk.inj (Except.ok.inj h)
      exact .inl rfl
    next none =>
      obtain ⟨db₁, inserted, h⟩ := bind_eq_ok.mp h
      obtain ⟨_, rfl⟩ := Prod.mk.inj (Except.ok.inj h)
      refine .inr ⟨row, ?_, none, insertDerived_ok inserted⟩
      rw [key_of_row found]
      exact found

/-! ### Syncs -/

/-- Outcome of an incremental sync. -/
structure HistorySyncReport where
  commitsIndexed : Nat
  deliveriesInserted : Nat
  cursorBefore : Option Text
  cursorAfter : Option Text
  snapshotTip : Text
  resumeFrom : Option Text
  complete : Bool

/-- What a sync has found out when it takes the lock. -/
structure SyncPlan where
  scope : HistoryScope
  cursor : Option Oid
  snapshotTip : Oid
  batch : PendingBatch
  extracted : List DeliveredChange

/-- A stored object id, for the operation that reads it. -/
def parseOid (operation : String) : Option Text → Except GraphError (Option Oid)
  | none => .ok none
  | some value =>
    match Oid.fromStr value with
    | some oid => .ok (some oid)
    | none => .error (.git operation.toList "invalid object id")

/-- The loop over the extracted deliveries: how many were inserted. -/
def insertExtracted (inserted : Nat × Database) (change : DeliveredChange) :
    Except GraphError (Nat × Database) := do
  let (report, db) ← insertDelivery change .current inserted.2
  return (if report.inserted then inserted.1 + 1 else inserted.1, db)

namespace HistoryIndex

variable (index : HistoryIndex)

section

variable [GitObjects]

/-- The tip of a bootstrap in progress must still be on the branch. -/
def checkSnapshotTip (repo : Repository) (snapshotTip tip : Oid) (limit : HistoryLimit) :
    Except GraphError Unit :=
  if snapshotTip = tip then .ok ()
  else do
    ensure (← isFirstParentAncestor repo snapshotTip tip limit)
      (.invalidData "validate history bootstrap tip"
        "landing branch diverged while a bounded bootstrap was in progress")

/-- `sync_impl` up to the lock, having read `scope`. -/
def planSync (env : Environment) (limit : HistoryLimit) (scope : HistoryScope) :
    Except GraphError SyncPlan := do
  let cursor ← parseOid "read history cursor" scope.cursor
  let tip ← env.repo.branchTip index.landingBranch
  let bootstrapTip ← parseOid "parse history bootstrap tip" scope.bootstrapTip
  let snapshotTip := bootstrapTip.getD tip
  checkSnapshotTip env.repo snapshotTip tip limit
  let frontier ← parseOid "parse history bootstrap frontier" scope.bootstrapFrontier
  let batch ← pendingBatch env.repo cursor (frontier.getD snapshotTip) limit
  let extracted ← extractGitDeliveries env.repo index env.clock batch.commits
  return { scope, cursor, snapshotTip, batch, extracted }

end

def writeSyncedScope (plan : SyncPlan) (db : Database) : Database :=
  if plan.batch.complete then
    db.writeScope index.repository index.landingBranch (some plan.snapshotTip) none none
  else
    db.writeScope index.repository index.landingBranch plan.cursor (some plan.snapshotTip)
      plan.batch.resumeFrom

theorem writeSyncedScope_deliveries (plan : SyncPlan) (db : Database) :
    (index.writeSyncedScope plan db).deliveries = db.deliveries := by
  unfold writeSyncedScope
  split <;> exact upsertScope_deliveries

theorem writeSyncedScope_derived (plan : SyncPlan) (db : Database) :
    (index.writeSyncedScope plan db).derived = db.derived := by
  unfold writeSyncedScope
  split <;> exact upsertScope_derived

/-- The transaction of `sync_impl`. -/
def commitSync (plan : SyncPlan) (db : Database) : Except GraphError (HistorySyncReport × Database) := do
  ensure (db.readScope index.repository index.landingBranch = plan.scope)
    (.invalidData "sync history cursor"
      "history cursor changed concurrently; retry from fresh status")
  let (inserted, db) ← plan.extracted.foldlM insertExtracted (0, db)
  .ok
    ({ commitsIndexed := plan.extracted.length
       deliveriesInserted := inserted
       cursorBefore := plan.scope.cursor
       cursorAfter := if plan.batch.complete then some plan.snapshotTip.hex else plan.scope.cursor
       snapshotTip := plan.snapshotTip.hex
       resumeFrom := plan.batch.resumeFrom.map Oid.hex
       complete := plan.batch.complete },
      index.writeSyncedScope plan db)

/-- `sync`, having observed `scope` before the lock. -/
def sync [GitObjects] (env : Environment) (limit : Option Nat) (scope : HistoryScope) :
    Command GraphError Database HistorySyncReport := do
  require (index.refuseReadOnly "sync history")
  let limit ← Command.query fun _ => validateHistoryLimit limit
  require (env.check .repository)
  let plan ← Command.query fun _ => index.planSync env limit scope
  require (env.check .lock)
  Command.transaction (env.failure .commit) (index.commitSync plan)

end HistoryIndex

/-! ### Rebuilds -/

/-- Outcome of a rebuild or its preview. -/
structure HistoryRebuildReport where
  databasePath : Text
  landingBranch : Text
  confirmed : Bool
  verifiedDeliveries : Nat
  wouldRemoveDeliveries : Nat
  removedVerifiedDeliveries : Nat
  removedDeliveries : Nat
  sync : HistorySyncReport

/-- What a rebuild has found out when it takes the lock. -/
structure RebuildPlan where
  tip : Oid
  extracted : List DeliveredChange

namespace HistoryIndex

variable (index : HistoryIndex)

def inScope (key : DeliveryKey) : Bool :=
  key.repository = index.repository ∧ key.landingBranch = index.landingBranch

def rows (db : Database) : List DeliveryRow := db.deliveries.filter fun row => index.inScope row.key

/-- `rebuild_scope_counts`: deliveries, verified deliveries, cursor. -/
def rebuildScopeCounts (db : Database) : Nat × Nat × Option Text :=
  ((index.rows db).length, ((index.rows db).filter fun row =>
      row.evidence = DeliveryEvidence.verifiedDelivery.asStr).length,
    (db.readScope index.repository index.landingBranch).cursor)

variable [GitObjects]

/-- A confirmed rebuild up to the lock. -/
def planRebuild (env : Environment) (limit : Option Nat) : Except GraphError RebuildPlan := do
  index.refuseAgentMain
  index.refuseReadOnly "rebuild history"
  let limit ← validateHistoryLimit limit
  env.check .repository
  let tip ← env.repo.branchTip index.landingBranch
  env.check .connection
  let commits ← pendingCommits env.repo tip none limit
  let extracted ← extractGitDeliveries env.repo index env.clock commits
  return { tip, extracted }

def extractAgain (repo : Repository) (change : DeliveredChange) : Except GraphError DeliveredChange := do
  let delivery := { change.delivery with schemaVersion := deliveryImportSchemaVersion }
  let extracted ← extractDelivery repo delivery
  return { extracted with suppliedSnapshots := change.suppliedSnapshots }

/-- The payloads that a rebuild retains. -/
def retained (discardVerified : Bool) (db : Database) : List DeliveredChange :=
  if discardVerified then []
  else
    ((index.rows db).map DeliveryRow.payload).filter fun change =>
      change.delivery.evidence ≠ .gitOnly

omit [GitObjects] in
def insertCurrent (db : Database) (change : DeliveredChange) : Except GraphError Database :=
  insertStored db (change, .current)

omit [GitObjects] in
def commitRebuild (plan : RebuildPlan) (preserved : List DeliveredChange) (db : Database) :
    Except GraphError (Nat × Database) := do
  index.refuseUnsupportedContracts db
  let (removed, db) := db.deleteScope index.repository index.landingBranch
  let db ← preserved.foldlM insertCurrent db
  let db ← plan.extracted.foldlM insertCurrent db
  let db := db.writeCursor index.repository index.landingBranch plan.tip
  let db ← stampRebuiltScope db index.repository index.landingBranch
  return (removed, db)

/-- A confirmed rebuild from the lock on; `repo` is the repository by then. -/
def applyRebuild (env : Environment) (repo : Repository) (discardVerified : Bool)
    (plan : RebuildPlan) : Command GraphError Database HistoryRebuildReport := do
  require (env.check .lock)
  let (existing, verified, cursorBefore) ← Command.query fun db => .ok (index.rebuildScopeCounts db)
  let preserved ← Command.query fun db => (index.retained discardVerified db).mapM (extractAgain repo)
  let removed ← Command.transaction (env.failure .commit) (index.commitRebuild plan preserved)
  Command.answer
    { databasePath := index.dbPath
      landingBranch := index.landingBranch
      confirmed := true
      verifiedDeliveries := verified
      wouldRemoveDeliveries := existing
      removedVerifiedDeliveries := if discardVerified then verified else 0
      removedDeliveries := removed
      sync :=
        { commitsIndexed := plan.extracted.length
          deliveriesInserted := plan.extracted.length
          cursorBefore
          cursorAfter := some plan.tip.hex
          snapshotTip := plan.tip.hex
          resumeFrom := none
          complete := true } }

/-- `rebuild_with_options`, confirmed. -/
def rebuild (env : Environment) (repo : Repository) (limit : Option Nat) (discardVerified : Bool) :
    Command GraphError Database HistoryRebuildReport := do
  let plan ← Command.query fun _ => index.planRebuild env limit
  index.applyRebuild env repo discardVerified plan

end HistoryIndex

end OrbitGraph.History
