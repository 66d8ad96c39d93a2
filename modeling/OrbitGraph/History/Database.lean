import OrbitGraph.History.Extraction

/-!
The history database: its tables, and the writes that SQLite makes for the index.

The five tables of rows derived from a payload are one list of tagged rows, each
with the delivery that owns it; the primary key of a derived row is its owner
and `primaryKey`. Rows are kept in the order of insertion.

A delivery row also records the contracts its payload was extracted under. The
program does not store this: it is what the version keys are claims about.
-/

namespace OrbitGraph.History

open Lib

/-! ### Versions -/

/-- The extraction contracts that `CONTRACT_VERSIONS` lists. -/
inductive Contract where
  | extractorVersion
  | importSchemaVersion
  deriving DecidableEq

def Contract.expected : Contract → Nat
  | .extractorVersion => changeExtractorVersion
  | .importSchemaVersion => deliveryImportSchemaVersion

def Contract.key : Contract → Text
  | .extractorVersion => "extractor_version"
  | .importSchemaVersion => "import_schema_version"

def contractVersions : List Contract := [.extractorVersion, .importSchemaVersion]

@[simp] theorem mem_contractVersions (c : Contract) : c ∈ contractVersions := by
  cases c <;> decide

/-- The versions one payload was extracted under. -/
structure Contracts where
  extractor : Nat
  importSchema : Nat
  deriving DecidableEq

def Contracts.version (versions : Contracts) : Contract → Nat
  | .extractorVersion => versions.extractor
  | .importSchemaVersion => versions.importSchema

/-- What this program extracts under. -/
def Contracts.current : Contracts where
  extractor := changeExtractorVersion
  importSchema := deliveryImportSchemaVersion

@[simp] theorem Contracts.current_version (c : Contract) : Contracts.current.version c = c.expected := by
  cases c <;> rfl

/-- The keys of `history_meta`. `scopeContract` is the text of `scope_version_key`,
which names its scope; `contractAt` is any other key with a contract before `@`. -/
inductive MetaKey where
  | schemaVersion
  | contract (contract : Contract)
  | scopeContract (contract : Contract) (repository branch : Text)
  | contractAt (contract : Contract) (suffix : Text)
  | legacyCopy
  | originIdentityPurgePending
  | other (key : Text)
  deriving DecidableEq

/-- The contract before a key's first `@`, or the whole key. -/
def MetaKey.base : MetaKey → Option Contract
  | .contract c => some c
  | .scopeContract c _ _ => some c
  | .contractAt c _ => some c
  | _ => none

/-- Whether a key begins with the contract and `@`. -/
def MetaKey.isScoped (c : Contract) : MetaKey → Bool
  | .scopeContract d _ _ => d = c
  | .contractAt d _ => d = c
  | _ => false

/-! ### Rows -/

structure HistoryScope where
  cursor : Option Text
  bootstrapTip : Option Text
  bootstrapFrontier : Option Text
  deriving DecidableEq, Inhabited

/-- `HistoryScope::default`. -/
def HistoryScope.empty : HistoryScope where
  cursor := none
  bootstrapTip := none
  bootstrapFrontier := none

structure ScopeRow where
  repository : Text
  landingBranch : Text
  scope : HistoryScope
  deriving DecidableEq

structure DeliveryKey where
  repository : Text
  landingBranch : Text
  deliveryId : Text
  deriving DecidableEq

def DeliveryImport.key (delivery : DeliveryImport) : DeliveryKey where
  repository := delivery.repository
  landingBranch := delivery.landingBranch
  deliveryId := delivery.deliveryId

/-- A row of `history_deliveries`; `extractedUnder` is not a column. -/
structure DeliveryRow where
  key : DeliveryKey
  beforeRevision : Text
  afterRevision : Text
  evidence : Text
  sourceSystem : Text
  sourceRecordId : Option Text
  deliveredStatus : Text
  deliveredAt : Option Text
  deliveredSourceSystem : Text
  deliveredSourceRecordId : Option Text
  capturedAt : Text
  taskCount : Nat
  fileCount : Nat
  symbolCount : Nat
  payload : DeliveredChange
  extractedUnder : Contracts
  deriving DecidableEq

structure TaskRow where
  taskId : Text
  title : Text
  description : Text
  acceptanceCriteria : List Text
  sourceSystem : Text
  sourceRecordId : Option Text
  createdStatus : Text
  createdAt : Option Text
  createdSourceSystem : Text
  createdSourceRecordId : Option Text
  snapshotStatus : Text
  snapshotAvailableAt : Option Text
  snapshotSourceSystem : Text
  snapshotSourceRecordId : Option Text
  textAvailability : Text
  capturedAt : Text
  deriving DecidableEq

structure FileRow where
  ordinal : Nat
  oldPath : Option Text
  newPath : Option Text
  changeKind : Text
  additions : Nat
  deletions : Nat
  beforeFallback : Option FileFallbackReason
  afterFallback : Option FileFallbackReason
  deriving DecidableEq

structure SymbolRow where
  fileOrdinal : Nat
  symbolOrdinal : Nat
  side : RevisionSide
  revision : Text
  filePath : Text
  name : Text
  qualified : Text
  kind : Text
  spanStart : Nat
  spanEnd : Nat
  signature : Option Text
  parent : Option Text
  changedLines : List Nat
  matchConfidence : SymbolMatchConfidence
  matchReason : Text
  liveAfter : Bool
  deriving DecidableEq

/-- A row of one of the tables derived from payloads: `history_tasks`,
`history_supplied_task_snapshots`, `history_files`, `history_path_lineage`,
`history_symbols`. -/
inductive DerivedRow where
  | task (row : TaskRow)
  | suppliedSnapshot (taskId : Text) (payload : TaskAssociation)
  | file (row : FileRow)
  | lineage (ordinal : Nat) (oldPath : Text) (newPath : Option Text)
  | symbol (row : SymbolRow)
  deriving DecidableEq

/-- What, with its owner, identifies a derived row. -/
inductive DerivedKey where
  | task (taskId : Text)
  | suppliedSnapshot (taskId : Text)
  | file (ordinal : Nat)
  | lineage (ordinal : Nat)
  | symbol (fileOrdinal symbolOrdinal : Nat) (side : RevisionSide)
  deriving DecidableEq

def DerivedRow.primaryKey : DerivedRow → DerivedKey
  | .task row => .task row.taskId
  | .suppliedSnapshot taskId _ => .suppliedSnapshot taskId
  | .file row => .file row.ordinal
  | .lineage ordinal _ _ => .lineage ordinal
  | .symbol row => .symbol row.fileOrdinal row.symbolOrdinal row.side

structure OwnedRow where
  owner : DeliveryKey
  row : DerivedRow
  deriving DecidableEq

/-- The tables. -/
structure Database where
  historyMeta : List (MetaKey × Text)
  scopes : List ScopeRow
  deliveries : List DeliveryRow
  derived : List OwnedRow
  deriving DecidableEq

/-! ### Projection of a payload -/

def taskRow (task : TaskAssociation) : TaskRow where
  taskId := task.taskId
  title := task.title
  description := task.description
  acceptanceCriteria := task.acceptanceCriteria
  sourceSystem := task.source.system
  sourceRecordId := task.source.recordId
  createdStatus := task.createdAt.status.asStr
  createdAt := task.createdAt.timestamp
  createdSourceSystem := task.createdAt.source.system
  createdSourceRecordId := task.createdAt.source.recordId
  snapshotStatus := task.snapshotAvailableAt.status.asStr
  snapshotAvailableAt := task.snapshotAvailableAt.timestamp
  snapshotSourceSystem := task.snapshotAvailableAt.source.system
  snapshotSourceRecordId := task.snapshotAvailableAt.source.recordId
  textAvailability := task.textAvailability.asStr
  capturedAt := task.capturedAt

def fileRow (ordinal : Nat) (file : FileChange) : FileRow where
  ordinal
  oldPath := file.oldPath
  newPath := file.newPath
  changeKind := file.kind.asStr
  additions := file.additions
  deletions := file.deletions
  beforeFallback := file.beforeFallback
  afterFallback := file.afterFallback

def symbolRow (fileOrdinal symbolOrdinal : Nat) (symbol : SymbolChange) (item : SymbolAttribution) :
    SymbolRow where
  fileOrdinal
  symbolOrdinal
  side := item.symbol.side
  revision := item.symbol.revision
  filePath := item.symbol.filePath
  name := item.symbol.name
  qualified := item.symbol.qualified
  kind := item.symbol.kind
  spanStart := item.symbol.spanStart
  spanEnd := item.symbol.spanEnd
  signature := item.symbol.signature
  parent := item.symbol.parent
  changedLines := item.changedLines
  matchConfidence := symbol.matchConfidence
  matchReason := symbol.reason
  liveAfter := symbol.liveAfter

/-- `lineage_step`: a rename continues the old path, a deletion ends it. -/
def lineageStep (file : FileChange) : Option (Text × Option Text) :=
  match file.oldPath, file.kind with
  | some oldPath, .renamed =>
    match file.newPath with
    | some newPath => if newPath ≠ oldPath then some (oldPath, some newPath) else none
    | none => none
  | some oldPath, .deleted => some (oldPath, none)
  | _, _ => none

def SymbolChange.sides (symbol : SymbolChange) : List SymbolAttribution :=
  symbol.before.toList ++ symbol.after.toList

def DeliveredChange.symbolCount (change : DeliveredChange) : Nat :=
  (change.files.map fun file => file.symbols.length).sum

def DeliveryRow.ofChange (change : DeliveredChange) (extractedUnder : Contracts) : DeliveryRow where
  key := change.delivery.key
  beforeRevision := change.delivery.beforeRevision
  afterRevision := change.delivery.afterRevision
  evidence := change.delivery.evidence.asStr
  sourceSystem := change.delivery.source.system
  sourceRecordId := change.delivery.source.recordId
  deliveredStatus := change.delivery.deliveredAt.status.asStr
  deliveredAt := change.delivery.deliveredAt.timestamp
  deliveredSourceSystem := change.delivery.deliveredAt.source.system
  deliveredSourceRecordId := change.delivery.deliveredAt.source.recordId
  capturedAt := change.delivery.capturedAt
  taskCount := change.delivery.tasks.length
  fileCount := change.files.length
  symbolCount := change.symbolCount
  payload := change
  extractedUnder

def snapshotRow (snapshot : TaskAssociation) : DerivedRow := .suppliedSnapshot snapshot.taskId snapshot

def lineageRow (ordinal : Nat) (step : Text × Option Text) : DerivedRow :=
  .lineage ordinal step.1 step.2

def symbolRows (ordinal : Nat) (file : FileChange) : List DerivedRow :=
  file.symbols.zipIdx.flatMap fun (symbol, symbolOrdinal) =>
    symbol.sides.map fun item => .symbol (symbolRow ordinal symbolOrdinal symbol item)

namespace Database

variable (db : Database)

def sqliteError (operation reason : String) : GraphError := .sqlite operation.toList reason.toList

def metaValue (key : MetaKey) : Option Text :=
  (db.historyMeta.find? fun row => row.1 = key).map Prod.snd

def readMeta (key : MetaKey) : Except GraphError Text :=
  match db.metaValue key with
  | some value => .ok value
  | none => .error (sqliteError "read history index version" "Query returned no rows")

def deleteMeta (key : MetaKey) : Database :=
  { db with historyMeta := db.historyMeta.filter fun row => row.1 ≠ key }

/-- `INSERT OR REPLACE INTO history_meta`. -/
def putMeta (key : MetaKey) (value : Text) : Database :=
  { db with historyMeta := (db.historyMeta.filter fun row => row.1 ≠ key) ++ [(key, value)] }

/-- `INSERT INTO history_meta`. -/
def insertMeta (operation : String) (key : MetaKey) (value : Text) : Except GraphError Database :=
  if db.historyMeta.any fun row => row.1 = key then
    .error (sqliteError operation "UNIQUE constraint failed: history_meta.key")
  else .ok { db with historyMeta := db.historyMeta ++ [(key, value)] }

def scopeRow (repository branch : Text) : Option ScopeRow :=
  db.scopes.find? fun row => row.repository = repository ∧ row.landingBranch = branch

def readScope (repository branch : Text) : HistoryScope :=
  ((db.scopeRow repository branch).map ScopeRow.scope).getD .empty

/-- `INSERT INTO history_scopes .. ON CONFLICT DO UPDATE`, where `update` makes the
new scope of a row that is there, and `empty` stands for one that is not. -/
def upsertScope (repository branch : Text) (update : HistoryScope → HistoryScope) : Database :=
  if (db.scopeRow repository branch).isSome then
    { db with
      scopes := db.scopes.map fun row =>
        if row.repository = repository ∧ row.landingBranch = branch then
          { row with scope := update row.scope }
        else row }
  else
    { db with
      scopes := db.scopes ++
        [{ repository, landingBranch := branch, scope := update .empty }] }

def writeCursor (repository branch : Text) (cursor : Oid) : Database :=
  db.upsertScope repository branch fun scope => { scope with cursor := some cursor.hex }

def writeScope (repository branch : Text) (cursor bootstrapTip bootstrapFrontier : Option Oid) :
    Database :=
  db.upsertScope repository branch fun _ =>
    { cursor := cursor.map Oid.hex
      bootstrapTip := bootstrapTip.map Oid.hex
      bootstrapFrontier := bootstrapFrontier.map Oid.hex }

/-- `INSERT INTO history_scopes`. -/
def insertScope (operation : String) (row : ScopeRow) : Except GraphError Database :=
  if (db.scopeRow row.repository row.landingBranch).isSome then
    .error (sqliteError operation "UNIQUE constraint failed: history_scopes")
  else .ok { db with scopes := db.scopes ++ [row] }

def row (key : DeliveryKey) : Option DeliveryRow := db.deliveries.find? fun row => row.key = key

def derivedRows (key : DeliveryKey) : List DerivedRow :=
  (db.derived.filter fun r => r.owner = key).map OwnedRow.row

/-- `DELETE FROM history_deliveries`, with the rows that cascade. -/
def deleteDeliveries (doomed : DeliveryKey → Bool) : Database :=
  { db with
    deliveries := db.deliveries.filter fun row => !doomed row.key
    derived := db.derived.filter fun r => !doomed r.owner }

/-- `delete_scope`: the number of deliveries removed, and the rest. -/
def deleteScope (repository branch : Text) : Nat × Database :=
  let inScope (key : DeliveryKey) : Bool := key.repository = repository ∧ key.landingBranch = branch
  let removed := (db.deliveries.filter fun row => inScope row.key).length
  let kept := db.deleteDeliveries inScope
  (removed,
    { kept with
      scopes := kept.scopes.filter fun row =>
        ¬(row.repository = repository ∧ row.landingBranch = branch) })

/-- `INSERT INTO history_deliveries`. -/
def withDelivery (row : DeliveryRow) : Database := { db with deliveries := db.deliveries ++ [row] }

/-- Derived rows, inserted for `owner`. -/
def withRows (owner : DeliveryKey) (rows : List DerivedRow) : Database :=
  { db with derived := db.derived ++ rows.map (OwnedRow.mk owner) }

/-- `UPDATE history_deliveries SET payload_json`. -/
def updatePayload (key : DeliveryKey) (payload : DeliveredChange) : Database :=
  { db with
    deliveries := db.deliveries.map fun row =>
      if row.key = key then { row with payload } else row }

/-- One `INSERT` into a derived table. -/
def insertDerived (operation : String) (owner : DeliveryKey) (row : DerivedRow) :
    Except GraphError Database :=
  if db.derived.any fun r => r.owner = owner ∧ r.row.primaryKey = row.primaryKey then
    .error (sqliteError operation "UNIQUE constraint failed")
  else .ok (db.withRows owner [row])

end Database

/-! ### `insert_delivery` -/

/-- Outcome of an import. -/
structure HistoryImportReport where
  deliveryId : Text
  inserted : Bool
  files : Nat
  symbols : Nat

def insertTask (owner : DeliveryKey) (db : Database) (task : TaskAssociation) :
    Except GraphError Database :=
  db.insertDerived "insert history task association" owner (.task (taskRow task))

def insertSnapshot (owner : DeliveryKey) (db : Database) (snapshot : TaskAssociation) :
    Except GraphError Database :=
  db.insertDerived "insert caller-supplied task snapshot" owner (snapshotRow snapshot)

def insertSymbolSide (owner : DeliveryKey) (fileOrdinal symbolOrdinal : Nat) (symbol : SymbolChange)
    (db : Database) (item : SymbolAttribution) : Except GraphError Database := do
  let fileOrdinal ← i64Len fileOrdinal
  let symbolOrdinal ← i64Len symbolOrdinal
  let spanStart ← i64Len item.symbol.spanStart
  let spanEnd ← i64Len item.symbol.spanEnd
  db.insertDerived "insert history symbol" owner
    (.symbol { symbolRow fileOrdinal symbolOrdinal symbol item with spanStart, spanEnd })

def insertSymbol (owner : DeliveryKey) (fileOrdinal : Nat) (db : Database)
    (symbol : SymbolChange × Nat) : Except GraphError Database :=
  symbol.1.sides.foldlM (insertSymbolSide owner fileOrdinal symbol.2 symbol.1) db

def insertLineage (owner : DeliveryKey) (ordinal : Nat) (file : FileChange) (db : Database) :
    Except GraphError Database :=
  match lineageStep file with
  | none => .ok db
  | some step => do
      let ordinal ← i64Len ordinal
      db.insertDerived "insert history path lineage" owner (lineageRow ordinal step)

def insertFile (owner : DeliveryKey) (db : Database) (file : FileChange × Nat) :
    Except GraphError Database := do
  let ordinal ← i64Len file.2
  let additions ← i64Len file.1.additions
  let deletions ← i64Len file.1.deletions
  let db ← db.insertDerived "insert history file" owner
    (.file { fileRow ordinal file.1 with additions, deletions })
  let db ← insertLineage owner file.2 file.1 db
  file.1.symbols.zipIdx.foldlM (insertSymbol owner file.2) db

/-- The supplied snapshots that a stored delivery lacks; one that differs from the
stored snapshot of its task is an error. -/
def newSnapshots (previous : DeliveredChange) :
    List TaskAssociation → Except GraphError (List TaskAssociation)
  | [] => .ok []
  | snapshot :: rest =>
    match previous.suppliedSnapshots.find? fun stored => stored.taskId = snapshot.taskId with
    | some stored =>
      if stored ≠ snapshot then
        .error (.invalidData "deduplicate caller-supplied task snapshot"
          ("task " ++ snapshot.taskId ++
            " already has a different supplied snapshot"))
      else newSnapshots previous rest
    | none => do
        let additions ← newSnapshots previous rest
        return snapshot :: additions

/-- A payload with more supplied snapshots. -/
def DeliveredChange.extend (change : DeliveredChange) (additions : List TaskAssociation) :
    DeliveredChange :=
  { change with suppliedSnapshots := change.suppliedSnapshots ++ additions }

/-- The rest of `insert_delivery`, for a delivery that is there. -/
def insertIntoExisting (row : DeliveryRow) (change : DeliveredChange) (report : HistoryImportReport)
    (db : Database) : Except GraphError (HistoryImportReport × Database) := do
  let delivery := change.delivery
  ensure (row.beforeRevision = delivery.beforeRevision ∧ row.afterRevision = delivery.afterRevision ∧
      row.payload.delivery = delivery ∧ row.payload.files = change.files)
    (.invalidData "deduplicate history delivery"
      ("delivery_id " ++ delivery.deliveryId ++
        " already exists with different content"))
  let additions ← newSnapshots row.payload change.suppliedSnapshots
  if additions = [] then return (report, db)
  else do
    let db ← additions.foldlM (insertSnapshot delivery.key)
      (db.updatePayload delivery.key (row.payload.extend additions))
    return (report, db)

/-- The rest of `insert_delivery`, for a delivery that is not there. -/
def insertNew (change : DeliveredChange) (extractedUnder : Contracts) (report : HistoryImportReport)
    (db : Database) : Except GraphError (HistoryImportReport × Database) := do
  let owner := change.delivery.key
  let taskCount ← i64Len change.delivery.tasks.length
  let fileCount ← i64Len change.files.length
  let symbolCount ← i64Len change.symbolCount
  let db := db.withDelivery
    { DeliveryRow.ofChange change extractedUnder with taskCount, fileCount, symbolCount }
  let db ← change.delivery.tasks.foldlM (insertTask owner) db
  let db ← change.suppliedSnapshots.foldlM (insertSnapshot owner) db
  let db ← change.files.zipIdx.foldlM (insertFile owner) db
  return (report, db)

/-- `insert_delivery`, of a change that was extracted under `extractedUnder`. -/
def insertDelivery (change : DeliveredChange) (extractedUnder : Contracts) (db : Database) :
    Except GraphError (HistoryImportReport × Database) :=
  let change := redactChange change
  let report (inserted : Bool) : HistoryImportReport :=
    { deliveryId := change.delivery.deliveryId
      inserted
      files := change.files.length
      symbols := change.symbolCount }
  match db.row change.delivery.key with
  | some row => insertIntoExisting row change (report false) db
  | none => insertNew change extractedUnder (report true) db

end OrbitGraph.History
