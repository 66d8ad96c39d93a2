import OrbitGraph.History.Operations

/-!
The history store as a transition system: the database file, the previous
version's file beside it, and the handles that have been opened.

A step is one operation. A handle is used only after it was opened; the previous
file is read and never written.
-/

namespace OrbitGraph.History

open Lib

structure Store where
  file : Option Database
  previous : Option Database
  handles : List HistoryIndex

inductive Operation where
  | openWriter (env : Environment) (dbPath branch : Text)
  | openReadOnly (env : Environment) (dbPath branch : Text)
  | openPreview (env : Environment) (dbPath branch : Text)
  | openConfirmed (env : Environment) (dbPath branch : Text)
  | importDelivery (index : HistoryIndex) (env : Environment) (delivery : DeliveryImport)
      (suppliedSnapshots : List TaskAssociation)
  | addSuppliedSnapshot (index : HistoryIndex) (env : Environment) (deliveryId : Text)
      (snapshot : TaskAssociation)
  /-- `observed` is the scope that the sync read before it took the lock. -/
  | sync (index : HistoryIndex) (env : Environment) (limit : Option Nat) (observed : HistoryScope)
  /-- `repo` is the repository once the rebuild has the lock. -/
  | rebuild (index : HistoryIndex) (env : Environment) (repo : Repository) (limit : Option Nat)
      (discardVerified : Bool)

def Operation.handle : Operation → Option HistoryIndex
  | .importDelivery index _ _ _ => some index
  | .addSuppliedSnapshot index _ _ _ => some index
  | .sync index _ _ _ => some index
  | .rebuild index _ _ _ _ => some index
  | _ => none

namespace Store

variable (s : Store)

def opened (outcome : Except GraphError HistoryIndex × Option Database) : Store :=
  { s with
    file := outcome.2
    handles :=
      match outcome.1 with
      | .ok index => index :: s.handles
      | .error _ => s.handles }

def after {α : Type} (command : Command GraphError (Option Database) α) : Store :=
  { s with file := (command s.file).2 }

end Store

def Operation.run [GitObjects] (s : Store) : Operation → Store
  | .openWriter env dbPath branch => s.opened (HistoryIndex.openWriter env s.previous dbPath branch s.file)
  | .openReadOnly env dbPath branch => s.opened (HistoryIndex.openReadOnly env dbPath branch s.file)
  | .openPreview env dbPath branch => s.opened (HistoryIndex.openPreview env dbPath branch s.file)
  | .openConfirmed env dbPath branch => s.opened (HistoryIndex.openConfirmed env dbPath branch s.file)
  | .importDelivery index env delivery suppliedSnapshots =>
    s.after (onTables (index.importDelivery env delivery suppliedSnapshots))
  | .addSuppliedSnapshot index env deliveryId snapshot =>
    s.after (onTables (index.addSuppliedSnapshot env deliveryId snapshot))
  | .sync index env limit observed => s.after (onTables (index.sync env limit observed))
  | .rebuild index env repo limit discardVerified =>
    s.after (onTables (index.rebuild env repo limit discardVerified))

/-- The history store, started with the files that `start` allows. -/
def system [GitObjects] (start : Option Database → Option Database → Prop) :
    TransitionSystem Store Operation where
  init s := s.handles = [] ∧ start s.file s.previous
  step s op t := (∀ index, op.handle = some index → index ∈ s.handles) ∧ t = op.run s

/-! ### Properties of the file -/

/-- A property of the tables, if there are any. -/
def OnFile (P : Database → Prop) : Option Database → Prop
  | none => True
  | some db => P db

section

variable {F : Option Database → Prop} {P : Database → Prop} {α : Type}

theorem Keeps.onTables {command : Command GraphError Database α}
    (h : Command.Keeps (fun db => F (some db)) command) : Command.Keeps F (History.onTables command) := by
  intro file hfile
  cases file with
  | none => exact hfile
  | some db =>
    have := h.state (P := fun db => F (some db)) hfile
    simp only [History.onTables]
    cases hc : command db with
    | mk result t =>
      rw [hc] at this
      cases result <;> exact this

variable {env : Environment}

theorem Keeps.initializeIfEmpty (h : F none → F (some initialSchema)) :
    Command.Keeps F (History.initializeIfEmpty env) := by
  intro file hfile
  cases file with
  | some db => exact hfile
  | none =>
    simp only [History.initializeIfEmpty]
    cases env.failure .initializeSchema with
    | some e => exact hfile
    | none => exact h hfile

theorem Keeps.finishIdentityPurge
    (purged : ∀ db, P db → P (db.deleteMeta .originIdentityPurgePending)) :
    Command.Keeps P (History.finishIdentityPurge env) := by
  refine .andThen .query fun pending => ?_
  split
  · refine .andThen .query fun _ => .andThen .query fun _ => .andThen .query fun _ =>
      .transaction fun db _ db' before run => ?_
    obtain ⟨_, rfl⟩ := Prod.mk.inj (Except.ok.inj run)
    exact purged db before
  · exact .answer

end

/-! ### Transactions -/

/-- A property of files that every transaction keeps, if the previous file has the
property `Q`. -/
structure Kept (F Q : Option Database → Prop) : Prop where
  initialSchema : F none → F (some initialSchema)
  purged : ∀ db, F (some db) → F (some (db.deleteMeta .originIdentityPurgePending))
  copied : ∀ previous db db' u, Q previous → F (some db) →
    copyPreviousSchema previous db = .ok (u, db') → F (some db')
  migrated : ∀ (index : HistoryIndex) db db' u, F (some db) →
    index.migrateScopes db = .ok (u, db') → F (some db')
  inserted : ∀ change db db' report, F (some db) →
    insertDelivery change .current db = .ok (report, db') → F (some db')
  attached : ∀ (index : HistoryIndex) deliveryId snapshot db db' stored, F (some db) →
    index.storeSnapshot deliveryId snapshot db = .ok (stored, db') → F (some db')
  synced : ∀ (index : HistoryIndex) plan db db' report, F (some db) →
    index.commitSync plan db = .ok (report, db') → F (some db')
  rebuilt : ∀ (index : HistoryIndex) plan preserved db db' removed, F (some db) →
    index.commitRebuild plan preserved db = .ok (removed, db') → F (some db')

namespace Kept

variable {F Q : Option Database → Prop}

variable {env : Environment}

theorem finishIdentityPurge (h : Kept F Q) : Command.Keeps (fun db => F (some db)) (finishIdentityPurge env) :=
  Keeps.finishIdentityPurge h.purged

variable {index : HistoryIndex}

theorem migrateCredentialedScopes (h : Kept F Q) :
    Command.Keeps (fun db => F (some db)) (index.migrateCredentialedScopes env) := by
  refine .andThen .query fun legacy => ?_
  split
  · exact h.finishIdentityPurge
  · exact .andThen (.transaction fun _ _ _ => h.migrated _ _ _ _) fun _ => h.finishIdentityPurge

variable {previous : Option Database}

theorem openTables (h : Kept F Q) (older : Q previous) :
    Command.Keeps (fun db => F (some db)) (index.openTables env previous) :=
  .andThen .query fun _ => .andThen h.finishIdentityPurge fun _ => .andThen .query fun _ =>
    .andThen (.transaction fun _ _ _ => h.copied _ _ _ _ older) fun _ =>
      .andThen h.migrateCredentialedScopes fun _ => .query

variable {dbPath branch : Text}

theorem openWriter (h : Kept F Q) (older : Q previous) :
    Command.Keeps F (HistoryIndex.openWriter env previous dbPath branch) :=
  .andThen .query fun _ => .andThen .query fun _ =>
    .andThen (Keeps.initializeIfEmpty h.initialSchema) fun _ =>
      .andThen (Keeps.onTables (h.openTables older)) fun _ => .answer

theorem initializeOrCheck (h : Kept F Q) : Command.Keeps F (index.initializeOrCheck env) := by
  intro file before
  cases file with
  | none => exact Keeps.initializeIfEmpty h.initialSchema none before
  | some db => exact Keeps.onTables .query (some db) before

theorem openConfirmed (h : Kept F Q) : Command.Keeps F (HistoryIndex.openConfirmed env dbPath branch) :=
  .andThen .query fun _ => .andThen .query fun _ => .andThen .query fun _ =>
    .andThen h.initializeOrCheck fun _ =>
      .andThen (Keeps.onTables h.migrateCredentialedScopes) fun _ => .answer

theorem addSuppliedSnapshot (h : Kept F Q) {deliveryId : Text} {snapshot : TaskAssociation} :
    Command.Keeps (fun db => F (some db)) (index.addSuppliedSnapshot env deliveryId snapshot) :=
  .andThen .query fun _ => .andThen .query fun _ => .andThen .query fun _ =>
    .transaction fun _ _ _ => h.attached _ _ _ _ _ _

variable [GitObjects]

theorem importDelivery (h : Kept F Q) {delivery : DeliveryImport} {suppliedSnapshots : List TaskAssociation} :
    Command.Keeps (fun db => F (some db)) (index.importDelivery env delivery suppliedSnapshots) :=
  .andThen .query fun _ => .andThen .query fun _ => .transaction fun _ _ _ => h.inserted _ _ _ _

variable {limit : Option Nat}

theorem sync (h : Kept F Q)
    {observed : HistoryScope} : Command.Keeps (fun db => F (some db)) (index.sync env limit observed) :=
  .andThen .query fun _ => .andThen .query fun _ => .andThen .query fun _ =>
    .andThen .query fun _ => .andThen .query fun _ => .transaction fun _ _ _ => h.synced _ _ _ _ _

variable {discardVerified : Bool} {repo : Repository}

theorem applyRebuild (h : Kept F Q) {plan : RebuildPlan} :
    Command.Keeps (fun db => F (some db)) (index.applyRebuild env repo discardVerified plan) :=
  .andThen .query fun _ => .andThen .query fun _ => .andThen .query fun _ =>
    .andThen (.transaction fun _ _ _ => h.rebuilt _ _ _ _ _ _) fun _ => .answer

theorem rebuild (h : Kept F Q) :
    Command.Keeps (fun db => F (some db)) (index.rebuild env repo limit discardVerified) :=
  .andThen .query fun _ => h.applyRebuild

theorem run (h : Kept F Q) (op : Operation) {s : Store} (older : Q s.previous)
    (before : F s.file) : F (op.run s).file := by
  cases op with
  | openWriter env dbPath branch => exact (h.openWriter older).state before
  | openReadOnly env dbPath branch =>
    simp only [Operation.run, Store.opened, HistoryIndex.openReadOnly]
    split
    · exact before
    · split <;> exact before
  | openPreview env dbPath branch => exact before
  | openConfirmed env dbPath branch => exact h.openConfirmed.state before
  | importDelivery index env delivery suppliedSnapshots =>
    exact (Keeps.onTables h.importDelivery).state before
  | addSuppliedSnapshot index env deliveryId snapshot =>
    exact (Keeps.onTables h.addSuppliedSnapshot).state before
  | sync index env limit observed => exact (Keeps.onTables h.sync).state before
  | rebuild index env repo limit discardVerified => exact (Keeps.onTables h.rebuild).state before

theorem previous_run (op : Operation) (s : Store) : (op.run s).previous = s.previous := by
  cases op <;> rfl

theorem inductive_file (h : Kept F Q) {start : Option Database → Option Database → Prop}
    (begins : ∀ file previous, start file previous → F file ∧ Q previous) :
    (system start).Inductive fun s => F s.file ∧ Q s.previous where
  init s hs := begins _ _ hs.2
  step s op t hs step := by
    rw [step.2]
    exact ⟨h.run op hs.2 hs.1, previous_run op s ▸ hs.2⟩

end Kept

namespace Sample

def oid (digit : Char) (h : digit ∈ hexDigits) : Oid where
  hex := List.replicate 40 digit
  wellFormed := ⟨List.length_replicate, fun _ mem => List.eq_of_mem_replicate mem ▸ h⟩

def root : Oid := oid '0' (by decide)

def first : Oid := oid '1' (by decide)

def second : Oid := oid '2' (by decide)

def addedFile (after : Oid) : FileChange where
  oldPath := none
  newPath := some "lib.rs"
  kind := .added
  additions := 1
  deletions := 0
  symbols :=
    [{ before := none
       after := some
        { symbol :=
            { revision := after.hex
              side := .after
              filePath := "lib.rs"
              name := "f"
              qualified := "f"
              kind := "function"
              spanStart := 0
              spanEnd := 9
              signature := some "fn f()"
              parent := none }
          changedLines := [1] }
       matchConfidence := .unmatched
       reason := "added"
       liveAfter := true }]
  beforeFallback := some .fileUnavailable
  afterFallback := none

def commit (id : Oid) : Commit :=
  if id = second then { parents := [first], message := some "two\nTask-Id: T2", time := 20 }
  else if id = first then { parents := [root], message := some "one", time := 10 }
  else { parents := [], message := some "root", time := 0 }

def height (id : Oid) : Nat := if id = second then 2 else if id = first then 1 else 0

@[reducible] def objects : GitObjects where
  commit := commit
  treeDiff _ after := [addedFile after]
  height := height
  acyclic := by
    intro id parent mem
    unfold commit at mem
    split at mem
    next eq =>
      rw [List.mem_singleton.mp mem, eq]
      decide
    next =>
      split at mem
      next eq =>
        rw [List.mem_singleton.mp mem, eq]
        decide
      next => cases mem

def repository (tip : Oid) : Repository where
  originUrl := some "https://host/r"
  workdir := some "/r"
  commitError _ := none
  references name := if name = "refs/heads/main" then .ok tip else .error "missing"
  descendantOf descendant ancestor := .ok (decide (height ancestor < height descendant))
  diffError _ _ := none

def environment (tip : Oid) : Environment where
  repo := repository tip
  clock _ := some 30
  failure _ := none
  readerActive := false

def index : HistoryIndex where
  repository := "https://host/r"
  landingBranch := "main"
  dbPath := "change-history.5.sqlite3"
  readOnly := false

def absent : Store := { file := none, previous := none, handles := [] }

local instance : GitObjects := objects

def opening : Operation := .openWriter (environment second) index.dbPath "refs/heads/main"

def syncing : Operation := .sync index (environment second) (some 1) .empty

def synced : Store := syncing.run (opening.run absent)

variable {start : Option Database → Option Database → Prop}

theorem opened_reachable (begins : start none none) : (system start).Reachable (opening.run absent) := by
  have initial : (system start).init absent := ⟨rfl, begins⟩
  have step : (system start).step absent opening (opening.run absent) := by
    refine ⟨fun handle h => ?_, rfl⟩
    cases h
  exact (TransitionSystem.Reachable.of_init initial).step step

theorem index_opened : index ∈ (opening.run absent).handles := by
  decide +kernel

theorem synced_reachable (begins : start none none) : (system start).Reachable synced := by
  have step : (system start).step (opening.run absent) syncing synced :=
    ⟨fun _ h => Option.some.inj (h : some index = some _) ▸ index_opened, rfl⟩
  exact (opened_reachable begins).step step

end Sample

end OrbitGraph.History
