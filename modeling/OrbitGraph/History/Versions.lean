import OrbitGraph.History.Insertion

/-!
The version keys of a history database: reading, checking and stamping them.

A scope's contract version is its own key's value, else the database's.
-/

namespace OrbitGraph.History

open Lib Database

/-- `str::parse::<u32>`. -/
def parseU32 (found : Text) : Option Nat :=
  let digits := (Text.stripPrefix ['+'] found).getD found
  if digits ≠ [] ∧ digits.all Char.isDigit = true then
    let value := digits.foldl (fun n c => n * 10 + (c.toNat - '0'.toNat)) 0
    if value < 2 ^ 32 then some value else none
  else none

def isOlderOrCurrent (found : Text) (expected : Nat) : Bool := (parseU32 found).any (· ≤ expected)

/-- The version of a contract that a scope's payloads were extracted under, as the
database records it. -/
def Database.scopeVersion (db : Database) (c : Contract) (repository branch : Text) : Option Text :=
  (db.metaValue (.scopeContract c repository branch)).or (db.metaValue (.contract c))

def scopeContractVersion (db : Database) (c : Contract) (repository branch : Text) :
    Except GraphError Text :=
  match db.metaValue (.scopeContract c repository branch) with
  | some own => .ok own
  | none => db.readMeta (.contract c)

def Database.storedScopes (db : Database) : List (Text × Text) :=
  (db.scopes.map (fun row => (row.repository, row.landingBranch)) ++
    db.deliveries.map fun row => (row.key.repository, row.key.landingBranch)).dedup

namespace HistoryIndex

variable (index : HistoryIndex)

def unsupportedContract (key found : Text) (expected : Nat) : GraphError :=
  .indexIncompatible index.dbPath
    ("history index " ++ index.dbPath ++ " has " ++ key ++ "=" ++ found ++
      "; expected at most " ++ decimal expected ++
      ("; it was written by a newer or unknown orbit-graph, so this binary neither reads nor " ++
        "rebuilds it").toList)

/-- `check_version`, of a contract. -/
def checkContract (c : Contract) (actual : Text) : Except GraphError Unit :=
  if actual = decimal c.expected then .ok ()
  else if isOlderOrCurrent actual c.expected then
    .error (.versionMismatch c.key actual (decimal c.expected) index.dbPath
      ("orbit-graph history rebuild --branch " ++ index.landingBranch ++ " --confirm"))
  else .error (index.unsupportedContract c.key actual c.expected)

def validateSchemaVersion (db : Database) : Except GraphError Unit := do
  let actual ← db.readMeta .schemaVersion
  ensure (actual = decimal historyIndexSchemaVersion)
    (.indexIncompatible index.dbPath
      ("history index " ++ index.dbPath ++ " has schema_version=" ++ actual ++
        "; expected " ++ decimal historyIndexSchemaVersion ++
        "; this binary cannot rebuild an incompatible history schema"))

/-- `validate_versions`: the schema, and the contracts of the handle's scope. -/
def validateVersions (db : Database) : Except GraphError Unit := do
  index.validateSchemaVersion db
  contractVersions.forM fun c => do
    let actual ← scopeContractVersion db c index.repository index.landingBranch
    index.checkContract c actual

/-- `refuse_unsupported_contracts`: no contract key has a version this program does
not know. -/
def refuseUnsupportedContracts (db : Database) : Except GraphError Unit :=
  db.historyMeta.forM fun (key, value) =>
    match key.base with
    | none => .ok ()
    | some c =>
      if isOlderOrCurrent value c.expected then .ok ()
      else .error (index.unsupportedContract c.key value c.expected)

end HistoryIndex

def scopesCurrent (db : Database) : Except GraphError Bool :=
  db.storedScopes.allM fun (repository, branch) =>
    contractVersions.allM fun c => do
      return (← scopeContractVersion db c repository branch) = decimal c.expected

/-- The first half of `stamp_rebuilt_scope`: the rebuilt scope's own keys. -/
def stampScope (db : Database) (repository branch : Text) : Database :=
  contractVersions.foldl
    (fun db c => db.putMeta (.scopeContract c repository branch) (decimal c.expected))
    (db.putMeta .schemaVersion (decimal historyIndexSchemaVersion))

/-- The second half: the database's keys, in place of all scopes' keys. -/
def stampGlobal (db : Database) : Database :=
  contractVersions.foldl
    (fun db c =>
      let stamped := db.putMeta (.contract c) (decimal c.expected)
      { stamped with historyMeta := stamped.historyMeta.filter fun row => !row.1.isScoped c })
    db

def stampRebuiltScope (db : Database) (repository branch : Text) : Except GraphError Database := do
  let db := stampScope db repository branch
  if ← scopesCurrent db then return stampGlobal db else return db

variable {repository branch : Text} {db db' : Database}

theorem stampRebuiltScope_ok (h : stampRebuiltScope db repository branch = .ok db') :
    (scopesCurrent (stampScope db repository branch) = .ok true ∧
      db' = stampGlobal (stampScope db repository branch)) ∨ db' = stampScope db repository branch := by
  obtain ⟨current, hcurrent, h⟩ := bind_eq_ok.mp h
  cases current with
  | true => exact .inl ⟨hcurrent, (Except.ok.inj h).symm⟩
  | false => exact .inr (Except.ok.inj h).symm

theorem stampRebuiltScope_rows (h : stampRebuiltScope db repository branch = .ok db') :
    db'.deliveries = db.deliveries ∧ db'.derived = db.derived ∧ db'.scopes = db.scopes := by
  rcases stampRebuiltScope_ok h with ⟨_, rfl⟩ | rfl
  · exact ⟨rfl, rfl, rfl⟩
  · exact ⟨rfl, rfl, rfl⟩

end OrbitGraph.History
