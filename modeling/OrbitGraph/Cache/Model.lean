import OrbitGraph.Lib.AdvisoryLock
import OrbitGraph.Lib.Text
import OrbitGraph.Lib.TransitionSystem

/-!
The snapshot cache: directories on disk, advisory locks on the files in them, and
the operations of any number of processes.

A step is one access to the file system. A path is looked up anew in every step;
what a process has opened, a lock file or a directory to remove, it keeps by its
inode. A removal takes the files of a directory in any order and may end early. A
process may crash at any step, which releases its locks. Entries are created by
`stage`, owner-only, so the provenance of one is that it exists.
-/

namespace OrbitGraph.Cache

open Lib

abbrev Inode := Nat

abbrev DirId := Nat

/-- The versions of `entry.json` and of `IndexIdentity`. -/
structure Key where
  schemaVersion : Nat
  extractorVersion : Nat
  storeSchemaVersion : Nat
  deriving DecidableEq

/-- `entry.json`. -/
structure EntryMetadata where
  commitSha : Text
  key : Key
  deriving DecidableEq

inductive KeyMatch where
  | current
  | older
  | newer
  | otherCommit
  deriving DecidableEq

/-- `EntryMetadata::key_match`, for the key of a binary. -/
def EntryMetadata.keyMatch (metadata : EntryMetadata) (ours : Key) (commitSha : Text) : KeyMatch :=
  if metadata.commitSha ≠ commitSha then .otherCommit
  else
    let versions := [(metadata.key.schemaVersion, ours.schemaVersion),
      (metadata.key.extractorVersion, ours.extractorVersion),
      (metadata.key.storeSchemaVersion, ours.storeSchemaVersion)]
    if versions.any fun (entry, ours) => entry > ours then .newer
    else if versions.all fun (entry, ours) => entry == ours then .current
    else .older

/-- `building.lock` and `in_use.lock`. -/
inductive LockFile where
  | building
  | inUse
  deriving DecidableEq

/-- What a directory of the cache holds. `db` is `index/detached-<commit>.<identity>.db`. -/
inductive Item where
  | lock (file : LockFile) (inode : Inode)
  | entryJson (metadata : EntryMetadata)
  | lastUsed
  | tree
  | treeFile (path : Text)
  | index
  | db (extractorVersion storeSchemaVersion : Nat)
  deriving DecidableEq

/-- A path in the cache directory. The name of a staging directory is used once. -/
inductive Name where
  | entry (commitSha : Text)
  | staging (id : DirId)
  deriving DecidableEq

def Name.lockFile : Name → LockFile
  | .entry _ => .inUse
  | .staging _ => .building

structure Fs where
  names : Name → Option DirId
  items : DirId → List Item
  nextDir : DirId
  nextInode : Inode

def Fs.empty : Fs := ⟨fun _ => none, fun _ => [], 0, 0⟩

namespace Fs

variable (fs : Fs)

def lockIn (dir : DirId) (file : LockFile) : Option Inode :=
  (fs.items dir).findSome? fun item =>
    match item with
    | .lock f inode => if f = file then some inode else none
    | _ => none

/-- `entry.json` at a path. -/
def metadataAt (name : Name) : Option EntryMetadata :=
  (fs.names name).bind fun dir =>
    (fs.items dir).findSome? fun item =>
      match item with
      | .entryJson metadata => some metadata
      | _ => none

/-- Whether the item is in the directory at a path. -/
def holdsAt (name : Name) (item : Item) : Bool := (fs.names name).any fun dir => item ∈ fs.items dir

end Fs

/-- What one step does to the file system. -/
inductive Effect where
  | none
  | mkdir
  | createLock (name : Name) (file : LockFile)
  | add (name : Name) (item : Item)
  | unlink (dir : DirId) (item : Item)
  | rmdir (name : Name)
  | rename (id : DirId) (commitSha : Text)

/-- An item at the end of a directory. -/
def Fs.append (fs : Fs) (name : Name) (item : Item) : DirId → List Item :=
  match fs.names name with
  | some dir => Function.update fs.items dir (fs.items dir ++ [item])
  | none => fs.items

def Effect.apply (fs : Fs) : Effect → Fs
  | .none => fs
  | .mkdir =>
    { fs with
      names := Function.update fs.names (.staging fs.nextDir) (some fs.nextDir)
      items := Function.update fs.items fs.nextDir []
      nextDir := fs.nextDir + 1 }
  | .createLock name file =>
    { fs with items := fs.append name (.lock file fs.nextInode), nextInode := fs.nextInode + 1 }
  | .add name item => { fs with items := fs.append name item }
  | .unlink dir item =>
    { fs with items := Function.update fs.items dir ((fs.items dir).filter (· ≠ item)) }
  | .rmdir name => { fs with names := Function.update fs.names name Option.none }
  | .rename id commitSha =>
    { fs with
      names := Function.update (Function.update fs.names (.staging id) Option.none) (.entry commitSha)
        (fs.names (.staging id)) }

structure StagedEntry where
  commitSha : Text
  dir : DirId
  building : Inode
  inUse : Inode
  deriving DecidableEq

abbrev Lock := AdvisoryLock Inode

def StagedEntry.locks (staged : StagedEntry) : List Lock :=
  [⟨staged.building, .exclusive⟩, ⟨staged.inUse, .shared⟩]

/-- Where a process is. One that holds several entries, or holds one during another operation, is
several of these. -/
inductive Pc where
  | idle
  /-- `lookup`, up to its lock. -/
  | provenance (commitSha : Text)
  | readMetadata (commitSha : Text)
  | openInUse (commitSha : Text) (metadata : EntryMetadata)
  | lockInUse (commitSha : Text) (metadata : EntryMetadata) (inode : Inode)
  /-- `lookup`, with the shared lock. -/
  | recheck (commitSha : Text) (metadata : EntryMetadata) (inode : Inode)
  | verify (commitSha : Text) (metadata : EntryMetadata) (inode : Inode) (checks : List Item)
  | touch (commitSha : Text) (metadata : EntryMetadata) (inode : Inode)
  /-- A `CachedEntry` that is open. -/
  | holding (commitSha : Text) (metadata : EntryMetadata) (inode : Inode)
  /-- `remove_if_unlocked`. -/
  | openLock (name : Name)
  | tryLock (name : Name) (inode : Inode)
  | beginRemove (name : Name) (inode : Inode)
  | removing (name : Name) (dir : DirId) (locks : List Lock)
  /-- `lock_is_held`. -/
  | probeOpen (name : Name)
  | probeLock (inode : Inode)
  | probed (inode : Inode)
  /-- `stage`. -/
  | createBuilding (commitSha : Text) (dir : DirId)
  | lockBuilding (commitSha : Text) (dir : DirId) (inode : Inode)
  | createInUse (commitSha : Text) (dir : DirId) (building : Inode)
  | lockStaged (staged : StagedEntry)
  /-- A build: what it has yet to write. -/
  | building (staged : StagedEntry) (todo : List Item)
  /-- `publish`: what it has yet to write. -/
  | publishing (staged : StagedEntry) (todo : List Item)
  | checkDestination (staged : StagedEntry)
  | renaming (staged : StagedEntry)
  /-- A staged build that is dropped or discarded. -/
  | dropping (dir : DirId) (locks : List Lock)
  deriving DecidableEq

/-- What a process does next. -/
inductive Action where
  | lookup (commitSha : Text)
  | stage (commitSha : Text)
  /-- `clean`, with the intention to remove what it lists at a path. -/
  | clean (name : Name)
  | plan (name : Name)
  | next
  /-- The wait for a shared lock runs out. -/
  | giveUp
  | publish
  | discard
  | unlink (item : Item)
  | rmdir
  | release
  | crash
  deriving DecidableEq

/-- Whether a clean may list what is at a path as removable: a staging directory, or an entry
whose key is no newer than its own. -/
def listed (ours : Key) (fs : Fs) : Name → Bool
  | .entry commitSha =>
    (fs.metadataAt (.entry commitSha)).any fun metadata =>
      metadata.keyMatch ours commitSha = .current || metadata.keyMatch ours commitSha = .older
  | .staging id => (fs.names (.staging id)).isSome

/-- Whether an item may be unlinked before the rest: a directory has to be empty. -/
def removable (items : List Item) : Item → Bool
  | .tree => items.all fun item => match item with | .treeFile _ => false | _ => true
  | .index => items.all fun item => match item with | .db .. => false | _ => true
  | _ => true

section Step

-- the files of a commit's tree
variable (paths : Text → List Text)

/-- What a build of a commit writes. -/
def snapshot (ours : Key) (commitSha : Text) : List Item :=
  [.tree, .index] ++ (paths commitSha).map .treeFile ++ [.db ours.extractorVersion ours.storeSchemaVersion]

variable (ours : Key) (granted : Lock → Bool) (fs : Fs)

/-- A staged build that fails: its guard removes the directory with its locks held. -/
def dropStaged (dir : DirId) (locks : List Lock) : Option (Effect × Pc) := some (.none, .dropping dir locks)

def writeStaged (staged : StagedEntry) (item : Item) (next : Pc) : Option (Effect × Pc) :=
  match fs.names (.staging staged.dir) with
  | none => dropStaged staged.dir staged.locks
  | some _ => some (.add (.staging staged.dir) item, next)

/-- `open_lock` with `Create::Yes`. -/
def openLock (name : Name) (absent : Pc) (opened : Inode → Pc) : Option (Effect × Pc) :=
  match fs.names name with
  | none => some (.none, absent)
  | some dir =>
    match fs.lockIn dir name.lockFile with
    | some inode => some (.none, opened inode)
    | none => some (.createLock name name.lockFile, opened fs.nextInode)

/-- `create_locked`, up to the lock: the file must be new. -/
def createLocked (dir : DirId) (file : LockFile) (locks : List Lock) (opened : Inode → Pc) :
    Option (Effect × Pc) :=
  match fs.names (.staging dir) with
  | none => dropStaged dir locks
  | some found =>
    match fs.lockIn found file with
    | some _ => dropStaged dir locks
    | none => some (.createLock (.staging dir) file, opened fs.nextInode)

/-- `remove_dir_all`, up to its first entry. -/
def openDir (name : Name) (locks : List Lock) : Option (Effect × Pc) :=
  match fs.names name with
  | none => some (.none, .idle)
  | some dir => some (.none, .removing name dir locks)

/-- The next access of a process whose key is `ours`, for the locks that it would be granted. -/
def act : Pc → Action → Option (Effect × Pc)
  | .idle, .lookup c => some (.none, .provenance c)
  | .idle, .stage c => some (.mkdir, .createBuilding c fs.nextDir)
  | .idle, .clean name => if listed ours fs name then some (.none, .openLock name) else none
  | .idle, .plan name => if listed ours fs name then some (.none, .probeOpen name) else none
  | .provenance c, .next =>
    some (.none, if (fs.names (.entry c)).isSome then .readMetadata c else .idle)
  | .readMetadata c, .next =>
    match fs.metadataAt (.entry c) with
    | none => some (.none, .idle)
    | some metadata =>
      match metadata.keyMatch ours c with
      | .current => some (.none, .openInUse c metadata)
      | .older => some (.none, .openLock (.entry c))
      | .newer => some (.none, .idle)
      | .otherCommit => some (.none, .idle)
  | .openInUse c metadata, .next => openLock fs (.entry c) .idle (.lockInUse c metadata)
  | .lockInUse c metadata i, .next =>
    if granted ⟨i, .shared⟩ then some (.none, .recheck c metadata i) else none
  | .lockInUse _ _ i, .giveUp => if granted ⟨i, .shared⟩ then none else some (.none, .idle)
  | .recheck c metadata i, .next =>
    match fs.metadataAt (.entry c) with
    | none => some (.none, .idle)
    | some _ =>
      some (.none, .verify c metadata i [.tree, .db ours.extractorVersion ours.storeSchemaVersion])
  | .verify c metadata i (item :: rest), .next =>
    some (.none, if fs.holdsAt (.entry c) item then .verify c metadata i rest else .openLock (.entry c))
  | .verify c metadata i [], .next => some (.none, .touch c metadata i)
  | .touch c metadata i, .next =>
    match fs.names (.entry c) with
    | none => some (.none, .idle)
    | some _ => some (.add (.entry c) .lastUsed, .holding c metadata i)
  | .holding .., .release => some (.none, .idle)
  | .openLock name, .next => openLock fs name .idle (.tryLock name)
  | .tryLock name i, .next =>
    some (.none, if granted ⟨i, .exclusive⟩ then .beginRemove name i else .idle)
  | .beginRemove name i, .next => openDir fs name [⟨i, .exclusive⟩]
  | .removing name dir locks, .unlink item =>
    if item ∈ fs.items dir ∧ removable (fs.items dir) item then
      some (.unlink dir item, .removing name dir locks)
    else none
  | .removing name _ _, .rmdir =>
    match fs.names name with
    | none => some (.none, .idle)
    | some dir => some (if fs.items dir = [] then .rmdir name else .none, .idle)
  | .probeOpen name, .next =>
    some (.none, match (fs.names name).bind fun dir => fs.lockIn dir name.lockFile with
      | none => .idle
      | some inode => .probeLock inode)
  | .probeLock i, .next => some (.none, if granted ⟨i, .exclusive⟩ then .probed i else .idle)
  | .probed _, .next => some (.none, .idle)
  | .createBuilding c dir, .next => createLocked fs dir .building [] (.lockBuilding c dir)
  | .lockBuilding c dir i, .next =>
    if granted ⟨i, .exclusive⟩ then some (.none, .createInUse c dir i) else dropStaged dir []
  | .createInUse c dir i, .next =>
    createLocked fs dir .inUse [⟨i, .exclusive⟩] fun j => .lockStaged ⟨c, dir, i, j⟩
  | .lockStaged staged, .next =>
    if granted ⟨staged.inUse, .shared⟩ then
      some (.none, .building staged (snapshot paths ours staged.commitSha))
    else dropStaged staged.dir [⟨staged.building, .exclusive⟩]
  | .building staged (item :: rest), .next => writeStaged fs staged item (.building staged rest)
  | .building staged [], .publish =>
    some (.none, .publishing staged [.entryJson ⟨staged.commitSha, ours⟩, .lastUsed])
  | .building staged _, .discard => dropStaged staged.dir staged.locks
  | .publishing staged (item :: rest), .next => writeStaged fs staged item (.publishing staged rest)
  | .publishing staged [], .next => some (.none, .checkDestination staged)
  | .checkDestination staged, .next =>
    if (fs.names (.entry staged.commitSha)).isSome then dropStaged staged.dir staged.locks
    else some (.none, .renaming staged)
  | .renaming staged, .next =>
    match fs.names (.staging staged.dir) with
    | none => dropStaged staged.dir staged.locks
    | some _ =>
      if (fs.names (.entry staged.commitSha)).all fun dir => fs.items dir = [] then
        some (.rename staged.dir staged.commitSha, .holding staged.commitSha ⟨staged.commitSha, ours⟩ staged.inUse)
      else dropStaged staged.dir staged.locks
  | .dropping dir locks, .next => openDir fs (.staging dir) locks
  | _, .crash => some (.none, .idle)
  | _, _ => none

end Step

def Pc.locks : Pc → List Lock
  | .recheck _ _ i => [⟨i, .shared⟩]
  | .verify _ _ i _ => [⟨i, .shared⟩]
  | .touch _ _ i => [⟨i, .shared⟩]
  | .holding _ _ i => [⟨i, .shared⟩]
  | .beginRemove _ i => [⟨i, .exclusive⟩]
  | .removing _ _ locks => locks
  | .probed i => [⟨i, .exclusive⟩]
  | .createInUse _ _ i => [⟨i, .exclusive⟩]
  | .lockStaged staged => [⟨staged.building, .exclusive⟩]
  | .building staged _ => staged.locks
  | .publishing staged _ => staged.locks
  | .checkDestination staged => staged.locks
  | .renaming staged => staged.locks
  | .dropping _ locks => locks
  | _ => []

/-- A process of a binary with some key. -/
structure Proc where
  key : Key
  pc : Pc
  deriving DecidableEq

structure State where
  fs : Fs
  procs : List Proc

namespace State

variable (paths : Text → List Text) (s : State)

def granted (lock : Lock) : Bool := decide (AdvisoryLock.Granted (fun proc : Proc => proc.pc.locks) s.procs lock)

/-- One step of the process with a number. -/
def next (label : Nat × Action) : Option State := do
  let proc ← s.procs[label.1]?
  let (effect, pc) ← act paths proc.key s.granted s.fs proc.pc label.2
  some { fs := effect.apply s.fs, procs := s.procs.set label.1 { proc with pc } }

end State

def cache (paths : Text → List Text) : TransitionSystem State (Nat × Action) where
  init s := s.fs = Fs.empty ∧ ∀ proc ∈ s.procs, proc.pc = .idle
  step s label t := s.next paths label = some t

end OrbitGraph.Cache
