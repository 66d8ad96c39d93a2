import Mathlib.Data.List.Perm.Basic
import OrbitGraph.Lib.Command
import OrbitGraph.Snapshot.Names

/-!
The materialization of a Git tree: which entries it writes, where, and what it excludes.

A Git tree is modelled by its entries, each with what the repository holds for it. The
destination is a directory of a case-sensitive file system without links in it, which nobody
else changes.
-/

namespace OrbitGraph.Snapshot

open Lib Changes

/-- What the repository holds for an entry that is no tree. -/
inductive LeafObject where
  | blob (content : List UInt8)
  | commit
  | other
  /-- A blob or a tree that cannot be loaded. -/
  | missing (isTree : Bool)

/-- The entries of a tree, in order. -/
inductive GitTree where
  | nil
  | leaf (name : List UInt8) (filemode : Nat) (object : LeafObject) (rest : GitTree)
  | subtree (name : List UInt8) (filemode : Nat) (children rest : GitTree)

/-- `FileMode::Link`. -/
def LINK_MODE : Nat := 0o120000

def DEFAULT_MAX_BLOB_BYTES : Nat := 4 * 1024 * 1024

def U64_MAX : Nat := 2 ^ 64 - 1

def toAsciiLowercase (c : Char) : Char := if 'A' ≤ c ∧ c ≤ 'Z' then Char.ofNat (c.toNat + 32) else c

def eqIgnoreAsciiCase (a b : Text) : Bool := a.map toAsciiLowercase = b.map toAsciiLowercase

def isSafeEntryName (name : Text) : Bool :=
  !(name = [] || name = "." || name = ".." || '/' ∈ name || '\\' ∈ name || Char.ofNat 0 ∈ name ||
    eqIgnoreAsciiCase name ".git")

/-! ### The file system -/

abbrev FsPath := List (List UInt8)

inductive Node where
  | file (content : List UInt8)
  | directory
  deriving DecidableEq

abbrev Disk := FsPath → Option Node

section Disk

-- where the file system fails
variable (faulty : FsPath → Bool)

def createPrivateDirAll (disk : Disk) : FsPath → Option Disk
  | [] => some disk
  | name :: parent =>
    match disk (name :: parent) with
    | some .directory => some disk
    | some (.file _) => none
    | none =>
      match createPrivateDirAll disk parent with
      | none => none
      | some disk =>
        if faulty (name :: parent) then none
        else some (Function.update disk (name :: parent) (some .directory))

inductive WriteError where
  | alreadyExists
  | other
  deriving DecidableEq

def writeInto (disk : Disk) (path : FsPath) (content : List UInt8) : Except WriteError Disk :=
  if disk path.tail = some .directory ∧ ¬ faulty path then .ok (Function.update disk path (some (.file content)))
  else .error .other

def writeNewPrivateFile (disk : Disk) (path : FsPath) (content : List UInt8) : Except WriteError Disk :=
  if (disk path).isSome then .error .alreadyExists else writeInto faulty disk path content

/-- `atomic_write`, which replaces a file but no directory. -/
def atomicWrite (disk : Disk) (path : FsPath) (content : List UInt8) : Except WriteError Disk :=
  if disk path = some .directory then .error .other else writeInto faulty disk path content

def writeBlob (disk : Disk) (path : FsPath) (content : List UInt8) : Except WriteError Disk :=
  match writeNewPrivateFile faulty disk path content with
  | .error .alreadyExists => atomicWrite faulty disk path content
  | written => written

end Disk

/-! ### Materialization -/

inductive ExclusionReason where
  | symlink
  | submodule
  | oversizeBlob (bytes : Nat)
  | unsafeName
  | unsupportedKind
  deriving DecidableEq

structure ExcludedEntry where
  path : Text
  reason : ExclusionReason
  deriving DecidableEq

structure MaterializationReport where
  filesWritten : Nat
  bytesWritten : Nat
  excluded : List ExcludedEntry

inductive SnapshotError where
  | git (operation : Text)
  | io (operation : Text) (path : FsPath)

/-- What a materialization writes to. -/
structure Progress where
  disk : Disk
  report : MaterializationReport

abbrev Materialize := Command SnapshotError Progress Unit

/-- `report.excluded.push`. -/
def exclude (path : Text) (reason : ExclusionReason) : Materialize := fun s =>
  (.ok (), { s with report := { s.report with excluded := s.report.excluded ++ [⟨path, reason⟩] } })

def entryPath (before name : Text) : Text := if before = [] then name else before ++ ['/'] ++ name

def nameExclusion (name : List UInt8) (filemode : Nat) : Option ExclusionReason :=
  if !isSafeEntryName (fromUtf8Lossy name) then some .unsafeName
  else if filemode = LINK_MODE then some .symlink
  else none

section Run

variable (faulty : FsPath → Bool)

def materializeBlob (name content : List UInt8) (dest : FsPath) (path : Text) : Materialize := fun s =>
  if DEFAULT_MAX_BLOB_BYTES < content.length then exclude path (.oversizeBlob content.length) s
  else
    match entryName name with
    | none => exclude path .unsafeName s
    | some name =>
      match writeBlob faulty s.disk (Utf8.encode name :: dest) content with
      | .error _ => (.error (.io "write snapshot file" (Utf8.encode name :: dest)), s)
      | .ok disk =>
        (.ok (), ⟨disk, { s.report with
          filesWritten := s.report.filesWritten + 1
          bytesWritten := min (s.report.bytesWritten + content.length) U64_MAX }⟩)

/-- The round of the loop for an entry that is no tree. -/
def materializeLeaf (name : List UInt8) (filemode : Nat) (object : LeafObject) (dest : FsPath) (before : Text) :
    Materialize :=
  let path := entryPath before (fromUtf8Lossy name)
  match nameExclusion name filemode with
  | some reason => exclude path reason
  | none =>
    match object with
    | .blob content => materializeBlob faulty name content dest path
    | .commit => exclude path .submodule
    | .other => exclude path .unsupportedKind
    | .missing isTree =>
      Command.fail (.git (if isTree then "load subtree for snapshot" else "load blob for snapshot"))

/-- The directory of a subtree. -/
def createChildDir (childDir : FsPath) : Materialize := fun s =>
  match createPrivateDirAll faulty s.disk childDir with
  | none => (.error (.io "create snapshot directory" childDir), s)
  | some disk => (.ok (), { s with disk })

def materializeTree : GitTree → FsPath → Text → Materialize
  | .nil, _, _ => Command.answer ()
  | .leaf name filemode object rest, dest, before =>
    Command.andThen (materializeLeaf faulty name filemode object dest before) fun _ =>
      materializeTree rest dest before
  | .subtree name filemode children rest, dest, before =>
    let path := entryPath before (fromUtf8Lossy name)
    let entry : Materialize :=
      match nameExclusion name filemode with
      | some reason => exclude path reason
      | none =>
        Command.andThen (createChildDir faulty (component name :: dest)) fun _ =>
          materializeTree children (component name :: dest) path
    Command.andThen entry fun _ => materializeTree rest dest before

/-- `materialize_commit`, of a tree that is there. -/
def materializeCommit (tree : GitTree) (dest : FsPath) (disk : Disk) :
    Except SnapshotError MaterializationReport × Disk :=
  match materializeTree faulty tree dest [] ⟨disk, ⟨0, 0, []⟩⟩ with
  | (.ok _, s) => (.ok s.report, s.disk)
  | (.error e, s) => (.error e, s.disk)

end Run

end OrbitGraph.Snapshot
