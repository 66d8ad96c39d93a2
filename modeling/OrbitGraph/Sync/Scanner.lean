import OrbitGraph.Sync.TypeMember
import Mathlib.Data.List.Sort

/-!
The worktree scan: every indexable file on disk against the `files` table.

A worktree is what the walk finds, less what Git ignores: for each file its
metadata and what reading it gives, and the paths the walk could not read. Which
paths a walk lists (hidden names, ignore files, skipped extensions) is not
modelled. A scan writes one thing, the modification time of a file whose hash
shows it unchanged.
-/

namespace OrbitGraph.Sync

open Lib

/-! ### What is outside the program -/

/-- `files.content_hash` of a file pass 1 wrote and pass 2 has not yet made
current. -/
def pendingContentHash : Bytes := []

/-- `files.mtime_ns` of such a file. -/
def pendingMtimeNs : Nat := 0

/-- The content hash (BLAKE3). No content hashes to the empty text, and two
contents that collide are taken to be one. -/
structure ContentHasher where
  hash : Bytes → Bytes
  hash_ne_pending : ∀ bytes, hash bytes ≠ pendingContentHash
  hash_injective : Function.Injective hash

/-- A hash that tells every two contents apart: the content behind a tag. -/
def ContentHasher.tagged : ContentHasher where
  hash bytes := 1 :: bytes
  hash_ne_pending _ := List.cons_ne_nil _ _
  hash_injective _ _ h := (List.cons.inj h).2

/-- A failed operation on a path, as a sync reports it. -/
structure SyncFailure where
  path : Text
  operation : Text
  errorKind : Text
  message : Text
  deriving DecidableEq

/-- Why the extractor yields nothing for a content: the parse deadline, or a
panic that was caught. -/
structure ExtractFileError where
  operation : Text
  reason : Text
  kind : Text

/-- The registered extractors. -/
structure Extractors where
  /-- The language of the first extractor that supports a path. -/
  languageFor : Text → Option Text
  extract : Text → Bytes → Except ExtractFileError ExtractedFile

/-- The parts of a sync that are the same in every call. -/
structure Tools where
  hasher : ContentHasher
  extractors : Extractors

/-- An error of the operating system. -/
structure IoError where
  kind : Text
  message : Text
  deriving DecidableEq

/-- A file of the worktree: its metadata, and what reading it gives. -/
structure DiskFile where
  path : Text
  mtimeNs : Nat
  byteLen : Nat
  content : Except IoError Bytes

/-- A directory or file the walk could not read. -/
structure Unreadable where
  path : FsPath
  failure : SyncFailure

/-- What a sync sees of the worktree. -/
structure Worktree where
  files : List DiskFile
  unreadable : List Unreadable
  packages : PackageFiles
  nodup : (files.map DiskFile.path).Nodup

def Worktree.file? (w : Worktree) (path : Text) : Option DiskFile :=
  w.files.find? fun file => file.path = path

theorem Worktree.file?_eq_some {w : Worktree} {path : Text} {file : DiskFile} :
    w.file? path = some file ↔ file ∈ w.files ∧ file.path = path := by
  constructor
  · intro h
    exact ⟨List.mem_of_find?_eq_some h, by simpa using List.find?_some h⟩
  · rintro ⟨mem, rfl⟩
    obtain ⟨nodup⟩ : PLift (w.files.map DiskFile.path).Nodup := ⟨w.nodup⟩
    unfold Worktree.file?
    generalize w.files = files at mem nodup
    induction files with
    | nil => cases mem
    | cons other rest ih =>
      simp only [List.map_cons, List.nodup_cons] at nodup
      rcases List.mem_cons.mp mem with rfl | mem
      · simp
      · have distinct : other.path ≠ file.path := by
          intro eq
          exact nodup.1 (eq ▸ List.mem_map_of_mem mem)
        simpa [List.find?_cons, distinct] using ih mem nodup.2

/-- The order of `PathBuf`s: component by component. -/
def componentsLe : FsPath → FsPath → Bool
  | [], _ => true
  | _ :: _, [] => false
  | a :: as, b :: bs => if a = b then componentsLe as bs else Text.ble a b

def pathLe (a b : Text) : Bool := componentsLe (pathComponents a) (pathComponents b)

def sortPaths (paths : List Text) : List Text :=
  paths.insertionSort fun a b => pathLe a b = true

@[simp]
theorem mem_sortPaths {path : Text} {paths : List Text} : path ∈ sortPaths paths ↔ path ∈ paths :=
  List.mem_insertionSort _

theorem sortPaths_perm (paths : List Text) : (sortPaths paths).Perm paths :=
  List.perm_insertionSort _ paths

def sortFailures (failures : List SyncFailure) : List SyncFailure :=
  failures.insertionSort fun a b => Text.ble a.path b.path = true

/-- Largest file sync reads, hashes or extracts. -/
def maxFileBytes : Nat := 4 * 1024 * 1024

/-- What `read_capped` gives for a content. -/
def readCapped (content : Except IoError Bytes) : Except IoError (Option Bytes) :=
  content.map fun bytes => if maxFileBytes < bytes.length then none else some bytes

/-! ### Classifying files -/

inductive SyncMode where
  | auto
  | full
  deriving DecidableEq

/-- Per-file classification. -/
structure Diff where
  unchanged : List Text
  modified : List Text
  new : List Text
  deleted : List Text
  oversize : List Text
  failed : List SyncFailure

def Diff.hasChanges (diff : Diff) : Bool :=
  !(diff.modified.isEmpty && diff.new.isEmpty && diff.deleted.isEmpty)

/-- What the scan decides for one file of the walk. -/
inductive FileStatus where
  | oversize
  | unchanged
  /-- Unchanged by its hash: its row takes the modification time on disk. -/
  | touched
  | failed (error : IoError)
  /-- Larger than the cap when read, though not when listed. -/
  | grown
  | new
  | modified
  deriving DecidableEq

section Scan

variable (tools : Tools) (mode : SyncMode) (w : Worktree) (idx : Index)

/-- Whether the row's modification time and length are the file's. -/
def sameMetadata (row : FileRow) (file : DiskFile) : Bool :=
  row.mtimeNs == file.mtimeNs && row.byteLen == file.byteLen

/-- The status of a file of the walk, given the row of its path. -/
def fileStatus (existing : Option FileRow) (file : DiskFile) : FileStatus :=
  if maxFileBytes < file.byteLen then .oversize
  else if mode == .auto && existing.any fun row => sameMetadata row file then .unchanged
  else
    match readCapped file.content with
    | .error error => .failed error
    | .ok none => .grown
    | .ok (some bytes) =>
      match existing with
      | none => .new
      | some row =>
        if mode == .auto && tools.hasher.hash bytes == row.contentHash then .touched
        else .modified

def statusOf (file : DiskFile) : FileStatus := fileStatus tools mode (idx.fileRow file.path) file

def pathsWith (p : FileStatus → Bool) : List Text :=
  sortPaths ((w.files.filter fun file => p (statusOf tools mode idx file)).map DiskFile.path)

/-- Whether a path lies at or under one the walk could not read. -/
def underUnreadable (path : Text) : Bool :=
  w.unreadable.any fun entry => entry.path.isPrefixOf (pathComponents path)

/-- Whether the walk listed the path within the size cap, which takes its row
out of the rows left over at the end of the scan. -/
def listed (path : Text) : Bool :=
  w.files.any fun file => file.path == path && decide (file.byteLen ≤ maxFileBytes)

def deletedPaths : List Text :=
  sortPaths ((idx.files.map FileRow.path).filter fun path => !listed w path && !underUnreadable w path)

def readFailure (path : Text) (error : IoError) : SyncFailure :=
  ⟨path, "read file for content hash", error.kind, error.message⟩

def scanDiff : Diff where
  unchanged := pathsWith tools mode w idx fun s => s == .unchanged || s == .touched
  modified := pathsWith tools mode w idx (· == .modified)
  new := pathsWith tools mode w idx (· == .new)
  deleted := deletedPaths w idx
  oversize := pathsWith tools mode w idx fun s => s == .oversize || s == .grown
  failed :=
    sortFailures
      ((w.files.filterMap fun file =>
        match statusOf tools mode idx file with
        | .failed error => some (readFailure file.path error)
        | _ => none) ++ w.unreadable.map Unreadable.failure)

/-- The modification time a scan stamps on a row. -/
def touchedRow (row : FileRow) : FileRow :=
  match w.file? row.path with
  | some file =>
    if statusOf tools mode idx file = .touched then { row with mtimeNs := file.mtimeNs } else row
  | none => row

/-- The index after a scan: only modification times change. -/
def scanned : Index := { idx with files := idx.files.map (touchedRow tools mode w idx) }

end Scan

end OrbitGraph.Sync
