import Mathlib.Data.List.Destutter
import OrbitGraph.Changes.Selector
import OrbitGraph.Lib.Groups

/-!
What a comparison of two snapshots starts from: the changed files that Git reports,
and the symbols that the index of each side lists.

A path of a delta is what Git reports, relative and with `/` between its parts. The
indexes are ordered maps, so that everything is taken in the order of its key.
-/

namespace OrbitGraph.Changes

open Lib

inductive SnapshotSide where
  | base
  | head
  deriving DecidableEq

def SnapshotSide.label : SnapshotSide → Text
  | .base => "base"
  | .head => "head"

inductive ChangesError where
  | git (operation reason : Text)
  | query (operation : Text) (side : SnapshotSide) (reason : Text)
  deriving DecidableEq

/-! ### Changed files -/

/-- The status of a delta, as Git reports it. -/
inductive Delta where
  | unmodified
  | added
  | deleted
  | modified
  | renamed
  | copied
  | ignored
  | untracked
  | typechange
  | unreadable
  | conflicted
  deriving DecidableEq

inductive FileChangeKind where
  | added
  | deleted
  | modified
  | renamed
  | copied
  | typeChanged
  | other
  deriving DecidableEq

namespace FileChangeKind

def label : FileChangeKind → Text
  | added => "added"
  | deleted => "deleted"
  | modified => "modified"
  | renamed => "renamed"
  | copied => "copied"
  | typeChanged => "type_changed"
  | other => "other"

def noun : FileChangeKind → Text
  | renamed => "rename"
  | copied => "copy"
  | kind => kind.label

def fromDelta : Delta → FileChangeKind
  | .added => added
  | .deleted => deleted
  | .modified => modified
  | .renamed => renamed
  | .copied => copied
  | .typechange => typeChanged
  | _ => other

end FileChangeKind

/-- A delta of the Git diff, with the paths of its two files. -/
structure GitDelta where
  status : Delta
  oldPath : Option Text
  newPath : Option Text

structure FileDelta where
  kind : FileChangeKind
  basePath : Option Text
  headPath : Option Text
  deriving DecidableEq

structure ChangedFiles where
  deltas : List FileDelta
  baseIndex : Std.TreeMap Text Nat
  headIndex : Std.TreeMap Text Nat

namespace ChangedFiles

def empty : ChangedFiles := ⟨[], ∅, ∅⟩

variable (files : ChangedFiles)

def push (delta : FileDelta) : ChangedFiles :=
  { deltas := files.deltas ++ [delta]
    baseIndex := delta.basePath.elim files.baseIndex fun path => files.baseIndex.insert path files.deltas.length
    headIndex := delta.headPath.elim files.headIndex fun path => files.headIndex.insert path files.deltas.length }

def forBase (path : Text) : Option FileDelta := files.baseIndex[path]?.bind fun at_ => files.deltas[at_]?

def forHead (path : Text) : Option FileDelta := files.headIndex[path]?.bind fun at_ => files.deltas[at_]?

def basePaths : List Text := files.baseIndex.keys

def headPaths : List Text := files.headIndex.keys

def renamedPairs : List (Text × Text × FileChangeKind) :=
  files.deltas.filterMap fun delta =>
    match delta.kind, delta.basePath, delta.headPath with
    | .renamed, some base, some head => some (base, head, .renamed)
    | .copied, some base, some head => some (base, head, .copied)
    | _, _, _ => none

def sameFilePaths : List (Text × FileChangeKind) :=
  files.deltas.filterMap fun delta =>
    match delta.basePath, delta.headPath with
    | some base, some head => if base = head then some (base, delta.kind) else none
    | _, _ => none

end ChangedFiles

/-- `path_of`: the components of a path. -/
def pathOf (path : Option Text) : Option Text :=
  path.bind fun path =>
    let parts := (Text.splitChar '/' path).filter fun part => part ≠ [] ∧ part ≠ "."
    if parts = [] then none else some (Text.join "/" parts)

/-- State of the graph itself, which is no source. -/
def isScratch (delta : GitDelta) : Bool :=
  (delta.newPath.orElse fun _ => delta.oldPath).any fun path =>
    path = ".orbit-graph".toList || Text.startsWith ".orbit-graph/".toList path

def fileDelta (delta : GitDelta) : FileDelta :=
  let kind := FileChangeKind.fromDelta delta.status
  { kind
    basePath := if kind = .added then none else pathOf delta.oldPath
    headPath := if kind = .deleted then none else pathOf delta.newPath }

/-- `changed_files`, of the deltas that Git reports. -/
def changedFiles (deltas : List GitDelta) : ChangedFiles :=
  deltas.foldl (fun files delta =>
    if isScratch delta then files
    else
      let delta := fileDelta delta
      if delta.basePath = none ∧ delta.headPath = none then files else files.push delta) .empty

/-! ### Snapshots -/

/-- A row of the full overview. -/
structure OverviewSymbol where
  name : Text
  qualified : Text
  kind : Text

structure OverviewFile where
  path : Text
  symbols : List OverviewSymbol

/-- What `show` returns. -/
structure NodeView where
  bytes : List UInt8
  truncated : Bool

inductive ExclusionReason where
  | symlink
  | submodule
  | oversizeBlob (bytes : Nat)
  | unsafeName
  | unsupportedKind

/-- A snapshot: its commit, what was not materialized, and the queries on its index. -/
structure Snapshot where
  commitSha : Text
  excluded : List (Text × ExclusionReason)
  overview : Except Text (List OverviewFile)
  showNode : Selector → Nat → Except Text (Option NodeView)

/-- A comparison, with the deltas of the Git diff between its snapshots. -/
structure Comparison where
  base : Snapshot
  head : Snapshot
  deltas : Except ChangesError (List GitDelta)

def Comparison.snapshot (comparison : Comparison) : SnapshotSide → Snapshot
  | .base => comparison.base
  | .head => comparison.head

/-! ### Inventories -/

structure IndexedSymbol where
  path : Text
  name : Text
  qualified : Text
  kind : Text
  selector : Text
  deriving DecidableEq

/-- A symbol in one snapshot. -/
structure SymbolRef where
  selector : Text
  snapshot : Text
  commitSha : Text

structure SideInventory where
  side : SnapshotSide
  commitSha : Text
  indexedFiles : Std.TreeSet Text
  symbols : Std.TreeMap Text IndexedSymbol
  /-- The selectors of more than one row. -/
  ambiguousSelectors : Std.TreeSet Text
  byPath : Std.TreeMap Text (List Text)

namespace SideInventory

variable (inventory : SideInventory)

/-- One row of the overview. Its qualified name is its identity in the file. -/
def addSymbol (path : Text) (inventory : SideInventory) (symbol : OverviewSymbol) : SideInventory :=
  let selector := (Selector.symbol path symbol.qualified symbol.kind).display
  let symbols := inventory.symbols.insert selector ⟨path, symbol.name, symbol.qualified, symbol.kind, selector⟩
  if selector ∈ inventory.symbols then
    { inventory with symbols, ambiguousSelectors := inventory.ambiguousSelectors.insert selector }
  else
    { inventory with symbols, byPath := inventory.byPath.alter path fun known => some (known.getD [] ++ [selector]) }

def addFile (inventory : SideInventory) (file : OverviewFile) : SideInventory :=
  file.symbols.foldl (addSymbol file.path)
    { inventory with indexedFiles := inventory.indexedFiles.insert file.path }

def ofFiles (side : SnapshotSide) (commitSha : Text) (files : List OverviewFile) : SideInventory :=
  files.foldl addFile ⟨side, commitSha, ∅, ∅, ∅, ∅⟩

def load (side : SnapshotSide) (snapshot : Snapshot) : Except ChangesError SideInventory :=
  match snapshot.overview with
  | .error reason => .error (.query "list indexed symbols" side reason)
  | .ok files => .ok (ofFiles side snapshot.commitSha files)

def symbolRef (selector : Text) : SymbolRef := ⟨selector, inventory.side.label, inventory.commitSha⟩

def selectorsIn (path : Text) : List Text := inventory.byPath[path]?.getD []

end SideInventory

/-- `candidate_selectors`: the symbols in files that the diff touched. -/
def candidateSelectors (inventory : SideInventory) (paths : List Text) : Std.TreeSet Text :=
  paths.foldl (fun selectors path => (inventory.selectorsIn path).foldl (fun selectors s => selectors.insert s) selectors) ∅

inductive OutOfScopeReason where
  | unsupportedLanguage
  | symlink
  | submodule
  | oversizeBlob
  | unsafeName
  | unsupportedKind
  deriving DecidableEq

def OutOfScopeReason.fromExclusion : ExclusionReason → OutOfScopeReason
  | .symlink => symlink
  | .submodule => submodule
  | .oversizeBlob _ => oversizeBlob
  | .unsafeName => unsafeName
  | .unsupportedKind => unsupportedKind

structure OutOfScopeEntry where
  path : Text
  reason : OutOfScopeReason
  snapshot : Text
  deriving DecidableEq

def outOfScopeIn (snapshot : Snapshot) (inventory : SideInventory) (paths : List Text) : List OutOfScopeEntry :=
  (paths.filter fun path => path ∉ inventory.indexedFiles).map fun path =>
    { path
      reason := ((snapshot.excluded.find? fun entry => entry.1 = path).map fun entry =>
        OutOfScopeReason.fromExclusion entry.2).getD .unsupportedLanguage
      snapshot := inventory.side.label }

def outOfScope (comparison : Comparison) (files : ChangedFiles) (base head : SideInventory) : List OutOfScopeEntry :=
  let entries := outOfScopeIn comparison.base base files.basePaths ++ outOfScopeIn comparison.head head files.headPaths
  (entries.mergeSort fun a b => ((compare a.path b.path).then (compare a.snapshot b.snapshot)).isLE).destutter (· ≠ ·)

end OrbitGraph.Changes
