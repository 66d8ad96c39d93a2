import OrbitGraph.Sync.Pass1
import OrbitGraph.Sync.Resolver

/-!
Pass 2: one transaction that resolves the references of the written files,
makes these files current, and re-resolves the stored references elsewhere that
the change can reach.

Every function reads the rows as pass 1 left them; the transaction writes only
`refs`, the hash and modification time of the written files, and the marker.
-/

namespace OrbitGraph.Sync

open Lib

/-! ### What files define -/

/-- What the comparison reads of a symbol row. -/
structure DefinedSymbol where
  name : Text
  qualified : Text
  kind : Text
  id : Nat

def SymbolRow.defined (s : SymbolRow) : DefinedSymbol := ⟨s.name, s.qualified, s.kind, s.id⟩

def definedSymbols (idx : Index) (path : Text) : List DefinedSymbol :=
  (idx.symbolsOf path).map SymbolRow.defined

/-- What a set of files defines, captured before pass 1 rewrites them. -/
structure Definitions where
  byFile : List (Text × List DefinedSymbol)
  hasReexports : Bool

namespace Definitions

def load (idx : Index) (paths : List Text) : Definitions where
  byFile := paths.map fun path => (path, definedSymbols idx path)
  hasReexports := paths.any idx.hasReexports

def of (before : Definitions) (path : Text) : List DefinedSymbol :=
  ((before.byFile.find? fun entry => entry.1 = path).map Prod.snd).getD []

end Definitions

/-- Whether a hint to the old row `symbol.id` still names the same definition
after the file was rewritten: the row that holds the id is the same definition,
and no other in the file shares its name and qualified name. -/
def keepsMeaning (symbol : DefinedSymbol) (old new : List DefinedSymbol) : Bool :=
  let sameIdentity := fun other : DefinedSymbol =>
    other.name == symbol.name && other.qualified == symbol.qualified
  match new.find? fun other => other.id == symbol.id with
  | none => false
  | some now =>
    sameIdentity now && now.kind == symbol.kind && (old.filter sameIdentity).length == 1 &&
      (new.filter sameIdentity).length == 1

def definitionsNamed (symbols : List DefinedSymbol) (name : Text) : List (Text × Text) :=
  (symbols.filter fun s => s.name == name).map fun s => (s.qualified, s.kind)

section

variable [CharTables]

def prefixesOf (path : Text) (symbols : List DefinedSymbol) : Finset Text :=
  modulePrefixes path (symbols.map fun s => (s.qualified, s.name))

/-- The names under which a file's definitions changed: all of them if its
module prefixes moved. -/
def changedNames (path : Text) (old new : List DefinedSymbol) : List Text :=
  let names := (old ++ new).map DefinedSymbol.name
  if prefixesOf path old ≠ prefixesOf path new then names
  else
    names.filter fun name =>
      decide (¬ (definitionsNamed old name).Perm (definitionsNamed new name))

/-! ### Dependents -/

/-- The references outside the rewritten files that an incremental sync
re-resolves: those whose target name is in `names`, and those whose hint points
at a `replaced` row. -/
structure Dependents where
  names : List Text
  replaced : List (Nat × Text)
  changedImplTraits : List Text

namespace Dependents

def ofFile (path : Text) (old new : List DefinedSymbol) : Dependents where
  names := changedNames path old new
  replaced :=
    (old.filter fun s => !keepsMeaning s old new).map fun s => (s.id, s.name)
  changedImplTraits :=
    (old ++ new).filterMap fun s =>
      if s.kind = "impl".toList ∧ s.name ∈ changedNames path old new then
        implTraitName s.qualified
      else none

/-- Names of the members that the traits of this name declare. The query keeps
the symbols whose qualified name contains the trait's name and `::`. -/
def traitMemberNames (idx : Index) (traitName : Text) : List Text :=
  (idx.symbols.filter fun s =>
    s.kind != "impl".toList && Text.contains (traitName ++ colons) s.qualified &&
      match MemberTarget.parse s.qualified with
      | some member => !member.bracketed && member.typeName == traitName
      | none => false).map SymbolRow.name

/-- Compares what each changed or removed file defined before the sync with
what it defines now. -/
def between (idx : Index) (before : Definitions) (rewritten : List Text) : Dependents :=
  let files := (before.byFile.map Prod.fst ++ rewritten).dedup
  let added := files.map fun path => ofFile path (before.of path) (definedSymbols idx path)
  let traits := added.flatMap changedImplTraits
  { names := added.flatMap names ++ traits.flatMap (traitMemberNames idx)
    replaced := added.flatMap replaced
    changedImplTraits := [] }

/-- Whether a stored reference is among them: `target_name IN lookup_names`, and
named by a change or hinting at a replaced row. -/
def selects (d : Dependents) (row : RefRow) : Bool :=
  decide (row.raw.targetName ∈ d.names ++ d.replaced.map Prod.snd) &&
    (decide (row.raw.targetName ∈ d.names) ||
      match row.targetSymbolHint with
      | some hint => decide (hint ∈ d.replaced.map Prod.fst)
      | none => false)

end Dependents

/-! ### The transaction -/

/-- Which stored references outside the rewritten files pass 2 re-resolves. -/
inductive Reresolve where
  | dependents (before : Definitions)
  | all

def RefRow.withResolution (row : RefRow) (resolved : ResolvedRef) : RefRow :=
  { row with
    targetQualified := resolved.targetQualified
    targetSymbolHint := resolved.targetSymbolHint
    confidence := resolved.confidence }

/-- `insert_ref`. -/
def refRow (fromFile : Text) (raw : RawRef) (resolved : ResolvedRef) : RefRow :=
  ⟨fromFile, raw, resolved.targetQualified, resolved.targetSymbolHint, resolved.confidence⟩

namespace Pass2

variable (R : Resolver)

/-- `mark_current`: stamp the real content hash and modification time. -/
def markCurrent (file : FileRefs) (row : FileRow) : FileRow :=
  if row.path = file.filePath then
    { row with contentHash := file.contentHash, mtimeNs := file.mtimeNs }
  else row

/-- Rewrite the references of one written file and make it current. -/
def rewriteFile (idx : Index) (file : FileRefs) : Index :=
  { idx with
    files := idx.files.map (markCurrent file)
    refs := (idx.refs.filter fun row => row.fromFile ≠ file.filePath) ++
      List.zipWith (refRow file.filePath) file.refs (R.resolveFile file.filePath file.refs) }

/-- Re-resolve the stored references that are selected. Their rows keep their
place; a row whose resolution is the same stays as it is. -/
def refresh (selected : RefRow → Bool) (idx : Index) : Index :=
  { idx with
    refs := idx.refs.map fun row =>
      if selected row then row.withResolution (R.resolveIn row.fromFile row.raw) else row }

/-- The stored references that pass 2 re-resolves. -/
def selection (idx : Index) (rewritten : List Text) : Reresolve → RefRow → Bool
  | .dependents before, row =>
    let reexportsChanged :=
      before.hasReexports || (before.byFile.map Prod.fst ++ rewritten).any idx.hasReexports
    !decide (row.fromFile ∈ rewritten) &&
      (reexportsChanged || (Dependents.between idx before rewritten).selects row)
  | .all, row => !decide (row.fromFile ∈ rewritten)

/-- The whole transaction, on the index that pass 1 left. -/
def run (packages : PackageFiles) (files : List FileRefs) (reresolve : Reresolve)
    (idx : Index) : Index :=
  let R := Resolver.of packages idx
  let rewritten := files.map FileRefs.filePath
  { refresh R (selection idx rewritten reresolve) (files.foldl (rewriteFile R) idx) with
    syncPending := false }

end Pass2

end

end OrbitGraph.Sync
