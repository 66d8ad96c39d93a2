import OrbitGraph.Lib.Table
import OrbitGraph.Sync.ModulePath

/-!
The graph index: what the extractors yield for one file, the rows stored for
it, and the queries both passes run on them.

Tables are lists in insertion order. Only columns that synchronization reads or
compares are kept; a row's file is its `filePath` (`fromFile`) and every table
hangs off `files`, so deleting a file row deletes the rows of that file
(`ON DELETE CASCADE`, foreign keys on). `symbols.id` is a plain rowid: a new row
takes the largest id plus one.
-/

namespace OrbitGraph.Sync

open Lib

abbrev Bytes := List UInt8

structure RawSymbol where
  name : Text
  qualified : Text
  kind : Text
  spanStart : Nat
  spanEnd : Nat
  deriving DecidableEq

structure RawImport where
  targetPath : Text
  targetSymbol : Option Text
  sourceSymbol : Option Text
  reexportModule : Option Text
  deriving DecidableEq

/-- A reference as the extractor found it. -/
structure RawRef where
  spanStart : Nat
  spanEnd : Nat
  targetName : Text
  targetQualified : Option Text
  kind : Text
  /-- Receiver of a method call whose type the extractor could not determine. -/
  unresolvedReceiver : Option Text
  /-- Whether `targetQualified` is the path as written. -/
  spelledPath : Bool
  deriving DecidableEq

/-- What an extractor yields for one file. Its rows carry no path: the
extractors stamp the path they are given on each. -/
structure ExtractedFile where
  symbols : List RawSymbol
  imports : List RawImport
  refs : List RawRef

/-! ### Stored rows -/

/-- `files`. -/
structure FileRow where
  path : Text
  contentHash : Bytes
  mtimeNs : Nat
  lang : Text
  byteLen : Nat

/-- `symbols`. -/
structure SymbolRow where
  id : Nat
  filePath : Text
  name : Text
  qualified : Text
  kind : Text
  spanStart : Nat
  spanEnd : Nat
  deriving DecidableEq

/-- `imports`. -/
structure ImportRow where
  fromFile : Text
  targetPath : Text
  targetSymbol : Option Text
  sourceSymbol : Option Text
  reexportModule : Option Text

/-- How sure the resolver is of a reference's target. -/
inductive Confidence where
  | exact
  | importResolved
  | sameModule
  | fuzzyName
  deriving DecidableEq

/-- `refs`, in row order. `raw` holds the extraction columns, kept so that a
later sync can resolve the reference again. -/
structure RefRow where
  fromFile : Text
  raw : RawRef
  targetQualified : Option Text
  targetSymbolHint : Option Nat
  confidence : Confidence
  deriving DecidableEq

/-- The database. `syncPending` is the `meta` key of the same name. -/
structure Index where
  files : List FileRow
  symbols : List SymbolRow
  imports : List ImportRow
  refs : List RefRow
  syncPending : Bool

/-- The freshly created database. -/
def Index.empty : Index := ⟨[], [], [], [], false⟩

namespace Index

variable (idx : Index)

def fileRow (path : Text) : Option FileRow := idx.files.find? fun row => row.path = path

/-- `SELECT lang FROM files WHERE path = ?1`. -/
def langOf (path : Text) : Option Text := (idx.fileRow path).map FileRow.lang

def symbolsOf (path : Text) : List SymbolRow := idx.symbols.filter fun row => row.filePath = path

def importsOf (path : Text) : List ImportRow := idx.imports.filter fun row => row.fromFile = path

def refsOf (path : Text) : List RefRow := idx.refs.filter fun row => row.fromFile = path

def symbolById (id : Nat) : Option SymbolRow := idx.symbols.find? fun row => row.id = id

/-- The id of the next inserted symbol: the largest rowid plus one. -/
def nextSymbolId : Nat := (idx.symbols.map SymbolRow.id).foldr max 0 + 1

/-- Whether a file's import rows hold a public re-export. -/
def hasReexports (path : Text) : Bool :=
  (idx.importsOf path).any fun row => row.reexportModule.isSome

/-! ### Writes -/

/-- `DELETE FROM files WHERE path = ?1`, with the rows that hang off it. -/
def deleteFile (path : Text) : Index :=
  { idx with
    files := idx.files.filter fun row => row.path ≠ path
    symbols := idx.symbols.filter fun row => row.filePath ≠ path
    imports := idx.imports.filter fun row => row.fromFile ≠ path
    refs := idx.refs.filter fun row => row.fromFile ≠ path }

section DeleteFile

variable (path file : Text)

@[simp]
theorem fileRow_deleteFile :
    (idx.deleteFile path).fileRow file = if file = path then none else idx.fileRow file :=
  find?_filter_ne idx.files file path

@[simp]
theorem symbolsOf_deleteFile :
    (idx.deleteFile path).symbolsOf file = if file = path then [] else idx.symbolsOf file :=
  filter_filter_ne idx.symbols file path

@[simp]
theorem importsOf_deleteFile :
    (idx.deleteFile path).importsOf file = if file = path then [] else idx.importsOf file :=
  filter_filter_ne idx.imports file path

@[simp]
theorem refsOf_deleteFile :
    (idx.deleteFile path).refsOf file = if file = path then [] else idx.refsOf file :=
  filter_filter_ne idx.refs file path

end DeleteFile

end Index

/-- The symbol rows of a file with consecutive ids from `next`. -/
def numberSymbols (path : Text) : Nat → List RawSymbol → List SymbolRow
  | _, [] => []
  | next, s :: rest =>
    ⟨next, path, s.name, s.qualified, s.kind, s.spanStart, s.spanEnd⟩ ::
      numberSymbols path (next + 1) rest

theorem numberSymbols_filePath {path : Text} {next : Nat} {symbols : List RawSymbol}
    {row : SymbolRow} (h : row ∈ numberSymbols path next symbols) : row.filePath = path := by
  induction symbols generalizing next with
  | nil => simp [numberSymbols] at h
  | cons s rest ih =>
    rcases List.mem_cons.mp h with rfl | h
    · rfl
    · exact ih h

theorem numberSymbols_ids (path : Text) (next : Nat) (symbols : List RawSymbol) :
    (numberSymbols path next symbols).map SymbolRow.id = List.range' next symbols.length := by
  induction symbols generalizing next with
  | nil => rfl
  | cons s rest ih => simp [numberSymbols, ih, List.range'_succ]

def RawImport.row (path : Text) (i : RawImport) : ImportRow :=
  ⟨path, i.targetPath, i.targetSymbol, i.sourceSymbol, i.reexportModule⟩

/-- A symbol row without its rowid and file: what the extractor yielded. -/
def SymbolRow.toRaw (s : SymbolRow) : RawSymbol :=
  ⟨s.name, s.qualified, s.kind, s.spanStart, s.spanEnd⟩

theorem numberSymbols_toRaw (path : Text) (next : Nat) (symbols : List RawSymbol) :
    (numberSymbols path next symbols).map SymbolRow.toRaw = symbols := by
  induction symbols generalizing next with
  | nil => rfl
  | cons s rest ih => simp [numberSymbols, ih, SymbolRow.toRaw]

theorem Index.id_lt_nextSymbolId {idx : Index} {s : SymbolRow} (h : s ∈ idx.symbols) : s.id < idx.nextSymbolId := by
  have below : ∀ ids : List Nat, ∀ i ∈ ids, i ≤ ids.foldr max 0 := by
    intro ids
    induction ids with
    | nil => simp
    | cons j rest ih =>
      intro i hi
      rcases List.mem_cons.mp hi with rfl | hi
      · exact le_max_left _ _
      · exact le_max_of_le_right (ih i hi)
  exact Nat.lt_succ_of_le (below _ _ (List.mem_map_of_mem h))

end OrbitGraph.Sync
