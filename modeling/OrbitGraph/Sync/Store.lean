import OrbitGraph.History.Redaction
import OrbitGraph.Lib.Command
import OrbitGraph.Sync.FileState

/-!
The whole database that a sync writes: the index with the tables that only pass 1
writes, and pass 1 as it inserts row by row.

Every insert checks the uniqueness constraints of its table, and a violation ends
the pass with what it has committed so far. The full-text tables hold rowids;
`parent_symbol`, set among the rows of one file, is left out. `reported` is no
column: it is the handler the extractor reported when the row was inserted.
-/

namespace OrbitGraph.Sync

open Lib

/-! ### Extracted rows -/

structure RawCommand where
  name : Text
  spanStart : Nat
  handlerSymbol : Option Text

structure RawRelation where
  fromQualified : Text
  toQualified : Text
  kind : Text
  defSpanStart : Nat
  defSpanEnd : Nat
  confidence : Text

structure RawString where
  line : Nat
  value : Text
  contextSymbol : Option Text

structure RawConfig where
  line : Nat
  key : Text
  kind : Text

/-- What an extractor yields for one file besides the rows of `ExtractedFile`. -/
structure OtherRows where
  commands : List RawCommand
  relations : List RawRelation
  strings : List RawString
  configs : List RawConfig

def OtherRows.none : OtherRows := ⟨[], [], [], []⟩

abbrev OtherExtractor := Text → Bytes → OtherRows

structure StoredFile extends SourceFile where
  other : OtherRows

section Extract

variable (tools : Tools) (other : OtherExtractor) (w : Worktree)

def otherRows (path : Text) : OtherRows :=
  match w.file? path with
  | none => .none
  | some file =>
    match readCapped file.content with
    | .ok (some bytes) => other path bytes
    | _ => .none

/-- `DefaultExtractorBackend::extract`, with all rows. -/
def extractFile (path : Text) : Except ExtractFileError StoredFile :=
  (extractSource tools w path).map fun source => { source with other := otherRows other w path }

/-- `extract_changed_files`: the files, and the paths that failed with their errors. -/
def extractChangedFiles (paths : List Text) : List StoredFile × List (Text × ExtractFileError) :=
  (paths.filterMap fun path => (extractFile tools other w path).toOption, paths.filterMap fun path =>
      match extractFile tools other w path with
      | .ok _ => none
      | .error error => some (path, error))

end Extract

/-! ### Stored rows -/

/-- `commands`. -/
structure CommandRow where
  name : Text
  filePath : Text
  spanStart : Nat
  handlerSymbol : Option Nat
  reported : Option Text

/-- The row without a handler among `symbols`. -/
def CommandRow.clear (symbols : List Nat) (row : CommandRow) : CommandRow :=
  if row.handlerSymbol.any (· ∈ symbols) then { row with handlerSymbol := none } else row

/-- `relations`. -/
structure RelationRow where
  id : Nat
  defFile : Text
  raw : RawRelation

/-- `strings`. -/
structure StringRow where
  id : Nat
  filePath : Text
  line : Nat
  value : Text
  contextSymbol : Option Nat

/-- `configs`. -/
structure ConfigRow where
  id : Nat
  filePath : Text
  line : Nat
  key : Text
  kind : Text

/-- The database. -/
structure Store extends Index where
  commands : List CommandRow
  relations : List RelationRow
  strings : List StringRow
  configs : List ConfigRow
  /-- The rowids of the full-text tables. -/
  symbolsFts : List Nat
  stringsFts : List Nat
  configsFts : List Nat

def Store.empty : Store := { Index.empty with
  commands := [], relations := [], strings := [], configs := [], symbolsFts := [], stringsFts := []
  configsFts := [] }

/-- A failed insert. -/
inductive SqliteError where
  | unique (column : Text)
  deriving DecidableEq

/-- A plain rowid: the largest plus one. -/
def nextRowid (ids : List Nat) : Nat := ids.foldr max 0 + 1

def notUnique (column : String) : SqliteError := .unique column.toList

namespace Store

variable (s : Store)

def commandsOf (path : Text) : List CommandRow := s.commands.filter fun row => row.filePath = path

/-- `delete_fts_for_file`: the handlers that the file's symbols are, and the file's rows in
the full-text tables. -/
def deleteFtsForFile (path : Text) : Store :=
  let symbols := (s.symbolsOf path).map SymbolRow.id
  let strings := (s.strings.filter fun row => row.filePath = path).map StringRow.id
  let configs := (s.configs.filter fun row => row.filePath = path).map ConfigRow.id
  { s with
    commands := s.commands.map (CommandRow.clear symbols)
    symbolsFts := s.symbolsFts.filter (· ∉ symbols)
    stringsFts := s.stringsFts.filter (· ∉ strings)
    configsFts := s.configsFts.filter (· ∉ configs) }

/-- `DELETE FROM files`, with the rows that hang off the file. -/
def deleteFileRows (path : Text) : Store :=
  { s with
    toIndex := s.toIndex.deleteFile path
    commands := s.commands.filter fun row => row.filePath ≠ path
    relations := s.relations.filter fun row => row.defFile ≠ path
    strings := s.strings.filter fun row => row.filePath ≠ path
    configs := s.configs.filter fun row => row.filePath ≠ path }

/-- `delete_file_transaction`. -/
def deleteFile (path : Text) : Store := (s.deleteFtsForFile path).deleteFileRows path

/-! ### Inserting -/

/-- `INSERT INTO files`. -/
def insertFile (file : StoredFile) : Except SqliteError Store := do
  let files ← insertUnique FileRow.path (notUnique "files.path") s.files
    (FileTransaction.pendingRow file.toSourceFile)
  return { s with files }

/-- One symbol, and its id under its qualified name; a later symbol of the same name takes
its place. -/
def insertSymbol (path : Text) (state : Store × (Text → Option Nat)) (raw : RawSymbol) :
    Except SqliteError (Store × (Text → Option Nat)) := do
  let (s, ids) := state
  let rowid := nextRowid (s.symbols.map SymbolRow.id)
  let symbols ← insertUnique SymbolRow.id (notUnique "symbols.id") s.symbols
    ⟨rowid, path, raw.name, raw.qualified, raw.kind, raw.spanStart, raw.spanEnd⟩
  let symbolsFts ← insertUnique (fun rowid => rowid) (notUnique "symbols_fts.rowid") s.symbolsFts rowid
  return ({ s with symbols, symbolsFts }, Function.update ids raw.qualified (some rowid))

def insertSymbols (path : Text) (symbols : List RawSymbol) :
    Except SqliteError (Store × (Text → Option Nat)) :=
  symbols.foldlM (insertSymbol path) (s, fun _ => none)

def insertImports (path : Text) (imports : List RawImport) : Store :=
  { s with imports := s.imports ++ imports.map (RawImport.row path) }

/-- `insert_relations`. -/
def insertRelation (path : Text) (s : Store) (raw : RawRelation) : Except SqliteError Store := do
  let relations ← insertUnique RelationRow.id (notUnique "relations.id") s.relations
    ⟨nextRowid (s.relations.map RelationRow.id), path, raw⟩
  return { s with relations }

/-- `insert_strings`, one string. -/
def insertString (path : Text) (symbolIds : Text → Option Nat) (s : Store) (raw : RawString) :
    Except SqliteError Store := do
  let rowid := nextRowid (s.strings.map StringRow.id)
  let strings ← insertUnique StringRow.id (notUnique "strings.id") s.strings
    ⟨rowid, path, raw.line, History.redact raw.value, raw.contextSymbol.bind symbolIds⟩
  let stringsFts ← insertUnique (fun rowid => rowid) (notUnique "strings_fts.rowid") s.stringsFts rowid
  return { s with strings, stringsFts }

/-- `insert_configs`, one key. -/
def insertConfig (path : Text) (s : Store) (raw : RawConfig) : Except SqliteError Store := do
  let rowid := nextRowid (s.configs.map ConfigRow.id)
  let configs ← insertUnique ConfigRow.id (notUnique "configs.id") s.configs
    ⟨rowid, path, raw.line, raw.key, raw.kind⟩
  let configsFts ← insertUnique (fun rowid => rowid) (notUnique "configs_fts.rowid") s.configsFts rowid
  return { s with configs, configsFts }

/-- `write_file_transaction`. -/
def writeFile (file : StoredFile) : Except SqliteError Store := do
  let s ← (s.deleteFile file.filePath).insertFile file
  let (s, symbolIds) ← s.insertSymbols file.filePath file.rows.symbols
  let s := s.insertImports file.filePath file.rows.imports
  let s ← file.other.relations.foldlM (insertRelation file.filePath) s
  let s ← file.other.strings.foldlM (insertString file.filePath symbolIds) s
  file.other.configs.foldlM (insertConfig file.filePath) s

def uniqueSymbolIdForQualified (qualified : Text) : Option Nat :=
  match s.symbols.filter fun row => row.qualified = qualified with
  | [row] => some row.id
  | _ => none

/-- `resolved_handler_symbol`, for what the extractor reported. -/
def resolvedHandlerSymbol (reported : Option Text) : Option Nat :=
  reported.bind s.uniqueSymbolIdForQualified

def commandRow (path : Text) (raw : RawCommand) : CommandRow :=
  ⟨raw.name, path, raw.spanStart, s.resolvedHandlerSymbol raw.handlerSymbol, raw.handlerSymbol⟩

/-- `insert_commands`, one command. -/
def insertCommand (s : Store) (command : Text × RawCommand) : Except SqliteError Store := do
  let commands ← insertUnique CommandRow.name (notUnique "commands.name") s.commands
    (s.commandRow command.1 command.2)
  return { s with commands }

def unresolvedCommandFiles : List Text :=
  (((s.commands.filter fun row => row.handlerSymbol.isNone).map CommandRow.filePath).dedup).insertionSort
    fun a b => Text.ble a b = true

/-- One round of `rebind_commands_transaction`. -/
def rebindCommand (s : Store) (raw : RawCommand) : Store :=
  match s.resolvedHandlerSymbol raw.handlerSymbol with
  | none => s
  | some handler => { s with
      commands := s.commands.map fun row =>
        if row.name = raw.name ∧ row.handlerSymbol = none then { row with handlerSymbol := some handler }
        else row }

end Store

/-! ### Pass 1 -/

/-- What pass 1 has done with the changed files. -/
structure Pass1Output where
  written : List Text
  failed : List SyncFailure
  oversize : List Text
  deriving DecidableEq

def ExtractFileError.intoFailure (error : ExtractFileError) (path : Text) : SyncFailure :=
  ⟨path, error.operation, error.kind, error.reason⟩

def Pass1Output.report (out : Pass1Output) (errors : List (Text × ExtractFileError)) : Pass1Output :=
  { out with
    failed := out.failed ++ errors.filterMap fun (path, error) =>
      if error.kind = "oversize" then none else some (error.intoFailure path)
    oversize := out.oversize ++ errors.filterMap fun (path, error) =>
      if error.kind = "oversize" then some path else none }

namespace Store

variable (tools : Tools) (other : OtherExtractor) (w : Worktree) (diff : Diff)

/-- `rebind_unresolved_commands`, up to its transaction: what it re-extracts. -/
def unresolvedFiles (out : Pass1Output) (s : Store) : List Text :=
  s.unresolvedCommandFiles.filter fun path =>
    path ∉ out.failed.map SyncFailure.path ∧ path ∉ out.oversize

def commandsIn (files : List StoredFile) : List (Text × RawCommand) :=
  files.flatMap fun file => file.other.commands.map fun raw => (file.filePath, raw)

/-- A step of a pass: all of it is committed or none. -/
def commit (body : Store → Except SqliteError Store) : Command SqliteError Store Unit :=
  Command.transaction none fun s => (body s).map fun t => ((), t)

/-- Steps for the elements of a list, each committed on its own. -/
def commitEach {α : Type} (body : α → Store → Except SqliteError Store) :
    List α → Command SqliteError Store Unit
  | [] => Command.answer ()
  | a :: rest => do
      commit (body a)
      commitEach body rest

/-- The transactions of the files, after the mark that a sync is under way. -/
def fileTransactions (deleted : List Text) (files : List StoredFile) : Command SqliteError Store Unit := do
  commit fun s => .ok { s with syncPending := true }
  commitEach (fun path s => .ok (s.deleteFile path)) deleted
  commitEach (fun file s => s.writeFile file) files

/-- `rebind_unresolved_commands`: the answer is what failed to extract. -/
def rebindUnresolvedCommands (out : Pass1Output) :
    Command SqliteError Store (List (Text × ExtractFileError)) := do
  let unresolved ← Command.query fun s => .ok (s.unresolvedFiles out)
  let (declaring, errors) := extractChangedFiles tools other w unresolved
  commit fun s => .ok ((declaring.flatMap fun file => file.other.commands).foldl rebindCommand s)
  Command.answer errors

def insertCommandsTransaction (files : List StoredFile) : Command SqliteError Store Unit :=
  commit fun s => (commandsIn files).foldlM insertCommand s

def writtenFiles : List StoredFile :=
  (extractChangedFiles tools other w (Pass1.changedFiles diff)).1

/-- What there is to report when some files are written and some paths were extracted. -/
def reportFor (files : List StoredFile) (paths : List Text) : Pass1Output :=
  Pass1Output.report ⟨files.map fun file => file.filePath, [], []⟩
    (extractChangedFiles tools other w paths).2

def firstReport : Pass1Output :=
  reportFor tools other w (writtenFiles tools other w diff) (Pass1.changedFiles diff)

/-- The writes of `pass1::run`, for the files that it deletes and writes. -/
def writeAll (deleted : List Text) (files : List StoredFile) (out : Pass1Output) :
    Command SqliteError Store Pass1Output := do
  fileTransactions deleted files
  let errors ← rebindUnresolvedCommands tools other w out
  insertCommandsTransaction files
  Command.answer (out.report errors)

/-- `pass1::run`. -/
def pass1 : Command SqliteError Store Pass1Output :=
  writeAll tools other w diff.deleted (writtenFiles tools other w diff) (firstReport tools other w diff)

/-- `pass1::run`, cancelled after `committed` file transactions, with the first `reached` of the
changed files extracted. -/
def cancelledPass1 (reached committed : Nat) : Command SqliteError Store Pass1Output :=
  let files := (writtenFiles tools other w diff).take (committed - diff.deleted.length)
  writeAll tools other w (diff.deleted.take committed) files
    (reportFor tools other w files ((Pass1.changedFiles diff).take reached))

end Store

end OrbitGraph.Sync
