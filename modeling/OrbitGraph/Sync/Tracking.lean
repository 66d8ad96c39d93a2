import OrbitGraph.Sync.FileState
import OrbitGraph.Sync.ResolverAgreement

/-!
The invariant of an index through syncs that complete and syncs that stop.

Every file's state is the extraction of one content. Its row either carries
that content's hash, and then its references are stored, or the pending hash,
and then none are. The ids of the symbol rows are distinct.
-/

namespace OrbitGraph.Sync

open Lib

/-- The states a file can be in: no rows; the rows of a content with its hash
and its references; the rows of a content with the pending hash and without
references. -/
inductive FileState.Tracked (tools : Tools) (path : Text) : FileState → Prop where
  | absent : FileState.Tracked tools path .absent
  | current {row : FileRow} {rows : ExtractedFile} (bytes : Bytes)
      (lang : tools.extractors.languageFor path = some row.lang)
      (extracted : tools.extractors.extract path bytes = .ok rows)
      (hash : row.contentHash = tools.hasher.hash bytes) (len : row.byteLen = bytes.length) :
      FileState.Tracked tools path
        ⟨some row, rows.symbols, rows.imports.map (RawImport.row path), rows.refs⟩
  | pending {row : FileRow} {rows : ExtractedFile} (bytes : Bytes)
      (lang : tools.extractors.languageFor path = some row.lang)
      (extracted : tools.extractors.extract path bytes = .ok rows)
      (hash : row.contentHash = pendingContentHash) (len : row.byteLen = bytes.length) :
      FileState.Tracked tools path
        ⟨some row, rows.symbols, rows.imports.map (RawImport.row path), []⟩

/-- The invariant of an index. -/
structure Index.Tracked (tools : Tools) (idx : Index) : Prop where
  files : ∀ path, (idx.fileState path).Tracked tools path
  ids : (idx.symbols.map SymbolRow.id).Nodup

variable {tools : Tools} {mode : SyncMode} {w : Worktree} {idx : Index}

namespace FileState.Tracked

variable {path : Text}

theorem touch {state : FileState} (h : state.Tracked tools path) (touch : FileRow → FileRow)
    (keeps : ∀ row, (touch row).lang = row.lang ∧ (touch row).contentHash = row.contentHash ∧
      (touch row).byteLen = row.byteLen) :
    FileState.Tracked tools path { state with row := state.row.map touch } := by
  cases h with
  | absent => exact .absent
  | @current row rows bytes lang extracted hash len =>
    obtain ⟨sameLang, sameHash, sameLen⟩ := keeps row
    exact .current bytes (sameLang ▸ lang) extracted (sameHash.trans hash) (sameLen.trans len)
  | @pending row rows bytes lang extracted hash len =>
    obtain ⟨sameLang, sameHash, sameLen⟩ := keeps row
    exact .pending bytes (sameLang ▸ lang) extracted (sameHash.trans hash) (sameLen.trans len)

variable {source : SourceFile}

theorem of_write (h : extractSource tools w path = .ok source) :
    (FileTransaction.write source).leaves.Tracked tools path := by
  obtain ⟨file, bytes, -, -, lang, extracted, named, -, -, len⟩ := extractSource_eq_ok h
  have leaves : (FileTransaction.write source).leaves =
      ⟨some (FileTransaction.pendingRow source), source.rows.symbols,
        source.rows.imports.map (RawImport.row path), []⟩ := by
    rw [FileTransaction.leaves, named]
  rw [leaves]
  exact .pending bytes lang extracted rfl len

theorem of_sync (h : extractSource tools w path = .ok source) : source.currentState.Tracked tools path := by
  obtain ⟨file, bytes, -, -, lang, extracted, named, hash, -, len⟩ := extractSource_eq_ok h
  have state : source.currentState =
      ⟨some source.currentRow, source.rows.symbols, source.rows.imports.map (RawImport.row path),
        source.rows.refs⟩ := by
    rw [SourceFile.currentState, named]
  rw [state]
  exact .current bytes lang extracted hash len

end FileState.Tracked

theorem deleteFile_ids (path : Text) (ids : (idx.symbols.map SymbolRow.id).Nodup) :
    ((idx.deleteFile path).symbols.map SymbolRow.id).Nodup :=
  ids.sublist (List.filter_sublist.map _)

/-- A transaction keeps the ids distinct: the rows it inserts take ids above
every one in use. -/
theorem apply_ids (t : FileTransaction) (ids : (idx.symbols.map SymbolRow.id).Nodup) :
    ((t.apply idx).symbols.map SymbolRow.id).Nodup := by
  cases t with
  | delete path => exact deleteFile_ids path ids
  | write source =>
    simp only [FileTransaction.apply, List.map_append, FileTransaction.newSymbols, numberSymbols_ids]
    refine List.nodup_append.mpr ⟨deleteFile_ids _ ids, List.nodup_range', ?_⟩
    rintro _ old _ new rfl
    obtain ⟨s, hs, rfl⟩ := List.mem_map.mp old
    have below := Index.id_lt_nextSymbolId hs
    have above := (List.mem_range'_1.mp new).1
    omega

theorem foldl_ids (ts : List FileTransaction) (ids : (idx.symbols.map SymbolRow.id).Nodup) :
    ((ts.foldl FileTransaction.apply idx).symbols.map SymbolRow.id).Nodup := by
  induction ts generalizing idx with
  | nil => exact ids
  | cons t rest ih => exact ih (apply_ids t ids)

section

variable [CharTables]

theorem pass2_rows (packages : PackageFiles) (files : List FileRefs) (reresolve : Reresolve) (idx : Index) :
    (Pass2.run packages files reresolve idx).symbols = idx.symbols ∧
      (Pass2.run packages files reresolve idx).imports = idx.imports := by
  have rewritten : ∀ (R : Resolver) (files : List FileRefs) (idx : Index),
      (files.foldl (Pass2.rewriteFile R) idx).symbols = idx.symbols ∧
        (files.foldl (Pass2.rewriteFile R) idx).imports = idx.imports := by
    intro R files
    induction files with
    | nil => exact fun _ => ⟨rfl, rfl⟩
    | cons file rest ih => exact fun idx => ih (Pass2.rewriteFile R idx file)
  exact rewritten _ files idx

end

theorem empty_tracked : Index.empty.Tracked tools where
  files _ := .absent
  ids := List.nodup_nil

theorem Index.Tracked.map_files (h : idx.Tracked tools) {touch : FileRow → FileRow}
    (keeps : ∀ row, (touch row).path = row.path ∧ (touch row).lang = row.lang ∧
      (touch row).contentHash = row.contentHash ∧ (touch row).byteLen = row.byteLen) :
    Index.Tracked tools { idx with files := idx.files.map touch } where
  files path := by
    have row : Index.fileRow { idx with files := idx.files.map touch } path =
        (idx.fileRow path).map touch := by
      simp only [Index.fileRow, List.find?_map, Function.comp_def, (keeps _).1]
    have state : Index.fileState { idx with files := idx.files.map touch } path =
        { idx.fileState path with row := (idx.fileRow path).map touch } := by
      simp only [Index.fileState, row]
      rfl
    rw [state]
    exact (h.files path).touch touch fun row => (keeps row).2
  ids := h.ids

theorem touchedRow_keeps (row : FileRow) : (touchedRow tools mode w idx row).path = row.path ∧
      (touchedRow tools mode w idx row).lang = row.lang ∧
      (touchedRow tools mode w idx row).contentHash = row.contentHash ∧
      (touchedRow tools mode w idx row).byteLen = row.byteLen := by
  unfold touchedRow
  split
  · split <;> exact ⟨rfl, rfl, rfl, rfl⟩
  · exact ⟨rfl, rfl, rfl, rfl⟩

theorem scanned_tracked (h : idx.Tracked tools) : (scanned tools mode w idx).Tracked tools :=
  h.map_files touchedRow_keeps

theorem stoppedScan_tracked (h : idx.Tracked tools) (reached : List Text) :
    (stoppedScan tools mode w reached idx).Tracked tools := by
  refine h.map_files fun row => ?_
  split
  · exact touchedRow_keeps row
  · exact ⟨rfl, rfl, rfl, rfl⟩

theorem transactions_extracted {diff : Diff} {source : SourceFile}
    (h : FileTransaction.write source ∈ Pass1.transactions tools w diff) :
    extractSource tools w source.filePath = .ok source := by
  rcases List.mem_append.mp h with h | h
  · obtain ⟨_, -, eq⟩ := List.mem_map.mp h
    cases eq
  · obtain ⟨_, mem, eq⟩ := List.mem_map.mp h
    cases eq
    rw [Pass1.mem_extractedFiles] at mem
    exact ((Pass1.written_eq_some tools w diff).mp mem).2

theorem foldl_tracked {ts : List FileTransaction}
    (extracted : ∀ source, FileTransaction.write source ∈ ts → extractSource tools w source.filePath = .ok source)
    (h : idx.Tracked tools) : (ts.foldl FileTransaction.apply idx).Tracked tools := by
  refine ⟨?_, foldl_ids ts h.ids⟩
  have files := h.files
  clear h
  induction ts generalizing idx with
  | nil => exact files
  | cons t rest ih =>
    refine ih (fun source mem => extracted source (List.mem_cons_of_mem _ mem)) fun path => ?_
    rw [apply_fileState]
    split
    · next own =>
        cases t with
        | delete _ => exact .absent
        | write source =>
          have written := extracted source List.mem_cons_self
          rw [show source.filePath = path from own] at written
          exact .of_write written
    · exact files path

theorem runTransactions_tracked {diff : Diff} (h : idx.Tracked tools) (committed : Nat) :
    (Pass1.runTransactions ((Pass1.transactions tools w diff).take committed) idx).Tracked tools := by
  have marked : (Pass1.markPending idx).Tracked tools := ⟨h.files, h.ids⟩
  have extracted : ∀ source,
      FileTransaction.write source ∈ (Pass1.transactions tools w diff).take committed →
        extractSource tools w source.filePath = .ok source :=
    fun source mem => transactions_extracted (List.mem_of_mem_take mem)
  exact foldl_tracked extracted marked

variable [CharTables]

theorem sync_tracked (h : idx.Tracked tools) : (sync tools mode w idx).Tracked tools := by
  have scan : (scanned tools mode w idx).Tracked tools := scanned_tracked h
  constructor
  · intro path
    rw [sync_fileState]
    cases hWritten : Pass1.written tools w (scanDiff tools mode w idx) path with
    | some source => exact .of_sync ((Pass1.written_eq_some tools w _).mp hWritten).2
    | none =>
      simp only
      split
      · exact .absent
      · exact scan.files path
  · unfold sync write
    split
    · exact scan.ids
    · rw [(pass2_rows _ _ _ _).1]
      exact foldl_ids _ scan.ids

omit [CharTables] in
theorem interruptedSync_tracked (committed : Nat) (h : idx.Tracked tools) :
    (interruptedSync tools mode w committed idx).Tracked tools := by
  have scan : (scanned tools mode w idx).Tracked tools := scanned_tracked h
  unfold interruptedSync
  simp only
  split
  · exact scan
  · exact runTransactions_tracked scan committed

end OrbitGraph.Sync
