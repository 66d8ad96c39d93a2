import OrbitGraph.Sync.Run

/-!
What an index stores for one file, and what each step of a sync makes of it.

A file's state is its row and what its extraction left, without row ids and
without resolutions. Every step of a sync moves the states of the files one by
one: a deletion empties a state, a write replaces it, pass 2 makes it current.
`Tracked` is the invariant of a state: it is the extraction of some content, and
its references are there exactly when its row carries that content's hash.
-/

namespace OrbitGraph.Sync

open Lib

/-- What is stored for one file. -/
structure FileState where
  row : Option FileRow
  symbols : List RawSymbol
  imports : List ImportRow
  refs : List RawRef

def FileState.absent : FileState := ⟨none, [], [], []⟩

def Index.fileState (idx : Index) (path : Text) : FileState where
  row := idx.fileRow path
  symbols := (idx.symbolsOf path).map SymbolRow.toRaw
  imports := idx.importsOf path
  refs := (idx.refsOf path).map RefRow.raw

/-! ### Pass 1 -/

def FileTransaction.leaves : FileTransaction → FileState
  | .delete _ => .absent
  | .write file =>
    ⟨some (pendingRow file), file.rows.symbols, file.rows.imports.map (RawImport.row file.filePath), []⟩

/-- A transaction changes the state of its own file only. -/
theorem apply_fileState (idx : Index) (t : FileTransaction) (file : Text) :
    (t.apply idx).fileState file = if t.path = file then t.leaves else idx.fileState file := by
  cases t with
  | delete path =>
    by_cases h : file = path
    · simp [FileTransaction.apply, FileTransaction.path, FileTransaction.leaves,
        Index.fileState, FileState.absent, h]
    · simp [FileTransaction.apply, FileTransaction.path, Index.fileState, h, Ne.symm h]
  | write source =>
    by_cases h : file = source.filePath
    · simp [FileTransaction.path, FileTransaction.leaves, Index.fileState,
        FileTransaction.newSymbols, numberSymbols_toRaw, h]
    · simp [FileTransaction.path, Index.fileState, h, Ne.symm h]

theorem changedFiles_nodup (diff : Diff) : (Pass1.changedFiles diff).Nodup :=
  (sortPaths_perm _).nodup_iff.mpr (List.nodup_dedup _)

theorem mem_changedFiles {diff : Diff} {path : Text} :
    path ∈ Pass1.changedFiles diff ↔ path ∈ diff.modified ∨ path ∈ diff.new := by
  simp [Pass1.changedFiles]

namespace Pass1

variable (tools : Tools) (w : Worktree) (diff : Diff)

/-- What pass 1 writes for a path, if it writes it. -/
def written (path : Text) : Option SourceFile :=
  if path ∈ changedFiles diff then (extractSource tools w path).toOption else none

/-- A file is written if it changed and could be extracted. -/
theorem written_eq_some {path : Text} {source : SourceFile} : written tools w diff path = some source ↔
      (path ∈ diff.modified ∨ path ∈ diff.new) ∧ extractSource tools w path = .ok source := by
  rw [← mem_changedFiles]
  unfold written
  split
  · next h =>
      cases extractSource tools w path with
      | error e => simp [Except.toOption]
      | ok s => simp [Except.toOption, h]
  · next h => simp [h]

theorem written_filePath {path : Text} {source : SourceFile}
    (h : written tools w diff path = some source) : source.filePath = path := by
  obtain ⟨-, extracted⟩ := (written_eq_some tools w diff).mp h
  obtain ⟨-, -, -, -, -, -, named, -⟩ := extractSource_eq_ok extracted
  exact named

theorem extractedFiles_eq : extractedFiles tools w diff = (changedFiles diff).filterMap (written tools w diff) := by
  refine List.filterMap_congr fun path mem => ?_
  rw [written, if_pos mem]
  cases extractSource tools w path <;> rfl

theorem extractedFiles_filter (path : Text) :
    (extractedFiles tools w diff).filter (fun source => source.filePath = path) =
      (written tools w diff path).toList := by
  rw [extractedFiles_eq, filter_filterMap_keyed (fun k a h => written_filePath tools w diff h)
    (changedFiles_nodup diff)]
  split
  · rfl
  · next h => simp [written, h]

theorem mem_extractedFiles {source : SourceFile} :
    source ∈ extractedFiles tools w diff ↔ written tools w diff source.filePath = some source := by
  have := extractedFiles_filter tools w diff source.filePath
  constructor
  · intro h
    have mem : source ∈ (extractedFiles tools w diff).filter fun s => s.filePath = source.filePath :=
      List.mem_filter.mpr ⟨h, by simp⟩
    rw [this] at mem
    exact Option.mem_toList.mp mem
  · intro h
    have mem : source ∈ (written tools w diff source.filePath).toList := Option.mem_toList.mpr h
    rw [← this] at mem
    exact (List.mem_filter.mp mem).1

theorem foldl_fileState (ts : List FileTransaction) (idx : Index) (path : Text) :
    (ts.foldl FileTransaction.apply idx).fileState path =
      (ts.filter fun t => t.path = path).foldl (fun _ t => t.leaves) (idx.fileState path) :=
  foldl_keyed Index.fileState (fun t _ => t.leaves) apply_fileState ts idx path

/-- What pass 1 leaves of a file depends on that file alone. -/
theorem run_fileState (idx : Index) (path : Text) :
    (run tools w diff idx).fileState path =
      match written tools w diff path with
      | some source => (FileTransaction.write source).leaves
      | none => if path ∈ diff.deleted then .absent else idx.fileState path := by
  have deletions : ∀ (paths : List Text) (state : FileState),
      ((paths.map FileTransaction.delete).filter fun t => t.path = path).foldl
        (fun _ t => t.leaves) state = if path ∈ paths then .absent else state := by
    intro paths
    induction paths with
    | nil => intro state; rfl
    | cons p rest ih =>
      intro state
      have head : (FileTransaction.delete p).path = path ↔ p = path := Iff.rfl
      simp only [List.map_cons, List.filter_cons, decide_eq_true_eq, head]
      by_cases h : p = path
      · rw [if_pos h, List.foldl_cons, ih]
        simp [h, FileTransaction.leaves]
      · rw [if_neg h, ih]
        simp [Ne.symm h]
  have writes : ((extractedFiles tools w diff).map FileTransaction.write).filter
      (fun t => t.path = path) =
      (written tools w diff path).toList.map FileTransaction.write := by
    rw [List.filter_map, ← extractedFiles_filter]
    rfl
  rw [run, runTransactions, foldl_fileState, transactions, List.filter_append, List.foldl_append, deletions, writes]
  cases written tools w diff path with
  | some source => rfl
  | none => rfl

end Pass1

section Scan

variable (tools : Tools) (mode : SyncMode) (w : Worktree) (idx : Index)

theorem touchedRow_path (row : FileRow) : (touchedRow tools mode w idx row).path = row.path := by
  unfold touchedRow
  split
  · split <;> rfl
  · rfl

/-- The scan touches times of modification only. -/
theorem fileRow_scanned (path : Text) : (scanned tools mode w idx).fileRow path =
      (idx.fileRow path).map (touchedRow tools mode w idx) := by
  unfold scanned Index.fileRow
  simp only [List.find?_map, Function.comp_def, touchedRow_path]

theorem scanned_fileState (path : Text) : (scanned tools mode w idx).fileState path =
      { idx.fileState path with row := (idx.fileRow path).map (touchedRow tools mode w idx) } := by
  simp only [Index.fileState, fileRow_scanned]
  rfl

variable {tools mode w idx} in
theorem fileState_scanned_of_untouched {path : Text}
    (untouched : ∀ row, idx.fileRow path = some row → touchedRow tools mode w idx row = row) :
    (scanned tools mode w idx).fileState path = idx.fileState path := by
  rw [scanned_fileState]
  cases hRow : idx.fileRow path with
  | none =>
    rw [Option.map_none, ← hRow]
    rfl
  | some row =>
    rw [Option.map_some, untouched row hRow, ← hRow]
    rfl

end Scan

section Pass2

variable [CharTables]

def FileRefs.makesCurrent (file : FileRefs) (state : FileState) : FileState :=
  { state with
    row := state.row.map fun row =>
      { row with contentHash := file.contentHash, mtimeNs := file.mtimeNs }
    refs := file.refs }

theorem rewriteFile_fileState (R : Resolver) (idx : Index) (file : FileRefs) (path : Text) :
    (Pass2.rewriteFile R idx file).fileState path =
      if file.filePath = path then file.makesCurrent (idx.fileState path)
      else idx.fileState path := by
  have rows : (Pass2.rewriteFile R idx file).fileRow path =
      (idx.fileRow path).map (Pass2.markCurrent file) := by
    have keeps : ∀ row, (Pass2.markCurrent file row).path = row.path := by
      intro row
      unfold Pass2.markCurrent
      split <;> rfl
    simp only [Pass2.rewriteFile, Index.fileRow, List.find?_map, Function.comp_def, keeps]
  have old : (idx.refs.filter fun row => row.fromFile ≠ file.filePath).filter
      (fun row => row.fromFile = path) =
      if path = file.filePath then [] else idx.refsOf path := filter_filter_ne idx.refs path _
  have zipped : ∀ (raws : List RawRef) (resolved : List ResolvedRef),
      raws.length = resolved.length →
      ((List.zipWith (refRow file.filePath) raws resolved).filter fun row => row.fromFile = path).map RefRow.raw =
      if path = file.filePath then raws else [] := by
    intro raws
    induction raws with
    | nil => simp
    | cons raw rest ih =>
      intro resolved len
      cases resolved with
      | nil => simp at len
      | cons r resolved =>
        have ih := ih resolved (by simpa using len)
        by_cases h : path = file.filePath
        · simp_all [refRow]
        · simp_all [refRow, Ne.symm h]
  have refs : ((Pass2.rewriteFile R idx file).refsOf path).map RefRow.raw =
      if path = file.filePath then file.refs else (idx.refsOf path).map RefRow.raw := by
    have len : file.refs.length = (R.resolveFile file.filePath file.refs).length := by
      simp [Resolver.resolveFile_eq_map]
    simp only [Pass2.rewriteFile, Index.refsOf, List.filter_append, List.map_append] at old ⊢
    rw [old, zipped _ _ len]
    split <;> simp
  have row : ∀ row, idx.fileRow path = some row → row.path = path := by
    intro row h
    simpa using List.find?_some h
  by_cases h : file.filePath = path
  · have marked : (idx.fileRow path).map (Pass2.markCurrent file) =
        (idx.fileRow path).map fun row =>
          { row with contentHash := file.contentHash, mtimeNs := file.mtimeNs } := by
      cases hRow : idx.fileRow path with
      | none => rfl
      | some r => simp [Pass2.markCurrent, row r hRow, h]
    simp only [Index.fileState, rows, refs, if_pos h, if_pos h.symm, FileRefs.makesCurrent, marked]
    rfl
  · have marked : (idx.fileRow path).map (Pass2.markCurrent file) = idx.fileRow path := by
      cases hRow : idx.fileRow path with
      | none => rfl
      | some r => simp [Pass2.markCurrent, row r hRow, Ne.symm h]
    simp only [Index.fileState, rows, refs, if_neg h, if_neg (Ne.symm h), marked]
    rfl

/-- Resolving stored references again changes the state of no file. -/
theorem refresh_fileState (R : Resolver) (selected : RefRow → Bool) (idx : Index) (path : Text) :
    (Pass2.refresh R selected idx).fileState path = idx.fileState path := by
  have keep : ∀ row : RefRow,
      (if selected row then row.withResolution (R.resolveIn row.fromFile row.raw) else row).fromFile
        = row.fromFile ∧
      (if selected row then row.withResolution (R.resolveIn row.fromFile row.raw) else row).raw
        = row.raw := by
    intro row
    split <;> exact ⟨rfl, rfl⟩
  simp only [Pass2.refresh, Index.fileState, Index.fileRow, Index.symbolsOf, Index.importsOf,
    Index.refsOf, List.filter_map, List.map_map, Function.comp_def, keep]

/-- Pass 2 makes the files it is given current. -/
theorem pass2_fileState (packages : PackageFiles) (files : List FileRefs) (reresolve : Reresolve)
    (idx : Index) (path : Text) : (Pass2.run packages files reresolve idx).fileState path =
      (files.filter fun file => file.filePath = path).foldl (fun state file =>
        file.makesCurrent state) (idx.fileState path) := by
  have step := foldl_keyed Index.fileState FileRefs.makesCurrent
    (rewriteFile_fileState (Resolver.of packages idx)) files idx path
  rw [← step]
  exact refresh_fileState (Resolver.of packages idx)
    (Pass2.selection idx (files.map FileRefs.filePath) reresolve)
    (files.foldl (Pass2.rewriteFile (Resolver.of packages idx)) idx) path

end Pass2

section Sync

variable [CharTables] (tools : Tools) (mode : SyncMode) (w : Worktree) (idx : Index)

def SourceFile.currentRow (source : SourceFile) : FileRow :=
  ⟨source.filePath, source.contentHash, source.mtimeNs, source.lang, source.byteLen⟩

def SourceFile.currentState (source : SourceFile) : FileState :=
  ⟨some source.currentRow, source.rows.symbols,
    source.rows.imports.map (RawImport.row source.filePath), source.rows.refs⟩

/-- After both passes a written file is current and a deleted one is gone. -/
theorem write_fileState (diff : Diff) (busy : upToDate diff idx = false) (path : Text) :
    (write tools w mode diff idx).fileState path =
      match Pass1.written tools w diff path with
      | some source => source.currentState
      | none => if path ∈ diff.deleted then .absent else idx.fileState path := by
  have refs : (Pass1.refs tools w diff).filter (fun file => file.filePath = path) =
      (Pass1.written tools w diff path).toList.map SourceFile.fileRefs := by
    rw [Pass1.refs, List.filter_map, ← Pass1.extractedFiles_filter]
    rfl
  rw [write, if_neg (by simp [busy]), pass2_fileState, Pass1.run_fileState, refs]
  cases Pass1.written tools w diff path with
  | some source => rfl
  | none => rfl

omit [CharTables] in
theorem upToDate_empty {diff : Diff} (h : upToDate diff idx = true) (path : Text) :
    Pass1.written tools w diff path = none ∧ path ∉ diff.deleted := by
  simp only [upToDate, Diff.hasChanges, Bool.not_not, Bool.and_eq_true, List.isEmpty_iff] at h
  obtain ⟨⟨⟨modified, new⟩, deleted⟩, -⟩ := h
  constructor
  · rw [Pass1.written, if_neg]
    rw [mem_changedFiles, modified, new]
    simp
  · simp [deleted]

/-- **What a sync leaves of a file** is decided by the scan and that file alone. -/
theorem sync_fileState (path : Text) :
    (sync tools mode w idx).fileState path =
      match Pass1.written tools w (scanDiff tools mode w idx) path with
      | some source => source.currentState
      | none =>
        if path ∈ (scanDiff tools mode w idx).deleted then .absent
        else (scanned tools mode w idx).fileState path := by
  cases busy : upToDate (scanDiff tools mode w idx) (scanned tools mode w idx) with
  | false => exact write_fileState tools mode w _ _ busy path
  | true =>
    obtain ⟨unwritten, kept⟩ := upToDate_empty tools w _ busy path
    rw [unwritten, sync, write, if_pos busy]
    simp [kept]

end Sync

end OrbitGraph.Sync
