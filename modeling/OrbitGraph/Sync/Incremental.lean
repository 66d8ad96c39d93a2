import OrbitGraph.Sync.Dependents

/-!
Incremental syncs against full ones, over whole runs.

A run is any sequence of syncs, each of a worktree of its own, that complete or
stop. Its invariant: the index is tracked, and unless a sync is pending every
stored reference is resolved as the worktree of the last completed sync
resolves it. A sync keeps this if the references it leaves as they are stored
are undisturbed.
-/

namespace OrbitGraph.Sync

open Lib

/-! ### The rows of the files pass 1 does not touch -/

structure SameRows (idx idx' : Index) (path : Text) : Prop where
  row : idx'.fileRow path = idx.fileRow path
  symbols : idx'.symbolsOf path = idx.symbolsOf path
  imports : idx'.importsOf path = idx.importsOf path
  refs : idx'.refsOf path = idx.refsOf path

theorem SameRows.trans {idx₁ idx₂ idx₃ : Index} {path : Text} (h : SameRows idx₁ idx₂ path)
    (h' : SameRows idx₂ idx₃ path) : SameRows idx₁ idx₃ path :=
  ⟨h'.row.trans h.row, h'.symbols.trans h.symbols, h'.imports.trans h.imports, h'.refs.trans h.refs⟩

theorem FileTransaction.sameRows (t : FileTransaction) (idx : Index) {path : Text}
    (other : t.path ≠ path) : SameRows idx (t.apply idx) path := by
  cases t with
  | delete own =>
    have h : path ≠ own := fun eq => other eq.symm
    constructor <;> simp [apply, h]
  | write source =>
    have h : path ≠ source.filePath := fun eq => other eq.symm
    constructor <;> simp [h]

theorem foldl_sameRows (ts : List FileTransaction) (idx : Index) {path : Text} (other : ∀ t ∈ ts, t.path ≠ path) :
    SameRows idx (ts.foldl FileTransaction.apply idx) path := by
  induction ts generalizing idx with
  | nil => exact ⟨rfl, rfl, rfl, rfl⟩
  | cons t rest ih =>
    refine (t.sameRows idx (other t List.mem_cons_self)).trans ?_
    exact ih _ fun t' mem => other t' (List.mem_cons_of_mem _ mem)

section

variable {tools : Tools} {mode : SyncMode} {w : Worktree} {idx : Index}

def touchedPaths (tools : Tools) (w : Worktree) (diff : Diff) : List Text :=
  diff.deleted ++ (Pass1.refs tools w diff).map FileRefs.filePath

theorem run_sameRows {diff : Diff} {path : Text} (untouched : path ∉ touchedPaths tools w diff) :
    SameRows idx (Pass1.run tools w diff idx) path := by
  have marked : SameRows idx (Pass1.markPending idx) path := ⟨rfl, rfl, rfl, rfl⟩
  refine marked.trans (foldl_sameRows _ _ fun t mem eq => untouched ?_)
  rcases List.mem_append.mp mem with deletion | write
  · obtain ⟨p, hp, rfl⟩ := List.mem_map.mp deletion
    exact List.mem_append_left _ (eq ▸ hp)
  · obtain ⟨source, hSource, rfl⟩ := List.mem_map.mp write
    refine List.mem_append_right _ (List.mem_map.mpr ⟨source.fileRefs, ?_, eq⟩)
    exact List.mem_map_of_mem hSource

theorem run_refs_untouched {diff : Diff} {row : RefRow} (mem : row ∈ (Pass1.run tools w diff idx).refs) :
    row ∈ idx.refs ∧ row.fromFile ∉ touchedPaths tools w diff := by
  have untouched : row.fromFile ∉ touchedPaths tools w diff := by
    intro touched
    have state := congrArg FileState.refs (Pass1.run_fileState tools w diff idx row.fromFile)
    have stored : row.raw ∈ ((Pass1.run tools w diff idx).fileState row.fromFile).refs :=
      List.mem_map_of_mem (List.mem_filter.mpr ⟨mem, by simp⟩)
    rw [state] at stored
    cases hWritten : Pass1.written tools w diff row.fromFile with
    | some source => simp [hWritten, FileTransaction.leaves] at stored
    | none =>
      have isDeleted : row.fromFile ∈ diff.deleted := by
        rcases List.mem_append.mp touched with isDeleted | written
        · exact isDeleted
        · obtain ⟨file, hFile, eq⟩ := List.mem_map.mp written
          obtain ⟨source, hSource, rfl⟩ := List.mem_map.mp hFile
          rw [Pass1.mem_extractedFiles] at hSource
          rw [show source.filePath = row.fromFile from eq, hWritten] at hSource
          cases hSource
      simp [hWritten, isDeleted, FileState.absent] at stored
  refine ⟨?_, untouched⟩
  have inFile : row ∈ (Pass1.run tools w diff idx).refsOf row.fromFile :=
    List.mem_filter.mpr ⟨mem, by simp⟩
  rw [(run_sameRows untouched).refs] at inFile
  exact (List.mem_filter.mp inFile).1

/-! ### What the invariant says of a file -/

theorem Index.Tracked.languageFor (h : idx.Tracked tools) {path lang : Text}
    (hLang : idx.langOf path = some lang) : tools.extractors.languageFor path = some lang := by
  have state := h.files path
  have row : (idx.fileState path).row.map FileRow.lang = some lang := hLang
  generalize idx.fileState path = st at state row
  cases state with
  | absent => cases row
  | current bytes lang' | pending bytes lang' => exact lang'.trans row

theorem Index.Tracked.empty_of_no_row (h : idx.Tracked tools) {path : Text}
    (hRow : idx.fileRow path = none) : idx.symbolsOf path = [] ∧ idx.importsOf path = [] := by
  have state := h.files path
  have row : (idx.fileState path).row = none := hRow
  have symbols : (idx.fileState path).symbols = (idx.symbolsOf path).map SymbolRow.toRaw := rfl
  have imports : (idx.fileState path).imports = idx.importsOf path := rfl
  generalize idx.fileState path = st at state row symbols imports
  cases state with
  | absent => exact ⟨List.map_eq_nil_iff.mp symbols.symm, imports.symm⟩
  | current => cases row
  | pending => cases row

theorem Index.Tracked.inFile (h : idx.Tracked tools) {s : SymbolRow} (mem : s ∈ idx.symbols) :
    (idx.langOf s.filePath).isSome := by
  unfold Index.langOf
  cases hRow : idx.fileRow s.filePath with
  | some row => rfl
  | none =>
    have inFile : s ∈ idx.symbolsOf s.filePath := List.mem_filter.mpr ⟨mem, by simp⟩
    rw [(h.empty_of_no_row hRow).1] at inFile
    cases inFile

theorem fileRow_of_new {path : Text} (h : path ∈ (scanDiff tools mode w idx).new) :
    (scanned tools mode w idx).fileRow path = none := by
  have isNew : path ∈ pathsWith tools mode w idx (· == .new) := h
  obtain ⟨file, hFile, isNew⟩ := mem_pathsWith.mp isNew
  have status : statusOf tools mode idx file = .new := by simpa using isNew
  obtain ⟨-, rfl⟩ := Worktree.file?_eq_some.mp hFile
  rw [fileRow_scanned, Option.map_eq_none_iff]
  unfold statusOf fileStatus at status
  split at status
  · cases status
  · split at status
    · cases status
    · split at status
      · cases status
      · cases status
      · split at status
        · assumption
        · split at status <;> cases status

theorem map_files_resolver {packages : PackageFiles} {touch : FileRow → FileRow}
    (keeps : ∀ row, (touch row).path = row.path ∧ (touch row).lang = row.lang) :
    Resolver.of packages { idx with files := idx.files.map touch } = Resolver.of packages idx := by
  have langOf : Index.langOf { idx with files := idx.files.map touch } = idx.langOf := by
    funext path
    simp only [Index.langOf, Index.fileRow, List.find?_map, Option.map_map, Function.comp_def, keeps]
  simp only [Resolver.of, langOf]

theorem scanned_resolver (packages : PackageFiles) :
    Resolver.of packages (scanned tools mode w idx) = Resolver.of packages idx :=
  map_files_resolver fun row => ⟨(touchedRow_keeps row).1, (touchedRow_keeps row).2.1⟩

theorem stoppedScan_resolver (packages : PackageFiles) (reached : List Text) :
    Resolver.of packages (stoppedScan tools mode w reached idx) = Resolver.of packages idx := by
  refine map_files_resolver fun row => ?_
  split
  · exact ⟨(touchedRow_keeps row).1, (touchedRow_keeps row).2.1⟩
  · exact ⟨rfl, rfl⟩

/-! ### Pass 1 as a step, and what its dependents cover -/

/-- The paths pass 1 touches are those whose definitions are captured, and the
new ones. -/
theorem mem_touchedPaths {path : Text}
    (h : path ∈ touchedPaths tools w (scanDiff tools mode w idx)) :
    let diff := scanDiff tools mode w idx
    path ∈ (diff.modified ++ diff.deleted) ++ (Pass1.refs tools w diff).map FileRefs.filePath ∧
      (path ∈ diff.modified ++ diff.deleted ∨
        (scanned tools mode w idx).fileRow path = none) := by
  intro diff
  rcases List.mem_append.mp h with deletion | written
  · have captured : path ∈ diff.modified ++ diff.deleted := List.mem_append_right _ deletion
    exact ⟨List.mem_append_left _ captured, .inl captured⟩
  · refine ⟨List.mem_append_right _ written, ?_⟩
    obtain ⟨file, hFile, rfl⟩ := List.mem_map.mp written
    obtain ⟨source, hSource, rfl⟩ := List.mem_map.mp hFile
    rw [Pass1.mem_extractedFiles] at hSource
    rcases ((Pass1.written_eq_some tools w _).mp hSource).1 with modified | new
    · exact .inl (List.mem_append_left _ modified)
    · exact .inr (fileRow_of_new new)

theorem Definitions.load_paths (paths : List Text) : (Definitions.load idx paths).byFile.map Prod.fst = paths := by
  simp [Definitions.load, Function.comp_def]

theorem definitions_of_touched (h : idx.Tracked tools) {path : Text}
    (touched : path ∈ touchedPaths tools w (scanDiff tools mode w idx)) :
    (definitionsBeforePass1 (scanned tools mode w idx) (scanDiff tools mode w idx)).of path =
      definedSymbols (scanned tools mode w idx) path := by
  have find : ∀ paths : List Text, ((paths.map fun p =>
      (p, definedSymbols (scanned tools mode w idx) p)).find? fun entry => entry.1 = path) =
      if path ∈ paths then some (path, definedSymbols (scanned tools mode w idx) path) else none := by
    intro paths
    induction paths with
    | nil => rfl
    | cons p rest ih =>
      by_cases own : p = path
      · subst own
        simp
      · simp [own, ih, Ne.symm own]
  simp only [definitionsBeforePass1, Definitions.load, Definitions.of, find]
  rcases (mem_touchedPaths touched).2 with captured | noRow
  · rw [if_pos captured]
    rfl
  · have empty : definedSymbols (scanned tools mode w idx) path = [] := by
      rw [definedSymbols, ((scanned_tracked h).empty_of_no_row noRow).1]
      rfl
    split
    · rfl
    · exact empty.symm

theorem run_step (h : idx.Tracked tools) (noReexports : ∀ path ∈ touchedPaths tools w (scanDiff tools mode w idx),
      (scanned tools mode w idx).hasReexports path = false ∧
        (Pass1.run tools w (scanDiff tools mode w idx) (scanned tools mode w idx)).hasReexports path = false) :
    Step (scanned tools mode w idx) (Pass1.run tools w (scanDiff tools mode w idx) (scanned tools mode w idx))
      (touchedPaths tools w (scanDiff tools mode w idx)) := by
  have scan : (scanned tools mode w idx).Tracked tools := scanned_tracked h
  have ran : (Pass1.run tools w (scanDiff tools mode w idx) (scanned tools mode w idx)).Tracked
      tools := by
    have all : (Pass1.transactions tools w (scanDiff tools mode w idx)).take
        (Pass1.transactions tools w (scanDiff tools mode w idx)).length =
        Pass1.transactions tools w (scanDiff tools mode w idx) := List.take_length
    rw [Pass1.run, ← all]
    exact runTransactions_tracked scan _
  exact
    { symbols := fun path untouched => (run_sameRows untouched).symbols
      imports := fun path untouched => (run_sameRows untouched).imports
      langOf := fun path untouched => congrArg (Option.map FileRow.lang) (run_sameRows untouched).row
      lang := fun path l l' before after =>
        Option.mem_unique (scan.languageFor before) (ran.languageFor after)
      inFile := fun s mem => scan.inFile mem
      inFile' := fun s mem => ran.inFile mem
      noReexports := noReexports
      ids := scan.ids
      ids' := ran.ids }

theorem noReexports_of_touched (h : idx.Tracked tools)
    (before : (definitionsBeforePass1 (scanned tools mode w idx) (scanDiff tools mode w idx)).hasReexports = false)
    (after : ((definitionsBeforePass1 (scanned tools mode w idx) (scanDiff tools mode w idx)).byFile.map Prod.fst ++
        (Pass1.refs tools w (scanDiff tools mode w idx)).map FileRefs.filePath).any
      (Pass1.run tools w (scanDiff tools mode w idx) (scanned tools mode w idx)).hasReexports = false)
    {path : Text} (touched : path ∈ touchedPaths tools w (scanDiff tools mode w idx)) :
    (scanned tools mode w idx).hasReexports path = false ∧ (Pass1.run tools w (scanDiff tools mode w idx)
        (scanned tools mode w idx)).hasReexports path = false := by
  obtain ⟨compared, inDiff | noRow⟩ := mem_touchedPaths touched
  all_goals
    rw [definitionsBeforePass1, Definitions.load_paths] at after
    have none := List.any_eq_false.mp after path compared
    refine ⟨?_, by simpa using none⟩
  · have := List.any_eq_false.mp before path inDiff
    simpa using this
  · unfold Index.hasReexports
    rw [((scanned_tracked h).empty_of_no_row noRow).2]
    rfl

section Between

variable [CharTables] {before : Definitions} {after base : Index} {rewritten touched : List Text}

/-- `Dependents.between` covers the change of every file it compares. -/
theorem Dependents.between_covers (compared : ∀ path ∈ touched, path ∈ before.byFile.map Prod.fst ++ rewritten)
    (captured : ∀ path ∈ touched, before.of path = definedSymbols base path) :
    Covers (Dependents.between after before rewritten) base after touched := by
  have added : ∀ path ∈ touched,
      Dependents.ofFile path (definedSymbols base path) (definedSymbols after path) ∈
        (before.byFile.map Prod.fst ++ rewritten).dedup.map fun path =>
          Dependents.ofFile path (before.of path) (definedSymbols after path) := by
    intro path mem
    refine List.mem_map.mpr ⟨path, List.mem_dedup.mpr (compared path mem), ?_⟩
    rw [captured path mem]
  refine ⟨fun path mem name changed => ?_, fun path mem s hs kind changed trait hTrait name declared => ?_,
    fun path mem s hs lost => ?_⟩
  · exact List.mem_append_left _ (List.mem_flatMap.mpr ⟨_, added path mem, changed⟩)
  · refine List.mem_append_right _ (List.mem_flatMap.mpr ⟨trait, ?_, declared⟩)
    refine List.mem_flatMap.mpr ⟨_, added path mem, List.mem_filterMap.mpr ⟨s, hs, ?_⟩⟩
    rw [if_pos ⟨kind, changed⟩, hTrait]
  · refine List.mem_flatMap.mpr ⟨_, added path mem, List.mem_map.mpr ⟨s, ?_, rfl⟩⟩
    exact List.mem_filter.mpr ⟨hs, by simp [lost]⟩

theorem touched_covers (h : idx.Tracked tools) : Covers
      (Dependents.between (Pass1.run tools w (scanDiff tools mode w idx) (scanned tools mode w idx))
        (definitionsBeforePass1 (scanned tools mode w idx) (scanDiff tools mode w idx))
        ((Pass1.refs tools w (scanDiff tools mode w idx)).map FileRefs.filePath)) (scanned tools mode w idx)
      (Pass1.run tools w (scanDiff tools mode w idx) (scanned tools mode w idx))
      (touchedPaths tools w (scanDiff tools mode w idx)) := by
  refine Dependents.between_covers (fun path touched => ?_) fun path touched =>
    definitions_of_touched h touched
  rw [definitionsBeforePass1, Definitions.load_paths]
  exact (mem_touchedPaths touched).1

end Between

/-! ### What a sync keeps -/

variable [CharTables]

/-- The index that pass 2 resolves references against; the scanned one if there
is nothing to write. -/
def resolvedAgainst (tools : Tools) (mode : SyncMode) (w : Worktree) (idx : Index) : Index :=
  let diff := scanDiff tools mode w idx
  let idx := scanned tools mode w idx
  if upToDate diff idx then idx else Pass1.run tools w diff idx

/-- Whether a sync leaves a reference as it is stored: its file is not touched,
and pass 2 does not select it. -/
def KeepsRef (tools : Tools) (mode : SyncMode) (w : Worktree) (idx : Index) (row : RefRow) : Prop :=
  let diff := scanDiff tools mode w idx
  row ∈ (resolvedAgainst tools mode w idx).refs ∧
    (upToDate diff (scanned tools mode w idx) = true ∨ Pass2.selection (resolvedAgainst tools mode w idx)
        ((Pass1.refs tools w diff).map FileRefs.filePath)
        (reresolveFor mode diff (scanned tools mode w idx)) row = false)

/-- The references that a sync keeps as they are stored are undisturbed, in the
worktree it syncs against the one of the last completed sync. -/
def KeepsUndisturbed (tools : Tools) (mode : SyncMode) (packages : PackageFiles) (w : Worktree)
    (idx : Index) : Prop :=
  ∀ row, KeepsRef tools mode w idx row →
    Undisturbed (Resolver.of packages idx)
      (Resolver.of w.packages (resolvedAgainst tools mode w idx)) row.fromFile row.raw

/-- A sync that keeps only undisturbed references leaves every reference
fresh. -/
theorem sync_fresh {packages : PackageFiles} (h : idx.Tracked tools)
    (fresh : idx.syncPending = false → Fresh packages idx)
    (undisturbed : KeepsUndisturbed tools mode packages w idx) : Fresh w.packages (sync tools mode w idx) := by
  unfold KeepsUndisturbed KeepsRef resolvedAgainst at undisturbed
  simp only at undisturbed
  cases busy : upToDate (scanDiff tools mode w idx) (scanned tools mode w idx) with
  | true =>
    -- Nothing is written; only the packages may have moved.
    have settled : idx.syncPending = false := by
      simp only [upToDate, Bool.and_eq_true] at busy
      simpa [scanned] using busy.2
    intro row mem
    rw [sync, write, if_pos busy] at mem ⊢
    rw [scanned_resolver]
    have kept := undisturbed row
    rw [if_pos busy, scanned_resolver] at kept
    have packagesOnly := (kept ⟨mem, .inl busy⟩).resolveIn_packages
    exact (fresh settled row mem).trans (congrArg row.withResolution packagesOnly.symm)
  | false =>
    rw [sync, write, if_neg (by simp [busy])]
    refine pass2_fresh fun row mem notRewritten unselected => ?_
    have kept := undisturbed row
    rw [if_neg (by simp [busy])] at kept
    have kept := kept ⟨mem, .inr unselected⟩
    obtain ⟨stored, untouched⟩ := run_refs_untouched mem
    unfold reresolveFor at unselected
    split at unselected
    · simp only [Pass2.selection, decide_eq_false notRewritten, Bool.not_false] at unselected
      cases unselected
    · next incremental =>
        have settled : idx.syncPending = false := by
          simp only [Bool.or_eq_true, not_or] at incremental
          simpa [scanned] using incremental.1.1
        simp only [Pass2.selection, decide_eq_false notRewritten, Bool.not_false,
          Bool.true_and, Bool.or_eq_false_iff] at unselected
        obtain ⟨⟨noneBefore, noneAfter⟩, notSelected⟩ := unselected
        rw [← @scanned_resolver tools mode w] at kept
        have step := run_step h fun path touched =>
          noReexports_of_touched h noneBefore noneAfter touched
        have stays := fresh settled row stored
        rw [← @scanned_resolver tools mode w] at stays
        exact (touched_covers h).keeps step untouched notSelected kept stays

end

end OrbitGraph.Sync
