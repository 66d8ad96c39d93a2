import OrbitGraph.Sync.Tracking

/-!
When two indexes store the same references.

`refViews` is what a reader sees of a file's references: the target's qualified
name, the definition the hint points at, and the confidence. Two indexes whose
files are in the same states and whose references are all freshly resolved show
the same views, whatever row ids each uses (`refViews_eq`).
-/

namespace OrbitGraph.Sync

open Lib

/-- The definition a row id names: its file and what the extractor yielded. -/
def Index.definitionAt (idx : Index) (id : Nat) : Option (Text × RawSymbol) :=
  (idx.symbolById id).map fun s => (s.filePath, s.toRaw)

/-- A stored reference as a reader sees it. -/
structure RefView where
  raw : RawRef
  targetQualified : Option Text
  /-- The definition the hint names; `some none` for a hint to no row. -/
  definition : Option (Option (Text × RawSymbol))
  confidence : Confidence
  deriving DecidableEq

def RefRow.view (idx : Index) (row : RefRow) : RefView :=
  ⟨row.raw, row.targetQualified, row.targetSymbolHint.map idx.definitionAt, row.confidence⟩

/-- The references of a file, in row order. -/
def Index.refViews (idx : Index) (path : Text) : List RefView :=
  (idx.refsOf path).map (RefRow.view idx)

variable {idx : Index}

theorem Index.symbolById_eq (ids : (idx.symbols.map SymbolRow.id).Nodup)
    {s : SymbolRow} (h : s ∈ idx.symbols) : idx.symbolById s.id = some s := by
  unfold Index.symbolById
  cases found : idx.symbols.find? fun row => row.id = s.id with
  | none =>
    have := List.find?_eq_none.mp found s h
    simp at this
  | some row =>
    have sameId : row.id = s.id := by simpa using List.find?_some found
    rw [List.inj_on_of_nodup_map ids (List.mem_of_find?_eq_some found) h sameId]

variable [CharTables]

/-- Every stored reference is resolved as the ladder resolves it now. -/
def Fresh (packages : PackageFiles) (idx : Index) : Prop :=
  ∀ row ∈ idx.refs,
    row = row.withResolution ((Resolver.of packages idx).resolveIn row.fromFile row.raw)

/-! ### Pass 2 leaves fresh references -/

theorem foldl_rewrite_refs (R : Resolver) (files : List FileRefs) {row : RefRow}
    (h : row ∈ (files.foldl (Pass2.rewriteFile R) idx).refs) :
    (row ∈ idx.refs ∧ row.fromFile ∉ files.map FileRefs.filePath) ∨
      row = row.withResolution (R.resolveIn row.fromFile row.raw) := by
  induction files generalizing idx with
  | nil => exact .inl ⟨h, by simp⟩
  | cons file rest ih =>
    rcases ih h with ⟨mem, notRest⟩ | fresh
    · rcases List.mem_append.mp mem with old | new
      · obtain ⟨inIdx, notFile⟩ := List.mem_filter.mp old
        refine .inl ⟨inIdx, ?_⟩
        simp only [List.map_cons, List.mem_cons, not_or]
        exact ⟨by simpa using notFile, notRest⟩
      · rw [Resolver.resolveFile_eq_map, List.zipWith_map_right, List.zipWith_self] at new
        obtain ⟨raw, -, rfl⟩ := List.mem_map.mp new
        exact .inr rfl
    · exact .inr fresh

theorem pass2_langOf (packages : PackageFiles) (files : List FileRefs) (reresolve : Reresolve)
    (idx : Index) : (Pass2.run packages files reresolve idx).langOf = idx.langOf := by
  funext path
  have state := congrArg FileState.row (pass2_fileState packages files reresolve idx path)
  have keeps : ∀ (fs : List FileRefs) (state : FileState),
      (fs.foldl (fun state file => file.makesCurrent state) state).row.map FileRow.lang =
        state.row.map FileRow.lang := by
    intro fs
    induction fs with
    | nil => intro state; rfl
    | cons f rest ih =>
      intro state
      rw [List.foldl_cons, ih]
      simp [FileRefs.makesCurrent, Function.comp_def]
  have := congrArg (Option.map FileRow.lang) state
  rwa [keeps] at this

theorem pass2_resolver (packages : PackageFiles) (files : List FileRefs) (reresolve : Reresolve) (idx : Index) :
    Resolver.of packages (Pass2.run packages files reresolve idx) = Resolver.of packages idx := by
  obtain ⟨symbols, imports⟩ := pass2_rows packages files reresolve idx
  simp only [Resolver.of, symbols, imports, pass2_langOf]

theorem pass2_fresh {packages : PackageFiles} {files : List FileRefs} {reresolve : Reresolve}
    (kept : ∀ row ∈ idx.refs, row.fromFile ∉ files.map FileRefs.filePath →
      Pass2.selection idx (files.map FileRefs.filePath) reresolve row = false →
      row = row.withResolution ((Resolver.of packages idx).resolveIn row.fromFile row.raw)) :
    Fresh packages (Pass2.run packages files reresolve idx) := by
  intro row mem
  rw [pass2_resolver]
  obtain ⟨before, memBefore, rfl⟩ := List.mem_map.mp mem
  cases selected : Pass2.selection idx (files.map FileRefs.filePath) reresolve before with
  | true => rfl
  | false =>
    rcases foldl_rewrite_refs _ files memBefore with ⟨inIdx, notRewritten⟩ | fresh
    · exact kept before inIdx notRewritten selected
    · exact fresh

omit [CharTables] in
theorem isOneFile_perm {files files' : List Text} (perm : files.Perm files') :
    isOneFile files = isOneFile files' := by
  have spec : ∀ fs : List Text, isOneFile fs = true ↔ ∃ f ∈ fs, ∀ g ∈ fs, g = f := by
    intro fs
    cases fs with
    | nil => simp [isOneFile]
    | cons f rest =>
      simp only [isOneFile, List.all_eq_true, beq_iff_eq]
      constructor
      · intro all
        refine ⟨f, List.mem_cons_self, fun g hg => ?_⟩
        rcases List.mem_cons.mp hg with rfl | hg
        · rfl
        · exact all g hg
      · rintro ⟨e, -, all⟩ g hg
        rw [all g (List.mem_cons_of_mem _ hg), all f List.mem_cons_self]
  rw [Bool.eq_iff_iff, spec, spec]
  simp only [perm.mem_iff]

/-! ### Fresh indexes with the same files show the same references -/

/-- The rows that two indexes store for one symbol of one extraction. -/
def SameRow (idx idx' : Index) (c d : SymbolCandidate) : Prop :=
  ∃ s ∈ idx.symbols, ∃ s' ∈ idx'.symbols, s.candidate = c ∧ s'.candidate = d ∧
    s.filePath = s'.filePath ∧ s.toRaw = s'.toRaw

section SameFiles

variable {packages : PackageFiles} {idx idx' : Index}

def SameFiles (idx idx' : Index) : Prop := ∀ path, idx.fileState path = idx'.fileState path

variable (same : SameFiles idx idx')

include same

omit [CharTables] in
theorem SameFiles.langOf : idx.langOf = idx'.langOf := by
  funext path
  exact congrArg (Option.map FileRow.lang) (congrArg FileState.row (same path))

omit [CharTables] in
theorem SameFiles.importsOf (path : Text) : idx.importsOf path = idx'.importsOf path :=
  congrArg FileState.imports (same path)

omit [CharTables] in
theorem SameFiles.symbols_agree : Agree (fun s s' : SymbolRow => (s.filePath = s'.filePath ∧ s.toRaw = s'.toRaw) ∧
      s ∈ idx.symbols ∧ s' ∈ idx'.symbols) idx.symbols idx'.symbols := by
  have tags : ∀ (i : Index) (path : Text),
      ((i.symbols.map fun s => (s.filePath, s.toRaw)).filter fun tag => tag.1 = path) =
        (i.fileState path).symbols.map fun raw => (path, raw) := by
    intro i path
    rw [List.filter_map, Index.fileState, List.map_map]
    refine List.map_congr_left fun s hs => ?_
    have := (List.mem_filter.mp hs).2
    simp_all
  have perm : (idx.symbols.map fun s => (s.filePath, s.toRaw)).Perm
      (idx'.symbols.map fun s => (s.filePath, s.toRaw)) := by
    refine perm_of_keyed Prod.fst fun path => ?_
    rw [tags, tags, same path]
  refine (Agree.of_perm_map perm).mono fun s hs s' hs' eq => ⟨?_, hs, hs'⟩
  simpa using eq

theorem SameFiles.prefixes (path : Text) : (Resolver.of packages idx).modulePrefixesForFile path =
      (Resolver.of packages idx').modulePrefixesForFile path := by
  have pairs : ∀ i : Index, ((Resolver.of packages i).symbolsOf path).map
      (fun s => (s.qualified, s.name)) =
      (i.fileState path).symbols.map fun raw => (raw.qualified, raw.name) := by
    intro i
    simp [Resolver.symbolsOf, Resolver.of, Index.fileState, Index.symbolsOf, SymbolRow.toRaw]
  simp only [Resolver.modulePrefixesForFile, pairs, same path]

theorem SameFiles.twin (packages : PackageFiles) (language : Text) {s s' : SymbolRow}
    (rows : (s.filePath = s'.filePath ∧ s.toRaw = s'.toRaw) ∧ s ∈ idx.symbols ∧ s' ∈ idx'.symbols) :
    Twin (Resolver.of packages idx) (Resolver.of packages idx') (SameRow idx idx')
      ⟨s.candidate, language⟩ ⟨s'.candidate, language⟩ := by
  obtain ⟨⟨file, raw⟩, mem, mem'⟩ := rows
  have name : s.name = s'.name := congrArg RawSymbol.name raw
  have qualified : s.qualified = s'.qualified := congrArg RawSymbol.qualified raw
  refine ⟨⟨⟨file, name, qualified⟩, ⟨s, mem, s', mem', rfl, rfl, file, raw⟩⟩, rfl, ?_⟩
  rw [same.prefixes]
  exact congrArg _ file

theorem SameFiles.named (name : Text) :
    Agree (Twin (Resolver.of packages idx) (Resolver.of packages idx') (SameRow idx idx'))
      ((Resolver.of packages idx).symbolsByName name) ((Resolver.of packages idx').symbolsByName name) := by
  have rows := same.symbols_agree.filter
    (p := fun s => s.name == name && s.kind != "impl".toList)
    (q := fun s => s.name == name && s.kind != "impl".toList) fun s s' h => by
      rw [show s.name = s'.name from congrArg RawSymbol.name h.1.2,
        show s.kind = s'.kind from congrArg RawSymbol.kind h.1.2]
  refine rows.filterMap fun s s' h => ?_
  have lang : (Resolver.of packages idx).langOf s.filePath =
      (Resolver.of packages idx').langOf s'.filePath := by
    rw [h.1.1]
    exact congrFun same.langOf _
  simp only [Resolver.namedCandidate, lang]
  cases (Resolver.of packages idx').langOf s'.filePath with
  | none => exact .none
  | some language => exact .some (same.twin packages language h)

theorem SameFiles.traitImpls (typeName : Text) : Agree (fun impl impl' : Text × NamedCandidate => impl.1 = impl'.1 ∧
      Twin (Resolver.of packages idx) (Resolver.of packages idx') (SameRow idx idx') impl.2 impl'.2)
      ((Resolver.of packages idx).traitImplsOf typeName) ((Resolver.of packages idx').traitImplsOf typeName) := by
  have rows := same.symbols_agree.filter (p := fun s => s.kind == "impl".toList)
    (q := fun s => s.kind == "impl".toList) fun s s' h => by
      rw [show s.kind = s'.kind from congrArg RawSymbol.kind h.1.2]
  refine rows.filterMap fun s s' h => ?_
  have qualified : s.qualified = s'.qualified := congrArg RawSymbol.qualified h.1.2
  simp only [Resolver.traitImplOf, qualified]
  split
  · split
    · exact .some ⟨rfl, same.twin packages _ h⟩
    · exact .none
  · exact .none

omit [CharTables] in
theorem SameFiles.reexports (module : Text) : ((Resolver.of packages idx).reexports module).Perm
      ((Resolver.of packages idx').reexports module) := by
  have imports : idx.imports.Perm idx'.imports := by
    refine perm_of_keyed ImportRow.fromFile fun path => ?_
    have := same.importsOf path
    unfold Index.importsOf at this
    rw [this]
  have candidates : (Resolver.of packages idx).reexportCandidate =
      (Resolver.of packages idx').reexportCandidate := by
    funext row
    simp only [Resolver.reexportCandidate, Resolver.of, same.langOf]
    rfl
  simp only [Resolver.reexports, candidates]
  exact (imports.filterMap _).filter _

theorem SameFiles.readsAlike (packages : PackageFiles) (distinct : (idx.symbols.map SymbolRow.id).Nodup)
    (distinct' : (idx'.symbols.map SymbolRow.id).Nodup) (fromFile language : Text)
    (imports : List ImportCandidate) (raw : RawRef) :
    Resolver.ReadsAlike (Resolver.of packages idx) (Resolver.of packages idx') (SameRow idx idx')
      fromFile language imports raw where
  inFile := by
    have inTheFile := (same.symbols_agree.filter (p := fun s => s.filePath = fromFile)
      (q := fun s => s.filePath = fromFile) fun s s' h => by rw [h.1.1]).filter
      (p := fun s => s.name == raw.targetName && s.kind != "impl".toList)
      (q := fun s => s.name == raw.targetName && s.kind != "impl".toList) fun s s' h => by
        rw [show s.name = s'.name from congrArg RawSymbol.name h.1.2,
          show s.kind = s'.kind from congrArg RawSymbol.kind h.1.2]
    refine inTheFile.map fun s s' h => ?_
    exact (same.twin packages language h).symbol
  named := same.named raw.targetName
  own := same.prefixes fromFile
  packages := rfl
  traitDefault target _ _ := by
    generalize (Resolver.of packages idx).typeScope fromFile imports target = scope
    have impls : Agree (fun impl impl' : Text × NamedCandidate => impl.1 = impl'.1 ∧
        Twin (Resolver.of packages idx) (Resolver.of packages idx') (SameRow idx idx')
          impl.2 impl'.2)
        ((Resolver.of packages idx).relevantImpls target scope)
        ((Resolver.of packages idx').relevantImpls target scope) := by
      refine (same.traitImpls target.typeName).filter fun impl impl' h => ?_
      rw [h.1, h.2.withinScope_eq rfl]
    have traits := impls.perm_map (f := Prod.fst) (g := Prod.fst) fun a b h => h.1
    have files := impls.perm_map (f := fun impl => impl.2.symbol.filePath)
      (g := fun impl => impl.2.symbol.filePath) fun a b h => h.2.filePath_eq
    refine Resolver.resolveTraitDefault_same (same.named target.member) ?_ fun _ _ =>
      isOneFile_perm files
    intro a _ b _ twin
    simp only [Resolver.declaresMemberOf, twin.qualified_eq, traits.mem_iff]
  reexport _ := by
    unfold Resolver.resolveReexportRung
    split
    · refine Resolver.resolveReexport_same same.reexports distinct distinct' ?_
      exact fun _ _ _ _ path _ _ => same.named (lastSegment path)
    · exact .none

theorem SameFiles.refViews_eq (distinct : (idx.symbols.map SymbolRow.id).Nodup)
    (distinct' : (idx'.symbols.map SymbolRow.id).Nodup) (fresh : Fresh packages idx)
    (fresh' : Fresh packages idx') (path : Text) : idx.refViews path = idx'.refViews path := by
  have views : ∀ i : Index, Fresh packages i →
      i.refViews path = (i.fileState path).refs.map fun raw =>
        RefRow.view i (refRow path raw ((Resolver.of packages i).resolveIn path raw)) := by
    intro i fresh
    simp only [Index.refViews, Index.fileState, List.map_map]
    refine List.map_congr_left fun row mem => ?_
    obtain ⟨inRefs, file⟩ := List.mem_filter.mp mem
    have file : row.fromFile = path := by simpa using file
    have resolved := fresh row inRefs
    rw [file] at resolved
    calc RefRow.view i row
        = RefRow.view i (row.withResolution ((Resolver.of packages i).resolveIn path row.raw)) :=
          congrArg _ resolved
      _ = _ := rfl
  rw [views idx fresh, views idx' fresh', same path]
  refine List.map_congr_left fun raw _ => ?_
  have language : (Resolver.of packages idx).languageOf path =
      (Resolver.of packages idx').languageOf path := by
    simp only [Resolver.languageOf, Resolver.of, same.langOf]
  have imports : (Resolver.of packages idx).importsForFile path =
      (Resolver.of packages idx').importsForFile path :=
    congrArg (List.map _) (same.importsOf path)
  have resolved := Resolver.resolveRef_same (same.readsAlike packages distinct
    distinct' path ((Resolver.of packages idx).languageOf path)
    ((Resolver.of packages idx).importsForFile path) raw)
  simp only [Resolver.resolveIn]
  rw [← language, ← imports]
  generalize (Resolver.of packages idx).resolveRef path _ _ raw = r at resolved
  generalize (Resolver.of packages idx').resolveRef path _ _ raw = r' at resolved
  cases resolved with
  | fuzzy => rfl
  | candidate confidence pair =>
    obtain ⟨s, mem, s', mem', rfl, rfl, file, content⟩ := pair.row
    have here : idx.definitionAt s.id = some (s.filePath, s.toRaw) := by
      rw [Index.definitionAt, Index.symbolById_eq distinct mem, Option.map_some]
    have there : idx'.definitionAt s'.id = some (s'.filePath, s'.toRaw) := by
      rw [Index.definitionAt, Index.symbolById_eq distinct' mem', Option.map_some]
    simp only [RefRow.view, refRow, ResolvedRef.candidate, SymbolRow.candidate, Option.map_some,
      here, there, file, content, RefView.mk.injEq, true_and, and_true]
    exact congrArg some pair.key.qualified

end SameFiles

/-! ### An incremental scan against a full one -/

/-- A row whose modification time and length are a file's carries the hash of
the file's content. -/
def MetadataHonest (tools : Tools) (w : Worktree) (idx : Index) : Prop :=
  ∀ file ∈ w.files, ∀ row, idx.fileRow file.path = some row → sameMetadata row file = true →
    ∀ bytes, readCapped file.content = .ok (some bytes) →
      row.contentHash = tools.hasher.hash bytes

section Scan

variable {tools : Tools} {mode : SyncMode} {w : Worktree} {idx : Index}

variable {path : Text}

omit [CharTables] in
theorem mem_pathsWith {p : FileStatus → Bool} : path ∈ pathsWith tools mode w idx p ↔
      ∃ file, w.file? path = some file ∧ p (statusOf tools mode idx file) = true := by
  simp only [pathsWith, mem_sortPaths, List.mem_map, List.mem_filter, Worktree.file?_eq_some]
  constructor
  · rintro ⟨file, ⟨mem, holds⟩, rfl⟩
    exact ⟨file, ⟨mem, rfl⟩, holds⟩
  · rintro ⟨file, ⟨mem, rfl⟩, holds⟩
    exact ⟨file, ⟨mem, holds⟩, rfl⟩

omit [CharTables] in
theorem mem_changed : path ∈ Pass1.changedFiles (scanDiff tools mode w idx) ↔ ∃ file, w.file? path = some file ∧
        (statusOf tools mode idx file = .modified ∨ statusOf tools mode idx file = .new) := by
  rw [mem_changedFiles]
  simp only [scanDiff, mem_pathsWith, beq_iff_eq]
  constructor
  · rintro (⟨file, hFile, status⟩ | ⟨file, hFile, status⟩)
    · exact ⟨file, hFile, .inl status⟩
    · exact ⟨file, hFile, .inr status⟩
  · rintro ⟨file, hFile, status | status⟩
    · exact .inl ⟨file, hFile, status⟩
    · exact .inr ⟨file, hFile, status⟩

variable {file : DiskFile}

omit [CharTables] in
theorem not_deleted (hFile : w.file? path = some file)
    (small : file.byteLen ≤ maxFileBytes) : path ∉ (scanDiff tools mode w idx).deleted := by
  obtain ⟨mem, named⟩ := Worktree.file?_eq_some.mp hFile
  have isListed : listed w path = true :=
    List.any_eq_true.mpr ⟨file, mem, by simp [named, small]⟩
  simp [scanDiff, deletedPaths, isListed]

omit [CharTables] in
/-- What an incremental scan makes of a file, and what a full scan makes of
it. -/
theorem auto_full_status (tools : Tools) (idx : Index) (file : DiskFile) :
    statusOf tools .auto idx file = statusOf tools .full idx file ∨
      ∃ row, idx.fileRow file.path = some row ∧ file.byteLen ≤ maxFileBytes ∧
        ((statusOf tools .auto idx file = .unchanged ∧ sameMetadata row file = true) ∨
          (statusOf tools .auto idx file = .touched ∧ ∃ bytes, readCapped file.content = .ok (some bytes) ∧
              row.contentHash = tools.hasher.hash bytes)) := by
  unfold statusOf fileStatus
  by_cases big : maxFileBytes < file.byteLen
  · exact .inl (by simp [big])
  · cases hRow : idx.fileRow file.path with
    | none => exact .inl (by simp [big])
    | some row =>
      by_cases metadata : sameMetadata row file = true
      · exact .inr ⟨row, rfl, by omega, .inl ⟨by simp [big, metadata], metadata⟩⟩
      · rcases hRead : readCapped file.content with error | _ | bytes
        · exact .inl (by simp [big, metadata])
        · exact .inl (by simp [big, metadata])
        · by_cases hash : tools.hasher.hash bytes = row.contentHash
          · exact .inr ⟨row, rfl, by omega,
              .inr ⟨by simp [big, metadata, hash], bytes, rfl, hash.symm⟩⟩
          · exact .inl (by simp [big, metadata, hash])

omit [CharTables] in
/-- A tracked file whose row has the hash of the content on disk: extracting it
again gives the state it is in. -/
theorem Index.Tracked.extract_current (h : idx.Tracked tools)
    {row : FileRow} {bytes : Bytes} (hFile : w.file? path = some file)
    (hRow : idx.fileRow path = some row) (hRead : readCapped file.content = .ok (some bytes))
    (hHash : row.contentHash = tools.hasher.hash bytes) : ∃ source, extractSource tools w path = .ok source ∧
      source.currentState = { idx.fileState path with row := some { row with mtimeNs := file.mtimeNs } } := by
  have state := h.files path
  have hState : (idx.fileState path).row = some row := hRow
  have rowPath : row.path = path := by simpa using List.find?_some hRow
  generalize idx.fileState path = st at state hState
  cases state with
  | absent => cases hState
  | @pending r rows bytes' lang extracted hash len =>
    cases hState
    exact absurd (hHash.symm.trans hash) (tools.hasher.hash_ne_pending bytes)
  | @current r rows bytes' lang extracted hash len =>
    cases hState
    have sameBytes : bytes = bytes' := tools.hasher.hash_injective (hHash.symm.trans hash)
    subst sameBytes
    refine ⟨⟨path, row.lang, tools.hasher.hash bytes, file.mtimeNs, bytes.length, rows⟩, ?_, ?_⟩
    · simp only [extractSource, hFile, hRead, lang, extracted]
    · simp only [SourceFile.currentState, SourceFile.currentRow, ← hash, ← len, ← rowPath]

omit [CharTables] in
theorem touchedRow_of_file {row : FileRow}
    (hFile : w.file? path = some file) (hRow : idx.fileRow path = some row) :
    touchedRow tools mode w idx row =
      if statusOf tools mode idx file = .touched then { row with mtimeNs := file.mtimeNs }
      else row := by
  have rowPath : row.path = path := by simpa using List.find?_some hRow
  simp only [touchedRow, rowPath, hFile]

omit [CharTables] in
theorem touchedRow_full (row : FileRow) : touchedRow tools .full w idx row = row := by
  have untouched : ∀ file, statusOf tools .full idx file ≠ .touched := by
    intro file
    unfold statusOf fileStatus
    split
    · simp
    · simp only [show (SyncMode.full == SyncMode.auto) = false from rfl, Bool.false_and]
      split
      · simp_all
      · split
        · simp
        · simp
        · split <;> simp
  unfold touchedRow
  split
  · rw [if_neg (untouched _)]
  · rfl

omit [CharTables] in
theorem scanned_full : scanned tools .full w idx = idx := by
  have rows : touchedRow tools .full w idx = id := funext touchedRow_full
  simp only [scanned, rows, List.map_id]

theorem auto_full_files (h : idx.Tracked tools) (honest : MetadataHonest tools w idx) :
    SameFiles (sync tools .auto w idx) (sync tools .full w idx) := by
  intro path
  rw [sync_fileState, sync_fileState, scanned_full]
  have deleted : (scanDiff tools .auto w idx).deleted = (scanDiff tools .full w idx).deleted := rfl
  cases hFile : w.file? path with
  | none =>
    have unwritten : ∀ mode, Pass1.written tools w (scanDiff tools mode w idx) path = none := by
      intro mode
      rw [Pass1.written, if_neg]
      rw [mem_changed]
      simp [hFile]
    have untouched : (scanned tools .auto w idx).fileState path = idx.fileState path := by
      refine fileState_scanned_of_untouched fun row hRow => ?_
      have rowPath : row.path = path := by simpa using List.find?_some hRow
      simp [touchedRow, rowPath, hFile]
    rw [unwritten, unwritten, deleted, untouched]
  | some file =>
    obtain ⟨mem, named⟩ := Worktree.file?_eq_some.mp hFile
    rcases auto_full_status tools idx file with same | ⟨row, hRow, small, kept⟩
    · have changed : path ∈ Pass1.changedFiles (scanDiff tools .auto w idx) ↔
          path ∈ Pass1.changedFiles (scanDiff tools .full w idx) := by
        simp only [mem_changed, hFile, Option.some.injEq, exists_eq_left', same]
      have written : Pass1.written tools w (scanDiff tools .auto w idx) path =
          Pass1.written tools w (scanDiff tools .full w idx) path := by
        simp only [Pass1.written, changed]
      have untouched : (scanned tools .auto w idx).fileState path = idx.fileState path := by
        refine fileState_scanned_of_untouched fun row hRow => ?_
        rw [touchedRow_of_file hFile hRow, same, ← touchedRow_of_file hFile hRow, touchedRow_full]
      rw [written, deleted, untouched]
    · rw [named] at hRow
      have notDeleted : path ∉ (scanDiff tools .full w idx).deleted := not_deleted hFile small
      have autoUnwritten : Pass1.written tools w (scanDiff tools .auto w idx) path = none := by
        rw [Pass1.written, if_neg]
        rw [mem_changed]
        rintro ⟨file', hFile', status⟩
        rw [hFile] at hFile'
        cases hFile'
        rcases kept with ⟨unchanged, -⟩ | ⟨touched, -⟩
        · rw [unchanged] at status
          simp at status
        · rw [touched] at status
          simp at status
      have autoState : (scanned tools .auto w idx).fileState path =
          { idx.fileState path with
            row := some (if statusOf tools .auto idx file = .touched then
              { row with mtimeNs := file.mtimeNs } else row) } := by
        rw [scanned_fileState, hRow, Option.map_some, touchedRow_of_file hFile hRow]
      have fullStatus : ∀ bytes, readCapped file.content = .ok (some bytes) →
          statusOf tools .full idx file = .modified := by
        intro bytes hRead
        have big : ¬ maxFileBytes < file.byteLen := by omega
        simp [statusOf, fileStatus, big, hRead, named, hRow]
      -- Where the full scan reads the file, the row's hash is the content's.
      have readable : ∀ bytes, readCapped file.content = .ok (some bytes) →
          row.contentHash = tools.hasher.hash bytes := by
        intro bytes hRead
        rcases kept with ⟨-, metadata⟩ | ⟨-, bytes', hRead', hash⟩
        · exact honest file mem row (named ▸ hRow) metadata bytes hRead
        · rw [hRead] at hRead'
          cases hRead'
          exact hash
      have sameMtime : (if statusOf tools .auto idx file = .touched then
          { row with mtimeNs := file.mtimeNs } else row) = { row with mtimeNs := file.mtimeNs } := by
        rcases kept with ⟨unchanged, metadata⟩ | ⟨touched, -⟩
        · have : row.mtimeNs = file.mtimeNs := by
            simp only [sameMetadata, Bool.and_eq_true, beq_iff_eq] at metadata
            exact metadata.1
          rw [unchanged, ← this]
          simp
        · rw [if_pos touched]
      rw [autoUnwritten, deleted]
      simp only [if_neg notDeleted]
      rw [autoState]
      -- A file that cannot be read keeps its rows in both.
      have unreadable : (∀ bytes, readCapped file.content ≠ .ok (some bytes)) →
          Pass1.written tools w (scanDiff tools .full w idx) path = none ∧
            { idx.fileState path with
              row := some (if statusOf tools .auto idx file = .touched then
                { row with mtimeNs := file.mtimeNs } else row) } = idx.fileState path := by
        intro noBytes
        have fullUnwritten : Pass1.written tools w (scanDiff tools .full w idx) path = none := by
          cases hWritten : Pass1.written tools w (scanDiff tools .full w idx) path with
          | none => rfl
          | some source =>
            obtain ⟨-, extracted⟩ := (Pass1.written_eq_some tools w _).mp hWritten
            obtain ⟨file', bytes, hFile', hRead, -⟩ := extractSource_eq_ok extracted
            rw [hFile] at hFile'
            cases hFile'
            exact absurd hRead (noBytes bytes)
        refine ⟨fullUnwritten, ?_⟩
        rcases kept with ⟨unchanged, -⟩ | ⟨-, bytes, hRead, -⟩
        · rw [unchanged]
          simp only [Index.fileState, hRow, reduceCtorEq, if_false]
        · exact absurd hRead (noBytes bytes)
      rcases hRead : readCapped file.content with error | _ | bytes
      · obtain ⟨unwritten, same⟩ := unreadable (by simp [hRead])
        rw [unwritten]
        exact same
      · obtain ⟨unwritten, same⟩ := unreadable (by simp [hRead])
        rw [unwritten]
        exact same
      · obtain ⟨source, extracted, state⟩ := h.extract_current hFile hRow hRead (readable bytes hRead)
        have fullWritten : Pass1.written tools w (scanDiff tools .full w idx) path =
            some source := by
          rw [Pass1.written_eq_some, ← mem_changedFiles, mem_changed]
          exact ⟨⟨file, hFile, .inl (fullStatus bytes hRead)⟩, extracted⟩
        rw [fullWritten, sameMtime]
        exact state.symm

end Scan

end OrbitGraph.Sync
