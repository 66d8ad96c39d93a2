import OrbitGraph.Sync.Store

/-!
The uniqueness constraints that pass 1 inserts against.

A path is deleted before it is inserted and a rowid is fresh, so the file
transactions never fail and leave the index that `Pass1.run` computes. Command
names are the names of their declarations, and one key for the whole database.
-/

namespace OrbitGraph.Sync

open Lib

/-! ### Rowids -/

theorem le_foldr_max {ids : List Nat} {i : Nat} (mem : i ∈ ids) : i ≤ ids.foldr max 0 := by
  induction ids with
  | nil => cases mem
  | cons j rest ih =>
    rcases List.mem_cons.mp mem with rfl | mem
    · exact le_max_left _ _
    · exact le_max_of_le_right (ih mem)

theorem lt_nextRowid {ids : List Nat} {i : Nat} (mem : i ∈ ids) : i < nextRowid ids :=
  Nat.lt_succ_of_le (le_foldr_max mem)

/-- The next rowid is free. -/
theorem nextRowid_notMem (ids : List Nat) : nextRowid ids ∉ ids :=
  fun mem => absurd (lt_nextRowid mem) (Nat.lt_irrefl _)

theorem nextRowid_append (ids : List Nat) : nextRowid (ids ++ [nextRowid ids]) = nextRowid ids + 1 := by
  have above : ∀ (ids : List Nat) (n : Nat), (∀ i ∈ ids, i ≤ n) → ids.foldr max n = n := by
    intro ids
    induction ids with
    | nil => exact fun _ _ => rfl
    | cons i rest ih =>
      intro n below
      rw [List.foldr_cons, ih n fun j mem => below j (List.mem_cons_of_mem _ mem)]
      exact max_eq_right (below i List.mem_cons_self)
  have top : (ids ++ [nextRowid ids]).foldr max 0 = nextRowid ids := by
    rw [List.foldr_append]
    exact above ids _ fun i mem => (lt_nextRowid mem).le
  rw [nextRowid, top]

namespace CommandRow

variable {row : CommandRow} {xs ys : List Nat}

theorem clear_name (row : CommandRow) (xs : List Nat) : (row.clear xs).name = row.name := by
  unfold clear
  split <;> rfl

@[simp]
theorem clear_filePath (row : CommandRow) (xs : List Nat) : (row.clear xs).filePath = row.filePath := by
  unfold clear
  split <;> rfl

/-- A command keeps its handler unless that is deleted. -/
theorem clear_handlerSymbol {handler : Nat} :
    (row.clear xs).handlerSymbol = some handler ↔ row.handlerSymbol = some handler ∧ handler ∉ xs := by
  unfold clear
  cases bound : row.handlerSymbol with
  | none => simp [bound]
  | some own =>
    by_cases mem : own ∈ xs
    · simp only [mem, Option.any_some, decide_true, if_true, Option.some.injEq]
      constructor
      · intro h
        cases h
      · rintro ⟨rfl, h⟩
        exact absurd mem h
    · simp only [Option.any_some, mem, decide_false, Bool.false_eq_true, if_false, bound, Option.some.injEq]
      constructor
      · rintro rfl
        exact ⟨rfl, mem⟩
      · exact fun h => h.1

/-- Two deletions clear what one deletion of both does. -/
theorem clear_clear : (row.clear xs).clear ys = row.clear (xs ++ ys) := by
  unfold clear
  cases bound : row.handlerSymbol with
  | none => simp [bound]
  | some own =>
    by_cases mem : own ∈ xs
    · simp [mem]
    · by_cases mem' : own ∈ ys
      · simp [mem, mem', bound]
      · simp [mem, mem', bound]

theorem clear_congr (same : ∀ handler, row.handlerSymbol = some handler → (handler ∈ xs ↔ handler ∈ ys)) :
    row.clear xs = row.clear ys := by
  unfold clear
  cases bound : row.handlerSymbol with
  | none => simp
  | some own => simp [same own bound]

theorem clear_nil : row.clear [] = row := by
  unfold clear
  cases row.handlerSymbol <;> simp

end CommandRow

/-! ### The constraints -/

/-- What the constraints of the tables say, and that the full-text tables follow theirs. -/
structure Store.Keys (s : Store) : Prop where
  files : (s.files.map FileRow.path).Nodup
  symbols : (s.symbols.map SymbolRow.id).Nodup
  commands : (s.commands.map CommandRow.name).Nodup
  handlers : ∀ row ∈ s.commands, ∀ handler, row.handlerSymbol = some handler →
    handler ∈ s.symbols.map SymbolRow.id
  symbolsFts : ∀ rowid ∈ s.symbolsFts, rowid ∈ s.symbols.map SymbolRow.id
  stringsFts : ∀ rowid ∈ s.stringsFts, rowid ∈ s.strings.map StringRow.id
  configsFts : ∀ rowid ∈ s.configsFts, rowid ∈ s.configs.map ConfigRow.id

theorem Store.Keys.empty : Store.empty.Keys := by
  constructor <;> simp [Store.empty, Index.empty]

namespace Store

variable {s t : Store} {path : Text}

variable {α : Type}

theorem mem_ids_filter {key : α → Text} {id : α → Nat} {rows : List α} {i : Nat}
    (mem : i ∈ rows.map id) (other : i ∉ (rows.filter fun row => key row = path).map id) :
    i ∈ (rows.filter fun row => key row ≠ path).map id := by
  obtain ⟨row, stored, rfl⟩ := List.mem_map.mp mem
  refine List.mem_map_of_mem (List.mem_filter.mpr ⟨stored, ?_⟩)
  refine decide_eq_true fun own => other ?_
  exact List.mem_map_of_mem (List.mem_filter.mpr ⟨stored, decide_eq_true own⟩)

/-- A deletion keeps the keys. -/
theorem Keys.deleteFile (keys : s.Keys) : (s.deleteFile path).Keys where
  files := keys.files.sublist (List.filter_sublist.map _)
  symbols := keys.symbols.sublist (List.filter_sublist.map _)
  commands := by
    have names : (s.deleteFtsForFile path).commands.map CommandRow.name = s.commands.map CommandRow.name := by
      rw [deleteFtsForFile, List.map_map]
      exact List.map_congr_left fun row _ => row.clear_name _
    exact (names ▸ keys.commands).sublist (List.filter_sublist.map _)
  handlers row mem handler bound := by
    obtain ⟨old, stored, rfl⟩ := List.mem_map.mp (List.mem_filter.mp mem).1
    obtain ⟨bound, kept⟩ := CommandRow.clear_handlerSymbol.mp bound
    exact mem_ids_filter (keys.handlers old stored handler bound) kept
  symbolsFts rowid mem := by
    obtain ⟨mem, other⟩ := List.mem_filter.mp mem
    exact mem_ids_filter (keys.symbolsFts rowid mem) (of_decide_eq_true other)
  stringsFts rowid mem := by
    obtain ⟨mem, other⟩ := List.mem_filter.mp mem
    exact mem_ids_filter (keys.stringsFts rowid mem) (of_decide_eq_true other)
  configsFts rowid mem := by
    obtain ⟨mem, other⟩ := List.mem_filter.mp mem
    exact mem_ids_filter (keys.configsFts rowid mem) (of_decide_eq_true other)

/-- A rowid above those of its table is new in a full-text table that follows it. -/
theorem insertRowid_ok {ids fts : List Nat} (follows : ∀ rowid ∈ fts, rowid ∈ ids) (e : SqliteError) :
    insertUnique (fun rowid => rowid) e fts (nextRowid ids) = .ok (fts ++ [nextRowid ids]) := by
  refine insertUnique_eq_ok.mpr ⟨fun taken => nextRowid_notMem ids (follows _ ?_), rfl⟩
  simpa using taken

/-- The row of a file that is not in the table is inserted. -/
theorem insertFile_ok {file : StoredFile} (absent : file.filePath ∉ s.files.map FileRow.path) :
    s.insertFile file = .ok { s with files := s.files ++ [FileTransaction.pendingRow file.toSourceFile] } := by
  refine bind_eq_ok.mpr ⟨_, insertUnique_eq_ok.mpr ⟨?_, rfl⟩, rfl⟩
  exact absent

theorem Keys.insertFile {file : StoredFile} (keys : s.Keys) (absent : file.filePath ∉ s.files.map FileRow.path) :
    Keys { s with files := s.files ++ [FileTransaction.pendingRow file.toSourceFile] } where
  files := by
    rw [List.map_append]
    exact List.nodup_append.mpr ⟨keys.files, by simp, by
      rintro _ old _ new rfl
      rw [List.mem_singleton.mp new] at old
      exact absent old⟩
  symbols := keys.symbols
  commands := keys.commands
  handlers := keys.handlers
  symbolsFts := keys.symbolsFts
  stringsFts := keys.stringsFts
  configsFts := keys.configsFts

def addSymbol (s : Store) (path : Text) (raw : RawSymbol) : Store :=
  let rowid := nextRowid (s.symbols.map SymbolRow.id)
  { s with
    symbols := s.symbols ++ numberSymbols path rowid [raw]
    symbolsFts := s.symbolsFts ++ [rowid] }

/-- A symbol is inserted under the next rowid. -/
theorem insertSymbol_ok (keys : s.Keys) (ids : Text → Option Nat) (raw : RawSymbol) :
    insertSymbol path (s, ids) raw = .ok (s.addSymbol path raw,
      Function.update ids raw.qualified (some (nextRowid (s.symbols.map SymbolRow.id)))) := by
  refine bind_eq_ok.mpr ⟨_, insertUnique_eq_ok.mpr ⟨nextRowid_notMem _, rfl⟩, ?_⟩
  exact bind_eq_ok.mpr ⟨_, insertRowid_ok keys.symbolsFts _, rfl⟩

theorem Keys.addSymbol (keys : s.Keys) (path : Text) (raw : RawSymbol) : (s.addSymbol path raw).Keys where
  files := keys.files
  symbols := by
    simp only [Store.addSymbol, List.map_append, numberSymbols_ids]
    refine List.nodup_append.mpr ⟨keys.symbols, List.nodup_range', ?_⟩
    rintro _ old _ new rfl
    have := lt_nextRowid old
    have := (List.mem_range'_1.mp new).1
    omega
  commands := keys.commands
  handlers row mem handler bound := by
    rw [Store.addSymbol, List.map_append]
    exact List.mem_append_left _ (keys.handlers row mem handler bound)
  symbolsFts rowid mem := by
    rw [Store.addSymbol, List.map_append, numberSymbols_ids]
    rcases List.mem_append.mp mem with mem | mem
    · exact List.mem_append_left _ (keys.symbolsFts rowid mem)
    · exact List.mem_append_right _ (by simpa using mem)
  stringsFts := keys.stringsFts
  configsFts := keys.configsFts

/-- The symbols of a file are inserted in order, numbered from the next rowid. -/
theorem insertSymbols_ok (keys : s.Keys) (path : Text) (raws : List RawSymbol) :
    ∃ t ids, s.insertSymbols path raws = .ok (t, ids) ∧ t.Keys ∧ t.toIndex = { s.toIndex with
        symbols := s.symbols ++ numberSymbols path (nextRowid (s.symbols.map SymbolRow.id)) raws } ∧
      t.commands = s.commands := by
  unfold insertSymbols
  generalize (fun _ => none : Text → Option Nat) = ids
  induction raws generalizing s ids with
  | nil => exact ⟨s, ids, rfl, keys, by simp [numberSymbols], rfl⟩
  | cons raw rest ih =>
    obtain ⟨t, ids', run, tKeys, index, commands⟩ := ih (keys.addSymbol path raw)
      (Function.update ids raw.qualified (some (nextRowid (s.symbols.map SymbolRow.id))))
    refine ⟨t, ids', ?_, tKeys, ?_, commands⟩
    · rw [List.foldlM_cons, insertSymbol_ok keys]
      exact run
    · rw [index]
      have next : nextRowid ((s.addSymbol path raw).symbols.map SymbolRow.id) =
          nextRowid (s.symbols.map SymbolRow.id) + 1 := by
        simp only [Store.addSymbol, numberSymbols, List.map_append, List.map_cons, List.map_nil]
        exact nextRowid_append _
      rw [next]
      simp [Store.addSymbol, numberSymbols]

/-- The tables that a loop of inserts leaves alone. -/
structure Beside (s t : Store) : Prop where
  keys : t.Keys
  index : t.toIndex = s.toIndex
  commands : t.commands = s.commands

theorem insertRelation_ok (path : Text) (keys : s.Keys) (raw : RawRelation) :
    ∃ t, insertRelation path s raw = .ok t ∧ Beside s t := by
  refine ⟨_, bind_eq_ok.mpr ⟨_, insertUnique_eq_ok.mpr ⟨nextRowid_notMem _, rfl⟩, rfl⟩, ?_, rfl, rfl⟩
  exact ⟨keys.files, keys.symbols, keys.commands, keys.handlers, keys.symbolsFts, keys.stringsFts, keys.configsFts⟩

theorem insertString_ok (path : Text) (symbolIds : Text → Option Nat) (keys : s.Keys) (raw : RawString) :
    ∃ t, insertString path symbolIds s raw = .ok t ∧ Beside s t := by
  refine ⟨_, bind_eq_ok.mpr ⟨_, insertUnique_eq_ok.mpr ⟨nextRowid_notMem _, rfl⟩,
    bind_eq_ok.mpr ⟨_, insertRowid_ok keys.stringsFts _, rfl⟩⟩, ?_, rfl, rfl⟩
  refine ⟨keys.files, keys.symbols, keys.commands, keys.handlers, keys.symbolsFts, fun rowid mem => ?_,
    keys.configsFts⟩
  rw [List.map_append]
  rcases List.mem_append.mp mem with mem | mem
  · exact List.mem_append_left _ (keys.stringsFts rowid mem)
  · exact List.mem_append_right _ (by simpa using mem)

theorem insertConfig_ok (path : Text) (keys : s.Keys) (raw : RawConfig) :
    ∃ t, insertConfig path s raw = .ok t ∧ Beside s t := by
  refine ⟨_, bind_eq_ok.mpr ⟨_, insertUnique_eq_ok.mpr ⟨nextRowid_notMem _, rfl⟩,
    bind_eq_ok.mpr ⟨_, insertRowid_ok keys.configsFts _, rfl⟩⟩, ?_, rfl, rfl⟩
  refine ⟨keys.files, keys.symbols, keys.commands, keys.handlers, keys.symbolsFts, keys.stringsFts,
    fun rowid mem => ?_⟩
  rw [List.map_append]
  rcases List.mem_append.mp mem with mem | mem
  · exact List.mem_append_left _ (keys.configsFts rowid mem)
  · exact List.mem_append_right _ (by simpa using mem)

/-- Rows that leave the index alone are inserted one after the other. -/
theorem insertAll_ok {insert : Store → α → Except SqliteError Store}
    (one : ∀ s a, s.Keys → ∃ t, insert s a = .ok t ∧ Beside s t) (keys : s.Keys) (raws : List α) :
    ∃ t, raws.foldlM insert s = .ok t ∧ Beside s t :=
  foldlM_answers (P := Beside s) (fun u a _ beside => by
    obtain ⟨t, run, next⟩ := one u a beside.keys
    exact ⟨t, run, next.keys, next.index.trans beside.index, next.commands.trans beside.commands⟩)
    ⟨keys, rfl, rfl⟩

theorem deleteFile_absent (s : Store) (path : Text) : path ∉ (s.deleteFile path).files.map FileRow.path := by
  intro mem
  obtain ⟨row, mem, own⟩ := List.mem_map.mp mem
  exact of_decide_eq_true (List.mem_filter.mp mem).2 own

/-- Where the keys hold, a file is written as the index model writes it. -/
theorem writeFile_ok (keys : s.Keys) (file : StoredFile) : ∃ t, s.writeFile file = .ok t ∧ t.Keys ∧
      t.toIndex = (FileTransaction.write file.toSourceFile).apply s.toIndex ∧
      t.commands = (s.deleteFile file.filePath).commands := by
  have absent := s.deleteFile_absent file.filePath
  have inserted := keys.deleteFile.insertFile absent
  obtain ⟨s₁, ids, symbols, keys₁, index₁, commands₁⟩ :=
    insertSymbols_ok inserted file.filePath file.rows.symbols
  have keys₂ : (s₁.insertImports file.filePath file.rows.imports).Keys :=
    ⟨keys₁.files, keys₁.symbols, keys₁.commands, keys₁.handlers, keys₁.symbolsFts, keys₁.stringsFts,
      keys₁.configsFts⟩
  obtain ⟨s₂, relations, beside₂⟩ := insertAll_ok (fun _ a keys => insertRelation_ok file.filePath keys a)
    keys₂ file.other.relations
  obtain ⟨s₃, strings, beside₃⟩ := insertAll_ok
    (fun _ a keys => insertString_ok file.filePath ids keys a) beside₂.keys file.other.strings
  obtain ⟨t, configs, beside⟩ := insertAll_ok (fun _ a keys => insertConfig_ok file.filePath keys a)
    beside₃.keys file.other.configs
  refine ⟨t, ?_, beside.keys, ?_, ?_⟩
  · refine bind_eq_ok.mpr ⟨_, insertFile_ok absent, ?_⟩
    refine bind_eq_ok.mpr ⟨_, symbols, ?_⟩
    exact bind_eq_ok.mpr ⟨_, relations, bind_eq_ok.mpr ⟨_, strings, configs⟩⟩
  · rw [beside.index, beside₃.index, beside₂.index]
    simp only [insertImports, index₁]
    rfl
  · rw [beside.commands, beside₃.commands, beside₂.commands]
    exact commands₁

/-! ### The file transactions -/

def symbolIdsIn (s : Store) (done : List Text) : List Nat :=
  (s.symbols.filter fun symbol => symbol.filePath ∈ done).map SymbolRow.id

/-- The store after the transactions of some files: their rows are replaced, and no command
row has a handler in them. -/
structure Cleared (s : Store) (done : List Text) (t : Store) : Prop where
  keys : t.Keys
  commands : t.commands =
    (s.commands.filter fun row => row.filePath ∉ done).map (CommandRow.clear (s.symbolIdsIn done))
  symbols : ∀ symbol : SymbolRow, symbol.filePath ∉ done → (symbol ∈ t.symbols ↔ symbol ∈ s.symbols)

theorem Cleared.refl (keys : s.Keys) : Cleared s [] s where
  keys := keys
  commands := by
    have none : s.symbolIdsIn [] = [] := by simp [symbolIdsIn]
    have same : CommandRow.clear [] = id := funext fun _ => CommandRow.clear_nil
    simp [none, same]
  symbols _ _ := Iff.rfl

variable {done : List Text}

/-- One more file that is deleted or written clears its handlers too. -/
theorem Cleared.step {u : Store} (keys : s.Keys) (cleared : Cleared s done t)
    (next : u.Keys) (commands : u.commands = (t.deleteFile path).commands)
    (symbols : ∀ symbol : SymbolRow, symbol.filePath ≠ path → (symbol ∈ u.symbols ↔ symbol ∈ t.symbols)) :
    Cleared s (done ++ [path]) u where
  keys := next
  commands := by
    -- a handler is the id of one symbol, which is in `t` as long as its file was not written
    have each : ∀ row ∈ s.commands,
        (row.clear (s.symbolIdsIn done)).clear ((t.symbolsOf path).map SymbolRow.id) =
          row.clear (s.symbolIdsIn (done ++ [path])) := by
      intro row mem
      rw [CommandRow.clear_clear]
      refine CommandRow.clear_congr fun handler bound => ?_
      obtain ⟨symbol, stored, rfl⟩ := List.mem_map.mp (keys.handlers row mem handler bound)
      rw [List.mem_append, symbolIdsIn, symbolIdsIn, mem_map_filter_of_nodup keys.symbols stored,
        mem_map_filter_of_nodup keys.symbols stored]
      by_cases gone : symbol.filePath ∈ done
      · simp [gone]
      · have here : symbol ∈ t.symbols := (cleared.symbols symbol gone).mpr stored
        rw [Index.symbolsOf, mem_map_filter_of_nodup cleared.keys.symbols here]
        simp [gone]
    rw [commands]
    show ((t.commands.map _).filter _) = _
    rw [cleared.commands, List.filter_map, List.filter_map, List.filter_filter, List.map_map]
    refine (List.map_congr_left fun row mem => each row (List.mem_filter.mp mem).1).trans ?_
    congr 1
    refine List.filter_congr fun row _ => ?_
    simp [and_comm]
  symbols symbol other := by
    simp only [List.mem_append, List.mem_singleton, not_or] at other
    rw [symbols symbol other.2, cleared.symbols symbol other.1]

theorem Cleared.delete (keys : s.Keys) (cleared : Cleared s done t) (path : Text) :
    Cleared s (done ++ [path]) (t.deleteFile path) := by
  refine cleared.step keys cleared.keys.deleteFile rfl fun symbol other => ?_
  exact ⟨fun mem => (List.mem_filter.mp mem).1, fun mem => List.mem_filter.mpr ⟨mem, decide_eq_true other⟩⟩

theorem Cleared.write (keys : s.Keys) (cleared : Cleared s done t) (file : StoredFile) :
    ∃ u, t.writeFile file = .ok u ∧ Cleared s (done ++ [file.filePath]) u ∧
      u.toIndex = (FileTransaction.write file.toSourceFile).apply t.toIndex := by
  obtain ⟨u, run, next, index, commands⟩ := writeFile_ok cleared.keys file
  refine ⟨u, run, cleared.step keys next commands (fun symbol other => ?_), index⟩
  rw [index]
  simp only [FileTransaction.apply, List.mem_append]
  constructor
  · rintro (mem | mem)
    · exact (List.mem_filter.mp mem).1
    · exact absurd (numberSymbols_filePath mem) other
  · exact fun mem => .inl (List.mem_filter.mpr ⟨mem, decide_eq_true other⟩)

/-- A loop of transactions that all succeed keeps its invariant. -/
theorem commitEach_ok {body : α → Store → Except SqliteError Store} {P : List α → Store → Prop}
    (one : ∀ done a s, P done s → ∃ t, body a s = .ok t ∧ P (done ++ [a]) t) {as : List α} {s : Store}
    (start : P [] s) : ∃ t, commitEach body as s = (.ok (), t) ∧ P as t := by
  suffices h : ∀ done as s, P done s → ∃ t, commitEach body as s = (.ok (), t) ∧ P (done ++ as) t from
    h [] as s start
  intro done as
  induction as generalizing done with
  | nil => exact fun s holds => ⟨s, rfl, by simpa using holds⟩
  | cons a rest ih =>
    intro s holds
    obtain ⟨u, run, next⟩ := one done a s holds
    obtain ⟨t, rest, final⟩ := ih (done ++ [a]) u next
    refine ⟨t, ?_, by simpa using final⟩
    have first : commit (body a) s = (.ok (), u) := by simp [commit, Command.transaction, run, Except.map]
    rw [commitEach, Command.andThen_of_ok first]
    exact rest

def touched (deleted : List Text) (files : List StoredFile) : List Text :=
  deleted ++ files.map fun file => file.filePath

/-- Where the keys hold, all file transactions succeed, as those of the index model. -/
theorem fileTransactions_ok (keys : s.Keys) (deleted : List Text) (files : List StoredFile) :
    ∃ p, fileTransactions deleted files s = (.ok (), p) ∧ Cleared s (touched deleted files) p ∧
      p.toIndex = Pass1.runTransactions
        (deleted.map .delete ++ (files.map StoredFile.toSourceFile).map .write) s.toIndex := by
  let marked : Store := { s with syncPending := true }
  have start : Cleared s [] marked := by
    obtain ⟨⟨f, y, c, h, sf, st, cf⟩, commands, symbols⟩ := Cleared.refl keys
    exact ⟨⟨f, y, c, h, sf, st, cf⟩, commands, symbols⟩
  obtain ⟨s₁, deletions, cleared₁, index₁⟩ : ∃ t, commitEach (fun path s => .ok (s.deleteFile path)) deleted
      marked = (.ok (), t) ∧ _ := commitEach_ok
    (P := fun done t => Cleared s done t ∧
      t.toIndex = (done.map FileTransaction.delete).foldl FileTransaction.apply marked.toIndex)
    (fun done path t h => ⟨_, rfl, h.1.delete keys path, by simp [← h.2]; rfl⟩) ⟨start, rfl⟩
  obtain ⟨p, writes, cleared, index⟩ : ∃ t, commitEach (fun file s => s.writeFile file) files s₁ =
      (.ok (), t) ∧ _ := commitEach_ok
    (P := fun done t => Cleared s (deleted ++ done.map fun file => file.filePath) t ∧
      t.toIndex = ((done.map StoredFile.toSourceFile).map FileTransaction.write).foldl
        FileTransaction.apply s₁.toIndex)
    (fun done file t h => by
      obtain ⟨u, run, next, index⟩ := h.1.write keys file
      exact ⟨u, run, by simpa using next, by simp [index, h.2]⟩) ⟨by simpa using cleared₁, rfl⟩
  have first : commit (fun s => .ok { s with syncPending := true }) s = (.ok (), marked) := rfl
  refine ⟨p, ?_, cleared, ?_⟩
  · rw [fileTransactions, Command.andThen_of_ok first, Command.andThen_of_ok deletions, writes]
  · rw [index, index₁, Pass1.runTransactions, List.foldl_append]
    rfl

section Pass1

variable (tools : Tools) (other : OtherExtractor) (w : Worktree) (diff : Diff)

theorem writtenFiles_sources :
    (writtenFiles tools other w diff).map StoredFile.toSourceFile = Pass1.extractedFiles tools w diff := by
  rw [writtenFiles, extractChangedFiles, Pass1.extractedFiles, List.map_filterMap]
  refine List.filterMap_congr fun path _ => ?_
  unfold extractFile
  cases extractSource tools w path <;> rfl

end Pass1

end Store

end OrbitGraph.Sync
