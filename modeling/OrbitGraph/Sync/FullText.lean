import OrbitGraph.Lib.ExternalContent
import OrbitGraph.Sync.StoreRun

/-!
The full-text tables with their texts.

`symbols_fts`, `strings_fts` and `configs_fts` index the rows of `symbols`, `strings` and
`configs`. Pass 1 gives them each row as it inserts it, and takes a file's rows out of them
before it deletes the file. Here the database has the texts of these tables, and the
column `signature`, which nothing else reads.
-/

namespace OrbitGraph.Sync

open Lib

/-- The columns of `symbols_fts`. -/
structure SymbolTexts where
  name : Text
  qualified : Text
  signature : Option Text
  deriving DecidableEq

/-- The database with the full-text tables, and `symbols.signature` by rowid. -/
structure SearchStore where
  store : Store
  signature : Nat → Option Text
  symbolsFts : List (Nat × SymbolTexts)
  stringsFts : List (Nat × Text)
  configsFts : List (Nat × Text)

/-- A file to be written, with the signatures of its symbols. -/
structure SignedFile extends StoredFile where
  signatures : List (Option Text)
  aligned : signatures.length = rows.symbols.length

namespace SearchStore

def empty : SearchStore := ⟨.empty, fun _ => none, [], [], []⟩

/-- How `symbols` is indexed. -/
def symbolContent (signature : Nat → Option Text) : ExternalContent SymbolRow SymbolTexts where
  id := SymbolRow.id
  texts row := ⟨row.name, row.qualified, signature row.id⟩

def stringContent : ExternalContent StringRow Text := ⟨StringRow.id, StringRow.value⟩

def configContent : ExternalContent ConfigRow Text := ⟨ConfigRow.id, ConfigRow.key⟩

/-! ### Transactions -/

def deleteFtsForFile (path : Text) (T : SearchStore) : SearchStore :=
  { T with
    store := T.store.deleteFtsForFile path
    symbolsFts := (symbolContent T.signature).deleteAll T.store.symbols T.symbolsFts
      ((T.store.symbolsOf path).map SymbolRow.id)
    stringsFts := stringContent.deleteAll T.store.strings T.stringsFts
      ((T.store.strings.filter fun row => row.filePath = path).map StringRow.id)
    configsFts := configContent.deleteAll T.store.configs T.configsFts
      ((T.store.configs.filter fun row => row.filePath = path).map ConfigRow.id) }

/-- `delete_file_transaction` -/
def deleteFile (path : Text) (T : SearchStore) : SearchStore :=
  let T := T.deleteFtsForFile path
  { T with store := T.store.deleteFileRows path }

/-- One symbol of `insert_symbols`. -/
def insertSymbol (path : Text) (state : SearchStore × (Text → Option Nat)) (raw : RawSymbol × Option Text) :
    Except SqliteError (SearchStore × (Text → Option Nat)) := do
  let (T, ids) := state
  let signature := raw.2.map History.redact
  let symbolId := nextRowid (T.store.symbols.map SymbolRow.id)
  let (store, ids) ← Store.insertSymbol path (T.store, ids) raw.1
  return ({ T with
    store
    signature := Function.update T.signature symbolId signature
    symbolsFts := T.symbolsFts ++ [(symbolId, ⟨raw.1.name, raw.1.qualified, signature⟩)] }, ids)

/-- One string of `insert_strings`. -/
def insertString (path : Text) (symbolIds : Text → Option Nat) (T : SearchStore) (raw : RawString) :
    Except SqliteError SearchStore := do
  let stringId := nextRowid (T.store.strings.map StringRow.id)
  let store ← Store.insertString path symbolIds T.store raw
  return { T with store, stringsFts := T.stringsFts ++ [(stringId, History.redact raw.value)] }

/-- One key of `insert_configs`. -/
def insertConfig (path : Text) (T : SearchStore) (raw : RawConfig) : Except SqliteError SearchStore := do
  let configId := nextRowid (T.store.configs.map ConfigRow.id)
  let store ← Store.insertConfig path T.store raw
  return { T with store, configsFts := T.configsFts ++ [(configId, raw.key)] }

/-- `write_file_transaction` -/
def writeFile (file : SignedFile) (T : SearchStore) : Except SqliteError SearchStore := do
  let T := T.deleteFile file.filePath
  let store ← T.store.insertFile file.toStoredFile
  let (T, symbolIds) ← (file.rows.symbols.zip file.signatures).foldlM (insertSymbol file.filePath)
    ({ T with store }, fun _ => none)
  let store ← file.other.relations.foldlM (Store.insertRelation file.filePath)
    (T.store.insertImports file.filePath file.rows.imports)
  let T ← file.other.strings.foldlM (insertString file.filePath symbolIds) { T with store }
  file.other.configs.foldlM (insertConfig file.filePath) T

end SearchStore

abbrev Signatures := (file : StoredFile) → { list : List (Option Text) // list.length = file.rows.symbols.length }

def Signatures.sign (signatures : Signatures) (file : StoredFile) : SignedFile :=
  { file with
    signatures := (signatures file).1
    aligned := (signatures file).2 }

/-- A transaction of a sync: pass 1 deletes or writes a file, or it writes other tables. -/
inductive SyncTransaction where
  | deleteFile (path : Text)
  | writeFile (file : StoredFile)
  | other (store : Store)

/-- The other transactions of a sync: they leave the rows alone that are indexed, and the rowids of the full-text tables. -/
structure SameContent (s t : Store) : Prop where
  symbols : t.symbols = s.symbols
  strings : t.strings = s.strings
  configs : t.configs = s.configs

theorem SameContent.refl (s : Store) : SameContent s s := ⟨rfl, rfl, rfl⟩

theorem SameContent.trans {s t u : Store} (first : SameContent s t) (second : SameContent t u) : SameContent s u :=
  ⟨second.symbols.trans first.symbols, second.strings.trans first.strings, second.configs.trans first.configs⟩

/-- Any sequence of transactions from a freshly created database; one that fails is rolled back. -/
def searchSystem (signatures : Signatures) : TransitionSystem SearchStore SyncTransaction where
  init T := T = .empty
  step T l U :=
    match l with
    | .deleteFile path => U = T.deleteFile path
    | .writeFile file => T.writeFile (signatures.sign file) = .ok U
    | .other store => SameContent T.store store ∧ U = { T with store }

/-! ### The invariant -/

/-- Each full-text table has just the entries of its rows. -/
structure Mirrored (T : SearchStore) : Prop where
  symbolIds : (T.store.symbols.map SymbolRow.id).Nodup
  stringIds : (T.store.strings.map StringRow.id).Nodup
  configIds : (T.store.configs.map ConfigRow.id).Nodup
  symbols : (SearchStore.symbolContent T.signature).Mirrors T.store.symbols T.symbolsFts
  strings : SearchStore.stringContent.Mirrors T.store.strings T.stringsFts
  configs : SearchStore.configContent.Mirrors T.store.configs T.configsFts

namespace Mirrored

open SearchStore

variable {T U : SearchStore} {path : Text}

theorem empty : Mirrored .empty :=
  ⟨List.nodup_nil, List.nodup_nil, List.nodup_nil, List.Perm.nil, List.Perm.nil, List.Perm.nil⟩

theorem sameContent (mirrored : Mirrored T) {store : Store} (same : SameContent T.store store) :
    Mirrored { T with store } := by
  refine ⟨?_, ?_, ?_, ?_, ?_, ?_⟩
  · exact same.symbols ▸ mirrored.symbolIds
  · exact same.strings ▸ mirrored.stringIds
  · exact same.configs ▸ mirrored.configIds
  · exact same.symbols ▸ mirrored.symbols
  · exact same.strings ▸ mirrored.strings
  · exact same.configs ▸ mirrored.configs

theorem filter_ne {α : Type} (key : α → Text) (rows : List α) (path : Text) :
    (rows.filter fun row => key row ≠ path) = rows.filter fun row => !decide (key row = path) :=
  List.filter_congr fun _ _ => decide_not

theorem deleteFile (mirrored : Mirrored T) (path : Text) : Mirrored (T.deleteFile path) := by
  refine ⟨mirrored.symbolIds.sublist (List.filter_sublist.map _), mirrored.stringIds.sublist (List.filter_sublist.map _),
    mirrored.configIds.sublist (List.filter_sublist.map _), ?_, ?_, ?_⟩
  · show (symbolContent T.signature).Mirrors (T.store.symbols.filter fun row => row.filePath ≠ path) _
    rw [filter_ne SymbolRow.filePath]
    exact mirrored.symbols.deleteAll mirrored.symbolIds _
  · show stringContent.Mirrors (T.store.strings.filter fun row => row.filePath ≠ path) _
    rw [filter_ne StringRow.filePath]
    exact mirrored.strings.deleteAll mirrored.stringIds _
  · show configContent.Mirrors (T.store.configs.filter fun row => row.filePath ≠ path) _
    rw [filter_ne ConfigRow.filePath]
    exact mirrored.configs.deleteAll mirrored.configIds _

theorem nodup_append_one {α : Type} {id : α → Nat} {rows : List α} {row : α} (distinct : (rows.map id).Nodup)
    (fresh : id row ∉ rows.map id) : ((rows ++ [row]).map id).Nodup := by
  rw [List.map_append]
  refine List.nodup_append.mpr ⟨distinct, List.nodup_singleton _, fun old mem new here same => fresh ?_⟩
  rw [← List.mem_singleton.mp here, ← same]
  exact mem

theorem insertSymbol (mirrored : Mirrored T) {ids ids' : Text → Option Nat} {raw : RawSymbol × Option Text}
    (run : SearchStore.insertSymbol path (T, ids) raw = .ok (U, ids')) : Mirrored U := by
  obtain ⟨⟨store, ids⟩, inserted, rest⟩ := bind_eq_ok.mp run
  obtain ⟨rfl, -⟩ := Prod.mk.inj (Except.ok.inj rest)
  obtain ⟨symbols, added, inserted⟩ := bind_eq_ok.mp inserted
  obtain ⟨rowids, -, inserted⟩ := bind_eq_ok.mp inserted
  obtain ⟨rfl, -⟩ := Prod.mk.inj (Except.ok.inj inserted)
  obtain ⟨fresh, rfl⟩ := insertUnique_eq_ok.mp added
  refine ⟨nodup_append_one mirrored.symbolIds fresh, mirrored.stringIds, mirrored.configIds, ?_, mirrored.strings,
    mirrored.configs⟩
  have kept : (symbolContent (Function.update T.signature (nextRowid (T.store.symbols.map SymbolRow.id))
      (raw.2.map History.redact))).Mirrors T.store.symbols T.symbolsFts := by
    refine mirrored.symbols.congr fun row mem => ?_
    have other : row.id ≠ nextRowid (T.store.symbols.map SymbolRow.id) :=
      fun eq => fresh (List.mem_map.mpr ⟨row, mem, eq⟩)
    simp only [ExternalContent.entry, symbolContent, Function.update_of_ne other]
  have more := kept.insert ⟨nextRowid (T.store.symbols.map SymbolRow.id), path, raw.1.name, raw.1.qualified, raw.1.kind,
    raw.1.spanStart, raw.1.spanEnd⟩
  simp only [ExternalContent.entry, symbolContent, Function.update_self] at more
  exact more

theorem insertString (mirrored : Mirrored T) {ids : Text → Option Nat} {raw : RawString}
    (run : SearchStore.insertString path ids T raw = .ok U) : Mirrored U := by
  obtain ⟨store, inserted, rest⟩ := bind_eq_ok.mp run
  obtain rfl := Except.ok.inj rest
  obtain ⟨strings, added, inserted⟩ := bind_eq_ok.mp inserted
  obtain ⟨rowids, -, inserted⟩ := bind_eq_ok.mp inserted
  obtain rfl := Except.ok.inj inserted
  obtain ⟨fresh, rfl⟩ := insertUnique_eq_ok.mp added
  exact ⟨mirrored.symbolIds, nodup_append_one mirrored.stringIds fresh, mirrored.configIds, mirrored.symbols,
    mirrored.strings.insert _, mirrored.configs⟩

theorem insertConfig (mirrored : Mirrored T) {raw : RawConfig}
    (run : SearchStore.insertConfig path T raw = .ok U) : Mirrored U := by
  obtain ⟨store, inserted, rest⟩ := bind_eq_ok.mp run
  obtain rfl := Except.ok.inj rest
  obtain ⟨configs, added, inserted⟩ := bind_eq_ok.mp inserted
  obtain ⟨rowids, -, inserted⟩ := bind_eq_ok.mp inserted
  obtain rfl := Except.ok.inj inserted
  obtain ⟨fresh, rfl⟩ := insertUnique_eq_ok.mp added
  exact ⟨mirrored.symbolIds, mirrored.stringIds, nodup_append_one mirrored.configIds fresh, mirrored.symbols,
    mirrored.strings, mirrored.configs.insert _⟩

theorem sameContent_insertRelation {s t : Store} {raw : RawRelation} (run : Store.insertRelation path s raw = .ok t) :
    SameContent s t := by
  obtain ⟨relations, -, inserted⟩ := bind_eq_ok.mp run
  obtain rfl := Except.ok.inj inserted
  exact ⟨rfl, rfl, rfl⟩

theorem writeFile (mirrored : Mirrored T) {file : SignedFile} (run : T.writeFile file = .ok U) : Mirrored U := by
  obtain ⟨store, inserted, run⟩ := bind_eq_ok.mp run
  obtain ⟨⟨V, symbolIds⟩, symbols, run⟩ := bind_eq_ok.mp run
  obtain ⟨related, relations, run⟩ := bind_eq_ok.mp run
  obtain ⟨W, strings, configs⟩ := bind_eq_ok.mp run
  have emptied : Mirrored { T.deleteFile file.filePath with store } := by
    obtain ⟨files, -, inserted⟩ := bind_eq_ok.mp inserted
    obtain rfl := Except.ok.inj inserted
    exact (mirrored.deleteFile file.filePath).sameContent ⟨rfl, rfl, rfl⟩
  have withSymbols : Mirrored V :=
    foldlM_keeps (P := fun state => Mirrored state.1) (fun _ _ _ _ before one => before.insertSymbol one) emptied symbols
  have same : SameContent V.store related :=
    foldlM_keeps (P := SameContent V.store) (fun s raw t _ before (one : Store.insertRelation file.filePath s raw = .ok t) =>
      before.trans (sameContent_insertRelation one))
      (show SameContent V.store (V.store.insertImports file.filePath file.rows.imports) from ⟨rfl, rfl, rfl⟩) relations
  have withStrings : Mirrored W :=
    foldlM_keeps (fun _ _ _ _ before one => before.insertString one) (withSymbols.sameContent same) strings
  exact foldlM_keeps (fun _ _ _ _ before one => before.insertConfig one) withStrings configs

end Mirrored

theorem mirrored_inductive (signatures : Signatures) : (searchSystem signatures).Inductive Mirrored where
  init T first := first ▸ .empty
  step T l U mirrored step := by
    cases l with
    | deleteFile path =>
      obtain rfl : U = T.deleteFile path := step
      exact mirrored.deleteFile path
    | writeFile file => exact mirrored.writeFile step
    | other store =>
      obtain ⟨same, rfl⟩ := step
      exact mirrored.sameContent same

section Simulation

variable {T : SearchStore}

theorem insertSymbol_store (path : Text) (ids : Text → Option Nat) (raw : RawSymbol × Option Text) :
    (SearchStore.insertSymbol path (T, ids) raw).map (fun state => (state.1.store, state.2)) =
      Store.insertSymbol path (T.store, ids) raw.1 := by
  unfold SearchStore.insertSymbol
  dsimp only
  cases Store.insertSymbol path (T.store, ids) raw.1 <;> rfl

theorem insertString_store (path : Text) (ids : Text → Option Nat) (raw : RawString) :
    (SearchStore.insertString path ids T raw).map SearchStore.store = Store.insertString path ids T.store raw := by
  unfold SearchStore.insertString
  cases Store.insertString path ids T.store raw <;> rfl

theorem insertConfig_store (path : Text) (raw : RawConfig) :
    (SearchStore.insertConfig path T raw).map SearchStore.store = Store.insertConfig path T.store raw := by
  unfold SearchStore.insertConfig
  cases Store.insertConfig path T.store raw <;> rfl

theorem writeFile_store {file : SignedFile} {t : Store} (run : T.store.writeFile file.toStoredFile = .ok t) :
    ∃ U, T.writeFile file = .ok U ∧ U.store = t := by
  obtain ⟨store, inserted, run⟩ := bind_eq_ok.mp run
  obtain ⟨⟨s, ids⟩, symbols, run⟩ := bind_eq_ok.mp run
  obtain ⟨related, relations, run⟩ := bind_eq_ok.mp run
  obtain ⟨quoted, strings, configs⟩ := bind_eq_ok.mp run
  have withSymbols := foldlM_map (fun state raw => insertSymbol_store (T := state.1) file.filePath state.2 raw)
    (file.rows.symbols.zip file.signatures) ({ T.deleteFile file.filePath with store }, fun _ => none)
  rw [List.map_fst_zip (Nat.le_of_eq file.aligned.symm)] at withSymbols
  obtain ⟨⟨V, ids'⟩, first, same⟩ := map_eq_ok.mp (withSymbols.trans symbols)
  obtain ⟨rfl, rfl⟩ := Prod.mk.inj same
  have withStrings := foldlM_map (fun state raw => insertString_store (T := state) file.filePath ids' raw)
    file.other.strings { V with store := related }
  rw [List.map_id'] at withStrings
  obtain ⟨W, second, rfl⟩ := map_eq_ok.mp (withStrings.trans strings)
  have withConfigs := foldlM_map (fun state raw => insertConfig_store (T := state) file.filePath raw)
    file.other.configs W
  rw [List.map_id'] at withConfigs
  obtain ⟨U, third, same⟩ := map_eq_ok.mp (withConfigs.trans configs)
  exact ⟨U, bind_eq_ok.mpr ⟨store, inserted, bind_eq_ok.mpr ⟨(V, ids'), first, bind_eq_ok.mpr ⟨related, relations,
    bind_eq_ok.mpr ⟨W, second, third⟩⟩⟩⟩, same⟩

end Simulation

section Simulate

variable {tools : Tools} {other : OtherExtractor} {signatures : Signatures}

/-- Transactions lead from one database to another, whatever the full-text tables hold. -/
def LeadsTo (signatures : Signatures) (s t : Store) : Prop :=
  ∀ T, (searchSystem signatures).Reachable T → T.store = s → ∃ U, (searchSystem signatures).Reachable U ∧ U.store = t

namespace LeadsTo

variable {s t u : Store}

theorem refl (s : Store) : LeadsTo signatures s s := fun T reach same => ⟨T, reach, same⟩

theorem trans (first : LeadsTo signatures s t) (second : LeadsTo signatures t u) : LeadsTo signatures s u := by
  intro T reach same
  obtain ⟨U, reach, same⟩ := first T reach same
  exact second U reach same

theorem of_sameContent (same : SameContent s t) : LeadsTo signatures s t := by
  rintro T reach rfl
  exact ⟨{ T with store := t }, reach.step (l := .other t) ⟨same, rfl⟩, rfl⟩

theorem deleteFile (s : Store) (path : Text) : LeadsTo signatures s (s.deleteFile path) := by
  rintro T reach rfl
  exact ⟨T.deleteFile path, reach.step (l := .deleteFile path) rfl, rfl⟩

theorem writeFile {file : StoredFile} (run : s.writeFile file = .ok t) : LeadsTo signatures s t := by
  rintro T reach rfl
  have run : T.store.writeFile (signatures.sign file).toStoredFile = .ok t := run
  obtain ⟨U, written, same⟩ := writeFile_store run
  exact ⟨U, reach.step (l := .writeFile file) written, same⟩

end LeadsTo

/-- A command that, from any database, gets where transactions lead. -/
def Transactional {α : Type} (signatures : Signatures) (c : Command SqliteError Store α) : Prop :=
  ∀ s, LeadsTo signatures s (c s).2

namespace Transactional

open Store

variable {α β : Type} {c : Command SqliteError Store α}

theorem answer (a : α) : Transactional signatures (Command.answer a) := fun s => .refl s

theorem query (f : Store → Except SqliteError α) : Transactional signatures (Command.query f) := fun s => .refl s

theorem andThen {f : α → Command SqliteError Store β} (first : Transactional signatures c)
    (second : ∀ a, Transactional signatures (f a)) : Transactional signatures (c >>= f) := by
  intro s
  have reached := first s
  cases run : c s with
  | mk result t =>
    rw [run] at reached
    cases result with
    | error e =>
      rw [Command.andThen_of_error run]
      exact reached
    | ok a =>
      rw [Command.andThen_of_ok run]
      exact reached.trans (second a t)

variable {body : Store → Except SqliteError Store}

theorem commit (covers : ∀ s t, body s = .ok t → LeadsTo signatures s t) :
    Transactional signatures (commit body) := by
  intro s
  cases run : body s with
  | error e =>
    have back : (Store.commit body s).2 = s := by simp [Store.commit, Command.transaction, run, Except.map]
    rw [back]
    exact .refl s
  | ok t =>
    have committed : (Store.commit body s).2 = t := by simp [Store.commit, Command.transaction, run, Except.map]
    rw [committed]
    exact covers s t run

theorem commit_of_sameContent
    (same : ∀ s t, body s = .ok t → SameContent s t) : Transactional signatures (Store.commit body) :=
  commit fun s t run => .of_sameContent (same s t run)

theorem commitEach {γ : Type} {body : γ → Store → Except SqliteError Store}
    (covers : ∀ a s t, body a s = .ok t → LeadsTo signatures s t) (as : List γ) :
    Transactional signatures (Store.commitEach body as) := by
  induction as with
  | nil => exact answer ()
  | cons a rest ih => exact andThen (commit (covers a)) fun _ => ih

theorem fileTransactions (deleted : List Text) (files : List StoredFile) :
    Transactional signatures (Store.fileTransactions deleted files) := by
  refine andThen (commit_of_sameContent fun s t run => ?_) fun _ => andThen (commitEach (fun path s t run => ?_) _) fun _ =>
    commitEach (fun file s t run => .writeFile run) _
  · obtain rfl := Except.ok.inj run
    exact ⟨rfl, rfl, rfl⟩
  · obtain rfl := Except.ok.inj run
    exact .deleteFile s path

theorem sameContent_rebind (raws : List RawCommand) (s : Store) : SameContent s (raws.foldl rebindCommand s) := by
  induction raws generalizing s with
  | nil => exact .refl s
  | cons raw rest ih =>
    refine SameContent.trans ?_ (ih (rebindCommand s raw))
    unfold rebindCommand
    split
    · exact .refl s
    · exact ⟨rfl, rfl, rfl⟩

theorem sameContent_insertCommands {commands : List (Text × RawCommand)} {s t : Store}
    (run : commands.foldlM insertCommand s = .ok t) : SameContent s t := by
  refine foldlM_keeps (P := SameContent s) (fun u command v _ before inserted => before.trans ?_) (.refl s) run
  obtain ⟨rows, -, rest⟩ := bind_eq_ok.mp inserted
  obtain rfl := Except.ok.inj rest
  exact ⟨rfl, rfl, rfl⟩

theorem rebindUnresolvedCommands (w : Worktree) (out : Pass1Output) :
    Transactional signatures (Store.rebindUnresolvedCommands tools other w out) := by
  refine andThen (query _) fun unresolved => andThen (commit_of_sameContent fun s t run => ?_) fun _ => answer _
  obtain rfl := Except.ok.inj run
  exact sameContent_rebind _ s

theorem writeAll (w : Worktree) (deleted : List Text) (files : List StoredFile) (out : Pass1Output) :
    Transactional signatures (Store.writeAll tools other w deleted files out) :=
  andThen (fileTransactions deleted files) fun _ => andThen (rebindUnresolvedCommands w out) fun _ =>
    andThen (commit_of_sameContent fun _ _ run => sameContent_insertCommands run) fun _ => answer _

end Transactional

theorem LeadsTo.afterScan {s : Store} {mode : SyncMode} {w : Worktree} {body : Diff → Store → Store}
    (covers : ∀ diff t, LeadsTo signatures t (body diff t)) : LeadsTo signatures s (s.afterScan tools mode w body) := by
  have scanned : LeadsTo signatures s (s.scan tools mode w) := .of_sameContent ⟨rfl, rfl, rfl⟩
  unfold Store.afterScan
  dsimp only
  split
  · exact scanned
  · exact scanned.trans (covers _ _)

/-- However a sync goes, it is a sequence of transactions. -/
theorem LeadsTo.next [CharTables] (s : Store) (l : StoreStep) : LeadsTo signatures s (s.next tools other l) := by
  cases l with
  | run mode w =>
    refine Transactional.andThen (Transactional.query _) (fun diff => Transactional.andThen (Transactional.commit_of_sameContent fun s t run => ?_)
      fun _ => Transactional.andThen (Transactional.query _) fun answer => ?_) s
    · obtain rfl := Except.ok.inj run
      exact ⟨rfl, rfl, rfl⟩
    · obtain ⟨nothing, reresolve⟩ := answer
      cases nothing with
      | true => exact Transactional.answer _
      | false =>
        refine Transactional.andThen (Transactional.writeAll w _ _ _) fun out => Transactional.andThen
          (Transactional.commit_of_sameContent fun s t run => ?_) fun _ => Transactional.answer _
        obtain rfl := Except.ok.inj run
        exact ⟨(pass2_rows _ _ _ _).1, rfl, rfl⟩
  | cancel mode w reached committed | stopAfterPass1 mode w => exact .afterScan fun diff t => Transactional.writeAll w _ _ _ t
  | stopInScan mode w reached => exact .of_sameContent ⟨rfl, rfl, rfl⟩
  | stopInFiles mode w committed => exact .afterScan fun diff t => Transactional.fileTransactions _ _ t
  | stopAfterRebind mode w =>
    exact .afterScan fun diff t => (Transactional.fileTransactions _ _ t).trans (Transactional.rebindUnresolvedCommands w _ _)

theorem exists_reachable [CharTables] (signatures : Signatures) {s : Store} (reach : (storeSystem tools other).Reachable s) :
    ∃ T, (searchSystem signatures).Reachable T ∧ T.store = s := by
  obtain ⟨start, ls, first, run⟩ := reach
  have covers : LeadsTo signatures start s :=
    run.preserves (P := LeadsTo signatures start) (fun t l u before step => by
      rw [show u = t.next tools other l from step]
      exact before.trans (LeadsTo.next t l)) (.refl start)
  exact covers .empty (.of_init rfl) first.symm

end Simulate

/-- What a search finds in the three tables. -/
structure SearchesExact (T : SearchStore) : Prop where
  symbols : ∀ matches_ rowid, rowid ∈ ExternalContent.search matches_ T.symbolsFts ↔
    ∃ row ∈ T.store.symbols, row.id = rowid ∧ matches_ ⟨row.name, row.qualified, T.signature row.id⟩ = true
  strings : ∀ matches_ rowid, rowid ∈ ExternalContent.search matches_ T.stringsFts ↔
    ∃ row ∈ T.store.strings, row.id = rowid ∧ matches_ row.value = true
  configs : ∀ matches_ rowid, rowid ∈ ExternalContent.search matches_ T.configsFts ↔
    ∃ row ∈ T.store.configs, row.id = rowid ∧ matches_ row.key = true

theorem Mirrored.searchesExact {T : SearchStore} (mirrored : Mirrored T) : SearchesExact T :=
  ⟨fun _ _ => mirrored.symbols.mem_search, fun _ _ => mirrored.strings.mem_search, fun _ _ => mirrored.configs.mem_search⟩

/-- **The full-text tables mirror their content tables**: after any transactions they have the rowids and texts of the
rows, each once, and a search finds the rows that match and no others. The databases that syncs reach, however they end, are
among these. -/
theorem fullText_mirrors [CharTables] (tools : Tools) (other : OtherExtractor) (signatures : Signatures) :
    (∀ T, (searchSystem signatures).Reachable T → Mirrored T ∧ SearchesExact T) ∧
      ∀ s, (storeSystem tools other).Reachable s → ∃ T, (searchSystem signatures).Reachable T ∧ T.store = s :=
  ⟨fun _ reach =>
    have mirrored := reach.of_inductive (mirrored_inductive signatures)
    ⟨mirrored, mirrored.searchesExact⟩, fun _ reach => exists_reachable signatures reach⟩

end OrbitGraph.Sync
