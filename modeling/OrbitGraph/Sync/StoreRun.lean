import OrbitGraph.Sync.CommandNames
import OrbitGraph.Sync.Tracking

/-!
Whole syncs of the whole database, and any sequence of them.

A sync may complete, fail at the inserts of the commands, or stop between two
transactions. Its index is the one of `sync`. In every state that is reached the
tables keep their constraints.
-/

namespace OrbitGraph.Sync

open Lib

variable [CharTables] (tools : Tools) (other : OtherExtractor)

namespace Store

def scan (mode : SyncMode) (w : Worktree) (s : Store) : Store :=
  { s with toIndex := scanned tools mode w s.toIndex }

/-- `run_once`, after the lock is taken. -/
def sync (mode : SyncMode) (w : Worktree) : Command SqliteError Store Pass1Output := do
  let diff ← Command.query fun s => .ok (scanDiff tools mode w s.toIndex)
  commit fun s => .ok (s.scan tools mode w)
  let (nothing, reresolve) ← Command.query fun s =>
    .ok (upToDate diff s.toIndex, reresolveFor mode diff s.toIndex)
  if nothing then Command.answer ⟨[], [], []⟩
  else do
    let out ← pass1 tools other w diff
    commit fun s => .ok { s with
      toIndex := Pass2.run w.packages (Pass1.refs tools w diff) reresolve s.toIndex }
    Command.answer out

end Store

/-- How one sync of a worktree may go. -/
inductive StoreStep where
  /-- It returns, with a report or an error. -/
  | run (mode : SyncMode) (w : Worktree)
  /-- Its observer cancels it. -/
  | cancel (mode : SyncMode) (w : Worktree) (reached committed : Nat)
  | stopInScan (mode : SyncMode) (w : Worktree) (reached : List Text)
  /-- It stops after some of the file transactions. -/
  | stopInFiles (mode : SyncMode) (w : Worktree) (committed : Nat)
  | stopAfterRebind (mode : SyncMode) (w : Worktree)
  /-- It stops before pass 2 commits. -/
  | stopAfterPass1 (mode : SyncMode) (w : Worktree)

namespace Store

/-- What runs after the scan, if there is something to write. -/
def afterScan (s : Store) (mode : SyncMode) (w : Worktree) (body : Diff → Store → Store) : Store :=
  let diff := scanDiff tools mode w s.toIndex
  let scanned := s.scan tools mode w
  if upToDate diff scanned.toIndex then scanned else body diff scanned

/-- The state a step leads to. -/
def next (s : Store) : StoreStep → Store
  | .run mode w => (sync tools other mode w s).2
  | .cancel mode w reached committed => s.afterScan tools mode w fun diff t =>
    (cancelledPass1 tools other w diff reached committed t).2
  | .stopInScan mode w reached => { s with toIndex := stoppedScan tools mode w reached s.toIndex }
  | .stopInFiles mode w committed => s.afterScan tools mode w fun diff t =>
    (fileTransactions (diff.deleted.take committed)
      ((writtenFiles tools other w diff).take (committed - diff.deleted.length)) t).2
  | .stopAfterRebind mode w => s.afterScan tools mode w fun diff t =>
    (rebindUnresolvedCommands tools other w (firstReport tools other w diff)
      (fileTransactions diff.deleted (writtenFiles tools other w diff) t).2).2
  | .stopAfterPass1 mode w => s.afterScan tools mode w fun diff t => (pass1 tools other w diff t).2

end Store

/-- Syncs of a database that starts out freshly created. -/
def storeSystem : TransitionSystem Store StoreStep where
  init s := s = .empty
  step s l t := t = s.next tools other l

namespace Store

variable {tools other} {mode : SyncMode} {w : Worktree} {s t : Store}

variable {touch : FileRow → FileRow}

omit [CharTables] in
theorem Keys.map_files (keys : s.Keys) (path : ∀ row, (touch row).path = row.path) :
    Keys { s with files := s.files.map touch } where
  files := by
    have same : FileRow.path ∘ touch = FileRow.path := funext path
    rw [List.map_map, same]
    exact keys.files
  symbols := keys.symbols
  commands := keys.commands
  handlers := keys.handlers
  symbolsFts := keys.symbolsFts
  stringsFts := keys.stringsFts
  configsFts := keys.configsFts

omit [CharTables] in
theorem Keys.scan (keys : s.Keys) : (s.scan tools mode w).Keys :=
  keys.map_files fun row => touchedRow_path tools mode w s.toIndex row

omit [CharTables] in
theorem Keys.stoppedScan (keys : s.Keys) (reached : List Text) :
    Keys { s with toIndex := stoppedScan tools mode w reached s.toIndex } :=
  keys.map_files fun row => by
    split
    · exact touchedRow_path tools mode w s.toIndex row
    · rfl

omit [CharTables] in
theorem of_upToDate {diff : Diff} {idx : Index} (nothing : upToDate diff idx = true) :
    diff.deleted = [] ∧ Pass1.changedFiles diff = [] := by
  simp only [upToDate, Diff.hasChanges, Bool.not_not, Bool.and_eq_true, List.isEmpty_iff] at nothing
  obtain ⟨⟨⟨modified, new⟩, deleted⟩, -⟩ := nothing
  refine ⟨deleted, List.eq_nil_iff_forall_not_mem.mpr fun path mem => ?_⟩
  rw [mem_changedFiles, modified, new] at mem
  simp at mem

variable (other mode w) in
/-- How a sync of a database goes, when its tables keep their constraints. -/
theorem sync_outcome (keys : s.Keys) :
    let diff := scanDiff tools mode w s.toIndex
    let files := writtenFiles tools other w diff
    let out := firstReport tools other w diff
    (upToDate diff (s.scan tools mode w).toIndex = true ∧
        sync tools other mode w s = (.ok ⟨[], [], []⟩, s.scan tools mode w)) ∨
      (upToDate diff (s.scan tools mode w).toIndex = false ∧
        ∃ p, Cleared (s.scan tools mode w) (touched diff.deleted files) p ∧
          p.toIndex = Pass1.run tools w diff (s.scan tools mode w).toIndex ∧
          (((commandNames diff.deleted files s).Nodup ∧
              sync tools other mode w s = (.ok (lastReport tools other w out p),
                { finished tools other w files out p with
                  toIndex := OrbitGraph.Sync.sync tools mode w s.toIndex })) ∨
            (¬ (commandNames diff.deleted files s).Nodup ∧
              ∃ e, sync tools other mode w s = (.error e, rebound tools other w out p)))) := by
  intro diff files out
  have start : sync tools other mode w s =
      (if upToDate diff (s.scan tools mode w).toIndex = true then Command.answer ⟨[], [], []⟩
        else do
          let out ← pass1 tools other w diff
          commit fun t => .ok { t with
            toIndex := Pass2.run w.packages (Pass1.refs tools w diff)
              (reresolveFor mode diff (s.scan tools mode w).toIndex) t.toIndex }
          Command.answer out : Command SqliteError Store Pass1Output) (s.scan tools mode w) := rfl
  cases busy : upToDate diff (s.scan tools mode w).toIndex with
  | true => exact .inl ⟨rfl, by rw [start, if_pos busy]; rfl⟩
  | false =>
    rw [if_neg (by simp [busy])] at start
    obtain ⟨p, cleared, index, outcome⟩ := pass1_outcome tools other w diff
      (keys.scan : (s.scan tools mode w).Keys)
    refine .inr ⟨rfl, p, cleared, index, outcome.imp (fun ⟨nodup, ran⟩ => ⟨nodup, ?_⟩)
      fun ⟨clash, e, ran⟩ => ⟨clash, e, ?_⟩⟩
    · have after : Pass2.run w.packages (Pass1.refs tools w diff)
          (reresolveFor mode diff (s.scan tools mode w).toIndex)
          (finished tools other w files out p).toIndex = OrbitGraph.Sync.sync tools mode w s.toIndex := by
        have same : (finished tools other w files out p).toIndex =
            Pass1.run tools w diff (s.scan tools mode w).toIndex := (rebind_keeps _ p).1.trans index
        have wrote : ¬ upToDate (scanDiff tools mode w s.toIndex) (scanned tools mode w s.toIndex) = true :=
          fun nothing => Bool.false_ne_true (busy.symm.trans nothing)
        rw [same, OrbitGraph.Sync.sync, write, if_neg wrote]
        rfl
      rw [start, Command.andThen_of_ok ran, ← after]
      rfl
    · rw [start, Command.andThen_of_error ran]

omit [CharTables] in
theorem uniqueSymbolIdForQualified_mem {qualified : Text} {id : Nat}
    (found : s.uniqueSymbolIdForQualified qualified = some id) : id ∈ s.symbols.map SymbolRow.id := by
  unfold uniqueSymbolIdForQualified at found
  split at found
  next row only =>
    obtain rfl := Option.some.inj found
    have mem : row ∈ s.symbols.filter fun row => row.qualified = qualified := by simp [only]
    exact List.mem_map_of_mem (List.mem_filter.mp mem).1
  next => cases found

omit [CharTables] in
theorem resolvedHandlerSymbol_mem {reported : Option Text} {id : Nat}
    (found : s.resolvedHandlerSymbol reported = some id) : id ∈ s.symbols.map SymbolRow.id := by
  obtain ⟨qualified, _, found⟩ := Option.bind_eq_some_iff.mp found
  exact uniqueSymbolIdForQualified_mem found

omit [CharTables] in
theorem Keys.rebindCommand (keys : s.Keys) (raw : RawCommand) : (rebindCommand s raw).Keys := by
  have names := map_name_of_unbound (rebindCommand_unbound s raw)
  unfold Store.rebindCommand at names ⊢
  split
  next => exact keys
  next handler found =>
    simp only [found] at names
    refine ⟨keys.files, keys.symbols, names ▸ keys.commands, fun row mem bound eq => ?_, keys.symbolsFts,
      keys.stringsFts, keys.configsFts⟩
    obtain ⟨old, stored, rfl⟩ := List.mem_map.mp mem
    split at eq
    · rw [← Option.some.inj eq]
      exact resolvedHandlerSymbol_mem found
    · exact keys.handlers old stored bound eq

omit [CharTables] in
theorem Keys.rebind (raws : List RawCommand) (keys : s.Keys) : (raws.foldl Store.rebindCommand s).Keys := by
  induction raws generalizing s with
  | nil => exact keys
  | cons raw rest ih => exact ih (keys.rebindCommand raw)

section Pass1

variable {deleted : List Text} {files : List StoredFile} {out : Pass1Output} {p : Store}

omit [CharTables] in
theorem Cleared.finished_keys (cleared : Cleared s (touched deleted files) p)
    (nodup : (commandNames deleted files s).Nodup) : (finished tools other w files out p).Keys := by
  have keys : (rebound tools other w out p).Keys := cleared.keys.rebind _
  refine ⟨keys.files, keys.symbols, ?_, fun row mem handler bound => ?_, keys.symbolsFts, keys.stringsFts,
    keys.configsFts⟩
  · rw [cleared.names tools other w out]
    exact nodup
  · rcases List.mem_append.mp mem with mem | mem
    · exact keys.handlers row mem handler bound
    · obtain ⟨command, _, rfl⟩ := List.mem_map.mp mem
      rw [show (finished tools other w files out p).symbols = p.symbols from
        congrArg Index.symbols (rebind_keeps _ p).1]
      exact resolvedHandlerSymbol_mem bound

omit [CharTables] in
theorem Keys.writeAll (keys : s.Keys) (deleted : List Text) (files : List StoredFile)
    (out : Pass1Output) : (writeAll tools other w deleted files out s).2.Keys := by
  obtain ⟨p, cleared, -, ⟨nodup, ran⟩ | ⟨-, e, ran⟩⟩ := writeAll_outcome tools other w out keys deleted files
  · rw [ran]
    exact cleared.finished_keys nodup
  · rw [ran]
    exact cleared.keys.rebind _

end Pass1

theorem pass2_keeps (packages : PackageFiles) (refs : List FileRefs) (reresolve : Reresolve) (idx : Index) :
    (Pass2.run packages refs reresolve idx).files.map FileRow.path = idx.files.map FileRow.path ∧
      (Pass2.run packages refs reresolve idx).symbols = idx.symbols := by
  have paths : ∀ (R : Resolver) (refs : List FileRefs) (idx : Index),
      (refs.foldl (Pass2.rewriteFile R) idx).files.map FileRow.path = idx.files.map FileRow.path := by
    intro R refs
    induction refs with
    | nil => exact fun _ => rfl
    | cons file rest ih =>
      intro idx
      rw [List.foldl_cons, ih, Pass2.rewriteFile, List.map_map]
      refine List.map_congr_left fun row _ => ?_
      dsimp only [Function.comp, Pass2.markCurrent]
      split <;> rfl
  exact ⟨paths _ refs idx, (pass2_rows packages refs reresolve idx).1⟩

omit [CharTables] in
theorem Keys.withIndex (keys : t.Keys) {idx : Index} (files : idx.files.map FileRow.path = t.files.map FileRow.path)
    (symbols : idx.symbols = t.symbols) : Keys { t with toIndex := idx } where
  files := files ▸ keys.files
  symbols := symbols ▸ keys.symbols
  commands := keys.commands
  handlers := symbols ▸ keys.handlers
  symbolsFts := symbols ▸ keys.symbolsFts
  stringsFts := keys.stringsFts
  configsFts := keys.configsFts

theorem sync_of_busy {idx : Index} (busy : upToDate (scanDiff tools mode w idx) (scanned tools mode w idx) = false) :
    OrbitGraph.Sync.sync tools mode w idx = Pass2.run w.packages (Pass1.refs tools w (scanDiff tools mode w idx))
        (reresolveFor mode (scanDiff tools mode w idx) (scanned tools mode w idx))
        (Pass1.run tools w (scanDiff tools mode w idx) (scanned tools mode w idx)) := by
  rw [OrbitGraph.Sync.sync, write, if_neg (by simp [busy])]

/-- The constraints after a whole sync. -/
theorem Cleared.synced_keys {p : Store}
    (busy : upToDate (scanDiff tools mode w s.toIndex) (scanned tools mode w s.toIndex) = false)
    (cleared : Cleared (s.scan tools mode w) (touched (scanDiff tools mode w s.toIndex).deleted
      (writtenFiles tools other w (scanDiff tools mode w s.toIndex))) p)
    (index : p.toIndex = Pass1.run tools w (scanDiff tools mode w s.toIndex) (s.scan tools mode w).toIndex)
    (nodup : (commandNames (scanDiff tools mode w s.toIndex).deleted
      (writtenFiles tools other w (scanDiff tools mode w s.toIndex)) s).Nodup) (out : Pass1Output) :
    Keys { finished tools other w (writtenFiles tools other w (scanDiff tools mode w s.toIndex))
      out p with toIndex := OrbitGraph.Sync.sync tools mode w s.toIndex } := by
  have same : (finished tools other w (writtenFiles tools other w (scanDiff tools mode w s.toIndex))
      out p).toIndex = Pass1.run tools w (scanDiff tools mode w s.toIndex) (scanned tools mode w s.toIndex) :=
    (rebind_keeps _ p).1.trans index
  refine (cleared.finished_keys nodup).withIndex ?_ ?_
  · rw [same, sync_of_busy busy]
    exact (pass2_keeps ..).1
  · rw [same, sync_of_busy busy]
    exact (pass2_keeps ..).2

omit [CharTables] in
theorem Keys.fileTransactions (keys : s.Keys) (deleted : List Text) (files : List StoredFile) :
    (fileTransactions deleted files s).2.Keys := by
  obtain ⟨p, ran, cleared, -⟩ := fileTransactions_ok keys deleted files
  rw [ran]
  exact cleared.keys

omit [CharTables] in
theorem Keys.afterScan (keys : s.Keys) {body : Diff → Store → Store}
    (keeps : ∀ diff (t : Store), t.Keys → (body diff t).Keys) : (s.afterScan tools mode w body).Keys := by
  unfold Store.afterScan
  dsimp only
  split
  · exact keys.scan
  · exact keeps _ _ keys.scan

/-- The tables keep their constraints, however the syncs go. -/
theorem keys_inductive : (storeSystem tools other).Inductive Store.Keys where
  init s start := by
    rw [show s = .empty from start]
    exact .empty
  step s l t keys step := by
    obtain rfl : t = s.next tools other l := step
    cases l with
    | run mode w =>
      rcases sync_outcome other mode w keys with
        ⟨-, ran⟩ | ⟨busy, p, cleared, index, ⟨nodup, ran⟩ | ⟨-, e, ran⟩⟩
      · rw [next, ran]
        exact keys.scan
      · rw [next, ran]
        exact cleared.synced_keys busy index nodup _
      · rw [next, ran]
        exact cleared.keys.rebind _
    | cancel mode w reached committed | stopAfterPass1 mode w => exact keys.afterScan fun _ _ h => h.writeAll _ _ _
    | stopInScan mode w reached => exact keys.stoppedScan reached
    | stopInFiles mode w committed => exact keys.afterScan fun _ _ h => h.fileTransactions _ _
    | stopAfterRebind mode w => exact keys.afterScan fun _ _ h => (h.fileTransactions _ _).rebind _

end Store

end OrbitGraph.Sync
