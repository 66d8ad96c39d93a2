import OrbitGraph.Sync.Inserts

/-!
What content can make a sync fail.

Of all inserts of pass 1 only those of the commands can violate a constraint:
`commands.name` is one key for all files. A pass is complete exactly where the
commands of the files it writes, and of those it keeps, have different names.
-/

namespace OrbitGraph.Sync

open Lib

def CommandRow.unbound (row : CommandRow) : CommandRow := { row with handlerSymbol := none }

/-- The row as the extractor yielded it. -/
def CommandRow.raw (row : CommandRow) : RawCommand := ⟨row.name, row.spanStart, row.reported⟩

theorem CommandRow.clear_unbound (symbols : List Nat) (row : CommandRow) :
    (row.clear symbols).unbound = row.unbound := by
  unfold clear
  split <;> rfl

namespace Store

variable {s t : Store}

/-! ### Rebinding and inserting -/

theorem rebindCommand_toIndex (s : Store) (raw : RawCommand) : (rebindCommand s raw).toIndex = s.toIndex := by
  unfold rebindCommand
  split <;> rfl

theorem rebindCommand_unbound (s : Store) (raw : RawCommand) :
    (rebindCommand s raw).commands.map CommandRow.unbound = s.commands.map CommandRow.unbound := by
  unfold rebindCommand
  split
  · rfl
  · rw [List.map_map]
    refine List.map_congr_left fun row _ => ?_
    dsimp only [Function.comp]
    split <;> rfl

theorem rebind_keeps (raws : List RawCommand) (s : Store) : (raws.foldl rebindCommand s).toIndex = s.toIndex ∧
      (raws.foldl rebindCommand s).commands.map CommandRow.unbound = s.commands.map CommandRow.unbound := by
  induction raws generalizing s with
  | nil => exact ⟨rfl, rfl⟩
  | cons raw rest ih =>
    obtain ⟨index, commands⟩ := ih (rebindCommand s raw)
    exact ⟨index.trans (rebindCommand_toIndex s raw), commands.trans (rebindCommand_unbound s raw)⟩

def commandRows (s : Store) (commands : List (Text × RawCommand)) : List CommandRow :=
  commands.map fun command => s.commandRow command.1 command.2

theorem resolvedHandlerSymbol_congr (same : t.symbols = s.symbols) :
    t.resolvedHandlerSymbol = s.resolvedHandlerSymbol := by
  funext reported
  have unique : t.uniqueSymbolIdForQualified = s.uniqueSymbolIdForQualified := by
    funext qualified
    simp only [uniqueSymbolIdForQualified, same]
  simp only [resolvedHandlerSymbol, unique]

theorem commandRow_congr (same : t.toIndex = s.toIndex) (path : Text) (raw : RawCommand) :
    t.commandRow path raw = s.commandRow path raw := by
  simp only [commandRow, resolvedHandlerSymbol_congr (congrArg Index.symbols same)]

theorem insertCommands_eq_ok {commands : List (Text × RawCommand)}
    (distinct : (s.commands.map CommandRow.name).Nodup) : commands.foldlM insertCommand s = .ok t ↔
      ((s.commands ++ s.commandRows commands).map CommandRow.name).Nodup ∧
        t = { s with commands := s.commands ++ s.commandRows commands } := by
  have inserted : ∀ u : Store, u.toIndex = s.toIndex → commands.foldlM insertCommand u =
      ((s.commandRows commands).foldlM (insertUnique CommandRow.name (notUnique "commands.name"))
        u.commands).map fun commands => { u with commands } := by
    unfold commandRows
    induction commands with
    | nil => exact fun u _ => rfl
    | cons command rest ih =>
      intro u same
      rw [List.map_cons, List.foldlM_cons, List.foldlM_cons, insertCommand, commandRow_congr same]
      cases insertUnique CommandRow.name (notUnique "commands.name") u.commands
          (s.commandRow command.1 command.2) with
      | error e => rfl
      | ok commands => exact ih { u with commands } same
  rw [inserted s rfl]
  constructor
  · intro run
    obtain ⟨rows, inserts, rfl⟩ := map_eq_ok.mp run
    obtain ⟨nodup, rfl⟩ := (insertUnique_all_eq_ok distinct).mp inserts
    exact ⟨nodup, rfl⟩
  · rintro ⟨nodup, rfl⟩
    exact map_eq_ok.mpr ⟨_, (insertUnique_all_eq_ok distinct).mpr ⟨nodup, rfl⟩, rfl⟩

theorem map_name_of_unbound {xs ys : List CommandRow} (same : xs.map CommandRow.unbound = ys.map CommandRow.unbound) :
    xs.map CommandRow.name = ys.map CommandRow.name := by
  have name : CommandRow.name = CommandRow.name ∘ CommandRow.unbound := rfl
  rw [name, ← List.map_map, same, List.map_map]

/-! ### A pass -/

/-- The names of the commands of the files that are kept, then of those that are written. -/
def commandNames (deleted : List Text) (files : List StoredFile) (s : Store) : List Text :=
  (s.commands.filter fun row => row.filePath ∉ touched deleted files).map CommandRow.name ++
    (commandsIn files).map fun command => command.2.name

section Pass1

variable (tools : Tools) (other : OtherExtractor) (w : Worktree) (files : List StoredFile)
  (out : Pass1Output) (p : Store)

/-- The files that are extracted again for the command rows without a handler. -/
def declaringFiles : List StoredFile := (extractChangedFiles tools other w (p.unresolvedFiles out)).1

/-- The store after `rebind_unresolved_commands`. -/
def rebound : Store :=
  ((declaringFiles tools other w out p).flatMap fun file => file.other.commands).foldl rebindCommand p

/-- The store after a complete pass. -/
def finished : Store :=
  { rebound tools other w out p with
    commands := (rebound tools other w out p).commands ++ p.commandRows (commandsIn files) }

def lastReport : Pass1Output := out.report (extractChangedFiles tools other w (p.unresolvedFiles out)).2

theorem rebindUnresolvedCommands_eq : rebindUnresolvedCommands tools other w out p =
      (.ok (extractChangedFiles tools other w (p.unresolvedFiles out)).2, rebound tools other w out p) := rfl

variable {p files}

variable {deleted : List Text}

theorem Cleared.names (cleared : Cleared s (touched deleted files) p) :
    (finished tools other w files out p).commands.map CommandRow.name = commandNames deleted files s := by
  obtain ⟨_, same⟩ := rebind_keeps ((declaringFiles tools other w out p).flatMap fun file => file.other.commands) p
  rw [finished, List.map_append, rebound, map_name_of_unbound same, cleared.commands, List.map_map,
    commandRows, List.map_map, commandNames]
  congr 1
  exact List.map_congr_left fun row _ => row.clear_name _

/-- A pass is complete if the commands that it keeps and inserts have different names, and fails
at the inserts of the commands otherwise. -/
theorem writeAll_outcome (keys : s.Keys) (deleted : List Text) (files : List StoredFile) :
    ∃ p, Cleared s (touched deleted files) p ∧ p.toIndex = Pass1.runTransactions
        (deleted.map .delete ++ (files.map StoredFile.toSourceFile).map .write) s.toIndex ∧
      (((commandNames deleted files s).Nodup ∧ writeAll tools other w deleted files out s =
            (.ok (lastReport tools other w out p), finished tools other w files out p)) ∨
        (¬ (commandNames deleted files s).Nodup ∧
          ∃ e, writeAll tools other w deleted files out s = (.error e, rebound tools other w out p))) := by
  obtain ⟨p, transactions, cleared, index⟩ := fileTransactions_ok keys deleted files
  refine ⟨p, cleared, index, ?_⟩
  have eq : writeAll tools other w deleted files out s =
      match (commandsIn files).foldlM insertCommand (rebound tools other w out p) with
      | .ok t => (.ok (lastReport tools other w out p), t)
      | .error e => (.error e, rebound tools other w out p) := by
    rw [writeAll, Command.andThen_of_ok transactions,
      Command.andThen_of_ok (rebindUnresolvedCommands_eq tools other w out p)]
    simp only [insertCommandsTransaction, bind, Command.andThen, commit, Command.transaction, Except.map]
    cases (commandsIn files).foldlM insertCommand _ <;> rfl
  obtain ⟨sameIndex, sameRows⟩ := rebind_keeps
    ((declaringFiles tools other w out p).flatMap fun file => file.other.commands) p
  have rows : (rebound tools other w out p).commandRows (commandsIn files) = p.commandRows (commandsIn files) :=
    List.map_congr_left fun command _ => commandRow_congr sameIndex _ _
  have names := cleared.names tools other w out
  have distinct : ((rebound tools other w out p).commands.map CommandRow.name).Nodup := by
    rw [rebound, map_name_of_unbound sameRows]
    exact cleared.keys.commands
  have inserts : ∀ t, (commandsIn files).foldlM insertCommand (rebound tools other w out p) = .ok t ↔
      (commandNames deleted files s).Nodup ∧ t = finished tools other w files out p := by
    intro t
    rw [insertCommands_eq_ok distinct, rows, ← names]
    rfl
  by_cases nodup : (commandNames deleted files s).Nodup
  · exact .inl ⟨nodup, by rw [eq, (inserts _).mpr ⟨nodup, rfl⟩]⟩
  · refine .inr ⟨nodup, ?_⟩
    cases run : (commandsIn files).foldlM insertCommand (rebound tools other w out p) with
    | ok t => exact absurd ((inserts t).mp run).1 nodup
    | error e => exact ⟨e, by rw [eq, run]⟩

variable (diff : Diff)

theorem pass1_outcome (keys : s.Keys) :
    let files := writtenFiles tools other w diff
    let out := firstReport tools other w diff
    ∃ p, Cleared s (touched diff.deleted files) p ∧ p.toIndex = Pass1.run tools w diff s.toIndex ∧
      (((commandNames diff.deleted files s).Nodup ∧ pass1 tools other w diff s =
            (.ok (lastReport tools other w out p), finished tools other w files out p)) ∨
        (¬ (commandNames diff.deleted files s).Nodup ∧
          ∃ e, pass1 tools other w diff s = (.error e, rebound tools other w out p))) := by
  intro files out
  obtain ⟨p, cleared, index, outcome⟩ := writeAll_outcome tools other w out keys diff.deleted files
  rw [writtenFiles_sources] at index
  exact ⟨p, cleared, index, outcome⟩

/-! ### What a pass stores -/

variable {tools other w diff out}

theorem extractFile_filePath {path : Text} {file : StoredFile}
    (run : extractFile tools other w path = .ok file) : file.filePath = path := by
  unfold extractFile at run
  cases source : extractSource tools w path with
  | error e => simp [source, Except.map] at run
  | ok found =>
    simp only [source, Except.map, Except.ok.injEq] at run
    subst run
    obtain ⟨-, -, -, -, -, -, named, -⟩ := extractSource_eq_ok source
    exact named

theorem toOption_eq_some {ε α : Type} {x : Except ε α} {a : α} : x.toOption = some a ↔ x = .ok a := by
  cases x <;> simp [Except.toOption]

theorem mem_writtenFiles {file : StoredFile} : file ∈ writtenFiles tools other w diff ↔
      file.filePath ∈ Pass1.changedFiles diff ∧ extractFile tools other w file.filePath = .ok file := by
  simp only [writtenFiles, extractChangedFiles, List.mem_filterMap, toOption_eq_some]
  constructor
  · rintro ⟨path, mem, run⟩
    obtain rfl := extractFile_filePath run
    exact ⟨mem, run⟩
  · rintro ⟨mem, run⟩
    exact ⟨file.filePath, mem, run⟩

theorem writtenFiles_nodup : ((writtenFiles tools other w diff).map fun file => file.filePath).Nodup := by
  refine (changedFiles_nodup diff).sublist (map_filterMap_keyed_sublist (fun path file run => ?_) _)
  exact extractFile_filePath (toOption_eq_some.mp run)

theorem commandsIn_filter {files : List StoredFile} (distinct : (files.map fun file => file.filePath).Nodup)
    {file : StoredFile} (mem : file ∈ files) : (commandsIn files).filter (fun command => command.1 = file.filePath) =
      file.other.commands.map fun raw => (file.filePath, raw) := by
  have own : ∀ other : StoredFile, (other.other.commands.map fun raw => (other.filePath, raw)).filter
      (fun command => command.1 = file.filePath) =
        if other.filePath = file.filePath then other.other.commands.map fun raw => (other.filePath, raw)
        else [] := by
    intro other
    rw [List.filter_map]
    split
    next same => simp [Function.comp_def, same]
    next different => simp [Function.comp_def, different]
  unfold commandsIn
  induction files with
  | nil => cases mem
  | cons first rest ih =>
    obtain ⟨fresh, distinct⟩ := List.nodup_cons.mp distinct
    rw [List.flatMap_cons, List.filter_append, own]
    rcases List.mem_cons.mp mem with rfl | mem
    · have none : ((rest.flatMap fun file => file.other.commands.map fun raw => (file.filePath, raw)).filter
          fun command => command.1 = file.filePath) = [] := by
        refine List.filter_eq_nil_iff.mpr fun command mem same => fresh ?_
        obtain ⟨other, stored, mem⟩ := List.mem_flatMap.mp mem
        obtain ⟨raw, _, rfl⟩ := List.mem_map.mp mem
        exact List.mem_map.mpr ⟨other, stored, of_decide_eq_true same⟩
      rw [none, if_pos rfl, List.append_nil]
    · have different : first.filePath ≠ file.filePath := by
        intro same
        exact fresh (List.mem_map.mpr ⟨file, mem, same.symm⟩)
      rw [if_neg different, List.nil_append, ih distinct mem]

theorem rebound_untouched {done : List Text} (cleared : Cleared s done p)
    {row : CommandRow} (mem : row ∈ (rebound tools other w out p).commands) : row.filePath ∉ done := by
  obtain ⟨_, same⟩ := rebind_keeps
    ((declaringFiles tools other w out p).flatMap fun file => file.other.commands) p
  have stored : row.unbound ∈ p.commands.map CommandRow.unbound := by
    rw [← same]
    exact List.mem_map_of_mem mem
  obtain ⟨kept, mem, eq⟩ := List.mem_map.mp stored
  rw [cleared.commands] at mem
  obtain ⟨old, selected, rfl⟩ := List.mem_map.mp mem
  have path : row.filePath = old.filePath := by
    rw [show row.filePath = row.unbound.filePath from rfl, ← eq, CommandRow.clear_unbound]
    rfl
  rw [path]
  exact of_decide_eq_true (List.mem_filter.mp selected).2

variable (tools other w out) in
theorem finished_commandsOf (cleared : Cleared s (touched deleted files) p)
    (distinct : (files.map fun file => file.filePath).Nodup) {file : StoredFile} (mem : file ∈ files) :
    (finished tools other w files out p).commandsOf file.filePath =
      file.other.commands.map (p.commandRow file.filePath) := by
  have kept : (rebound tools other w out p).commands.filter
      (fun row => row.filePath = file.filePath) = [] := by
    refine List.filter_eq_nil_iff.mpr fun row stored own => rebound_untouched cleared stored ?_
    rw [of_decide_eq_true own]
    exact List.mem_append_right _ (List.mem_map_of_mem mem)
  have own : ((commandsIn files).filter fun command =>
      (p.commandRow command.1 command.2).filePath = file.filePath) =
        file.other.commands.map fun raw => (file.filePath, raw) :=
    commandsIn_filter distinct mem
  have through : ((fun row : CommandRow => decide (row.filePath = file.filePath)) ∘
      fun command : Text × RawCommand => p.commandRow command.1 command.2) =
        fun command => decide ((p.commandRow command.1 command.2).filePath = file.filePath) := rfl
  rw [commandsOf, finished, List.filter_append, kept, List.nil_append, commandRows, List.filter_map, through, own,
    List.map_map]
  rfl

theorem mem_report {out : Pass1Output} {errors : List (Text × ExtractFileError)} {path : Text}
    {error : ExtractFileError} (mem : (path, error) ∈ errors) :
    path ∈ (out.report errors).failed.map SyncFailure.path ∨ path ∈ (out.report errors).oversize := by
  by_cases oversize : error.kind = "oversize"
  · exact .inr (List.mem_append_right _ (List.mem_filterMap.mpr ⟨_, mem, if_pos oversize⟩))
  · refine .inl (List.mem_map.mpr ⟨error.intoFailure path, ?_, rfl⟩)
    exact List.mem_append_right _ (List.mem_filterMap.mpr ⟨_, mem, if_neg oversize⟩)

end Pass1

end Store

end OrbitGraph.Sync
