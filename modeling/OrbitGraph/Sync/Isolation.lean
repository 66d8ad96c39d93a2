import OrbitGraph.Sync.Runs
import OrbitGraph.Sync.StoreRun

/-!
What one sync does with the changed files: it stores each as it was extracted, or
reports why it could not be extracted.

That fails at one place, the inserts of the commands. A sync isolates what it
cannot store exactly if there is nothing to write, or if the commands of the files
that it keeps and of those that it writes have different names.
-/

namespace OrbitGraph.Sync

open Lib

namespace Store

section

variable [CharTables]

structure Stores (t : Store) (file : StoredFile) : Prop where
  state : t.fileState file.filePath = file.toSourceFile.currentState
  commands : (t.commandsOf file.filePath).map CommandRow.raw = file.other.commands

/-- Every changed file is stored, or has an entry in the report. -/
def Isolates (tools : Tools) (other : OtherExtractor) (w : Worktree) (diff : Diff) (out : Pass1Output)
    (t : Store) : Prop :=
  ∀ path ∈ Pass1.changedFiles diff,
    (∃ file, extractFile tools other w path = .ok file ∧ path ∈ out.written ∧ t.Stores file) ∨
      path ∈ out.failed.map SyncFailure.path ∨ path ∈ out.oversize

variable {tools : Tools} {other : OtherExtractor} {mode : SyncMode} {w : Worktree} {s : Store}

omit [CharTables] in
theorem reported_of_error {diff : Diff} {path : Text} {error : ExtractFileError}
    (changed : path ∈ Pass1.changedFiles diff) (run : extractFile tools other w path = .error error) (p : Store) :
    path ∈ (lastReport tools other w (firstReport tools other w diff) p).failed.map SyncFailure.path ∨
      path ∈ (lastReport tools other w (firstReport tools other w diff) p).oversize := by
  have failed : (path, error) ∈ (extractChangedFiles tools other w (Pass1.changedFiles diff)).2 :=
    List.mem_filterMap.mpr ⟨path, changed, by simp [run]⟩
  have reported : path ∈ (firstReport tools other w diff).failed.map SyncFailure.path ∨
      path ∈ (firstReport tools other w diff).oversize := mem_report failed
  rcases reported with mem | mem
  · refine .inl ?_
    rw [lastReport, Pass1Output.report, List.map_append]
    exact List.mem_append_left _ mem
  · exact .inr (List.mem_append_left _ mem)

/-- **Sync isolates what it cannot store** if and only if the commands that it keeps and writes have
different names, or nothing is to be written. -/
theorem sync_isolates (reach : (storeSystem tools other).Reachable s) :
    (∃ out, (sync tools other mode w s).1 = .ok out ∧
        Isolates tools other w (scanDiff tools mode w s.toIndex) out (sync tools other mode w s).2) ↔
      upToDate (scanDiff tools mode w s.toIndex) (scanned tools mode w s.toIndex) = true ∨
        (commandNames (scanDiff tools mode w s.toIndex).deleted
          (writtenFiles tools other w (scanDiff tools mode w s.toIndex)) s).Nodup := by
  rcases sync_outcome other mode w (reach.of_inductive keys_inductive) with
    ⟨nothing, ran⟩ | ⟨busy, p, cleared, index, ⟨nodup, ran⟩ | ⟨clash, e, ran⟩⟩
  · refine iff_of_true ⟨_, by rw [ran], fun path changed => ?_⟩ (.inl nothing)
    rw [(of_upToDate nothing).2] at changed
    exact absurd changed List.not_mem_nil
  · refine iff_of_true ⟨_, by rw [ran], fun path changed => ?_⟩ (.inr nodup)
    cases run : extractFile tools other w path with
    | error error => exact .inr (reported_of_error changed run p)
    | ok file =>
      obtain rfl := extractFile_filePath run
      have mem : file ∈ writtenFiles tools other w (scanDiff tools mode w s.toIndex) :=
        mem_writtenFiles.mpr ⟨changed, run⟩
      refine .inl ⟨file, rfl, List.mem_map_of_mem mem, ?_, ?_⟩
      · have source : file.toSourceFile ∈ Pass1.extractedFiles tools w (scanDiff tools mode w s.toIndex) := by
          rw [← writtenFiles_sources tools other]
          exact List.mem_map_of_mem mem
        rw [ran]
        show (OrbitGraph.Sync.sync tools mode w s.toIndex).fileState _ = _
        rw [sync_fileState, (Pass1.mem_extractedFiles tools w _).mp source]
      · rw [ran]
        refine (congrArg (List.map CommandRow.raw)
          (finished_commandsOf tools other w _ cleared writtenFiles_nodup mem)).trans ?_
        rw [List.map_map]
        exact List.map_id _
  · refine iff_of_false ?_ ?_
    · rintro ⟨out, ok, -⟩
      rw [ran] at ok
      cases ok
    · rintro (nothing | nodup)
      · exact Bool.false_ne_true (busy.symm.trans nothing)
      · exact clash nodup

end

namespace Sample

local instance : CharTables := CharTables.ascii

def declares : OtherExtractor
  | _, [7] => ⟨[⟨"task add", 0, none⟩], [], [], []⟩
  | _, [8] => ⟨[⟨"task list", 0, none⟩], [], [], []⟩
  | _, _ => .none

def worktree (a b : Bytes) : Worktree where
  files := [⟨"src/a.rs", 10, 1, .ok a⟩, ⟨"src/b.rs", 10, 1, .ok b⟩]
  unreadable := []
  packages := ⟨fun _ => none, fun _ => false⟩
  nodup := by
    simp only [List.map]
    decide

theorem empty_reachable : (storeSystem OrbitGraph.Sync.Sample.tools declares).Reachable .empty :=
  TransitionSystem.Reachable.of_init rfl

/-- Two commands with different names. -/
theorem sync_isolates_named :
    ∃ out, (sync OrbitGraph.Sync.Sample.tools declares .full (worktree [7] [8]) .empty).1 = .ok out ∧
      Isolates OrbitGraph.Sync.Sample.tools declares (worktree [7] [8])
        (scanDiff OrbitGraph.Sync.Sample.tools .full (worktree [7] [8]) Index.empty) out
        (sync OrbitGraph.Sync.Sample.tools declares .full (worktree [7] [8]) .empty).2 :=
  (sync_isolates empty_reachable).mpr (.inr (by decide +kernel))

/-- Two commands of one name: the sync of a fresh database fails, and so does the next one. -/
theorem sync_fails_on_names :
    (storeSystem OrbitGraph.Sync.Sample.tools declares).Reachable .empty ∧
      (sync OrbitGraph.Sync.Sample.tools declares .full (worktree [7] [7]) .empty).1 =
        .error (notUnique "commands.name") ∧
      (sync OrbitGraph.Sync.Sample.tools declares .auto (worktree [7] [7])
          (sync OrbitGraph.Sync.Sample.tools declares .full (worktree [7] [7]) .empty).2).1 =
        .error (notUnique "commands.name") :=
  ⟨empty_reachable, by decide +kernel, by decide +kernel⟩

end Sample

end Store

end OrbitGraph.Sync
