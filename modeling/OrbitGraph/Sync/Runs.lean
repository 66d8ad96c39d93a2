import OrbitGraph.Sync.Incremental

/-!
Runs of syncs: any number of them, each of a worktree of its own, that complete,
stop in their scan or stop before pass 2 commits.

A state is the index with the packages of the worktree that the last completed
sync resolved references in. A sound state is tracked and, unless a sync is
pending, fresh. Every step that meets its condition keeps a state sound; an
incremental sync of a sound state then stores what a full one would.
-/

namespace OrbitGraph.Sync

open Lib

section

variable [CharTables] (tools : Tools)

/-- The index, and the packages that its references were last resolved with. -/
structure SyncState where
  index : Index
  packages : PackageFiles

inductive SyncStep where
  | complete (mode : SyncMode) (w : Worktree)
  | stopInScan (mode : SyncMode) (w : Worktree) (reached : List Text)
  | stopInPass1 (mode : SyncMode) (w : Worktree) (committed : Nat)

def SyncState.next (s : SyncState) : SyncStep → SyncState
  | .complete mode w => ⟨sync tools mode w s.index, w.packages⟩
  | .stopInScan mode w reached => ⟨stoppedScan tools mode w reached s.index, s.packages⟩
  | .stopInPass1 mode w committed => ⟨interruptedSync tools mode w committed s.index, s.packages⟩

/-- Syncs of a database that starts out freshly created. -/
def syncSystem : TransitionSystem SyncState SyncStep where
  init s := s.index = Index.empty
  step s l t := t = s.next tools l

/-- What a step needs for the references to stay those of a full sync. A sync
that stops needs nothing. -/
def StepCondition (s : SyncState) : SyncStep → Prop
  | .complete mode w =>
    (mode = .auto → MetadataHonest tools w s.index) ∧
      KeepsUndisturbed tools mode s.packages w s.index
  | .stopInScan .. => True
  | .stopInPass1 .. => True

/-- The invariant of a run whose steps meet their condition. -/
structure SyncState.Sound (s : SyncState) : Prop where
  tracked : s.index.Tracked tools
  fresh : s.index.syncPending = false → Fresh s.packages s.index

variable {tools} {mode : SyncMode} {w : Worktree}

omit [CharTables] in
theorem runTransactions_pending (ts : List FileTransaction) (idx : Index) :
    (Pass1.runTransactions ts idx).syncPending = true := by
  have keeps : ∀ idx : Index, idx.syncPending = true →
      (ts.foldl FileTransaction.apply idx).syncPending = true := by
    induction ts with
    | nil => exact fun _ h => h
    | cons t rest ih =>
      intro idx h
      refine ih _ ?_
      cases t <;> exact h
  exact keeps _ rfl

theorem SyncState.Sound.next {s : SyncState} (h : s.Sound tools) (l : SyncStep)
    (condition : StepCondition tools s l) : (s.next tools l).Sound tools := by
  cases l with
  | complete mode w =>
    exact ⟨sync_tracked h.tracked, fun _ => sync_fresh h.tracked h.fresh condition.2⟩
  | stopInScan mode w reached =>
    refine ⟨stoppedScan_tracked h.tracked reached, fun settled row mem => ?_⟩
    simp only [SyncState.next, stoppedScan_resolver]
    exact h.fresh settled row mem
  | stopInPass1 mode w committed =>
    refine ⟨interruptedSync_tracked committed h.tracked, fun settled row mem => ?_⟩
    simp only [SyncState.next, interruptedSync] at settled mem ⊢
    split at settled
    · next nothing =>
        rw [if_pos nothing] at mem ⊢
        rw [scanned_resolver]
        exact h.fresh settled row mem
    · rw [runTransactions_pending] at settled
      cases settled

theorem sound_of_run {s₀ s : SyncState} {steps : List SyncStep} (start : s₀.index = Index.empty)
    (run : (syncSystem tools).Run s₀ steps s)
    (met : (syncSystem tools).Meets (StepCondition tools) s₀ steps) : s.Sound tools := by
  refine run.preserves_under (P := SyncState.Sound tools) (fun s l t h condition step => ?_) met
    ⟨?_, fun _ row mem => ?_⟩
  · rw [show t = s.next tools l from step]
    exact h.next l condition
  · rw [start]
    exact empty_tracked
  · rw [start] at mem
    cases mem

/-! ### Incremental against full -/

variable {idx : Index}

omit [CharTables] in
/-- With nothing for a full sync to write there is nothing for an incremental
one. -/
theorem upToDate_auto (h : upToDate (scanDiff tools .full w idx) (scanned tools .full w idx) = true) :
    upToDate (scanDiff tools .auto w idx) (scanned tools .auto w idx) = true := by
  have noneChanged : ∀ path, path ∉ Pass1.changedFiles (scanDiff tools .full w idx) ∧
      path ∉ (scanDiff tools .full w idx).deleted := by
    intro path
    simp only [upToDate, Diff.hasChanges, Bool.not_not, Bool.and_eq_true, List.isEmpty_iff] at h
    obtain ⟨⟨⟨modified, new⟩, deleted⟩, -⟩ := h
    rw [mem_changedFiles, modified, new, deleted]
    simp
  have unchanged : ∀ path, path ∉ Pass1.changedFiles (scanDiff tools .auto w idx) := by
    intro path changed
    obtain ⟨file, hFile, status⟩ := mem_changed.mp changed
    rcases auto_full_status tools idx file with same | ⟨_, -, -, kept⟩
    · rw [same] at status
      exact (noneChanged path).1 (mem_changed.mpr ⟨file, hFile, status⟩)
    · rcases kept with ⟨kept, -⟩ | ⟨kept, -⟩ <;> simp [kept] at status
  have pending : (scanned tools .full w idx).syncPending = false := by
    simp only [upToDate, Bool.and_eq_true] at h
    simpa using h.2
  have empty : ∀ paths : List Text, (∀ path, path ∉ paths) → paths.isEmpty = true := by
    intro paths none
    exact List.isEmpty_iff.mpr (List.eq_nil_iff_forall_not_mem.mpr none)
  simp only [upToDate, Diff.hasChanges, Bool.not_not, Bool.and_eq_true, Bool.not_eq_true']
  refine ⟨⟨⟨empty _ fun path mem => ?_, empty _ fun path mem => ?_⟩, empty _ fun path mem => ?_⟩, pending⟩
  · exact unchanged path (mem_changedFiles.mpr (.inl mem))
  · exact unchanged path (mem_changedFiles.mpr (.inr mem))
  · exact (noneChanged path).2 mem

variable {packages : PackageFiles}

theorem KeepsUndisturbed.full (undisturbed : KeepsUndisturbed tools .auto packages w idx) :
    KeepsUndisturbed tools .full packages w idx := by
  intro row kept
  unfold KeepsRef resolvedAgainst at kept
  unfold KeepsUndisturbed KeepsRef resolvedAgainst at undisturbed
  simp only at kept undisturbed
  unfold resolvedAgainst
  simp only
  cases busy : upToDate (scanDiff tools .full w idx) (scanned tools .full w idx) with
  | true =>
    have auto := upToDate_auto busy
    rw [if_pos busy] at kept
    have same := undisturbed row
    rw [if_pos auto, scanned_resolver] at same
    rw [if_pos rfl, scanned_resolver]
    exact same ⟨kept.1, .inl auto⟩
  | false =>
    rw [if_neg (by simp [busy]), busy] at kept
    obtain ⟨mem, h | unselected⟩ := kept
    · cases h
    · have untouched := (run_refs_untouched mem).2
      have notRewritten : row.fromFile ∉
          (Pass1.refs tools w (scanDiff tools .full w idx)).map FileRefs.filePath :=
        fun written => untouched (List.mem_append_right _ written)
      have all : reresolveFor .full (scanDiff tools .full w idx) (scanned tools .full w idx) =
          .all := by simp [reresolveFor]
      simp only [all, Pass2.selection, decide_eq_false notRewritten, Bool.not_false] at unselected
      cases unselected

theorem keepsUndisturbed_of_no_refs (none : idx.refs = []) : KeepsUndisturbed tools mode packages w idx := by
  intro row kept
  unfold KeepsRef resolvedAgainst at kept
  simp only at kept
  have stored : row ∈ idx.refs := by
    split at kept
    · exact kept.1
    · exact (run_refs_untouched kept.1).1
  rw [none] at stored
  cases stored

/-- An incremental sync of a sound state leaves what a full one would: every
file in the same state, and every reference resolved alike. -/
theorem SyncState.Sound.auto_eq_full {s : SyncState} (h : s.Sound tools)
    (condition : StepCondition tools s (.complete .auto w)) :
    SameFiles (sync tools .auto w s.index) (sync tools .full w s.index) ∧
      ∀ path, (sync tools .auto w s.index).refViews path = (sync tools .full w s.index).refViews path := by
  obtain ⟨honest, undisturbed⟩ := condition
  have same := auto_full_files h.tracked (honest rfl)
  refine ⟨same, fun path => ?_⟩
  exact same.refViews_eq (sync_tracked h.tracked).ids (sync_tracked h.tracked).ids
    (sync_fresh h.tracked h.fresh undisturbed) (sync_fresh h.tracked h.fresh undisturbed.full) path

/-- **Incremental sync equals full sync.** After any run whose steps meet their
condition, an incremental sync that meets it stores the references that a full
sync of the same worktree stores. -/
theorem incremental_eq_full {s₀ s : SyncState} {steps : List SyncStep}
    (start : (syncSystem tools).init s₀) (run : (syncSystem tools).Run s₀ steps s)
    (met : (syncSystem tools).Meets (StepCondition tools) s₀ steps)
    (condition : StepCondition tools s (.complete .auto w)) (path : Text) :
    (sync tools .auto w s.index).refViews path = (sync tools .full w s.index).refViews path :=
  ((sound_of_run start run met).auto_eq_full condition).2 path

end

namespace Sample

local instance : CharTables := CharTables.ascii

def extract (_ : Text) : Bytes → Except ExtractFileError ExtractedFile
  | [1] =>
    .ok ⟨[], [⟨"crate::b", some "bar", some "foo", some []⟩], []⟩
  | [2] => .ok ⟨[⟨"foo", "foo", "function", 0, 1⟩], [], []⟩
  | [3] => .ok ⟨[⟨"other", "other", "function", 0, 1⟩], [], []⟩
  | [4] =>
    .ok ⟨[], [], [⟨0, 1, "bar", some "crate::a::bar", "call", none, true⟩]⟩
  | [5] => .ok ⟨[], [], [⟨0, 1, "foo", none, "call", none, false⟩]⟩
  | [6] =>
    .ok ⟨[⟨"foo", "foo", "function", 0, 1⟩,
      ⟨"other", "other", "function", 2, 3⟩], [], []⟩
  | _ => .ok ⟨[], [], []⟩

def tools : Tools where
  hasher := ContentHasher.tagged
  extractors := ⟨fun _ => some "rust", extract⟩

def worktree (mtime : Nat) (content : Bytes) : Worktree where
  files :=
    [⟨"src/a.rs", 10, 1, .ok [1]⟩, ⟨"src/b.rs", mtime, 1, .ok content⟩,
      ⟨"src/c.rs", 10, 1, .ok [4]⟩]
  unreadable := []
  packages := ⟨fun _ => none, fun _ => false⟩
  nodup := by
    simp only [List.map]
    decide

def plainWorktree (mtime : Nat) (content : Bytes) : Worktree where
  files :=
    [⟨"src/b.rs", mtime, 1, .ok content⟩, ⟨"src/c.rs", mtime, 1, .ok [5]⟩]
  unreadable := []
  packages := ⟨fun _ => none, fun _ => false⟩
  nodup := by
    simp only [List.map]
    decide

def synced (w : Worktree) : SyncState :=
  SyncState.next tools ⟨Index.empty, w.packages⟩ (.complete .full w)

theorem synced_run (w : Worktree) : (syncSystem tools).Run ⟨Index.empty, w.packages⟩ [.complete .full w] (synced w) :=
  .snoc (.nil _) rfl

theorem synced_meets (w : Worktree) : (syncSystem tools).Meets (StepCondition tools)
    ⟨Index.empty, w.packages⟩ [.complete .full w] := by
  refine TransitionSystem.Meets.snoc .nil fun u run => ?_
  rw [← run.eq_of_nil]
  exact ⟨by simp, keepsUndisturbed_of_no_refs rfl⟩

/-- A definition added next to one that a reference elsewhere names. -/
theorem incremental_eq_full_plain :
    (sync tools .auto (plainWorktree 20 [6]) (synced (plainWorktree 10 [2])).index).refViews
        "src/c.rs" =
      (sync tools .full (plainWorktree 20 [6]) (synced (plainWorktree 10 [2])).index).refViews
        "src/c.rs" := by
  have start : (syncSystem tools).init ⟨Index.empty, (plainWorktree 10 [2]).packages⟩ := rfl
  refine incremental_eq_full start (synced_run _) (synced_meets _) ⟨fun _ => ?_, ?_⟩ _
  · have differs : ∀ file ∈ (plainWorktree 20 [6]).files,
        ∀ row ∈ (synced (plainWorktree 10 [2])).index.files, sameMetadata row file = false := by
      decide +kernel
    intro file mem row hRow same
    rw [differs file mem row (List.mem_of_find?_eq_some hRow)] at same
    cases same
  · have unqualified : ∀ row ∈ (resolvedAgainst tools .auto (plainWorktree 20 [6])
        (synced (plainWorktree 10 [2])).index).refs, row.raw.targetQualified = none := by
      decide +kernel
    intro row kept
    exact .of_unqualified (unqualified row kept.1)

/-- A reference through `pub use crate::b::foo as bar;` when `foo` is gone. -/
theorem incremental_ne_full :
    (syncSystem tools).Run ⟨Index.empty, (worktree 10 [2]).packages⟩
        [.complete .full (worktree 10 [2])] (synced (worktree 10 [2])) ∧
      (sync tools .auto (worktree 20 [3]) (synced (worktree 10 [2])).index).refViews
          "src/c.rs" ≠
        (sync tools .full (worktree 20 [3]) (synced (worktree 10 [2])).index).refViews
          "src/c.rs" :=
  ⟨synced_run _, by decide +kernel⟩

end Sample

end OrbitGraph.Sync
