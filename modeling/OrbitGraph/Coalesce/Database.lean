import OrbitGraph.Coalesce.Freshness
import OrbitGraph.Sync.Equivalence

/-!
Coalesced calls over the databases they synchronize.

The protocol runs beside one index for each database file. A run that succeeds
leaves in its database what a sync stores that read the worktree while the run
was past its scan's start, each file at a time of its own. A run that stops, or
someone else's sync, leaves its database in any state. What a call that returns
a report may rely on is what that sync read, and what it stored.
-/

namespace OrbitGraph.Coalesce

open Lib Sync

/-- What a sync reads of a worktree that is written meanwhile: `history n` is the
worktree after `n` writes. -/
structure ReadsBetween (history : Nat → Worktree) (first last : Nat) (w : Worktree) : Prop where
  file : ∀ path, ∃ n, first ≤ n ∧ n ≤ last ∧ w.file? path = (history n).file? path
  unreadable : ∃ n, first ≤ n ∧ n ≤ last ∧ w.unreadable = (history n).unreadable
  packages : ∃ n, first ≤ n ∧ n ≤ last ∧ w.packages = (history n).packages

theorem ReadsBetween.mono {history : Nat → Worktree} {first first' last : Nat} {w : Worktree}
    (h : ReadsBetween history first last w) (le : first' ≤ first) : ReadsBetween history first' last w where
  file path := (h.file path).imp fun _ read => ⟨le.trans read.1, read.2⟩
  unreadable := h.unreadable.imp fun _ read => ⟨le.trans read.1, read.2⟩
  packages := h.packages.imp fun _ read => ⟨le.trans read.1, read.2⟩

/-- The protocol, and the index of each database file. -/
structure Databases where
  protocol : State
  index : Nat → Index

section

variable [CharTables] (tools : Tools) (fileOf : Text → Nat) (history : Nat → Nat → Worktree)

inductive Databases.Step : Databases → Label → Databases → Prop where
  | commit {d c call id run start report p w} (step : Coalesce.Step fileOf d.protocol (.finish c (.ok report)) p)
      (hCall : d.protocol.calls c = some call) (phase : call.phase = .leading id .scanned)
      (hRun : d.protocol.runs id = some run) (hScan : run.scan = some start)
      (reads : ReadsBetween (history (fileOf call.path)) start.writes
        (d.protocol.writes (fileOf call.path)) w) :
      Databases.Step d (.finish c (.ok report))
        ⟨p, Function.update d.index (fileOf call.path)
          (sync tools run.mode w (d.index (fileOf call.path)))⟩
  | fail {d c call id error p index} (step : Coalesce.Step fileOf d.protocol (.finish c (.error error)) p)
      (hCall : d.protocol.calls c = some call) (phase : call.phase = .leading id .scanned) :
      Databases.Step d (.finish c (.error error))
        ⟨p, Function.update d.index (fileOf call.path) index⟩
  | panic {d c call id p index} (step : Coalesce.Step fileOf d.protocol (.panic c) p)
      (hCall : d.protocol.calls c = some call) (phase : call.phase = .leading id .scanned) :
      Databases.Step d (.panic c) ⟨p, Function.update d.index (fileOf call.path) index⟩
  | outside {d file p index} (step : Coalesce.Step fileOf d.protocol (.outsideUnlock file) p) :
      Databases.Step d (.outsideUnlock file) ⟨p, Function.update d.index file index⟩
  /-- A step that touches no database. -/
  | quiet {d l p} (step : Coalesce.Step fileOf d.protocol l p) (quiet : ∀ c report, l ≠ .finish c (.ok report)) :
      Databases.Step d l ⟨p, d.index⟩

/-- Coalesced calls of a process that has made none, over databases in any
state. -/
def synchronized : TransitionSystem Databases Label where
  init d := d.protocol = State.initial
  step := Databases.Step tools fileOf history

/-- The step ends a sync of the database `file`. -/
def EndsSync (file : Nat) (d : Databases) (l : Label) : Prop :=
  l = .outsideUnlock file ∨ ∃ c call, d.protocol.calls c = some call ∧ fileOf call.path = file ∧
    (l = .panic c ∨ ∃ result, l = .finish c result)

variable {tools fileOf history} {d d' : Databases} {l : Label}

theorem Databases.Step.protocol (step : Databases.Step tools fileOf history d l d') :
    Coalesce.Step fileOf d.protocol l d'.protocol := by
  cases step <;> assumption

theorem Databases.Step.index_eq (step : Databases.Step tools fileOf history d l d') {file : Nat}
    (other : ¬ EndsSync fileOf file d l) : d'.index file = d.index file := by
  cases step with
  | commit step hCall phase hRun hScan reads | fail step hCall phase =>
    exact Function.update_of_ne (fun eq => other (.inr ⟨_, _, hCall, eq.symm, .inr ⟨_, rfl⟩⟩)) ..
  | panic step hCall phase =>
    exact Function.update_of_ne (fun eq => other (.inr ⟨_, _, hCall, eq.symm, .inl rfl⟩)) ..
  | outside step => exact Function.update_of_ne (fun eq => other (.inl (by rw [eq]))) ..
  | quiet step quiet => rfl

theorem Databases.reachable_protocol (reach : (synchronized tools fileOf history).Reachable d) :
    (coalesced fileOf).Reachable d.protocol := by
  obtain ⟨d₀, labels, start, run⟩ := reach
  refine run.preserves (P := fun d => (coalesced fileOf).Reachable d.protocol) (fun d l d' reach step => ?_)
    (.of_init (show (coalesced fileOf).init d₀.protocol from start))
  exact reach.step step.protocol

/-! ### What a sync leaves in the index -/

/-- What a reader finds in the index after a sync that read `w`: no row for a file
that is gone, and the content of every file that can be extracted, unless an
incremental scan took it for unchanged by its modification time and length. -/
structure Reflects (tools : Tools) (mode : SyncMode) (w : Worktree) (before after : Index) : Prop where
  gone : ∀ path, w.file? path = none → underUnreadable w path = false → after.fileRow path = none
  content : ∀ path file bytes lang rows, w.file? path = some file → file.byteLen ≤ maxFileBytes →
    readCapped file.content = .ok (some bytes) → tools.extractors.languageFor path = some lang →
    tools.extractors.extract path bytes = .ok rows →
    (mode = .auto → ∀ row, before.fileRow path = some row → sameMetadata row file = false) →
    ∃ row, after.fileRow path = some row ∧ row.contentHash = tools.hasher.hash bytes

theorem sync_reflects (mode : SyncMode) (w : Worktree) (idx : Index) :
    Reflects tools mode w idx (sync tools mode w idx) := by
  constructor
  · intro path none readable
    have state := congrArg FileState.row (sync_fileState tools mode w idx path)
    have unwritten : Pass1.written tools w (scanDiff tools mode w idx) path = .none := by
      refine if_neg fun changed => ?_
      obtain ⟨file, hFile, -⟩ := mem_changed.mp changed
      rw [none] at hFile
      cases hFile
    rw [unwritten] at state
    have unlisted : listed w path = false := by
      refine Bool.eq_false_iff.mpr fun isListed => ?_
      obtain ⟨file, mem, named⟩ := List.any_eq_true.mp isListed
      simp only [Bool.and_eq_true, beq_iff_eq] at named
      rw [Worktree.file?_eq_some.mpr ⟨mem, named.1⟩] at none
      cases none
    by_cases stored : path ∈ idx.files.map FileRow.path
    · have deleted : path ∈ (scanDiff tools mode w idx).deleted :=
        mem_sortPaths.mpr (List.mem_filter.mpr ⟨stored, by simp [unlisted, readable]⟩)
      exact state.trans (by rw [if_pos deleted]; rfl)
    · have unstored : idx.fileRow path = .none :=
        List.find?_eq_none.mpr fun row mem eq => stored (List.mem_map.mpr ⟨row, mem, by simpa using eq⟩)
      have kept : path ∉ (scanDiff tools mode w idx).deleted :=
        fun deleted => stored (List.mem_filter.mp (mem_sortPaths.mp deleted)).1
      rw [if_neg kept, scanned_fileState] at state
      exact state.trans (by rw [unstored, Option.map_none])
  · intro path file bytes lang rows hFile small hRead hLang hRows stale
    have state := congrArg FileState.row (sync_fileState tools mode w idx path)
    obtain ⟨source, extracted, hash⟩ : ∃ source, extractSource tools w path = .ok source ∧
        source.contentHash = tools.hasher.hash bytes := by
      simp only [extractSource, hFile, hRead, hLang, hRows]
      exact ⟨_, rfl, rfl⟩
    by_cases changed : path ∈ Pass1.changedFiles (scanDiff tools mode w idx)
    · rw [Pass1.written, if_pos changed, extracted] at state
      exact ⟨_, state, hash⟩
    · -- The scan took the file for unchanged, and it was its hash that did so.
      have named := (Worktree.file?_eq_some.mp hFile).2
      rw [Pass1.written, if_neg changed] at state
      simp only [if_neg (not_deleted hFile small)] at state
      rw [scanned_fileState] at state
      have status := fun h => changed (mem_changed.mpr ⟨file, hFile, h⟩)
      unfold statusOf fileStatus at status
      rw [named, if_neg (by omega), hRead] at status
      cases hRow : idx.fileRow path with
      | none => simp [hRow] at status
      | some row =>
        rw [hRow] at state
        refine ⟨_, state, ?_⟩
        rw [touchedRow_of_file hFile hRow]
        have same : row.contentHash = tools.hasher.hash bytes := by
          cases mode with
          | full => simp [hRow] at status
          | auto =>
            have differs := stale rfl row hRow
            by_contra other
            simp [hRow, differs, Ne.symm other] at status
        split <;> exact same

/-! ### What served a call -/

/-- The sync that a run of `start` made, on the way to `d`: the step from `u` to
`v` commits it, and it read `w`. -/
structure Synced (tools : Tools) (fileOf : Text → Nat) (history : Nat → Nat → Worktree) (d : Databases)
    (run : InFlightSync) (start : ScanStart) (u v : Databases) (labels : List Label) (w : Worktree) :
    Prop where
  reach : (synchronized tools fileOf history).Reachable u
  commits : ∃ report, Databases.Step tools fileOf history u (.finish run.leader (.ok report)) v
  since : (synchronized tools fileOf history).Run v labels d
  reads : ReadsBetween (history (fileOf run.path)) start.writes (u.protocol.writes (fileOf run.path)) w
  stores : v.index (fileOf run.path) = sync tools run.mode w (u.index (fileOf run.path))

/-- The run `id` has synchronized its database. -/
def Done (tools : Tools) (fileOf : Text → Nat) (history : Nat → Nat → Worktree) (id : RunId)
    (d : Databases) : Prop :=
  ∃ run start u v labels w, d.protocol.runs id = some run ∧ run.scan = some start ∧
    Synced tools fileOf history d run start u v labels w

variable {c : CallId} {call : Call} {id : RunId} {run run' : InFlightSync} {s s' : State}

theorem Done.step (h : Done tools fileOf history id d) (safe : Safe d.protocol)
    (step : Databases.Step tools fileOf history d l d')
    (past : ∀ run call, d.protocol.runs id = some run → d.protocol.calls run.leader = some call →
      call.phase ≠ .leading id .locked) : Done tools fileOf history id d' := by
  obtain ⟨run, start, u, v, labels, w, hRun, hScan, synced⟩ := h
  obtain ⟨-, call, hLeader, -⟩ := safe.run id run hRun
  obtain ⟨run', hRun', moved⟩ := (step.protocol.effect safe).runMoved hRun
  refine ⟨run', start, u, v, labels ++ [l], w, hRun', ?_, synced.reach, ?_, synced.since.snoc step, ?_, ?_⟩
  · exact (moved.scan_eq hLeader (past run call hRun hLeader)).trans hScan
  · rw [moved.leader]
    exact synced.commits
  · rw [moved.path]
    exact synced.reads
  · rw [moved.path, moved.mode]
    exact synced.stores

/-- Every run that succeeded has synchronized its database. -/
structure Serving (tools : Tools) (fileOf : Text → Nat) (history : Nat → Nat → Worktree)
    (d : Databases) : Prop where
  ran : ∀ c call id report, d.protocol.calls c = some call →
    call.phase = .leading id (.ran (some (.ok report))) → Done tools fileOf history id d
  slot : ∀ id run report, d.protocol.runs id = some run → run.result = some (.ok report) →
    Done tools fileOf history id d

/-- The step that ends a run in success commits its sync. -/
theorem Done.of_commit (reach : (synchronized tools fileOf history).Reachable d) (safe : Safe d.protocol)
    {report : SyncReport} (step : Databases.Step tools fileOf history d (.finish c (.ok report)) d')
    (hCall : d'.protocol.calls c = some call) (phase : call.phase = .leading id (.ran (some (.ok report)))) :
    Done tools fileOf history id d' := by
  have whole := step
  cases step with
  | quiet step quiet => exact absurd rfl (quiet c report)
  | @commit _ call₀ id₀ run₀ start _ p w step hCall₀ phase₀ hRun hScan reads =>
    cases step with
    | succeed hCall₁ phase₁ hRun₁ hScan₁ =>
      obtain rfl := Option.some.inj (hCall₀.symm.trans hCall₁)
      obtain ⟨-, eq⟩ | ⟨other, -⟩ := update_eq_some.mp hCall
      · cases eq
        cases phase
        obtain rfl : id₀ = id := by
          rw [phase₀] at phase₁
          cases phase₁
          rfl
        obtain ⟨own, hOwn, leads, path, -⟩ := safe.run_of_leader hCall₀ phase₀
        obtain rfl := Option.mem_unique hRun hOwn
        refine ⟨run₀, start, d, _, [], w, hRun, hScan, reach, ⟨report, ?_⟩, .nil _, ?_, ?_⟩
        · rw [leads]
          exact whole
        · rw [path]
          exact reads
        · simp [path]
      · exact absurd rfl other

theorem Serving.step (h : Serving tools fileOf history d) (reach : (synchronized tools fileOf history).Reachable d)
    (safe : Safe d.protocol) (step : Databases.Step tools fileOf history d l d') :
    Serving tools fileOf history d' := by
  -- A leader whose run is over does not take the step that begins its scan.
  have ranPast : ∀ {c call id outcome}, d.protocol.calls c = some call →
      call.phase = .leading id (.ran outcome) → ∀ run call', d.protocol.runs id = some run →
      d.protocol.calls run.leader = some call' → call'.phase ≠ .leading id .locked := by
    intro c call id outcome hCall phase run call' hRun hLeader locked
    obtain rfl := safe.leader_unique hLeader locked hCall phase
    obtain rfl := Option.mem_unique hLeader hCall
    rw [phase] at locked
    cases locked
  have slotPast : ∀ {id run result}, d.protocol.runs id = some run → run.result = some result →
      ∀ run' call', d.protocol.runs id = some run' → d.protocol.calls run'.leader = some call' →
      call'.phase ≠ .leading id .locked := by
    intro id run result hRun hResult run' call' hRun' hLeader locked
    obtain rfl := Option.mem_unique hRun hRun'
    obtain ⟨r, hr, -, -, -, slot⟩ := safe.run_of_leader hLeader locked
    obtain rfl := Option.mem_unique hRun hr
    rw [hResult] at slot
    cases slot
  constructor
  · intro c call id report hCall phase
    rcases step.protocol.ran_from safe hCall phase with before | rfl
    · exact (h.ran c call id report before phase).step safe step (ranPast before phase)
    · exact .of_commit reach safe step hCall phase
  · intro id run' report hRun' ok
    rcases step.protocol.slot_from safe hRun' ok with ⟨run, hRun, ok'⟩ | ⟨c, call, report', hCall, phase⟩
    · exact (h.slot id run report hRun ok').step safe step (slotPast hRun ok')
    · exact (h.ran c call id report' hCall phase).step safe step (ranPast hCall phase)

theorem serving_inductive : (synchronized tools fileOf history).Inductive fun d =>
    (synchronized tools fileOf history).Reachable d ∧ Serving tools fileOf history d where
  init d start := by
    refine ⟨.of_init start, ?_⟩
    have initial : d.protocol = State.initial := start
    constructor
    · intro c call id report hCall
      rw [initial] at hCall
      cases hCall
    · intro id run report hRun
      rw [initial] at hRun
      cases hRun
  step d l d' h step := by
    have safe := (Databases.reachable_protocol h.1).of_inductive safe_inductive
    exact ⟨h.1.step step, h.2.step h.1 safe step⟩

/-- What a call that returned a report was served by. -/
structure ServedReport (tools : Tools) (fileOf : Text → Nat) (history : Nat → Nat → Worktree)
    (d : Databases) (c : CallId) (call : Call) (id : RunId) (run : InFlightSync) (start : ScanStart)
    (u v : Databases) (labels : List Label) (w : Worktree) : Prop where
  runs : d.protocol.runs id = some run
  path : run.path = call.path
  scan : run.scan = some start
  /-- The scan began no earlier than the leader's own call. -/
  leader : ∀ leaderCall, d.protocol.calls run.leader = some leaderCall → leaderCall.begun ≤ start.time
  /-- Before the call returned, the run stored a sync of files read from its scan's start on. -/
  synced : Synced tools fileOf history d run start u v labels w
  reflects : Reflects tools run.mode w (u.index (fileOf call.path)) (v.index (fileOf call.path))
  /-- The index stays so until a later sync of the database ends. -/
  stays : (synchronized tools fileOf history).Meets (fun d l => ¬ EndsSync fileOf (fileOf call.path) d l) v labels →
    d.index (fileOf call.path) = v.index (fileOf call.path)
  /-- A call that the scan did not precede: every file was read after the writes
  before the call. -/
  fresh : call.begun ≤ start.time → ReadsBetween (history (fileOf call.path)) call.writes
    (u.protocol.writes (fileOf call.path)) w
  /-- A call that the scan preceded is a follower, and called before its run's
  entry was removed. -/
  joined : start.time < call.begun →
    run.leader ≠ c ∧ ∀ time, run.removed = some time → call.begun ≤ time

end

namespace Sample

local instance : CharTables := CharTables.ascii

def tools : Tools where
  hasher := ContentHasher.tagged
  extractors := ⟨fun _ => some "rust", fun _ _ => .ok ⟨[], [], []⟩⟩

def source : Text := "src/a.rs"

def history (_ n : Nat) : Worktree where
  files := if n = 0 then [] else [⟨source, 10, 1, .ok [1]⟩]
  unreadable := []
  packages := ⟨fun _ => none, fun _ => false⟩
  nodup := by split <;> simp

/-- A leader scans, the file is created, a second call follows; the leader's sync
commits, and both return. -/
theorem joinedLate_synchronized : ∃ d, (synchronized tools (fun _ => 0) history).Reachable d ∧
    d.protocol.calls 0 = some ⟨path, .auto, 0, 0, .returned 0 (.ok report)⟩ ∧
    d.protocol.calls 1 = some ⟨path, .full, 5, 1, .returned 0 (.ok report)⟩ ∧
    d.protocol.runs 0 = some ⟨path, 0, some (.ok report), .auto, some ⟨3, 0⟩, some 10⟩ ∧
    d.index 0 = sync tools .auto (history 0 0) Index.empty := by
  have quiet : ∀ {d l p}, (synchronized tools (fun _ => 0) history).Reachable d →
      Step (fun _ => 0) d.protocol l p → (∀ c report, l ≠ .finish c (.ok report)) →
      (synchronized tools (fun _ => 0) history).Reachable ⟨p, d.index⟩ :=
    fun reach step quiet => reach.step (.quiet step quiet)
  have start : (synchronized tools (fun _ => 0) history).Reachable ⟨State.initial, fun _ => Index.empty⟩ :=
    .of_init rfl
  have called := quiet start (Step.call rfl : Step _ _ (.call 0 path .auto) _) (by simp)
  have leading := quiet called (Step.lead rfl rfl rfl : Step _ _ (.register 0) _) (by simp)
  have locked := quiet leading (Step.acquire rfl rfl rfl : Step _ _ (.acquire 0) _) (by simp)
  have scanned := quiet locked (Step.scan rfl rfl rfl : Step _ _ (.scan 0) _) (by simp)
  have written := quiet scanned (Step.write : Step _ _ (.write 0) _) (by simp)
  have joining := quiet written (Step.call rfl : Step _ _ (.call 1 path .full) _) (by simp)
  have following := quiet joining (Step.follow rfl rfl rfl : Step _ _ (.register 1) _) (by simp)
  have reads : ReadsBetween (history 0) 0 1 (history 0 0) :=
    ⟨fun _ => ⟨0, le_rfl, by decide, rfl⟩, ⟨0, le_rfl, by decide, rfl⟩, ⟨0, le_rfl, by decide, rfl⟩⟩
  have ran := following.step (.commit
    (Step.succeed rfl rfl rfl rfl : Step _ _ (.finish 0 (.ok report)) _) rfl rfl rfl rfl reads)
  have published := quiet ran (Step.publish rfl rfl rfl : Step _ _ (.publish 0) _) (by simp)
  have dropping := quiet published (Step.dropSet rfl rfl rfl : Step _ _ (.dropSet 0) _) (by simp)
  have removed := quiet dropping (Step.dropRemove rfl rfl rfl : Step _ _ (.dropRemove 0) _) (by simp)
  have woken := quiet removed (Step.wake rfl rfl rfl rfl : Step _ _ (.wake 1) _) (by simp)
  exact ⟨_, woken, rfl, rfl, rfl, rfl⟩

end Sample

end OrbitGraph.Coalesce
