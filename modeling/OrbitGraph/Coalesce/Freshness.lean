import OrbitGraph.Coalesce.Safety

/-!
Which run served a coalesced call, when that run's scan began, and in which mode
it ran.

A follower shares the result of the run it joined, whatever that run has already
done and in whatever mode. A leader's own scan begins after its call.
-/

namespace OrbitGraph.Coalesce

open Lib Sync

/-! ### What one step can do -/

def Phase.run? : Phase → Option RunId
  | .called => none
  | .leading id _ => some id
  | .following id => some id
  | .returned id _ => some id
  | .unwound id => some id

variable {phase : Phase}

theorem Leads.run? {id : RunId} {slot : Option SyncResult}
    (h : Leads id slot phase) : phase.run? = some id := by
  cases h <;> rfl

/-- A call keeps what it was made with, and its run once it has one. -/
structure CallKept (call call' : Call) : Prop where
  path : call'.path = call.path
  mode : call'.mode = call.mode
  begun : call'.begun = call.begun
  writes : call'.writes = call.writes
  run : ∀ id, call.phase.run? = some id → call'.phase.run? = some id

/-- A run keeps its path, leader and mode. Its scan begins when its leader, past
the lock, takes that step; its entry is removed at the time of the step. -/
structure RunMoved (fileOf : Text → Nat) (s : State) (id : RunId) (run run' : InFlightSync) : Prop where
  leader : run'.leader = run.leader
  path : run'.path = run.path
  mode : run'.mode = run.mode
  scan : run'.scan = run.scan ∨
    run'.scan = some ⟨s.clock, s.writes (fileOf run.path)⟩ ∧
      ∃ call, s.calls run.leader = some call ∧ call.phase = .leading id .locked
  removed : run'.removed = run.removed ∨ run'.removed = some s.clock

/-- What one step does to the calls and the runs. -/
structure Effect (fileOf : Text → Nat) (s s' : State) : Prop where
  clock : s'.clock = s.clock + 1
  writes : ∀ f, s.writes f ≤ s'.writes f
  /-- A call moves on with what it was made with, or is made now. -/
  call : ∀ c, s'.calls c = s.calls c ∨
    (∃ call call', s.calls c = some call ∧ s'.calls c = some call' ∧ CallKept call call' ∧
      ∀ id, call'.phase.run? = some id → call.phase.run? = some id ∨
        s.registry call.path = some id ∨ ∃ run', s'.runs id = some run' ∧ run'.leader = c) ∨
    (s.calls c = none ∧ ∃ call', s'.calls c = some call' ∧ call'.begun = s.clock ∧
      call'.writes = s.writes (fileOf call'.path) ∧ call'.phase = .called)
  run : ∀ id, s'.runs id = s.runs id ∨
    (∃ run run', s.runs id = some run ∧ s'.runs id = some run' ∧ RunMoved fileOf s id run run') ∨
    (s.runs id = none ∧ ∃ run', s'.runs id = some run' ∧ run'.scan = none ∧ run'.removed = none)

variable {fileOf : Text → Nat} {s s' : State} {c : CallId} {call : Call} {id : RunId}
  {run run' : InFlightSync}

theorem CallKept.refl : CallKept call call := ⟨rfl, rfl, rfl, rfl, fun _ h => h⟩

theorem RunMoved.refl : RunMoved fileOf s id run run := ⟨rfl, rfl, rfl, .inl rfl, .inl rfl⟩

theorem RunMoved.setResult (result : SyncResult) : RunMoved fileOf s id run (run.setResult result) := by
  unfold InFlightSync.setResult
  split
  · exact ⟨rfl, rfl, rfl, .inl rfl, .inl rfl⟩
  · exact .refl

/-- A call of a run moves on, and its run with it. -/
theorem Effect.of_rephase (hCall : s.calls c = some call)
    (hRun : s.runs id = some run) (moved : RunMoved fileOf s id run run')
    (kept : ∀ id, call.phase.run? = some id → phase.run? = some id)
    (joined : ∀ id, phase.run? = some id → call.phase.run? = some id ∨ s.registry call.path = some id)
    (clock : s'.clock = s.clock + 1) (writes : s'.writes = s.writes)
    (calls : s'.calls = Function.update s.calls c (some { call with phase }))
    (runs : s'.runs = Function.update s.runs id (some run')) : Effect fileOf s s' where
  clock := clock
  writes f := by rw [writes]
  call c' := by
    rw [calls]
    by_cases same : c' = c
    · subst same
      refine .inr (.inl ⟨call, _, hCall, Function.update_self .., ⟨rfl, rfl, rfl, rfl, kept⟩, ?_⟩)
      exact fun id hRun => (joined id hRun).imp_right .inl
    · exact .inl (Function.update_of_ne same ..)
  run id' := by
    rw [runs]
    by_cases same : id' = id
    · subst same
      exact .inr (.inl ⟨run, run', hRun, Function.update_self .., moved⟩)
    · exact .inl (Function.update_of_ne same ..)

/-- A call moves on within its run. -/
theorem Effect.of_progress (hCall : s.calls c = some call) (stays : phase.run? = call.phase.run?)
    (hRun : s.runs id = some run) (moved : RunMoved fileOf s id run run')
    (clock : s'.clock = s.clock + 1) (writes : s'.writes = s.writes)
    (calls : s'.calls = Function.update s.calls c (some { call with phase }))
    (runs : s'.runs = Function.update s.runs id (some run')) : Effect fileOf s s' :=
  .of_rephase hCall hRun moved (fun _ => stays.trans) (fun _ has => .inl (stays.symm.trans has)) clock writes calls runs

theorem Effect.of_quiet (clock : s'.clock = s.clock + 1) (writes : ∀ f, s.writes f ≤ s'.writes f)
    (calls : s'.calls = s.calls) (runs : s'.runs = s.runs) : Effect fileOf s s' :=
  ⟨clock, writes, fun c => .inl (by rw [calls]), fun id => .inl (by rw [runs])⟩

theorem Step.effect (safe : Safe s) {l : Label} (step : Step fileOf s l s') : Effect fileOf s s' := by
  cases step with
  | @call c path mode new =>
    refine ⟨rfl, fun _ => le_rfl, fun c' => ?_, fun _ => .inl rfl⟩
    by_cases same : c' = c
    · subst same
      exact .inr (.inr ⟨new, _, Function.update_self .., rfl, rfl, rfl⟩)
    · exact .inl (Function.update_of_ne same ..)
  | @lead c call hCall phase free =>
    have new : s.runs s.nextRun = none := by
      cases hRun : s.runs s.nextRun with
      | none => rfl
      | some run => exact absurd (safe.run _ run hRun).1 (lt_irrefl _)
    refine ⟨rfl, fun _ => le_rfl, fun c' => ?_, fun id => ?_⟩
    · by_cases same : c' = c
      · subst same
        refine .inr (.inl ⟨call, _, hCall, Function.update_self .., ⟨rfl, rfl, rfl, rfl, ?_⟩, ?_⟩)
        · simp [phase, Phase.run?]
        · rintro id eq
          cases eq
          exact .inr (.inr ⟨_, Function.update_self .., rfl⟩)
      · exact .inl (Function.update_of_ne same ..)
    · by_cases same : id = s.nextRun
      · subst same
        exact .inr (.inr ⟨new, _, Function.update_self .., rfl, rfl⟩)
      · exact .inl (Function.update_of_ne same ..)
  | @follow c call id hCall phase entry =>
    obtain ⟨run, _, _, hRun, -⟩ := safe.entry call.path id entry
    refine .of_rephase hCall hRun .refl ?_ ?_ rfl rfl rfl ?_
    · simp [phase, Phase.run?]
    · intro id' eq
      cases eq
      exact .inr entry
    · simp [State.setPhase, ← hRun]
  | @acquire c call id hCall phase free =>
    obtain ⟨run, hRun, -⟩ := safe.run_of_leader hCall phase
    refine .of_progress hCall (by rw [phase]; rfl) hRun .refl rfl rfl rfl ?_
    simp [State.setPhase, State.setLock, ← hRun]
  | @scan c call id run hCall phase hRun =>
    obtain ⟨own, hRun', leads, path, -⟩ := safe.run_of_leader hCall phase
    obtain rfl := Option.mem_unique hRun hRun'
    have moved : RunMoved fileOf s id run
        { run with scan := some ⟨s.clock, s.writes (fileOf call.path)⟩ } :=
      ⟨rfl, rfl, rfl, .inr ⟨by rw [path], call, by rw [leads, hCall], phase⟩, .inl rfl⟩
    exact .of_progress hCall (by rw [phase]; rfl) hRun moved rfl rfl rfl rfl
  | @succeed c call id run start report hCall phase hRun hScan =>
    refine .of_progress hCall (by rw [phase]; rfl) hRun .refl rfl rfl rfl ?_
    simp [State.setPhase, State.setLock, ← hRun]
  | @fail c call id stage error hCall phase running | @panic c call id stage hCall phase running =>
    obtain ⟨run, hRun, -⟩ := safe.run_of_leader hCall phase
    refine .of_progress hCall (by rw [phase]; rfl) hRun .refl rfl rfl rfl ?_
    simp [State.setPhase, State.releaseLock, ← hRun]
  | @publish c call id run result hCall phase hRun =>
    exact .of_progress hCall (by rw [phase]; rfl) hRun (.setResult result) rfl rfl rfl rfl
  | @dropSet c call id run result hCall phase hRun | @dropSetPanicked c call id run hCall phase hRun =>
    exact .of_progress hCall (by rw [phase]; rfl) hRun (.setResult leaderPanicked) rfl rfl rfl rfl
  | @dropRemove c call id run outcome hCall phase hRun =>
    have stays : (outcome.elim (.unwound id) (.returned id) : Phase).run? = some id := by
      cases outcome <;> rfl
    have moved : RunMoved fileOf s id run { run with removed := some s.clock } :=
      ⟨rfl, rfl, rfl, .inl rfl, .inr rfl⟩
    rw [if_pos (safe.leader _ _ _ _ hCall phase).1]
    exact .of_progress hCall (by rw [stays, phase]; rfl) hRun moved rfl rfl rfl rfl
  | @wake c call id run result hCall phase hRun ready | @timeout c call id run hCall phase hRun pending =>
    refine .of_progress hCall (by rw [phase]; rfl) hRun .refl rfl rfl rfl ?_
    simp [State.setPhase, ← hRun]
  | @write file =>
    refine .of_quiet rfl (fun f => ?_) rfl rfl
    by_cases same : f = file
    · subst same
      simp
    · simp [same]
  | outsideLock free | outsideUnlock held => exact .of_quiet rfl (fun f => le_rfl) rfl rfl

/-- A call after the step is one from before it, or new. -/
theorem Effect.callFrom (effect : Effect fileOf s s') {call' : Call} (hCall' : s'.calls c = some call') :
    (∃ call, s.calls c = some call ∧ CallKept call call' ∧
      ∀ id, call'.phase.run? = some id → call.phase.run? = some id ∨
        s.registry call.path = some id ∨ ∃ run', s'.runs id = some run' ∧ run'.leader = c) ∨
      (s.calls c = none ∧ call'.begun = s.clock ∧ call'.writes = s.writes (fileOf call'.path) ∧
        call'.phase = .called) := by
  rcases effect.call c with same | ⟨call, call'', hCall, hCall'', kept, join⟩ | ⟨none, call'', hCall'', new⟩
  · exact .inl ⟨call', same ▸ hCall', .refl, fun _ h => .inl h⟩
  · obtain rfl := Option.mem_unique hCall' hCall''
    exact .inl ⟨call, hCall, kept, join⟩
  · obtain rfl := Option.mem_unique hCall' hCall''
    exact .inr ⟨none, new⟩

theorem Effect.runFrom (effect : Effect fileOf s s') (hRun' : s'.runs id = some run') :
    (∃ run, s.runs id = some run ∧ RunMoved fileOf s id run run') ∨ (run'.scan = none ∧ run'.removed = none) := by
  rcases effect.run id with same | ⟨run, run'', hRun, hRun'', moved⟩ | ⟨-, run'', hRun'', new⟩
  · exact .inl ⟨run', same ▸ hRun', .refl⟩
  · obtain rfl := Option.mem_unique hRun' hRun''
    exact .inl ⟨run, hRun, moved⟩
  · obtain rfl := Option.mem_unique hRun' hRun''
    exact .inr new

theorem Effect.callKept (effect : Effect fileOf s s') (hCall : s.calls c = some call) :
    ∃ call', s'.calls c = some call' ∧ CallKept call call' := by
  rcases effect.call c with same | ⟨call₀, call', hCall₀, hCall', kept, -⟩ | ⟨none, -⟩
  · exact ⟨call, same.trans hCall, .refl⟩
  · obtain rfl := Option.some.inj (hCall.symm.trans hCall₀)
    exact ⟨call', hCall', kept⟩
  · rw [hCall] at none
    cases none

theorem Effect.runMoved (effect : Effect fileOf s s') (hRun : s.runs id = some run) :
    ∃ run', s'.runs id = some run' ∧ RunMoved fileOf s id run run' := by
  rcases effect.run id with same | ⟨run₀, run', hRun₀, hRun', moved⟩ | ⟨none, -⟩
  · exact ⟨run, same.trans hRun, .refl⟩
  · obtain rfl := Option.some.inj (hRun.symm.trans hRun₀)
    exact ⟨run', hRun', moved⟩
  · rw [hRun] at none
    cases none

/-! ### The mode a call was served in -/

def HasRun (c : CallId) (id : RunId) (mode : SyncMode) (s : State) : Prop :=
  (∃ call, s.calls c = some call ∧ call.phase.run? = some id) ∧
    ∃ run, s.runs id = some run ∧ run.mode = mode

variable {mode : SyncMode}

theorem HasRun.step (h : HasRun c id mode s) (effect : Effect fileOf s s') : HasRun c id mode s' := by
  obtain ⟨⟨call, hCall, has⟩, run, hRun, rfl⟩ := h
  obtain ⟨call', hCall', kept⟩ := effect.callKept hCall
  obtain ⟨run', hRun', moved⟩ := effect.runMoved hRun
  exact ⟨⟨call', hCall', kept.run id has⟩, run', hRun', moved.mode⟩

theorem HasRun.preserved {u : State} {labels : List Label} (safe : Safe u)
    (h : HasRun c id mode u) (run : (coalesced fileOf).Run u labels s) : HasRun c id mode s := by
  have both : Safe s ∧ HasRun c id mode s := by
    refine run.preserves (P := fun t => Safe t ∧ HasRun c id mode t) (fun t l t' held step => ?_)
      ⟨safe, h⟩
    exact ⟨held.1.step step, held.2.step (step.effect held.1)⟩
  exact both.2

theorem HasRun.served (h : HasRun c id mode s) {id' : RunId}
    (hCall : s.calls c = some call) (served : call.phase.run? = some id') :
    id' = id ∧ ∀ run, s.runs id' = some run → run.mode = mode := by
  obtain ⟨⟨call', hCall', has⟩, run, hRun, rfl⟩ := h
  obtain rfl := Option.mem_unique hCall hCall'
  obtain rfl := Option.mem_unique served has
  refine ⟨rfl, fun run' hRun' => ?_⟩
  rw [Option.mem_unique hRun' hRun]

/-- **A full sync is served by a full run when it finds no incremental leader.**
A call that asked for a full sync and returned a report was served by a full run
exactly if, at its look at the registry, there was no entry for its database or
the entry was a full run's. -/
theorem full_served_by_full {u v : State} (reach : (coalesced fileOf).Reachable u)
    (hCall : u.calls c = some call) (full : call.mode = .full)
    (registers : Step fileOf u (.register c) v) {labels : List Label}
    (run : (coalesced fileOf).Run v labels s) {call' : Call} {report : SyncReport}
    (hCall' : s.calls c = some call') (served : call'.phase = .returned id (.ok report)) :
    (∃ run, s.runs id = some run ∧ run.mode = .full) ↔
      (u.registry call.path = none ∨
        ∃ id run, u.registry call.path = some id ∧ u.runs id = some run ∧ run.mode = .full) := by
  have safe : Safe u := reach.of_inductive safe_inductive
  have has : call'.phase.run? = some id := by rw [served]; rfl
  -- Whatever run the call got at its look, it has that run and mode at its return.
  have returns : ∀ {id' mode}, HasRun c id' mode v →
      ((∃ run, s.runs id = some run ∧ run.mode = .full) ↔ mode = .full) := by
    intro id' mode got
    have later := got.preserved (safe.step registers) run
    obtain ⟨rfl, sameMode⟩ := later.served hCall' has
    obtain ⟨-, run, hRun, rfl⟩ := later
    constructor
    · rintro ⟨run', hRun', isFull⟩
      exact (sameMode run' hRun').symm.trans isFull
    · intro isFull
      exact ⟨run, hRun, isFull⟩
  cases registers with
  | lead hCall₀ phase free =>
    obtain rfl := Option.some.inj (hCall.symm.trans hCall₀)
    have got : HasRun c u.nextRun .full
        { (u.setRun u.nextRun ⟨call.path, c, none, call.mode, none, none⟩).setPhase c call
            (.leading u.nextRun .waiting) with
          registry := Function.update u.registry call.path (some u.nextRun)
          nextRun := u.nextRun + 1 } := by
      refine ⟨⟨{ call with phase := .leading u.nextRun .waiting }, ?_, rfl⟩,
        ⟨call.path, c, none, call.mode, none, none⟩, ?_, full⟩
      · simp [State.setPhase]
      · simp [State.setPhase, State.setRun]
    exact ⟨fun _ => .inl free, fun _ => (returns got).mpr rfl⟩
  | @follow _ _ id₀ hCall₀ phase entry =>
    obtain rfl := Option.some.inj (hCall.symm.trans hCall₀)
    obtain ⟨run₀, _, _, hRun₀, -⟩ := safe.entry call.path id₀ entry
    have got : HasRun c id₀ run₀.mode (u.setPhase c call (.following id₀)) := by
      refine ⟨⟨{ call with phase := .following id₀ }, ?_, rfl⟩, run₀, hRun₀, rfl⟩
      simp [State.setPhase]
    rw [returns got]
    constructor
    · intro isFull
      exact .inr ⟨id₀, run₀, entry, hRun₀, isFull⟩
    · rintro (none | ⟨id₁, run₁, entry₁, hRun₁, isFull⟩)
      · rw [entry] at none
        cases none
      · obtain rfl := Option.mem_unique entry entry₁
        obtain rfl := Option.some.inj (hRun₀.symm.trans hRun₁)
        exact isFull

namespace Sample

/-- A call that finds an incremental leader is not served by a full run. -/
theorem full_served_by_full_joinedLate : ∃ u s : State,
    u.registry path = some 0 ∧
      ((∃ run, s.runs 0 = some run ∧ run.mode = .full) ↔ (u.registry path = none ∨
          ∃ id run, u.registry path = some id ∧ u.runs id = some run ∧ run.mode = .full)) := by
  obtain ⟨u, v, labels, s, reach, hCall, entry, registers, run, hCall', -⟩ := joinedLate_run
  exact ⟨u, s, entry, full_served_by_full reach hCall rfl registers run hCall' rfl⟩

/-- The same follower asked for a full sync and was served by an incremental
one. -/
theorem full_served_by_auto : ∃ s call run, (coalesced fun _ => 0).Reachable s ∧
    s.calls 1 = some call ∧ call.mode = .full ∧ call.phase = .returned 0 (.ok report) ∧
    s.runs 0 = some run ∧ run.mode = .auto := by
  obtain ⟨s, reach, follower, served⟩ := reachable_joinedLate
  exact ⟨s, _, _, reach, follower, rfl, rfl, served, rfl⟩

end Sample

/-! ### When the serving scan began -/

/-- The times of calls, scans and removals. -/
structure Timed (fileOf : Text → Nat) (s : State) : Prop where
  call : ∀ c call, s.calls c = some call →
    call.begun < s.clock ∧ call.writes ≤ s.writes (fileOf call.path)
  scan : ∀ id run start, s.runs id = some run → run.scan = some start →
    start.time < s.clock ∧ start.writes ≤ s.writes (fileOf run.path)
  /-- A scan reads every write made before a call that it does not precede. -/
  fresh : ∀ id run start c call, s.runs id = some run → run.scan = some start →
    s.calls c = some call → fileOf call.path = fileOf run.path → call.begun ≤ start.time →
    call.writes ≤ start.writes
  /-- A leader's scan begins after its call. -/
  leader : ∀ id run start call, s.runs id = some run → run.scan = some start →
    s.calls run.leader = some call → call.begun ≤ start.time
  /-- An entry in the registry was not removed. -/
  entry : ∀ path id run, s.registry path = some id → s.runs id = some run → run.removed = none
  /-- A follower called before its run's entry was removed. -/
  joined : ∀ c call id run time, s.calls c = some call → call.phase.run? = some id →
    s.runs id = some run → run.removed = some time → call.begun ≤ time

theorem Timed.initial : Timed fileOf State.initial := by
  constructor <;> intros <;> simp_all [State.initial]

theorem setResult_removed (result : SyncResult) : (run.setResult result).removed = run.removed := by
  unfold InFlightSync.setResult
  split <;> rfl

variable {l : Label}

/-- What a step leaves under an entry: a run that was under it, or a new one. -/
theorem Step.entry (safe : Safe s) (step : Step fileOf s l s') {path : Text}
    (hEntry : s'.registry path = some id) (hRun : s'.runs id = some run') :
    run'.removed = none ∨ ∃ run, s.registry path = some id ∧ s.runs id = some run ∧ run'.removed = run.removed := by
  have moved : ∀ {id₀ : RunId} {run₀ run₁ : InFlightSync}, s.runs id₀ = some run₀ →
      run₁.removed = run₀.removed → s.registry path = some id →
      Function.update s.runs id₀ (some run₁) id = some run' →
      ∃ run, s.registry path = some id ∧ s.runs id = some run ∧ run'.removed = run.removed := by
    intro id₀ run₀ run₁ hRun₀ same hEntry hRun
    rw [update_eq_some] at hRun
    rcases hRun with ⟨rfl, eq⟩ | ⟨-, hRun⟩
    · cases eq
      exact ⟨run₀, hEntry, hRun₀, same⟩
    · exact ⟨run', hEntry, hRun, rfl⟩
  cases step with
  | @lead c call hCall phase free =>
    replace hEntry : Function.update s.registry call.path (some s.nextRun) path = some id := hEntry
    replace hRun : Function.update s.runs s.nextRun
        (some ⟨call.path, c, none, call.mode, none, none⟩) id = some run' := hRun
    rw [update_eq_some] at hEntry hRun
    rcases hRun with ⟨-, eq⟩ | ⟨old, hRun⟩
    · cases eq
      exact .inl rfl
    · rcases hEntry with ⟨-, eq⟩ | ⟨-, hEntry⟩
      · cases eq
        exact absurd rfl old
      · exact .inr ⟨run', hEntry, hRun, rfl⟩
  | @scan c call id₀ run₀ hCall phase hRun₀ =>
    have same : ({ run₀ with
        scan := some ⟨s.clock, s.writes (fileOf call.path)⟩ } : InFlightSync).removed =
        run₀.removed := rfl
    exact .inr (moved hRun₀ same hEntry hRun)
  | publish hCall phase hRun₀ | dropSet hCall phase hRun₀ | dropSetPanicked hCall phase hRun₀ => exact .inr (moved hRun₀ (setResult_removed _) hEntry hRun)
  | @dropRemove c call id₀ run₀ outcome hCall phase hRun₀ =>
    rw [if_pos (safe.leader _ _ _ _ hCall phase).1] at hEntry hRun
    replace hEntry : Function.update s.registry call.path none path = some id := hEntry
    replace hRun : Function.update s.runs id₀
        (some { run₀ with removed := some s.clock }) id = some run' := hRun
    rw [update_eq_some] at hEntry hRun
    rcases hEntry with ⟨-, eq⟩ | ⟨otherPath, hEntry⟩
    · cases eq
    · rcases hRun with ⟨rfl, -⟩ | ⟨-, hRun⟩
      · -- The removed run has an entry under its own path only.
        obtain ⟨r, _, _, hr, path', -⟩ := safe.entry path id hEntry
        obtain ⟨own, hOwn, -, ownPath, -⟩ := safe.run_of_leader hCall phase
        obtain rfl := Option.mem_unique hr hOwn
        exact absurd (path'.symm.trans ownPath) otherPath
      · exact .inr ⟨run', hEntry, hRun, rfl⟩
  | _ => exact .inr ⟨run', hEntry, hRun, rfl⟩

theorem Effect.scanFrom (effect : Effect fileOf s s') {start : ScanStart}
    (hRun' : s'.runs id = some run') (hScan : run'.scan = some start) :
    ∃ run, s.runs id = some run ∧ RunMoved fileOf s id run run' ∧
      (run.scan = some start ∨ start = ⟨s.clock, s.writes (fileOf run.path)⟩) := by
  rcases effect.runFrom hRun' with ⟨run, hRun, moved⟩ | ⟨none, -⟩
  · refine ⟨run, hRun, moved, ?_⟩
    rcases moved.scan with same | now
    · exact .inl (same.symm.trans hScan)
    · exact .inr (Option.mem_unique hScan now.1)
  · rw [hScan] at none
    cases none

theorem Timed.step (h : Timed fileOf s) (safe : Safe s) (step : Step fileOf s l s') : Timed fileOf s' := by
  have effect := step.effect safe
  constructor
  · intro c call' hCall'
    rw [effect.clock]
    rcases effect.callFrom hCall' with ⟨call, hCall, kept, -⟩ | ⟨-, begun, before, -⟩
    · obtain ⟨earlier, bound⟩ := h.call c call hCall
      rw [kept.begun, kept.writes, kept.path]
      exact ⟨by omega, bound.trans (effect.writes _)⟩
    · rw [begun, before]
      exact ⟨Nat.lt_succ_self _, effect.writes _⟩
  · intro id run' start hRun' hScan
    rw [effect.clock]
    obtain ⟨run, hRun, moved, old | rfl⟩ := effect.scanFrom hRun' hScan
    · obtain ⟨earlier, bound⟩ := h.scan id run start hRun old
      rw [moved.path]
      exact ⟨by omega, bound.trans (effect.writes _)⟩
    · rw [moved.path]
      exact ⟨Nat.lt_succ_self _, effect.writes _⟩
  · intro id run' start c call' hRun' hScan hCall' sameFile before
    obtain ⟨run, hRun, moved, scanned⟩ := effect.scanFrom hRun' hScan
    rw [moved.path] at sameFile
    rcases effect.callFrom hCall' with ⟨call, hCall, kept, -⟩ | ⟨-, begun, writes, -⟩
    · rw [kept.path] at sameFile
      rw [kept.begun] at before
      rw [kept.writes]
      rcases scanned with old | rfl
      · exact h.fresh id run start c call hRun old hCall sameFile before
      · rw [← sameFile]
        exact (h.call c call hCall).2
    · rcases scanned with old | rfl
      · have earlier := (h.scan id run start hRun old).1
        omega
      · rw [writes, sameFile]
  · intro id run' start call' hRun' hScan hCall'
    obtain ⟨run, hRun, moved, scanned⟩ := effect.scanFrom hRun' hScan
    rw [moved.leader] at hCall'
    obtain ⟨-, leaderCall, hLeader, -⟩ := safe.run id run hRun
    rcases effect.callFrom hCall' with ⟨call, hCall, kept, -⟩ | ⟨new, -⟩
    · rw [kept.begun]
      rcases scanned with old | rfl
      · exact h.leader id run start call hRun old hCall
      · exact (h.call _ call hCall).1.le
    · rw [hLeader] at new
      cases new
  · intro path id run' hEntry hRun'
    rcases step.entry safe hEntry hRun' with new | ⟨run, hEntry', hRun, same⟩
    · exact new
    · rw [same]
      exact h.entry path id run hEntry' hRun
  · intro c call' id run' time hCall' has hRun' removed
    rcases effect.callFrom hCall' with ⟨call, hCall, kept, join⟩ | ⟨-, -, -, called⟩
    · rw [kept.begun]
      have earlier := (h.call c call hCall).1
      rcases effect.runFrom hRun' with ⟨run, hRun, moved⟩ | ⟨-, none⟩
      · rcases moved.removed with same | now
        · rw [same] at removed
          -- The run was removed before this step, so the call had joined it.
          have had : call.phase.run? = some id := by
            rcases join id has with had | entry | ⟨r, hr, leads⟩
            · exact had
            · rw [h.entry call.path id run entry hRun] at removed
              cases removed
            · obtain rfl := Option.mem_unique hRun' hr
              rw [moved.leader] at leads
              obtain ⟨-, call'', hCall'', -, -, phase⟩ := safe.run id run hRun
              rw [leads] at hCall''
              obtain rfl := Option.mem_unique hCall hCall''
              exact phase.run?
          exact h.joined c call id run time hCall had hRun removed
        · obtain rfl := Option.mem_unique removed now
          exact earlier.le
      · rw [removed] at none
        cases none
    · rw [called] at has
      cases has

theorem timed_inductive : (coalesced fileOf).Inductive fun s => Safe s ∧ Timed fileOf s := by
  refine safe_inductive.and (fun s start => ?_) fun s l t safe h step => h.step safe step
  rw [show s = State.initial from start]
  exact .initial

/-! ### Runs that succeeded -/

/-- A run past its scan keeps the start of it. -/
theorem RunMoved.scan_eq (moved : RunMoved fileOf s id run run') (hLeader : s.calls run.leader = some call)
    (past : call.phase ≠ .leading id .locked) : run'.scan = run.scan := by
  rcases moved.scan with same | ⟨-, call', hCall', locked⟩
  · exact same
  · obtain rfl := Option.mem_unique hLeader hCall'
    exact absurd locked past

variable {report : SyncReport}

/-- A leader whose run has succeeded took that step now, or had before. -/
theorem Step.ran_from (step : Step fileOf s l s') (safe : Safe s)
    (hCall : s'.calls c = some call) (phase : call.phase = .leading id (.ran (some (.ok report)))) :
    s.calls c = some call ∨ l = .finish c (.ok report) := by
  cases step with
  | succeed hCall₀ phase₀ hRun₀ hScan₀ =>
    rcases update_eq_some.mp hCall with ⟨rfl, eq⟩ | ⟨-, hCall⟩
    · cases eq
      cases phase
      exact .inr rfl
    · exact .inl hCall
  | @dropRemove c₀ call₀ id₀ run₀ outcome hCall₀ phase₀ hRun₀ =>
    rw [if_pos (safe.leader _ _ _ _ hCall₀ phase₀).1] at hCall
    rcases update_eq_some.mp hCall with ⟨-, eq⟩ | ⟨-, hCall⟩
    · cases eq
      cases outcome <;> cases phase
    · exact .inl hCall
  | write | outsideLock | outsideUnlock => exact .inl hCall
  | _ =>
    rcases update_eq_some.mp hCall with ⟨-, eq⟩ | ⟨-, hCall⟩
    · cases eq
      cases phase
    · exact .inl hCall

/-- A slot holds a report because it did, or because the leader publishes it. -/
theorem Step.slot_from (step : Step fileOf s l s') (safe : Safe s)
    (hRun : s'.runs id = some run') (ok : run'.result = some (.ok report)) :
    (∃ run, s.runs id = some run ∧ run.result = some (.ok report)) ∨ ∃ c call report, s.calls c = some call ∧
        call.phase = .leading id (.ran (some (.ok report))) := by
  have panicked : ∀ {id₀ : RunId} {run₀ : InFlightSync}, s.runs id₀ = some run₀ →
      Function.update s.runs id₀ (some (run₀.setResult leaderPanicked)) id = some run' →
      ∃ run, s.runs id = some run ∧ run.result = some (.ok report) := by
    intro id₀ run₀ hRun₀ hRun
    rcases update_eq_some.mp hRun with ⟨rfl, eq⟩ | ⟨-, hRun⟩
    · cases eq
      rw [Safe.setResult_result] at ok
      cases old : run₀.result with
      | none =>
        rw [old] at ok
        cases ok
      | some result =>
        rw [old] at ok
        cases ok
        exact ⟨run₀, hRun₀, old⟩
    · exact ⟨run', hRun, ok⟩
  cases step with
  | lead hCall phase free =>
    rcases update_eq_some.mp hRun with ⟨-, eq⟩ | ⟨-, hRun⟩
    · cases eq
      cases ok
    · exact .inl ⟨run', hRun, ok⟩
  | scan hCall phase hRun₀ =>
    rcases update_eq_some.mp hRun with ⟨rfl, eq⟩ | ⟨-, hRun⟩
    · cases eq
      exact .inl ⟨_, hRun₀, ok⟩
    · exact .inl ⟨run', hRun, ok⟩
  | @publish c₀ call₀ id₀ run₀ result hCall phase hRun₀ =>
    rcases update_eq_some.mp hRun with ⟨rfl, eq⟩ | ⟨-, hRun⟩
    · cases eq
      obtain ⟨own, hOwn, -, -, -, empty⟩ := safe.run_of_leader hCall phase
      obtain rfl := Option.some.inj (hRun₀.symm.trans hOwn)
      have empty : run₀.result = none := empty
      rw [Safe.setResult_result, empty] at ok
      cases ok
      exact .inr ⟨c₀, call₀, report, hCall, phase⟩
    · exact .inl ⟨run', hRun, ok⟩
  | dropSet hCall phase hRun₀ | dropSetPanicked hCall phase hRun₀ => exact .inl (panicked hRun₀ hRun)
  | dropRemove hCall phase hRun₀ =>
    rw [if_pos (safe.leader _ _ _ _ hCall phase).1] at hRun
    rcases update_eq_some.mp hRun with ⟨rfl, eq⟩ | ⟨-, hRun⟩
    · cases eq
      exact .inl ⟨_, hRun₀, ok⟩
    · exact .inl ⟨run', hRun, ok⟩
  | _ => exact .inl ⟨run', hRun, ok⟩

end OrbitGraph.Coalesce
