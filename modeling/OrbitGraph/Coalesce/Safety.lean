import OrbitGraph.Coalesce.Protocol

/-!
What holds in every interleaving of coalesced calls.

A run has one leader, which inserted its entry; the entry stays until that
leader removes it, so a path has at most one run in flight. The run's slot is
the leader's outcome from the moment the guard has written it, and every call
that returns has the result of its run's slot or ran out of time.
-/

namespace OrbitGraph.Coalesce

open Lib Sync

def Stage.slot : Stage → Option SyncResult
  | .published result => some result
  | .dropping (some result) => some result
  | .dropping none => some leaderPanicked
  | _ => none

theorem Stage.slot_of_running {stage : Stage} (h : stage.running = true) : stage.slot = none := by
  cases stage <;> first | rfl | cases h

/-- `Leads id slot phase`: the phase is one of the leader of the run `id`, whose
slot is `slot`. -/
inductive Leads (id : RunId) : Option SyncResult → Phase → Prop where
  | leading (stage : Stage) : Leads id stage.slot (.leading id stage)
  | returned (result : SyncResult) : Leads id (some result) (.returned id result)
  | unwound : Leads id (some leaderPanicked) (.unwound id)

/-- The invariant of the protocol. -/
structure Safe (s : State) : Prop where
  run : ∀ id run, s.runs id = some run → id < s.nextRun ∧
    ∃ call, s.calls run.leader = some call ∧ call.path = run.path ∧ call.mode = run.mode ∧
      Leads id run.result call.phase
  leader : ∀ c call id stage, s.calls c = some call → call.phase = .leading id stage →
    s.registry call.path = some id ∧ ∃ run, s.runs id = some run ∧ run.leader = c
  entry : ∀ path id, s.registry path = some id → ∃ run call stage, s.runs id = some run ∧
    run.path = path ∧ s.calls run.leader = some call ∧ call.phase = .leading id stage
  follower : ∀ c call id, s.calls c = some call → call.phase = .following id →
    ∃ run, s.runs id = some run ∧ run.path = call.path ∧ run.leader ≠ c
  returned : ∀ c call id result, s.calls c = some call → call.phase = .returned id result →
    ∃ run, s.runs id = some run ∧ run.path = call.path ∧
      (run.result = some result ∨ (run.leader ≠ c ∧ result = followerTimedOut call.path run.leader))

namespace Safe

variable {s s' : State} {c : CallId} {call : Call} {id : RunId} {run run' : InFlightSync}
  {stage : Stage}

theorem initial : Safe State.initial := by
  constructor <;> intros <;> simp_all [State.initial]

theorem run_of_leader (h : Safe s) (hCall : s.calls c = some call) (phase : call.phase = .leading id stage) :
    ∃ run, s.runs id = some run ∧ run.leader = c ∧ run.path = call.path ∧ run.mode = call.mode ∧
      run.result = stage.slot := by
  obtain ⟨-, run, hRun, rfl⟩ := h.leader c call id stage hCall phase
  obtain ⟨-, call', hCall', path, mode, leads⟩ := h.run id run hRun
  obtain rfl : call = call' := Option.mem_unique hCall hCall'
  refine ⟨run, hRun, rfl, path.symm, mode.symm, ?_⟩
  rw [phase] at leads
  generalize run.result = slot at leads
  cases leads
  rfl

/-- What may change in a run: the first result is written. -/
structure RunKept (run run' : InFlightSync) : Prop where
  leader : run'.leader = run.leader
  path : run'.path = run.path
  mode : run'.mode = run.mode
  result : ∀ result, run.result = some result → run'.result = some result

theorem RunKept.refl : RunKept run run := ⟨rfl, rfl, rfl, fun _ h => h⟩

theorem RunKept.setResult (result : SyncResult) : RunKept run (run.setResult result) := by
  unfold InFlightSync.setResult
  split
  · next empty =>
      refine ⟨rfl, rfl, rfl, fun r hr => ?_⟩
      rw [hr] at empty
      cases empty
  · exact .refl

variable {r : InFlightSync} {id' : RunId}

/-- A leader other than `c` leads another run. -/
theorem other_leader (h : Safe s) (hCall : s.calls c = some call) (phase : call.phase = .leading id stage)
    (hr : s.runs id' = some r) (differs : id' ≠ id) : r.leader ≠ c := by
  intro eq
  obtain ⟨-, call', hCall', -, -, leads⟩ := h.run id' r hr
  rw [eq, hCall] at hCall'
  cases hCall'
  rw [phase] at leads
  generalize r.result = slot at leads
  cases leads
  exact differs rfl

theorem keep_run (hRun : s.runs id = some run) (kept : RunKept run run')
    (runs : s'.runs = Function.update s.runs id (some run'))
    (hr : s.runs id' = some r) : ∃ r', s'.runs id' = some r' ∧ RunKept r r' := by
  rw [runs]
  by_cases differs : id' = id
  · subst differs
    rw [hRun] at hr
    cases hr
    exact ⟨run', by simp, kept⟩
  · exact ⟨r, by simpa [differs] using hr, .refl⟩

/-- A step of a leader: its entry stays as long as it leads. -/
theorem progress (h : Safe s) {after : Phase} (hCall : s.calls c = some call)
    (phase : call.phase = .leading id stage) (hRun : s.runs id = some run) (kept : RunKept run run')
    (slot : Leads id run'.result after)
    (calls : s'.calls = Function.update s.calls c (some { call with phase := after }))
    (runs : s'.runs = Function.update s.runs id (some run'))
    (registry : (s'.registry = s.registry ∧ ∃ stage', after = .leading id stage') ∨
      (s'.registry = Function.update s.registry call.path none ∧ ∀ stage', after ≠ .leading id stage'))
    (nextRun : s'.nextRun = s.nextRun) : Safe s' := by
  obtain ⟨own, hRun', leads, path, mode, -⟩ := h.run_of_leader hCall phase
  obtain rfl : run = own := Option.mem_unique hRun hRun'
  have entry := (h.leader c call id stage hCall phase).1
  have ownRun : s'.runs id = some run' := by simp [runs]
  have ownCall : s'.calls run'.leader = some { call with phase := after } := by
    rw [calls, kept.leader, leads]
    simp
  have others : ∀ path' id', s.registry path' = some id' → id' ≠ id → s'.registry path' = some id' := by
    intro path' id' entry' differs
    rcases registry with ⟨same, -⟩ | ⟨gone, -⟩
    · exact same ▸ entry'
    · have otherPath : path' ≠ call.path := by
        rintro rfl
        exact differs (Option.mem_unique entry' entry)
      simpa [gone, otherPath] using entry'
  constructor
  · intro id' r hr
    rw [runs, update_eq_some] at hr
    rw [nextRun]
    rcases hr with ⟨rfl, eq⟩ | ⟨differs, hr⟩
    · cases eq
      exact ⟨(h.run _ run hRun).1, _, ownCall, (kept.path.trans path).symm, (kept.mode.trans mode).symm, slot⟩
    · obtain ⟨below, call', hCall', rest⟩ := h.run id' r hr
      exact ⟨below, call', by simpa [calls, h.other_leader hCall phase hr differs] using hCall', rest⟩
  · intro c' call' id' stage'' hCall' phase'
    rw [calls, update_eq_some] at hCall'
    rcases hCall' with ⟨rfl, eq⟩ | ⟨differs, hCall'⟩
    · cases eq
      obtain rfl : after = .leading id' stage'' := phase'
      rcases registry with ⟨same, _, eq⟩ | ⟨-, gone⟩
      · cases eq
        exact ⟨same ▸ entry, run', ownRun, kept.leader.trans leads⟩
      · generalize run'.result = result at slot
        cases slot
        exact absurd rfl (gone stage'')
    · obtain ⟨entry', r, hr, rfl⟩ := h.leader c' call' id' stage'' hCall' phase'
      have notId : id' ≠ id := by
        rintro rfl
        rw [hRun] at hr
        cases hr
        exact differs leads
      exact ⟨others call'.path id' entry' notId, r, by simpa [runs, notId] using hr, rfl⟩
  · intro path' id' hEntry
    have old : s.registry path' = some id' ∧ (id' = id → ∃ stage', after = .leading id stage') := by
      rcases registry with ⟨same, leading⟩ | ⟨gone, -⟩
      · exact ⟨same ▸ hEntry, fun _ => leading⟩
      · rw [gone, update_eq_some] at hEntry
        obtain ⟨otherPath, hEntry⟩ := hEntry.resolve_left fun ⟨_, eq⟩ => nomatch eq
        refine ⟨hEntry, ?_⟩
        rintro rfl
        obtain ⟨r, -, -, hr, samePath, -⟩ := h.entry path' id' hEntry
        cases hRun.symm.trans hr
        exact absurd (samePath.symm.trans path) otherPath
    obtain ⟨r, call', stage'', hr, rfl, hCall', phase'⟩ := h.entry path' id' old.1
    by_cases same : id' = id
    · subst same
      rw [hRun] at hr
      cases hr
      obtain ⟨stage', leading⟩ := old.2 rfl
      exact ⟨run', _, stage', ownRun, kept.path, ownCall, leading⟩
    · refine ⟨r, call', stage'', by simpa [runs, same] using hr, rfl, ?_, phase'⟩
      simpa [calls, h.other_leader hCall phase hr same] using hCall'
  · intro c' call' id' hCall' phase'
    rw [calls, update_eq_some] at hCall'
    rcases hCall' with ⟨rfl, eq⟩ | ⟨-, hCall'⟩
    · cases eq
      obtain rfl : after = .following id' := phase'
      generalize run'.result = result at slot
      cases slot
    · obtain ⟨r, hr, path', notLeader⟩ := h.follower c' call' id' hCall' phase'
      obtain ⟨r', hr', kept'⟩ := keep_run hRun kept runs hr
      exact ⟨r', hr', kept'.path.trans path', kept'.leader ▸ notLeader⟩
  · intro c' call' id' result hCall' phase'
    rw [calls, update_eq_some] at hCall'
    rcases hCall' with ⟨rfl, eq⟩ | ⟨-, hCall'⟩
    · cases eq
      obtain rfl : after = .returned id' result := phase'
      generalize written : run'.result = result' at slot
      cases slot
      exact ⟨run', ownRun, kept.path.trans path, .inl written⟩
    · obtain ⟨r, hr, path', served⟩ := h.returned c' call' id' result hCall' phase'
      obtain ⟨r', hr', kept'⟩ := keep_run hRun kept runs hr
      refine ⟨r', hr', kept'.path.trans path', ?_⟩
      rw [kept'.leader]
      exact served.imp_left (kept'.result result)

/-- A step of a leader to another of its stages. -/
theorem advance (h : Safe s) (stage' : Stage) (hCall : s.calls c = some call)
    (phase : call.phase = .leading id stage) (hRun : s.runs id = some run)
    (kept : RunKept run run') (slot : run'.result = stage'.slot) (calls : s'.calls =
      Function.update s.calls c (some { call with phase := .leading id stage' }))
    (runs : s'.runs = Function.update s.runs id (some run'))
    (registry : s'.registry = s.registry) (nextRun : s'.nextRun = s.nextRun) : Safe s' :=
  h.progress hCall phase hRun kept (slot ▸ .leading stage') calls runs (.inl ⟨registry, stage', rfl⟩) nextRun

theorem not_leader (h : Safe s)
    (waits : ∀ call, s.calls c = some call → call.phase = .called ∨ ∃ id, call.phase = .following id)
    (hr : s.runs id' = some r) : r.leader ≠ c := by
  rintro rfl
  obtain ⟨-, call', hCall', -, -, leads⟩ := h.run id' r hr
  generalize r.result = slot at leads
  rcases waits call' hCall' with phase | ⟨_, phase⟩
  · rw [phase] at leads
    cases leads
  · rw [phase] at leads
    cases leads

theorem rephase (h : Safe s) {after : Call} (notLeader : ∀ id r, s.runs id = some r → r.leader ≠ c)
    (notLeading : ∀ id stage, after.phase ≠ .leading id stage)
    (follows : ∀ id, after.phase = .following id → ∃ run, s.runs id = some run ∧ run.path = after.path)
    (returns : ∀ id result, after.phase = .returned id result → ∃ run, s.runs id = some run ∧ run.path = after.path ∧
        (run.result = some result ∨ result = followerTimedOut after.path run.leader))
    (calls : s'.calls = Function.update s.calls c (some after)) (runs : s'.runs = s.runs)
    (registry : s'.registry = s.registry) (nextRun : s'.nextRun = s.nextRun) : Safe s' := by
  constructor
  · intro id' r hr
    rw [runs] at hr
    rw [nextRun, calls]
    obtain ⟨below, call', hCall', rest⟩ := h.run id' r hr
    exact ⟨below, call', by simpa [notLeader id' r hr] using hCall', rest⟩
  · intro c' call' id' stage'' hCall' phase'
    rw [calls, update_eq_some] at hCall'
    rw [registry, runs]
    rcases hCall' with ⟨-, eq⟩ | ⟨-, hCall'⟩
    · cases eq
      exact absurd phase' (notLeading id' stage'')
    · exact h.leader c' call' id' stage'' hCall' phase'
  · intro path' id' hEntry
    rw [registry] at hEntry
    rw [calls, runs]
    obtain ⟨r, call', stage'', hr, path, hCall', phase'⟩ := h.entry path' id' hEntry
    exact ⟨r, call', stage'', hr, path, by simpa [notLeader id' r hr] using hCall', phase'⟩
  · intro c' call' id' hCall' phase'
    rw [calls, update_eq_some] at hCall'
    rw [runs]
    rcases hCall' with ⟨rfl, eq⟩ | ⟨-, hCall'⟩
    · cases eq
      obtain ⟨r, hr, path⟩ := follows id' phase'
      exact ⟨r, hr, path, notLeader id' r hr⟩
    · exact h.follower c' call' id' hCall' phase'
  · intro c' call' id' result hCall' phase'
    rw [calls, update_eq_some] at hCall'
    rw [runs]
    rcases hCall' with ⟨rfl, eq⟩ | ⟨-, hCall'⟩
    · cases eq
      obtain ⟨r, hr, path, served⟩ := returns id' result phase'
      exact ⟨r, hr, path, served.imp_right fun late => ⟨notLeader id' r hr, late⟩⟩
    · exact h.returned c' call' id' result hCall' phase'

theorem unfollow (h : Safe s) {run : InFlightSync} {result : SyncResult} (hCall : s.calls c = some call)
    (phase : call.phase = .following id) (hRun : s.runs id = some run)
    (served : run.result = some result ∨ result = followerTimedOut call.path run.leader) :
    Safe (s.setPhase c call (.returned id result)) := by
  obtain ⟨r, hr, path, -⟩ := h.follower c call id hCall phase
  obtain rfl := Option.mem_unique hRun hr
  refine h.rephase (fun id r hr => h.not_leader (fun call' hCall' => ?_) hr) ?_ ?_ ?_ rfl rfl rfl rfl
  · rw [hCall] at hCall'
    cases hCall'
    exact .inr ⟨_, phase⟩
  · simp
  · simp
  · intro id' result' eq
    cases eq
    exact ⟨run, hRun, path, served⟩

/-- A call that finds no entry inserts one and leads its run. -/
theorem insert (h : Safe s) (hCall : s.calls c = some call) (phase : call.phase = .called)
    (free : s.registry call.path = none) {new : InFlightSync}
    (own : new.leader = c ∧ new.path = call.path ∧ new.mode = call.mode ∧ new.result = none) (calls : s'.calls =
      Function.update s.calls c (some { call with phase := .leading s.nextRun .waiting }))
    (runs : s'.runs = Function.update s.runs s.nextRun (some new))
    (registry : s'.registry = Function.update s.registry call.path (some s.nextRun))
    (nextRun : s'.nextRun = s.nextRun + 1) : Safe s' := by
  obtain ⟨leads, path, mode, result⟩ := own
  have notLeader : ∀ id r, s.runs id = some r → r.leader ≠ c := fun id r hr =>
    h.not_leader (fun call' hCall' => by
      obtain rfl : call = call' := Option.mem_unique hCall hCall'
      exact .inl phase) hr
  have old : ∀ id r, s.runs id = some r → id ≠ s.nextRun :=
    fun id r hr => (h.run id r hr).1.ne
  constructor
  · intro id' r hr
    rw [runs, update_eq_some] at hr
    rw [nextRun, calls]
    rcases hr with ⟨rfl, eq⟩ | ⟨-, hr⟩
    · cases eq
      refine ⟨Nat.lt_succ_self _, { call with phase := .leading s.nextRun .waiting }, ?_, path.symm,
        mode.symm, ?_⟩
      · rw [leads]
        simp
      · rw [result]
        exact .leading .waiting
    · obtain ⟨below, call', hCall', rest⟩ := h.run id' r hr
      exact ⟨below.trans (Nat.lt_succ_self _), call', by simpa [notLeader id' r hr] using hCall',
        rest⟩
  · intro c' call' id' stage'' hCall' phase'
    rw [calls, update_eq_some] at hCall'
    rw [registry, runs]
    rcases hCall' with ⟨rfl, eq⟩ | ⟨-, hCall'⟩
    · cases eq
      cases phase'
      exact ⟨by simp, new, by simp, leads⟩
    · obtain ⟨entry, r, hr, own⟩ := h.leader c' call' id' stage'' hCall' phase'
      have otherPath : call'.path ≠ call.path := by
        intro eq
        rw [eq, free] at entry
        cases entry
      exact ⟨by simpa [otherPath] using entry, r, by simpa [old id' r hr] using hr, own⟩
  · intro path' id' hEntry
    rw [registry, update_eq_some] at hEntry
    rw [calls, runs]
    rcases hEntry with ⟨rfl, eq⟩ | ⟨-, hEntry⟩
    · cases eq
      refine ⟨new, { call with phase := .leading s.nextRun .waiting }, .waiting, by simp, path, ?_, rfl⟩
      rw [leads]
      simp
    · obtain ⟨r, call', stage'', hr, samePath, hCall', phase'⟩ := h.entry path' id' hEntry
      exact ⟨r, call', stage'', by simpa [old id' r hr] using hr, samePath,
        by simpa [notLeader id' r hr] using hCall', phase'⟩
  · intro c' call' id' hCall' phase'
    rw [calls, update_eq_some] at hCall'
    rw [runs]
    rcases hCall' with ⟨rfl, eq⟩ | ⟨-, hCall'⟩
    · cases eq
      cases phase'
    · obtain ⟨r, hr, rest⟩ := h.follower c' call' id' hCall' phase'
      exact ⟨r, by simpa [old id' r hr] using hr, rest⟩
  · intro c' call' id' result' hCall' phase'
    rw [calls, update_eq_some] at hCall'
    rw [runs]
    rcases hCall' with ⟨rfl, eq⟩ | ⟨-, hCall'⟩
    · cases eq
      cases phase'
    · obtain ⟨r, hr, rest⟩ := h.returned c' call' id' result' hCall' phase'
      exact ⟨r, by simpa [old id' r hr] using hr, rest⟩

theorem setResult_result (result : SyncResult) : (run.setResult result).result = some (run.result.getD result) := by
  unfold InFlightSync.setResult
  cases h : run.result <;> simp [h]

variable {fileOf : Text → Nat}

/-- Every step keeps the invariant. -/
theorem step (h : Safe s) {l : Label} (step : Step fileOf s l s') : Safe s' := by
  cases step with
  | call new =>
    refine h.rephase (fun id r hr => h.not_leader (fun call hCall => ?_) hr) ?_ ?_ ?_ rfl rfl rfl rfl
    · rw [new] at hCall
      cases hCall
    · simp
    · simp
    · simp
  | lead hCall phase free => exact h.insert hCall phase free ⟨rfl, rfl, rfl, rfl⟩ rfl rfl rfl rfl
  | @follow c call id hCall phase entry =>
    obtain ⟨r, _, _, hr, path, -⟩ := h.entry call.path id entry
    refine h.rephase (fun id r hr => h.not_leader (fun call' hCall' => ?_) hr) ?_ ?_ ?_ rfl rfl rfl rfl
    · rw [hCall] at hCall'
      cases hCall'
      exact .inl phase
    · simp
    · intro id' eq
      cases eq
      exact ⟨r, hr, path⟩
    · simp
  | @acquire c call id hCall phase free =>
    obtain ⟨run, hRun, -, -, -, slot⟩ := h.run_of_leader hCall phase
    refine h.advance .locked hCall phase hRun .refl slot rfl ?_ rfl rfl
    simp [State.setPhase, State.setLock, ← hRun]
  | @scan c call id run hCall phase hRun =>
    obtain ⟨own, hRun', -, -, -, slot⟩ := h.run_of_leader hCall phase
    obtain rfl := Option.mem_unique hRun hRun'
    have kept : RunKept run
        { run with scan := some ⟨s.clock, s.writes (fileOf call.path)⟩ } :=
      ⟨rfl, rfl, rfl, fun _ h => h⟩
    exact h.advance .scanned hCall phase hRun kept slot rfl rfl rfl rfl
  | @succeed c call id run start report hCall phase hRun hScan =>
    obtain ⟨own, hRun', -, -, -, slot⟩ := h.run_of_leader hCall phase
    obtain rfl := Option.mem_unique hRun hRun'
    refine h.advance (.ran (some (.ok report))) hCall phase hRun .refl slot rfl ?_ rfl rfl
    simp [State.setPhase, State.setLock, ← hRun]
  | @fail c call id stage error hCall phase running =>
    obtain ⟨run, hRun, -, -, -, slot⟩ := h.run_of_leader hCall phase
    have empty : stage.slot = none := Stage.slot_of_running running
    refine h.advance (.ran (some (.error error))) hCall phase hRun .refl (slot.trans empty) rfl ?_ rfl rfl
    simp [State.setPhase, State.releaseLock, ← hRun]
  | @panic c call id stage hCall phase running =>
    obtain ⟨run, hRun, -, -, -, slot⟩ := h.run_of_leader hCall phase
    have empty : stage.slot = none := Stage.slot_of_running running
    refine h.advance (.ran none) hCall phase hRun .refl (slot.trans empty) rfl ?_ rfl rfl
    simp [State.setPhase, State.releaseLock, ← hRun]
  | @publish c call id run result hCall phase hRun =>
    obtain ⟨own, hRun', -, -, -, slot⟩ := h.run_of_leader hCall phase
    obtain rfl := Option.mem_unique hRun hRun'
    refine h.advance (.published result) hCall phase hRun (.setResult _) ?_ rfl rfl rfl rfl
    rw [setResult_result, slot]
    rfl
  | @dropSet c call id run result hCall phase hRun =>
    obtain ⟨own, hRun', -, -, -, slot⟩ := h.run_of_leader hCall phase
    obtain rfl := Option.mem_unique hRun hRun'
    refine h.advance (.dropping (some result)) hCall phase hRun (.setResult _) ?_ rfl rfl rfl rfl
    rw [setResult_result, slot]
    rfl
  | dropSetPanicked hCall phase hRun =>
    obtain ⟨own, hRun', -, -, -, slot⟩ := h.run_of_leader hCall phase
    obtain rfl := Option.mem_unique hRun hRun'
    refine h.advance (.dropping none) hCall phase hRun (.setResult _) ?_ rfl rfl rfl rfl
    rw [setResult_result, slot]
    rfl
  | @dropRemove c call id run outcome hCall phase hRun =>
    have entry := (h.leader _ _ _ _ hCall phase).1
    have kept : RunKept run { run with removed := some s.clock } :=
      ⟨rfl, rfl, rfl, fun _ h => h⟩
    rw [if_pos entry]
    obtain ⟨own, hRun', -, -, -, slot⟩ := h.run_of_leader hCall phase
    obtain rfl := Option.mem_unique hRun hRun'
    refine h.progress hCall phase hRun kept ?_ rfl rfl (.inr ⟨rfl, fun stage' => by cases outcome <;> simp⟩) rfl
    rw [show run.result = _ from slot]
    cases outcome with
    | none => exact .unwound
    | some result => exact .returned result
  | @wake c call id run result hCall phase hRun ready => exact h.unfollow hCall phase hRun (.inl ready)
  | @timeout c call id run hCall phase hRun pending => exact h.unfollow hCall phase hRun (.inr rfl)
  | write | outsideLock free | outsideUnlock held => exact ⟨h.run, h.leader, h.entry, h.follower, h.returned⟩

end Safe

variable {fileOf : Text → Nat} {s : State}

theorem safe_inductive : (coalesced fileOf).Inductive Safe where
  init s start := by
    rw [show s = State.initial from start]
    exact Safe.initial
  step _ _ _ h step := h.step step

/-! ### The file lock -/

def LocksHeld (fileOf : Text → Nat) (s : State) : Prop :=
  ∀ c call id stage, s.calls c = some call → call.phase = .leading id stage →
    stage.holdsLock = true → s.lock (fileOf call.path) = some (.run id)

theorem Safe.leader_unique (h : Safe s) {c c' : CallId} {call call' : Call} {id : RunId}
    {stage stage' : Stage} (hCall : s.calls c = some call) (phase : call.phase = .leading id stage)
    (hCall' : s.calls c' = some call') (phase' : call'.phase = .leading id stage') : c = c' := by
  obtain ⟨-, run, hRun, rfl⟩ := h.leader c call id stage hCall phase
  obtain ⟨-, run', hRun', rfl⟩ := h.leader c' call' id stage' hCall' phase'
  rw [Option.mem_unique hRun hRun']

theorem LocksHeld.rephase {s' : State} {c : CallId} {after : Call} (h : LocksHeld fileOf s)
    (calls : s'.calls = Function.update s.calls c (some after)) (lock : s'.lock = s.lock)
    (own : ∀ id stage, after.phase = .leading id stage → stage.holdsLock = true →
      s.lock (fileOf after.path) = some (.run id)) : LocksHeld fileOf s' := by
  intro c' call' id' stage' hCall' phase' holds
  rw [calls, update_eq_some] at hCall'
  rw [lock]
  rcases hCall' with ⟨-, eq⟩ | ⟨-, hCall'⟩
  · cases eq
    exact own id' stage' phase' holds
  · exact h c' call' id' stage' hCall' phase' holds

/-- A leader takes or frees its file's lock, which no other leader holds. -/
theorem LocksHeld.relock {s' : State} {c : CallId} {call : Call} {id : RunId}
    {stage stage' : Stage} (h : LocksHeld fileOf s) (holder : Option Holder) (safe : Safe s)
    (hCall : s.calls c = some call) (phase : call.phase = .leading id stage)
    (calls : s'.calls = Function.update s.calls c (some { call with phase := .leading id stage' }))
    (lock : s'.lock = Function.update s.lock (fileOf call.path) holder)
    (mine : s.lock (fileOf call.path) = none ∨ s.lock (fileOf call.path) = some (.run id))
    (own : stage'.holdsLock = true → holder = some (.run id)) : LocksHeld fileOf s' := by
  intro c' call' id' stage'' hCall' phase' holds
  rw [calls, update_eq_some] at hCall'
  rw [lock]
  rcases hCall' with ⟨rfl, eq⟩ | ⟨differs, hCall'⟩
  · cases eq
    cases phase'
    simp [own holds]
  · have held := h c' call' id' stage'' hCall' phase' holds
    have otherFile : fileOf call'.path ≠ fileOf call.path := by
      intro same
      rw [same] at held
      rcases mine with free | mine
      · rw [held] at free
        cases free
      · rw [held] at mine
        cases mine
        exact differs (safe.leader_unique hCall' phase' hCall phase)
    simpa [otherFile] using held

theorem LocksHeld.step (h : LocksHeld fileOf s) (safe : Safe s) {l : Label} {s' : State}
    (step : Step fileOf s l s') : LocksHeld fileOf s' := by
  cases step with
  | call new | follow hCall phase entry | wake hCall phase hRun ready | timeout hCall phase hRun pending => exact h.rephase rfl rfl nofun
  | lead hCall phase free | publish hCall phase hRun | dropSet hCall phase hRun
  | dropSetPanicked hCall phase hRun =>
    refine h.rephase rfl rfl fun id stage eq holds => ?_
    cases eq
    cases holds
  | @acquire c call id hCall phase free =>
    exact h.relock (some (.run id)) safe hCall phase rfl rfl (.inl free) fun _ => rfl
  | @scan c call id run hCall phase hRun =>
    refine h.rephase rfl rfl fun id' stage eq holds => ?_
    cases eq
    exact h c call id .locked hCall phase rfl
  | succeed hCall phase hRun hScan =>
    exact h.relock none safe hCall phase rfl rfl (.inr (h _ _ _ _ hCall phase rfl)) fun holds => by
      cases holds
  | @fail c call id stage error hCall phase running | @panic c call id stage hCall phase running =>
    cases holds : stage.holdsLock with
    | true =>
      refine h.relock none safe hCall phase rfl ?_ (.inr (h _ _ _ _ hCall phase holds)) fun eq => by
        cases eq
      exact if_pos holds
    | false =>
      refine h.rephase rfl (if_neg (by simp [holds])) fun id stage eq holds => ?_
      cases eq
      cases holds
  | @dropRemove c call id run outcome hCall phase hRun =>
    have notLeading : ∀ id' stage, outcome.elim (.unwound id) (.returned id) ≠
        Phase.leading id' stage := by cases outcome <;> simp
    rw [if_pos (safe.leader _ _ _ _ hCall phase).1]
    exact h.rephase rfl rfl fun id stage eq => absurd eq (notLeading id stage)
  | write => exact h
  | @outsideLock file free =>
    intro c call id stage hCall phase holds
    have held := h c call id stage hCall phase holds
    have otherFile : fileOf call.path ≠ file := by
      rintro rfl
      rw [held] at free
      cases free
    simpa [State.setLock, otherFile] using held
  | @outsideUnlock file outside =>
    intro c call id stage hCall phase holds
    have held := h c call id stage hCall phase holds
    have otherFile : fileOf call.path ≠ file := by
      rintro rfl
      rw [held] at outside
      cases outside
    simpa [State.setLock, otherFile] using held

theorem locksHeld_inductive : (coalesced fileOf).Inductive fun s => Safe s ∧ LocksHeld fileOf s := by
  refine safe_inductive.and (fun s start => ?_) fun s l t safe h step => h.step safe step
  rw [show s = State.initial from start]
  intro c call id stage hCall
  cases hCall

/-! ### The protocol's safety -/

structure ProtocolSafe (fileOf : Text → Nat) (s : State) : Prop where
  /-- At most one run of a path is in flight. -/
  oneRun : ∀ c c' call call' id id' stage stage', s.calls c = some call → s.calls c' = some call' →
    call.phase = .leading id stage → call'.phase = .leading id' stage' → call.path = call'.path →
    c = c' ∧ id = id'
  /-- At most one run of a file, whatever its path, is past the lock. -/
  oneHolder : ∀ c c' call call' id id' stage stage', s.calls c = some call →
    s.calls c' = some call' → call.phase = .leading id stage → call'.phase = .leading id' stage' →
    stage.holdsLock = true → stage'.holdsLock = true → fileOf call.path = fileOf call'.path →
    c = c' ∧ id = id'
  /-- A call returns its leader's outcome, or is a follower that timed out. -/
  ownResult : ∀ c call id result, s.calls c = some call → call.phase = .returned id result →
    ∃ run leaderCall, s.runs id = some run ∧ run.path = call.path ∧
      s.calls run.leader = some leaderCall ∧
      (Leads id (some result) leaderCall.phase ∨ (run.leader ≠ c ∧ result = followerTimedOut call.path run.leader))
  /-- Only the leader that inserted an entry removes it. -/
  ownRemoval : ∀ path id, s.registry path = some id → ∀ l s', Step fileOf s l s' →
    s'.registry path = some id ∨ ∃ run, s.runs id = some run ∧ l = .dropRemove run.leader
  /-- A leader's entry is there as long as it leads. -/
  entryKept : ∀ c call id stage, s.calls c = some call → call.phase = .leading id stage →
    s.registry call.path = some id

/-- An entry leaves the registry only when the leader of its run drops its
guard. -/
theorem Safe.ownRemoval (h : Safe s) {path : Text} {id : RunId} (entry : s.registry path = some id)
    {l : Label} {s' : State} (step : Step fileOf s l s') :
    s'.registry path = some id ∨ ∃ run, s.runs id = some run ∧ l = .dropRemove run.leader := by
  cases step with
  | @lead c call hCall phase free =>
    have otherPath : path ≠ call.path := by
      rintro rfl
      rw [free] at entry
      cases entry
    exact .inl (by simpa [State.setPhase, State.setRun, otherPath] using entry)
  | @dropRemove c call id' run outcome hCall phase hRun =>
    obtain ⟨own, r, hr, leads⟩ := h.leader c call id' _ hCall phase
    by_cases samePath : path = call.path
    · subst samePath
      rw [own] at entry
      cases entry
      exact .inr ⟨r, hr, by rw [leads]⟩
    · rw [if_pos own]
      exact .inl (by simpa [State.setPhase, State.setRun, samePath] using entry)
  | _ => exact .inl entry

/-- **Coalescing is safe.** In every interleaving of calls, runs that fail or
panic, waits that run out and writes: a path has at most one run in flight,
every call returns its own leader's outcome or times out, and an entry is
removed only by the leader that inserted it. -/
theorem coalescing_safe (reach : (coalesced fileOf).Reachable s) : ProtocolSafe fileOf s := by
  obtain ⟨safe, locks⟩ := reach.of_inductive locksHeld_inductive
  constructor
  · intro c c' call call' id id' stage stage' hCall hCall' phase phase' samePath
    have entry := (safe.leader c call id stage hCall phase).1
    have entry' := (safe.leader c' call' id' stage' hCall' phase').1
    rw [samePath, entry'] at entry
    cases entry
    exact ⟨safe.leader_unique hCall phase hCall' phase', rfl⟩
  · intro c c' call call' id id' stage stage' hCall hCall' phase phase' holds holds' sameFile
    have held := locks c call id stage hCall phase holds
    have held' := locks c' call' id' stage' hCall' phase' holds'
    rw [sameFile, held'] at held
    cases held
    exact ⟨safe.leader_unique hCall phase hCall' phase', rfl⟩
  · intro c call id result hCall phase
    obtain ⟨run, hRun, path, served⟩ := safe.returned c call id result hCall phase
    obtain ⟨-, leaderCall, hLeader, -, -, leads⟩ := safe.run id run hRun
    refine ⟨run, leaderCall, hRun, path, hLeader, ?_⟩
    rcases served with published | late
    · exact .inl (published ▸ leads)
    · exact .inr late
  · intro path id entry l s' step
    exact safe.ownRemoval entry step
  · intro c call id stage hCall phase
    exact (safe.leader c call id stage hCall phase).1

namespace Sample

def path : Text := "graph.db"

def report : SyncReport := ⟨1, 1, 0⟩

theorem joinedLate_run : ∃ u v labels s, (coalesced fun _ => 0).Reachable u ∧
    u.calls 1 = some ⟨path, .full, 5, 1, .called⟩ ∧ u.registry path = some 0 ∧
    Step (fun _ => 0) u (.register 1) v ∧ (coalesced fun _ => 0).Run v labels s ∧
    s.calls 1 = some ⟨path, .full, 5, 1, .returned 0 (.ok report)⟩ ∧
    s.runs 0 = some ⟨path, 0, some (.ok report), .auto, some ⟨3, 0⟩, some 10⟩ := by
  have start : (coalesced fun _ => 0).Reachable State.initial := .of_init rfl
  have called := start.step (Step.call rfl : Step _ _ (.call 0 path .auto) _)
  have leading := called.step (Step.lead rfl rfl rfl : Step _ _ (.register 0) _)
  have locked := leading.step (Step.acquire rfl rfl rfl : Step _ _ (.acquire 0) _)
  have scanned := locked.step (Step.scan rfl rfl rfl : Step _ _ (.scan 0) _)
  have written := scanned.step (Step.write : Step _ _ (.write 0) _)
  have joining := written.step (Step.call rfl : Step _ _ (.call 1 path .full) _)
  have following := joining.step (Step.follow rfl rfl rfl : Step _ _ (.register 1) _)
  have stay : ∀ {s}, (coalesced fun _ => 0).Reachable s → (coalesced fun _ => 0).Run s [] s :=
    fun _ => .nil _
  have ran := (stay following).snoc
    (Step.succeed rfl rfl rfl rfl : Step _ _ (.finish 0 (.ok report)) _)
  have published := ran.snoc (Step.publish rfl rfl rfl : Step _ _ (.publish 0) _)
  have dropping := published.snoc (Step.dropSet rfl rfl rfl : Step _ _ (.dropSet 0) _)
  have removed := dropping.snoc (Step.dropRemove rfl rfl rfl : Step _ _ (.dropRemove 0) _)
  have woken := removed.snoc (Step.wake rfl rfl rfl rfl : Step _ _ (.wake 1) _)
  exact ⟨_, _, _, _, joining, rfl, rfl, Step.follow rfl rfl rfl, woken, rfl, rfl⟩

theorem reachable_joinedLate : ∃ s, (coalesced fun _ => 0).Reachable s ∧
    s.calls 1 = some ⟨path, .full, 5, 1, .returned 0 (.ok report)⟩ ∧
    s.runs 0 = some ⟨path, 0, some (.ok report), .auto, some ⟨3, 0⟩, some 10⟩ := by
  obtain ⟨u, v, labels, s, reach, -, -, registers, run, rest⟩ := joinedLate_run
  exact ⟨s, (reach.step registers).run run, rest⟩

theorem coalescing_safe_joinedLate : ∃ s, (coalesced fun _ => 0).Reachable s ∧
    s.calls 1 = some ⟨path, .full, 5, 1, .returned 0 (.ok report)⟩ ∧
    ProtocolSafe (fun _ => 0) s := by
  obtain ⟨s, reach, follower, -⟩ := reachable_joinedLate
  exact ⟨s, reach, follower, coalescing_safe reach⟩

end Sample

end OrbitGraph.Coalesce
