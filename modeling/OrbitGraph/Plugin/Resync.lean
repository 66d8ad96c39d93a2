import OrbitGraph.History.System
import OrbitGraph.Plugin.OrbitSync

/-!
A repeated `orbit_sync`.

A call leaves every pair settled: asked for it again with the same answers, the index
stores nothing. A pair that stored something is settled by what it stored; one that did
not stays settled while other pairs are stored, since a delivery of its id that they bring
has another task.
-/

namespace OrbitGraph.Plugin

open Lib History

theorem require_bind_state {σ α : Type} (check : Except GraphError Unit) (f : Unit → Command GraphError σ α) (s : σ) :
    ((require check >>= f) s).2 = match check with
      | .ok u => (f u s).2
      | .error _ => s := by
  cases check <;> rfl

/-- What `add_supplied_snapshot` leaves, where it gets to its transaction. -/
theorem addSuppliedSnapshot_state (index : HistoryIndex) (env : Environment) (deliveryId : Text) (snapshot : TaskAssociation) :
    ∃ ready : Bool, ∀ db, (index.addSuppliedSnapshot env deliveryId snapshot db).2 =
      if ready then Command.committed (index.storeSnapshot deliveryId (redactTask snapshot) db) db else db := by
  simp only [HistoryIndex.addSuppliedSnapshot, require_bind_state, Command.transaction_state]
  cases index.refuseReadOnly "store caller-supplied task snapshot" with
  | error _ => exact ⟨false, fun _ => rfl⟩
  | ok _ =>
    cases validateTaskAssociation snapshot with
    | error _ => exact ⟨false, fun _ => rfl⟩
    | ok _ =>
      cases env.check .lock with
      | error _ => exact ⟨false, fun _ => rfl⟩
      | ok _ =>
        cases env.failure .commit with
        | some _ => exact ⟨false, fun _ => rfl⟩
        | none => exact ⟨true, fun _ => rfl⟩

section Settled

variable [GitObjects] {index : HistoryIndex} {env : Environment} {pair : TaskRun} {branch : Text}
  {verified : VerifiedDelivery pair branch} {db db' t : Database}

theorem VerifiedDelivery.oneTask (opened : index.landingBranch = normalizeBranch branch)
    (verified : VerifiedDelivery pair branch) {repo : Repository} {change : DeliveredChange}
    (prepared : index.prepareImport repo verified.delivery verified.suppliedSnapshot.toList = .ok change) :
    OneTask (index.keyOf pair.deliveryId) pair.taskId (verified.suppliedSnapshot.map redactTask) change := by
  obtain ⟨tasks, normal, supplied, same, key⟩ := prepareImport_ok prepared
  refine ⟨?_, ?_, ?_, ?_⟩
  · rw [key (by rw [opened, verified.landingBranch]), verified.deliveryId]
  · obtain ⟨task, single, id⟩ := List.map_eq_singleton_iff.mp verified.task
    rw [single] at normal
    rw [same, normalizeTasks_one normal, List.map_singleton, redactTask_taskId, id]
  · rw [normalizeTasks_toList supplied]
    cases verified.suppliedSnapshot <;> rfl
  · intro s mem
    obtain ⟨s', there, rfl⟩ := Option.mem_map.mp mem
    exact verified.snapshot s' there

/-- What an import leaves, where it gets to its transaction with a change. -/
theorem importDelivery_state (opened : index.landingBranch = normalizeBranch branch) (env : Environment)
    (verified : VerifiedDelivery pair branch) :
    ∃ change? : Option DeliveredChange,
      (∀ change ∈ change?, OneTask (index.keyOf pair.deliveryId) pair.taskId (verified.suppliedSnapshot.map redactTask) change) ∧
      ∀ db, (index.importDelivery env verified.delivery verified.suppliedSnapshot.toList db).2 =
        match change? with
        | some change => Command.committed (insertDelivery change .current db) db
        | none => db := by
  have nothing : ∀ change ∈ (none : Option DeliveredChange),
      OneTask (index.keyOf pair.deliveryId) pair.taskId (verified.suppliedSnapshot.map redactTask) change := by
    rintro _ ⟨⟩
  cases prepared : index.prepareImport env.repo verified.delivery verified.suppliedSnapshot.toList with
  | error e =>
    refine ⟨none, nothing, fun db => ?_⟩
    rw [HistoryIndex.importDelivery, prepared]
    rfl
  | ok change =>
    have run : ∀ db, (index.importDelivery env verified.delivery verified.suppliedSnapshot.toList db).2 =
        ((require (env.check .lock) >>= fun _ =>
          Command.transaction (env.failure .commit) (insertDelivery change .current)) db).2 := by
      intro db
      rw [HistoryIndex.importDelivery, prepared]
      rfl
    simp only [run, require_bind_state, Command.transaction_state]
    cases env.check .lock with
    | error _ => exact ⟨none, nothing, fun _ => rfl⟩
    | ok _ =>
      cases env.failure .commit with
      | some _ => exact ⟨none, nothing, fun _ => rfl⟩
      | none =>
        refine ⟨some change, ?_, fun _ => rfl⟩
        rintro _ ⟨⟩
        exact verified.oneTask opened prepared

theorem storeDelivery_state (index : HistoryIndex) (env : Environment) (verified : VerifiedDelivery pair branch) :
    ∃ answers : Bool, ∀ db, (storeDelivery index env verified db).2 =
      if answers then
        if ((db.row (index.keyOf pair.deliveryId)).map DeliveryRow.payload).any (sameRange verified.delivery) then
          match verified.suppliedSnapshot with
          | some snapshot => (index.addSuppliedSnapshot env pair.deliveryId snapshot db).2
          | none => db
        else (index.importDelivery env verified.delivery verified.suppliedSnapshot.toList db).2
      else db := by
  cases readable : env.check .connection with
  | error e =>
    refine ⟨false, fun db => ?_⟩
    have read : Command.query (index.delivery env verified.delivery.deliveryId) db = (.error e, db) := by
      rw [Command.query, HistoryIndex.delivery, readable]
      rfl
    rw [storeDelivery, Command.andThen_of_error read]
    rfl
  | ok _ =>
    refine ⟨true, fun db => ?_⟩
    have read : Command.query (index.delivery env verified.delivery.deliveryId) db =
        (.ok ((db.row (index.keyOf pair.deliveryId)).map DeliveryRow.payload), db) := by
      rw [Command.query, HistoryIndex.delivery, readable, verified.deliveryId]
      rfl
    rw [storeDelivery, Command.andThen_of_ok read, verified.deliveryId]
    cases ((db.row (index.keyOf pair.deliveryId)).map DeliveryRow.payload).any (sameRange verified.delivery) with
    | false => rfl
    | true =>
      cases verified.suppliedSnapshot with
      | none => rfl
      | some snapshot => rfl

/-- The transaction that was committed, if one was. -/
theorem storeDelivery_cases (opened : index.landingBranch = normalizeBranch branch) (env : Environment)
    (verified : VerifiedDelivery pair branch) (db : Database) : (storeDelivery index env verified db).2 = db ∨
      (∃ snapshot ∈ verified.suppliedSnapshot, ∃ stored, index.storeSnapshot pair.deliveryId (redactTask snapshot) db =
        .ok (stored, (storeDelivery index env verified db).2)) ∨
      ∃ change report,
        OneTask (index.keyOf pair.deliveryId) pair.taskId (verified.suppliedSnapshot.map redactTask) change ∧
          insertDelivery change .current db = .ok (report, (storeDelivery index env verified db).2) := by
  obtain ⟨answers, state⟩ := storeDelivery_state index env verified
  rw [state]
  cases answers with
  | false => exact .inl rfl
  | true =>
    rw [if_pos rfl]
    split
    · cases supplied : verified.suppliedSnapshot with
      | none => exact .inl rfl
      | some snapshot =>
        obtain ⟨ready, state⟩ := addSuppliedSnapshot_state index env pair.deliveryId snapshot
        dsimp only
        rw [state]
        cases ready with
        | false => exact .inl rfl
        | true =>
          rw [if_pos rfl]
          obtain unchanged | ⟨stored, run⟩ :=
            Command.committed_cases (index.storeSnapshot pair.deliveryId (redactTask snapshot) db) db
          · exact .inl unchanged
          · exact .inr (.inl ⟨snapshot, rfl, stored, run⟩)
    · obtain ⟨change?, prepared, state⟩ := importDelivery_state opened env verified
      rw [state]
      cases change? with
      | none => exact .inl rfl
      | some change =>
        obtain unchanged | ⟨report, run⟩ := Command.committed_cases (insertDelivery change .current db) db
        · exact .inl unchanged
        · exact .inr (.inr ⟨change, report, prepared change rfl, run⟩)

theorem storeDelivery_touched (opened : index.landingBranch = normalizeBranch branch) (env : Environment)
    (verified : VerifiedDelivery pair branch) (db : Database) : (storeDelivery index env verified db).2 = db ∨
      Touched (index.keyOf pair.deliveryId) pair.taskId db (storeDelivery index env verified db).2 ∧
        HasSnapshots (index.keyOf pair.deliveryId) verified.suppliedSnapshot (storeDelivery index env verified db).2 := by
  rcases storeDelivery_cases opened env verified db with same | ⟨snapshot, mem, stored, run⟩ | ⟨change, report, one, run⟩
  · exact .inl same
  · refine (storeSnapshot_touched run).imp_right fun touched => ⟨touched.1, ?_⟩
    rw [Option.mem_def.mp mem]
    refine touched.2.of_taskId ?_
    rintro s ⟨⟩
    rfl
  · refine (insertDelivery_touched one run).imp_right fun touched => ⟨touched.1, ?_⟩
    obtain ⟨row, there, found⟩ := touched.2
    exact ⟨row, there, fun s mem => found (redactTask s) (Option.mem_map_of_mem redactTask mem)⟩

theorem storeDelivery_of_hasSnapshots (opened : index.landingBranch = normalizeBranch branch)
    (has : HasSnapshots (index.keyOf pair.deliveryId) verified.suppliedSnapshot db) :
    (storeDelivery index env verified db).2 = db := by
  obtain ⟨row, there, found⟩ := has
  rcases storeDelivery_cases opened env verified db with same | ⟨snapshot, mem, stored, run⟩ | ⟨change, report, one, run⟩
  · exact same
  · refine storeSnapshot_of_hasSnapshots ⟨row, there, ?_⟩ run
    rintro s ⟨⟩
    exact found snapshot mem
  · refine insertDelivery_of_hasSnapshots one ⟨row, there, fun s mem => ?_⟩ run
    obtain ⟨s', supplied, rfl⟩ := Option.mem_map.mp mem
    exact found s' supplied

theorem storeDelivery_of_otherTask (opened : index.landingBranch = normalizeBranch branch) {row : DeliveryRow} {other : Text}
    (there : db.row (index.keyOf pair.deliveryId) = some row)
    (task : row.payload.delivery.tasks.map TaskAssociation.taskId = [other]) (different : other ≠ pair.taskId) :
    (storeDelivery index env verified db).2 = db := by
  rcases storeDelivery_cases opened env verified db with same | ⟨snapshot, mem, stored, run⟩ | ⟨change, report, one, run⟩
  · exact same
  · refine storeSnapshot_of_otherTask there task ?_ run
    rw [redactTask_taskId, verified.snapshot snapshot mem]
    exact different
  · exact insertDelivery_of_otherTask one there task different run

/-- What stores nothing of a pair stores nothing with more snapshots, either. -/
theorem storeDelivery_of_grown (opened : index.landingBranch = normalizeBranch branch)
    (grown : Grown (index.keyOf pair.deliveryId) db db') (settled : (storeDelivery index env verified db).2 = db) :
    (storeDelivery index env verified db').2 = db' := by
  obtain ⟨answers, state⟩ := storeDelivery_state index env verified
  rw [state] at settled ⊢
  have known : ((db'.row (index.keyOf pair.deliveryId)).map DeliveryRow.payload).any (sameRange verified.delivery) =
      ((db.row (index.keyOf pair.deliveryId)).map DeliveryRow.payload).any (sameRange verified.delivery) := by
    obtain ⟨more, row⟩ := grown.row
    rw [row]
    cases db.row (index.keyOf pair.deliveryId) <;> rfl
  rw [known]
  cases answers with
  | false => rfl
  | true =>
    rw [if_pos rfl] at settled ⊢
    cases found : ((db.row (index.keyOf pair.deliveryId)).map DeliveryRow.payload).any (sameRange verified.delivery) with
    | true =>
      rw [found, if_pos rfl] at settled
      rw [if_pos rfl]
      cases supplied : verified.suppliedSnapshot with
      | none => rfl
      | some snapshot =>
        rw [supplied] at settled
        obtain ⟨ready, state⟩ := addSuppliedSnapshot_state index env pair.deliveryId snapshot
        dsimp only at settled ⊢
        rw [state] at settled ⊢
        cases ready with
        | false => rfl
        | true =>
          rw [if_pos rfl] at settled ⊢
          obtain unchanged | ⟨stored, run⟩ :=
            Command.committed_cases (index.storeSnapshot pair.deliveryId (redactTask snapshot) db') db'
          · exact unchanged
          · by_contra changed
            obtain ⟨u, run', differs⟩ := grown.storeSnapshot run changed
            rw [run'] at settled
            exact differs settled
    | false =>
      rw [found, if_neg Bool.false_ne_true] at settled
      rw [if_neg Bool.false_ne_true]
      obtain ⟨change?, prepared, state⟩ := importDelivery_state opened env verified
      rw [state] at settled ⊢
      cases change? with
      | none => rfl
      | some change =>
        obtain unchanged | ⟨report, run⟩ := Command.committed_cases (insertDelivery change .current db') db'
        · exact unchanged
        · by_contra changed
          obtain ⟨report', u, run', differs⟩ := grown.insertDelivery (prepared change rfl) run changed
          dsimp only at settled
          rw [run'] at settled
          exact differs settled

end Settled

theorem taskId_ne_of_deliveryId {pair other : TaskRun} (ids : pair.deliveryId = other.deliveryId) (different : pair ≠ other) :
    pair.taskId ≠ other.taskId := by
  intro task
  have ids : "orbit-run:" ++ pair.runId ++ ':' :: pair.taskId =
      "orbit-run:" ++ other.runId ++ ':' :: other.taskId := ids
  rw [task] at ids
  have run : pair.runId = other.runId := List.append_cancel_left (List.append_cancel_right ids)
  refine different ?_
  cases pair
  cases other
  cases task
  cases run
  rfl

section Runs

variable [GitObjects] {index : HistoryIndex} {describe : GraphError → Text} {branch : Text} {snapshots : List TaskAssociation}
  {answers : TaskRun → PairAnswers}

/-- What one round leaves in the index. -/
def storePair (index : HistoryIndex) (branch : Text) (snapshots : List TaskAssociation) (answers : TaskRun → PairAnswers)
    (pair : TaskRun) (db : Database) : Database :=
  match deliveryForTaskRun pair branch snapshots index.repository (answers pair).evidence with
  | .ok (.deliverable verified) => (storeDelivery index (answers pair).env verified db).2
  | _ => db

/-- Storing a pair once more changes nothing. -/
def Settled (index : HistoryIndex) (branch : Text) (snapshots : List TaskAssociation) (answers : TaskRun → PairAnswers)
    (pair : TaskRun) (db : Database) : Prop := storePair index branch snapshots answers pair db = db

theorem settled_storePair (opened : index.landingBranch = normalizeBranch branch) (pair : TaskRun) (db : Database) :
    Settled index branch snapshots answers pair (storePair index branch snapshots answers pair db) := by
  rw [Settled, storePair, storePair]
  cases deliveryForTaskRun pair branch snapshots index.repository (answers pair).evidence with
  | error _ => rfl
  | ok verdict =>
    cases verdict with
    | excluded _ => rfl
    | deliverable verified =>
      dsimp only
      obtain unchanged | ⟨-, has⟩ := storeDelivery_touched opened (answers pair).env verified db
      · rw [unchanged, unchanged]
      · exact storeDelivery_of_hasSnapshots opened has

theorem touched_storePair (opened : index.landingBranch = normalizeBranch branch) (pair : TaskRun) (db : Database) :
    Touched (index.keyOf pair.deliveryId) pair.taskId db (storePair index branch snapshots answers pair db) := by
  rw [storePair]
  cases deliveryForTaskRun pair branch snapshots index.repository (answers pair).evidence with
  | error _ => exact .same
  | ok verdict =>
    cases verdict with
    | excluded _ => exact .same
    | deliverable verified =>
      obtain unchanged | ⟨touched, -⟩ := storeDelivery_touched opened (answers pair).env verified db
      · dsimp only
        rw [unchanged]
        exact .same
      · exact touched

theorem settled_storePair_of_ne (opened : index.landingBranch = normalizeBranch branch) {pair other : TaskRun} {db : Database}
    (different : pair ≠ other) (settled : Settled index branch snapshots answers pair db) :
    Settled index branch snapshots answers pair (storePair index branch snapshots answers other db) := by
  have touched := @touched_storePair _ index branch snapshots answers opened other db
  rw [Settled, storePair] at settled ⊢
  cases evidence : deliveryForTaskRun pair branch snapshots index.repository (answers pair).evidence with
  | error _ => rfl
  | ok verdict =>
    rw [evidence] at settled
    cases verdict with
    | excluded _ => rfl
    | deliverable verified =>
      rcases @Touched.grown (index.keyOf pair.deliveryId) _ _ _ _ touched with grown | ⟨same, row, there, task⟩
      · exact storeDelivery_of_grown opened grown settled
      · have ids : pair.deliveryId = other.deliveryId := (congrArg DeliveryKey.deliveryId same).symm
        exact storeDelivery_of_otherTask opened there task (taskId_ne_of_deliveryId ids different).symm

theorem syncPair_state (outcomes : SyncOutcomes) (pair : TaskRun) (db : Database) :
    (syncPair index describe branch snapshots answers outcomes pair db).2 =
      storePair index branch snapshots answers pair db := by
  rw [syncPair, storePair]
  cases deliveryForTaskRun pair branch snapshots index.repository (answers pair).evidence with
  | error _ => rfl
  | ok verdict =>
    cases verdict with
    | excluded _ => rfl
    | deliverable verified =>
      dsimp only
      cases stored : storeDelivery index (answers pair).env verified db with
      | mk result t =>
        cases result with
        | error _ => rw [Command.andThen_of_error stored]
        | ok _ =>
          rw [Command.andThen_of_ok stored]
          rfl

variable {pairs : List TaskRun}

theorem settled_syncPairs (opened : index.landingBranch = normalizeBranch branch) (distinct : pairs.Nodup)
    {outcomes outcomes' : SyncOutcomes} {db db' : Database}
    (run : syncPairs index describe branch snapshots answers pairs outcomes db = (.ok outcomes', db')) :
    (∀ pair ∈ pairs, Settled index branch snapshots answers pair db') ∧
      ∀ pair ∉ pairs, Settled index branch snapshots answers pair db → Settled index branch snapshots answers pair db' := by
  induction pairs generalizing outcomes db with
  | nil =>
    obtain rfl := (Prod.mk.inj run).2
    exact ⟨nofun, fun _ _ settled => settled⟩
  | cons first rest ih =>
    obtain ⟨new, distinct⟩ := List.nodup_cons.mp distinct
    obtain ⟨next, db₁, one, run⟩ := Command.of_andThen_ok run
    obtain ⟨each, kept⟩ := ih distinct run
    have state := @syncPair_state _ index describe branch snapshots answers outcomes first db
    rw [one] at state
    constructor
    · intro pair mem
      obtain rfl | mem := List.mem_cons.mp mem
      · refine kept pair new ?_
        rw [show db₁ = _ from state]
        exact settled_storePair opened pair db
      · exact each pair mem
    · intro pair notMem settled
      obtain ⟨different, notMem⟩ := not_or.mp (mt List.mem_cons.mpr notMem)
      refine kept pair notMem ?_
      rw [show db₁ = _ from state]
      exact settled_storePair_of_ne opened different settled

theorem syncPairs_of_settled {db : Database}
    (settled : ∀ pair ∈ pairs, Settled index branch snapshots answers pair db) (outcomes : SyncOutcomes) :
    (syncPairs index describe branch snapshots answers pairs outcomes db).2 = db := by
  induction pairs generalizing outcomes with
  | nil => rfl
  | cons first rest ih =>
    have state := @syncPair_state _ index describe branch snapshots answers outcomes first db
    rw [settled first List.mem_cons_self] at state
    exact Command.andThen_unchanged state (ih fun pair mem => settled pair (List.mem_cons_of_mem _ mem))

/-- A call that returns a report accounts for the request, and the same call on the index that it leaves stores nothing. -/
theorem sync_accounts {request : SyncRequest} {calls : CallAnswers} {db db' : Database} {report : SyncReport}
    (opened : index.landingBranch = normalizeBranch branch)
    (run : syncOrbit index describe branch request calls db = (.ok report, db')) :
    (∃ parts pairs each, Accounted request report parts pairs each) ∧
      (syncOrbit index describe branch request calls db').2 = db' := by
  refine ⟨accounted_of_run run, ?_⟩
  obtain ⟨_, s, first, run⟩ := Command.of_andThen_ok run
  obtain ⟨outcomes, t, paired, run⟩ := Command.of_andThen_ok run
  obtain ⟨_, u, last, run⟩ := Command.of_andThen_ok run
  obtain rfl : u = db' := (Prod.mk.inj run).2
  obtain rfl : t = u := (Prod.mk.inj last).2
  have distinct := (nodup_retainUnseen [] (examineTasks request.bound request.tasks
    ⟨request.taskRuns, 0, false, .empty⟩).pairs).sublist (List.take_sublist request.bound _)
  have settled := (settled_syncPairs opened distinct paired).1
  refine Command.andThen_unchanged rfl fun _ => Command.andThen_unchanged (syncPairs_of_settled settled _) fun _ => ?_
  exact Command.andThen_unchanged rfl fun _ => rfl

end Runs

namespace Sample

open History.Sample (index environment objects root first second)

def instant (system : String) (timestamp : String) : TemporalFact := ⟨.known, some timestamp.toList, ⟨system.toList, none⟩⟩

def task (taskId : Text) : TaskAssociation where
  taskId := taskId
  title := "title"
  description := []
  acceptanceCriteria := []
  source := ⟨"orbit.task.show", none⟩
  createdAt := instant "orbit.task.show.created_at" "unix:5"
  snapshotAvailableAt := instant "orbit.task.show.observation" "unix:30"
  textAvailability := .uncertain
  capturedAt := "unix:30"

def answers : CallAnswers where
  directory := .ok ()
  status := .ok ()
  pair pair :=
    { evidence :=
        if pair.runId = "r1" then
          .ok (.ok
            { task := task pair.taskId
              range := ⟨root, first, "head_reachable"⟩
              method := .pullRequest
              observedAt := none
              runFinishedAt := none
              capturedAt := "unix:30" })
        else .ok (.error "needed no new commit")
      env := environment second }

def request : SyncRequest where
  tasks := [("T1", .ok (.object [("job_run_id", .string "r1")])), ("T3", .ok (.object []))]
  taskRuns := [⟨"T2", "r2"⟩, ⟨"T2", "r2"⟩]
  taskSnapshots := [task "T1"]
  bound := 4

local instance : GitObjects := objects

def call (db : Database) : Except GraphError SyncReport × Database :=
  syncOrbit index (fun _ => []) "main" request answers db

/-- One delivery is stored, and not again. -/
theorem sync_accounts_call :
    ∃ report, (call initialSchema).1 = .ok report ∧ report.outcomes.length = 3 ∧
      (call initialSchema).2.deliveries.length = 1 ∧
      (∃ parts pairs each, Accounted request report parts pairs each) ∧
      (call (call initialSchema).2).2 = (call initialSchema).2 := by
  have answered : ((call initialSchema).1.toOption.map fun report => report.outcomes.length) = some 3 := by decide +kernel
  have stored : (call initialSchema).2.deliveries.length = 1 := by decide +kernel
  cases ran : (call initialSchema).1 with
  | error error =>
    rw [ran] at answered
    cases answered
  | ok report =>
    rw [ran] at answered
    obtain ⟨accounted, again⟩ := @sync_accounts _ index _ "main" _ _ _ _ _ (by decide)
      (show call initialSchema = (.ok report, (call initialSchema).2) from Prod.ext ran rfl)
    exact ⟨report, rfl, Option.some.inj answered, stored, accounted, again⟩

end Sample

end OrbitGraph.Plugin
