import OrbitGraph.History.Operations

/-!
What one delivery can become.

A delivery is stored once, and can only get more supplied snapshots. What cannot be stored
of it while it has fewer cannot be stored later, either; what was stored is found there.
-/

namespace OrbitGraph.History

open Lib Database

def HistoryIndex.keyOf (index : HistoryIndex) (deliveryId : Text) : DeliveryKey where
  repository := index.repository
  landingBranch := index.landingBranch
  deliveryId := deliveryId

/-! ### What an import prepares -/

variable {tasks : List TaskAssociation}

theorem normalizeTasks_one {task : TaskAssociation} (run : normalizeTasks [task] = .ok tasks) :
    tasks = [redactTask task] := by
  obtain ⟨_, _, run⟩ := bind_eq_ok.mp run
  exact (Except.ok.inj run).symm

theorem normalizeTasks_toList {snapshot : Option TaskAssociation}
    (run : normalizeTasks snapshot.toList = .ok tasks) : tasks = snapshot.toList.map redactTask := by
  cases snapshot with
  | none => exact (Except.ok.inj run).symm
  | some task => exact normalizeTasks_one run

theorem prepareImport_ok [GitObjects] {index : HistoryIndex} {repo : Repository} {delivery : DeliveryImport}
    {snapshots : List TaskAssociation} {change : DeliveredChange}
    (run : index.prepareImport repo delivery snapshots = .ok change) :
    ∃ tasks, normalizeTasks delivery.tasks = .ok tasks ∧ normalizeTasks snapshots = .ok change.suppliedSnapshots ∧
      change.delivery.tasks = tasks ∧ (index.landingBranch = normalizeBranch delivery.landingBranch →
        change.delivery.key = index.keyOf delivery.deliveryId) := by
  obtain ⟨_, _, run⟩ := bind_eq_ok.mp run
  obtain ⟨tasks, normal, run⟩ := bind_eq_ok.mp run
  obtain ⟨supplied, normal', run⟩ := bind_eq_ok.mp run
  obtain ⟨_, _, run⟩ := bind_eq_ok.mp run
  obtain ⟨_, scope, run⟩ := bind_eq_ok.mp run
  obtain ⟨extracted, extract, run⟩ := bind_eq_ok.mp run
  obtain rfl := Except.ok.inj run
  obtain ⟨_, _, extract⟩ := bind_eq_ok.mp extract
  obtain ⟨_, _, extract⟩ := bind_eq_ok.mp extract
  obtain ⟨_, _, extract⟩ := bind_eq_ok.mp extract
  obtain ⟨_, _, extract⟩ := bind_eq_ok.mp extract
  obtain rfl := Except.ok.inj extract
  obtain ⟨repository, -⟩ := ensure_eq_ok.mp scope
  refine ⟨tasks, normal, normal', rfl, fun opened => ?_⟩
  rw [HistoryIndex.keyOf, opened, ← repository]
  rfl

section Fewer

variable {key : DeliveryKey} {db db' t : Database} {operation : String}

def FewerRows (key : DeliveryKey) (db' db : Database) : Prop := ∀ r ∈ db.derived, r.owner = key → r ∈ db'.derived

theorem FewerRows.derived_ok {row : DerivedRow} (fewer : FewerRows key db' db)
    (run : db'.insertDerived operation key row = .ok t) : ∃ u, db.insertDerived operation key row = .ok u ∧ FewerRows key t u := by
  obtain rfl := insertDerived_ok run
  have free : db.derived.any (fun r => r.owner = key ∧ r.row.primaryKey = row.primaryKey) = false := by
    rw [Database.insertDerived] at run
    by_contra taken
    obtain ⟨r, mem, same⟩ := List.any_eq_true.mp (Bool.not_eq_false _ ▸ taken)
    have owner := (of_decide_eq_true same).1
    rw [if_pos (List.any_eq_true.mpr ⟨r, fewer r mem owner, same⟩)] at run
    cases run
  refine ⟨db.withRows key [row], by rw [Database.insertDerived, free, if_neg Bool.false_ne_true], fun r mem owner => ?_⟩
  rcases List.mem_append.mp mem with old | new
  · exact List.mem_append_left _ (fewer r old owner)
  · exact List.mem_append_right _ new

theorem FewerRows.symbol_ok {ordinal : Nat} {symbol : SymbolChange × Nat} (fewer : FewerRows key db' db)
    (run : insertSymbol key ordinal db' symbol = .ok t) : ∃ u, insertSymbol key ordinal db symbol = .ok u ∧ FewerRows key t u := by
  refine foldlM_related (R := FewerRows key) (fun s u item s' fewer run => ?_) fewer run
  obtain ⟨_, h₁, run⟩ := bind_eq_ok.mp run
  obtain ⟨_, h₂, run⟩ := bind_eq_ok.mp run
  obtain ⟨_, h₃, run⟩ := bind_eq_ok.mp run
  obtain ⟨_, h₄, run⟩ := bind_eq_ok.mp run
  obtain ⟨v, inserted, fewer⟩ := fewer.derived_ok run
  refine ⟨v, ?_, fewer⟩
  rw [insertSymbolSide, h₁, h₂, h₃, h₄]
  exact inserted

theorem FewerRows.lineage_ok {ordinal : Nat} {file : FileChange} (fewer : FewerRows key db' db)
    (run : insertLineage key ordinal file db' = .ok t) : ∃ u, insertLineage key ordinal file db = .ok u ∧ FewerRows key t u := by
  rw [insertLineage] at run ⊢
  cases step : lineageStep file with
  | none =>
    rw [step] at run
    obtain rfl := Except.ok.inj run
    exact ⟨db, rfl, fewer⟩
  | some step' =>
    rw [step] at run
    obtain ⟨_, h₁, run⟩ := bind_eq_ok.mp run
    obtain ⟨v, inserted, fewer⟩ := fewer.derived_ok run
    refine ⟨v, ?_, fewer⟩
    dsimp only
    rw [h₁]
    exact inserted

theorem FewerRows.file_ok {file : FileChange × Nat} (fewer : FewerRows key db' db)
    (run : insertFile key db' file = .ok t) : ∃ u, insertFile key db file = .ok u ∧ FewerRows key t u := by
  obtain ⟨_, h₁, run⟩ := bind_eq_ok.mp run
  obtain ⟨_, h₂, run⟩ := bind_eq_ok.mp run
  obtain ⟨_, h₃, run⟩ := bind_eq_ok.mp run
  obtain ⟨_, one, run⟩ := bind_eq_ok.mp run
  obtain ⟨_, two, run⟩ := bind_eq_ok.mp run
  obtain ⟨u₁, one, fewer⟩ := fewer.derived_ok one
  obtain ⟨u₂, two, fewer⟩ := fewer.lineage_ok two
  obtain ⟨u₃, three, fewer⟩ :=
    foldlM_related (R := FewerRows key) (g := insertSymbol key file.2)
      (fun _ _ _ _ fewer run => FewerRows.symbol_ok fewer run) fewer run
  refine ⟨u₃, ?_, fewer⟩
  exact bind_eq_ok.mpr ⟨_, h₁, bind_eq_ok.mpr ⟨_, h₂, bind_eq_ok.mpr ⟨_, h₃,
    bind_eq_ok.mpr ⟨u₁, one, bind_eq_ok.mpr ⟨u₂, two, three⟩⟩⟩⟩⟩

theorem FewerRows.withDelivery (fewer : FewerRows key db' db) (row' row : DeliveryRow) :
    FewerRows key (db'.withDelivery row') (db.withDelivery row) := fewer

theorem FewerRows.new_ok {change : DeliveredChange} {under : Contracts} {report r : HistoryImportReport}
    (fewer : FewerRows change.delivery.key db' db) (run : insertNew change under report db' = .ok (r, t)) :
    ∀ report, ∃ u, insertNew change under report db = .ok (report, u) := by
  intro report
  obtain ⟨tasks, h₁, run⟩ := bind_eq_ok.mp run
  obtain ⟨files, h₂, run⟩ := bind_eq_ok.mp run
  obtain ⟨symbols, h₃, run⟩ := bind_eq_ok.mp run
  obtain ⟨_, one, run⟩ := bind_eq_ok.mp run
  obtain ⟨_, two, run⟩ := bind_eq_ok.mp run
  obtain ⟨_, three, _⟩ := bind_eq_ok.mp run
  have task : ∀ s t a s', FewerRows change.delivery.key s t → insertTask change.delivery.key s a = .ok s' →
      ∃ t', insertTask change.delivery.key t a = .ok t' ∧ FewerRows change.delivery.key s' t' :=
    fun _ _ _ _ fewer run => fewer.derived_ok run
  have snapshot : ∀ s t a s', FewerRows change.delivery.key s t → insertSnapshot change.delivery.key s a = .ok s' →
      ∃ t', insertSnapshot change.delivery.key t a = .ok t' ∧ FewerRows change.delivery.key s' t' :=
    fun _ _ _ _ fewer run => fewer.derived_ok run
  have file : ∀ s t a s', FewerRows change.delivery.key s t → insertFile change.delivery.key s a = .ok s' →
      ∃ t', insertFile change.delivery.key t a = .ok t' ∧ FewerRows change.delivery.key s' t' :=
    fun _ _ _ _ fewer run => fewer.file_ok run
  obtain ⟨u₁, one, fewer⟩ := foldlM_related task (fewer.withDelivery _
    { DeliveryRow.ofChange change under with taskCount := tasks, fileCount := files, symbolCount := symbols }) one
  obtain ⟨u₂, two, fewer⟩ := foldlM_related snapshot fewer two
  obtain ⟨u₃, three, -⟩ := foldlM_related file fewer three
  refine ⟨u₃, bind_eq_ok.mpr ⟨_, h₁, bind_eq_ok.mpr ⟨_, h₂, bind_eq_ok.mpr ⟨_, h₃, ?_⟩⟩⟩⟩
  exact bind_eq_ok.mpr ⟨u₁, one, bind_eq_ok.mpr ⟨u₂, two, bind_eq_ok.mpr ⟨u₃, three, rfl⟩⟩⟩

end Fewer

/-! ### A delivery with more snapshots -/

def DeliveryRow.extend (row : DeliveryRow) (more : List TaskAssociation) : DeliveryRow :=
  { row with payload := row.payload.extend more }

/-- A database's part of a delivery, and the same with more: other supplied snapshots and their rows. -/
structure Grown (key : DeliveryKey) (db db' : Database) : Prop where
  rows : FewerRows key db' db
  row : ∃ more, db'.row key = (db.row key).map fun row => row.extend more

section Grown

variable {key : DeliveryKey} {db db' t : Database}

theorem ne_of_withRows {u : Database} {owner : DeliveryKey} {row : DerivedRow} (same : u.derived = db.derived) :
    u.withRows owner [row] ≠ db := by
  intro unchanged
  have := congrArg (fun db => db.derived.length) unchanged
  simp only [withRows, same, List.length_append, List.map_cons, List.map_nil, List.length_singleton] at this
  omega

/-- What `add_supplied_snapshot` requires of the delivery. -/
def Takes (change : DeliveredChange) (taskId : Text) : Prop :=
  change.delivery.evidence = .verifiedDelivery ∧ change.delivery.tasks.any (fun task => task.taskId = taskId) = true

section Snapshots

variable {index : HistoryIndex} {deliveryId : Text} {snapshot : TaskAssociation} {row : DeliveryRow} {stored : Bool}

theorem storeSnapshot_of_none (there : db.row (index.keyOf deliveryId) = none) :
    ∃ error, index.storeSnapshot deliveryId snapshot db = .error error := by
  have there : db.row ⟨index.repository, index.landingBranch, deliveryId⟩ = none := there
  exact ⟨_, by rw [HistoryIndex.storeSnapshot, there]⟩

theorem storeSnapshot_of_some (there : db.row (index.keyOf deliveryId) = some row) :
    index.storeSnapshot deliveryId snapshot db = HistoryIndex.attachSnapshot row snapshot db := by
  have there : db.row ⟨index.repository, index.landingBranch, deliveryId⟩ = some row := there
  rw [HistoryIndex.storeSnapshot, there]

theorem attachSnapshot_ok (run : HistoryIndex.attachSnapshot row snapshot db = .ok (stored, t)) :
    Takes row.payload snapshot.taskId ∧
      (((row.payload.suppliedSnapshots.find? fun s => s.taskId = snapshot.taskId).isSome = true ∧ t = db) ∨
        (row.payload.suppliedSnapshots.find? fun s => s.taskId = snapshot.taskId) = none ∧
          insertSnapshot row.key (db.updatePayload row.key (row.payload.extend [snapshot])) snapshot = .ok t) := by
  obtain ⟨_, eligible, run⟩ := bind_eq_ok.mp run
  have takes := ensure_eq_ok.mp eligible
  refine ⟨takes, ?_⟩
  cases known : row.payload.suppliedSnapshots.find? fun s => s.taskId = snapshot.taskId with
  | some existing =>
    rw [known] at run
    obtain ⟨_, _, run⟩ := bind_eq_ok.mp run
    exact .inl ⟨rfl, (Prod.mk.inj (Except.ok.inj run)).2.symm⟩
  | none =>
    rw [known] at run
    obtain ⟨u, inserted, run⟩ := bind_eq_ok.mp run
    obtain rfl := (Prod.mk.inj (Except.ok.inj run)).2
    exact .inr ⟨rfl, inserted⟩

theorem attachSnapshot_of_new (takes : Takes row.payload snapshot.taskId)
    (new : (row.payload.suppliedSnapshots.find? fun s => s.taskId = snapshot.taskId) = none)
    (inserted : insertSnapshot row.key (db.updatePayload row.key (row.payload.extend [snapshot])) snapshot = .ok t) :
    HistoryIndex.attachSnapshot row snapshot db = .ok (true, t) := by
  refine bind_eq_ok.mpr ⟨(), ensure_eq_ok.mpr takes, ?_⟩
  rw [new]
  exact bind_eq_ok.mpr ⟨t, inserted, rfl⟩

theorem Grown.storeSnapshot (grown : Grown (index.keyOf deliveryId) db db')
    (run : index.storeSnapshot deliveryId snapshot db' = .ok (stored, t)) (changed : t ≠ db') :
    ∃ u, index.storeSnapshot deliveryId snapshot db = .ok (true, u) ∧ u ≠ db := by
  obtain ⟨more, row'⟩ := grown.row
  cases there : db.row (index.keyOf deliveryId) with
  | none =>
    rw [there, Option.map_none] at row'
    obtain ⟨_, failed⟩ := @storeSnapshot_of_none db' index deliveryId snapshot row'
    rw [failed] at run
    cases run
  | some row =>
    rw [there, Option.map_some] at row'
    rw [storeSnapshot_of_some row'] at run
    rcases attachSnapshot_ok run with ⟨takes, ⟨_, unchanged⟩ | ⟨new, inserted⟩⟩
    · exact absurd unchanged changed
    · have new : (row.payload.suppliedSnapshots ++ more).find? (fun s => s.taskId = snapshot.taskId) = none := new
      rw [List.find?_append, Option.or_eq_none_iff] at new
      have owner : row.key = index.keyOf deliveryId := key_of_row there
      have fewer : FewerRows row.key (db'.updatePayload row.key ((row.extend more).payload.extend [snapshot]))
          (db.updatePayload row.key (row.payload.extend [snapshot])) := by
        rw [owner]
        exact grown.rows
      obtain ⟨u, inserted', -⟩ := fewer.derived_ok inserted
      refine ⟨u, ?_, ?_⟩
      · rw [storeSnapshot_of_some there]
        exact attachSnapshot_of_new takes new.1 inserted'
      · obtain rfl := insertDerived_ok inserted'
        exact ne_of_withRows rfl

end Snapshots

/-! ### Imports -/

structure OneTask (key : DeliveryKey) (taskId : Text) (snapshot : Option TaskAssociation) (change : DeliveredChange) : Prop where
  key : change.delivery.key = key
  task : change.delivery.tasks.map TaskAssociation.taskId = [taskId]
  supplied : change.suppliedSnapshots = snapshot.toList
  snapshot : ∀ s ∈ snapshot, s.taskId = taskId

variable {previous : DeliveredChange}

theorem newSnapshots_toList {snapshot : Option TaskAssociation} {additions : List TaskAssociation}
    (run : newSnapshots previous snapshot.toList = .ok additions) :
    additions = [] ∨ ∃ s, snapshot = some s ∧ additions = [s] ∧
      (previous.suppliedSnapshots.find? fun stored => stored.taskId = s.taskId) = none := by
  cases snapshot with
  | none => exact .inl (Except.ok.inj run).symm
  | some s =>
    rw [Option.toList_some, newSnapshots] at run
    cases known : previous.suppliedSnapshots.find? fun stored => stored.taskId = s.taskId with
    | some existing =>
      rw [known] at run
      dsimp only at run
      split at run
      · cases run
      · exact .inl (Except.ok.inj run).symm
    | none =>
      rw [known] at run
      obtain ⟨none, last, run⟩ := bind_eq_ok.mp run
      obtain rfl := Except.ok.inj last
      exact .inr ⟨s, rfl, (Except.ok.inj run).symm, known⟩

theorem newSnapshots_of_new {snapshot : TaskAssociation}
    (new : (previous.suppliedSnapshots.find? fun stored => stored.taskId = snapshot.taskId) = none) :
    newSnapshots previous [snapshot] = .ok [snapshot] := by
  rw [newSnapshots, new]
  rfl

section Imports

variable {change : DeliveredChange} {under : Contracts} {row : DeliveryRow} {report r : HistoryImportReport}

theorem insertIntoExisting_ok (run : insertIntoExisting row change report db = .ok (r, t)) :
    (row.beforeRevision = change.delivery.beforeRevision ∧ row.afterRevision = change.delivery.afterRevision ∧
      row.payload.delivery = change.delivery ∧ row.payload.files = change.files) ∧
      ∃ additions, newSnapshots row.payload change.suppliedSnapshots = .ok additions ∧
        ((additions = [] ∧ t = db) ∨ (additions ≠ [] ∧ additions.foldlM (insertSnapshot change.delivery.key)
          (db.updatePayload change.delivery.key (row.payload.extend additions)) = .ok t)) := by
  obtain ⟨_, same, run⟩ := bind_eq_ok.mp run
  refine ⟨ensure_eq_ok.mp same, ?_⟩
  obtain ⟨additions, new, run⟩ := bind_eq_ok.mp run
  refine ⟨additions, new, ?_⟩
  rcases Decidable.em (additions = []) with none | some
  · rw [if_pos none] at run
    exact .inl ⟨none, (Prod.mk.inj (Except.ok.inj run)).2.symm⟩
  · rw [if_neg some] at run
    obtain ⟨u, inserted, run⟩ := bind_eq_ok.mp run
    obtain rfl := (Prod.mk.inj (Except.ok.inj run)).2
    exact .inr ⟨some, inserted⟩

theorem insertDelivery_of_some (there : db.row change.delivery.key = some row) :
    ∃ report, insertDelivery change under db = insertIntoExisting row (redactChange change) report db := by
  refine ⟨⟨(redactChange change).delivery.deliveryId, false, (redactChange change).files.length,
    (redactChange change).symbolCount⟩, ?_⟩
  simp only [insertDelivery, key_redactChange, there]

theorem insertDelivery_of_none (there : db.row change.delivery.key = none) :
    ∃ report, insertDelivery change under db = insertNew (redactChange change) under report db := by
  refine ⟨⟨(redactChange change).delivery.deliveryId, true, (redactChange change).files.length,
    (redactChange change).symbolCount⟩, ?_⟩
  simp only [insertDelivery, key_redactChange, there]

theorem ne_of_insertNew (run : insertNew change under report db = .ok (r, t)) : t ≠ db := by
  obtain ⟨-, rfl⟩ := insertNew_ok run
  intro unchanged
  have := congrArg (fun db => db.deliveries.length) unchanged
  simp only [withRows, withDelivery, List.length_append, List.length_singleton] at this
  omega

variable {snapshot : Option TaskAssociation}

variable {key : DeliveryKey} {taskId : Text}

theorem OneTask.redacted
    (one : OneTask key taskId snapshot change) : OneTask key taskId (snapshot.map redactTask) (redactChange change) where
  key := one.key
  task := by
    rw [redactChange_delivery, redactDelivery, List.map_map]
    exact one.task
  supplied := by
    rw [redactChange, one.supplied]
    cases snapshot <;> rfl
  snapshot s mem := by
    obtain ⟨s', there, rfl⟩ := Option.mem_map.mp mem
    exact one.snapshot s' there

/-- What an import stores it stores where the delivery has fewer. -/
theorem Grown.insertDelivery
    (grown : Grown key db db') (one : OneTask key taskId snapshot change)
    (run : insertDelivery change under db' = .ok (r, t)) (changed : t ≠ db') :
    ∃ report u, History.insertDelivery change under db = .ok (report, u) ∧ u ≠ db := by
  obtain ⟨more, row'⟩ := grown.row
  rw [← one.key] at row'
  cases there : db.row change.delivery.key with
  | none =>
    rw [there, Option.map_none] at row'
    obtain ⟨report, new⟩ := @insertDelivery_of_none db' change under row'
    rw [new] at run
    obtain ⟨report, new⟩ := @insertDelivery_of_none db change under there
    have fewer : FewerRows (redactChange change).delivery.key db' db := by
      rw [key_redactChange, one.key]
      exact grown.rows
    obtain ⟨u, inserted⟩ := fewer.new_ok run report
    exact ⟨report, u, new.trans inserted, ne_of_insertNew inserted⟩
  | some row =>
    rw [there, Option.map_some] at row'
    obtain ⟨report, known⟩ := @insertDelivery_of_some db' change under _ row'
    rw [known] at run
    obtain ⟨report, known⟩ := @insertDelivery_of_some db change under _ there
    obtain ⟨same, additions, new, ⟨_, unchanged⟩ | ⟨some, inserted⟩⟩ := insertIntoExisting_ok run
    · exact absurd unchanged changed
    · rw [one.redacted.supplied] at new
      obtain rfl | ⟨s, supplied, rfl, unknown⟩ := newSnapshots_toList new
      · exact absurd rfl some
      · have unknown : (row.payload.suppliedSnapshots ++ more).find? (fun stored => stored.taskId = s.taskId) = none := unknown
        rw [List.find?_append, Option.or_eq_none_iff] at unknown
        obtain ⟨v, inserted, last⟩ := bind_eq_ok.mp inserted
        have fewer : FewerRows (redactChange change).delivery.key
            (db'.updatePayload (redactChange change).delivery.key ((row.extend more).payload.extend [s]))
            (db.updatePayload (redactChange change).delivery.key (row.payload.extend [s])) := by
          rw [key_redactChange, one.key]
          exact grown.rows
        obtain ⟨u, inserted', -⟩ := fewer.derived_ok inserted
        refine ⟨report, u, known.trans (bind_eq_ok.mpr ⟨(), ensure_eq_ok.mpr same, bind_eq_ok.mpr ⟨[s], ?_, ?_⟩⟩), ?_⟩
        · rw [one.redacted.supplied, supplied, Option.toList_some, newSnapshots_of_new unknown.1]
        · rw [if_neg some]
          exact bind_eq_ok.mpr ⟨u, bind_eq_ok.mpr ⟨u, inserted', rfl⟩, rfl⟩
        · obtain rfl := insertDerived_ok inserted'
          exact ne_of_withRows rfl

end Imports

end Grown

/-! ### What storing a pair changes -/

/-- What storing a delivery of a task can do: nothing, make its row, or add a snapshot to it. -/
inductive Touched (key : DeliveryKey) (taskId : Text) (db : Database) : Database → Prop where
  | same : Touched key taskId db db
  | added {row : DeliveryRow} {rows : List DerivedRow} : db.row key = none → row.key = key →
      row.payload.delivery.tasks.map TaskAssociation.taskId = [taskId] →
      Touched key taskId db ((db.withDelivery row).withRows key rows)
  | extended {row : DeliveryRow} {snapshot : TaskAssociation} : db.row key = some row →
      Touched key taskId db ((db.updatePayload key (row.payload.extend [snapshot])).withRows key [snapshotRow snapshot])

def HasSnapshots (key : DeliveryKey) (snapshot : Option TaskAssociation) (db : Database) : Prop :=
  ∃ row, db.row key = some row ∧
    ∀ s ∈ snapshot, (row.payload.suppliedSnapshots.find? fun stored => stored.taskId = s.taskId).isSome = true

section Touched

variable {key other : DeliveryKey} {taskId : Text} {db db' t : Database} {row : DeliveryRow}

theorem extend_nil (row : DeliveryRow) : row.extend [] = row := by
  rw [DeliveryRow.extend, DeliveredChange.extend, List.append_nil]

theorem Grown.of_row (rows : FewerRows key db' db) (same : db'.row key = db.row key) : Grown key db db' where
  rows := rows
  row := ⟨[], by
    rw [same]
    cases db.row key with
    | none => rfl
    | some row => rw [Option.map_some, extend_nil]⟩

theorem fewerRows_withRows (owner : DeliveryKey) (rows : List DerivedRow) : FewerRows key (db.withRows owner rows) db :=
  fun _ mem _ => List.mem_append_left _ mem

theorem row_of_updatePayload {payload : DeliveredChange} (there : db.row key = some row) :
    (db.updatePayload key payload).row key = some { row with payload } := by
  rw [row_updatePayload, there, Option.map_some, if_pos rfl]

theorem Touched.grown (touched : Touched other taskId db db') :
    Grown key db db' ∨ other = key ∧ ∃ row, db'.row key = some row ∧
      row.payload.delivery.tasks.map TaskAssociation.taskId = [taskId] := by
  cases touched with
  | same => exact .inl (.of_row (fun _ mem _ => mem) rfl)
  | @added row rows new owner task =>
    rcases Decidable.em (other = key) with rfl | different
    · refine .inr ⟨rfl, row, ?_, task⟩
      rw [row_withRows, row_withDelivery, new, Option.none_or, if_pos owner]
    · refine .inl (.of_row (fewerRows_withRows _ _) ?_)
      rw [row_withRows, row_withDelivery, owner, if_neg different, Option.or_none]
  | @extended row snapshot there =>
    refine .inl ⟨@fewerRows_withRows key (db.updatePayload other _) _ _, ?_⟩
    rcases Decidable.em (other = key) with rfl | different
    · refine ⟨[snapshot], ?_⟩
      rw [row_withRows, row_of_updatePayload there, there, Option.map_some]
      rfl
    · refine ⟨[], ?_⟩
      rw [row_withRows, row_updatePayload]
      cases db.row key with
      | none => rfl
      | some row => rw [Option.map_some, Option.map_some, if_neg different, extend_nil]

variable {snapshot : TaskAssociation}

theorem hasSnapshots_extended (there : db.row key = some row) : HasSnapshots key (some snapshot)
      ((db.updatePayload key (row.payload.extend [snapshot])).withRows key [snapshotRow snapshot]) := by
  refine ⟨_, (row_withRows _).trans (row_of_updatePayload there), ?_⟩
  rintro s ⟨⟩
  rw [List.find?_isSome]
  exact ⟨snapshot, List.mem_append_right _ (List.mem_singleton_self _), decide_eq_true rfl⟩

theorem HasSnapshots.of_taskId {snapshots : Option TaskAssociation}
    (has : HasSnapshots key (some snapshot) db) (same : ∀ s ∈ snapshots, s.taskId = snapshot.taskId) :
    HasSnapshots key snapshots db := by
  obtain ⟨row, there, found⟩ := has
  refine ⟨row, there, fun s mem => ?_⟩
  rw [same s mem]
  exact found snapshot rfl

variable {index : HistoryIndex} {stored : Bool}

variable {deliveryId : Text}

theorem storeSnapshot_touched
    (run : index.storeSnapshot deliveryId snapshot db = .ok (stored, t)) :
    t = db ∨ Touched (index.keyOf deliveryId) taskId db t ∧ HasSnapshots (index.keyOf deliveryId) (some snapshot) t := by
  cases there : db.row (index.keyOf deliveryId) with
  | none =>
    obtain ⟨_, failed⟩ := @storeSnapshot_of_none db index deliveryId snapshot there
    rw [failed] at run
    cases run
  | some row =>
    rw [storeSnapshot_of_some there] at run
    rcases attachSnapshot_ok run with ⟨_, ⟨_, unchanged⟩ | ⟨_, inserted⟩⟩
    · exact .inl unchanged
    · rw [key_of_row there] at inserted
      obtain rfl := insertDerived_ok inserted
      exact .inr ⟨.extended there, hasSnapshots_extended there⟩

variable {report : HistoryImportReport} {change : DeliveredChange} {under : Contracts}

theorem insertDelivery_touched {snapshot : Option TaskAssociation} (one : OneTask key taskId snapshot change)
    (run : insertDelivery change under db = .ok (report, t)) :
    t = db ∨ Touched key taskId db t ∧ HasSnapshots key snapshot t := by
  cases there : db.row change.delivery.key with
  | none =>
    obtain ⟨_, new⟩ := @insertDelivery_of_none db change under there
    obtain ⟨-, rfl⟩ := insertNew_ok (new ▸ run)
    rw [one.key] at there
    refine .inr ⟨?_, ?_⟩
    · rw [key_redactChange, one.key]
      exact .added there one.redacted.key one.redacted.task
    · rw [key_redactChange, one.key]
      have owner : (DeliveryRow.ofChange (redactChange change) under).key = key := one.key
      refine ⟨.ofChange (redactChange change) under, ?_, fun s mem => ?_⟩
      · rw [row_withRows, row_withDelivery, there, Option.none_or, if_pos owner]
      · rw [List.find?_isSome]
        refine ⟨redactTask s, ?_, decide_eq_true rfl⟩
        change redactTask s ∈ (redactChange change).suppliedSnapshots
        rw [one.redacted.supplied, Option.mem_toList]
        exact Option.mem_map_of_mem redactTask mem
  | some row =>
    obtain ⟨_, known⟩ := @insertDelivery_of_some db change under _ there
    obtain ⟨-, additions, new, ⟨_, unchanged⟩ | ⟨some, inserted⟩⟩ := insertIntoExisting_ok (known ▸ run)
    · exact .inl unchanged
    · rw [one.redacted.supplied] at new
      rw [one.key] at there
      obtain rfl | ⟨s, supplied, rfl, _⟩ := newSnapshots_toList new
      · exact absurd rfl some
      · obtain ⟨v, first, last⟩ := bind_eq_ok.mp inserted
        obtain rfl := Except.ok.inj last
        rw [key_redactChange, one.key] at first
        obtain rfl := insertDerived_ok first
        refine .inr ⟨.extended there, (hasSnapshots_extended there).of_taskId fun s' mem => ?_⟩
        rw [one.snapshot s' mem, one.redacted.snapshot s supplied]

theorem storeSnapshot_of_hasSnapshots
    (has : HasSnapshots (index.keyOf deliveryId) (some snapshot) db)
    (run : index.storeSnapshot deliveryId snapshot db = .ok (stored, t)) : t = db := by
  obtain ⟨row, there, found⟩ := has
  rw [storeSnapshot_of_some there] at run
  rcases attachSnapshot_ok run with ⟨_, ⟨_, unchanged⟩ | ⟨new, _⟩⟩
  · exact unchanged
  · have found := found snapshot rfl
    rw [new] at found
    cases found

theorem insertDelivery_of_hasSnapshots {snapshot : Option TaskAssociation}
    (one : OneTask key taskId snapshot change) (has : HasSnapshots key snapshot db)
    (run : insertDelivery change under db = .ok (report, t)) : t = db := by
  obtain ⟨row, there, found⟩ := has
  rw [← one.key] at there
  obtain ⟨_, known⟩ := @insertDelivery_of_some db change under _ there
  obtain ⟨-, additions, new, ⟨_, unchanged⟩ | ⟨some, _⟩⟩ := insertIntoExisting_ok (known ▸ run)
  · exact unchanged
  · rw [one.redacted.supplied] at new
    obtain rfl | ⟨s, supplied, rfl, unknown⟩ := newSnapshots_toList new
    · exact absurd rfl some
    · obtain ⟨s', mem, rfl⟩ := Option.map_eq_some_iff.mp supplied
      have found := found s' mem
      rw [redactTask_taskId] at unknown
      rw [unknown] at found
      cases found

theorem storeSnapshot_of_otherTask {deliveryId other : Text} (there : db.row (index.keyOf deliveryId) = some row)
    (task : row.payload.delivery.tasks.map TaskAssociation.taskId = [other]) (different : other ≠ snapshot.taskId)
    (run : index.storeSnapshot deliveryId snapshot db = .ok (stored, t)) : t = db := by
  rw [storeSnapshot_of_some there] at run
  obtain ⟨⟨-, takes⟩, -⟩ := attachSnapshot_ok run
  obtain ⟨task', mem, same⟩ := List.any_eq_true.mp takes
  have mem := List.mem_map_of_mem (f := TaskAssociation.taskId) mem
  rw [task, List.mem_singleton, of_decide_eq_true same] at mem
  exact absurd mem.symm different

theorem insertDelivery_of_otherTask {snapshot : Option TaskAssociation}
    {other : Text} (one : OneTask key taskId snapshot change) (there : db.row key = some row)
    (task : row.payload.delivery.tasks.map TaskAssociation.taskId = [other]) (different : other ≠ taskId)
    (run : insertDelivery change under db = .ok (report, t)) : t = db := by
  rw [← one.key] at there
  obtain ⟨_, known⟩ := @insertDelivery_of_some db change under _ there
  obtain ⟨⟨-, -, same, -⟩, -⟩ := insertIntoExisting_ok (known ▸ run)
  rw [same, one.redacted.task, List.cons.injEq] at task
  exact absurd task.1.symm different

end Touched

end OrbitGraph.History
