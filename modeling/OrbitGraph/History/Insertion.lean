import OrbitGraph.Lib.Table
import OrbitGraph.History.Database

/-!
What the writes do: one lemma for each, in terms of what is read back.

`insertDelivery_cases` says everything that `insert_delivery` can do to the
database when it succeeds.
-/

namespace OrbitGraph.History

open Lib

namespace Database

variable {db db' : Database} {key owner : DeliveryKey} {operation : String}

/-! ### Delivery rows and the rows they own -/

@[simp] theorem row_withRows (rows : List DerivedRow) : (db.withRows owner rows).row key = db.row key :=
  rfl

/-- A row that is added is found, unless there is one with its key. -/
theorem row_withDelivery (row : DeliveryRow) :
    (db.withDelivery row).row key = (db.row key).or (if row.key = key then some row else none) := by
  simp only [Database.row, withDelivery, List.find?_append, List.find?_singleton, decide_eq_true_eq]

@[simp] theorem derivedRows_withDelivery (row : DeliveryRow) :
    (db.withDelivery row).derivedRows key = db.derivedRows key := rfl

/-- Only the owner gains derived rows. -/
theorem derivedRows_withRows (rows : List DerivedRow) :
    (db.withRows owner rows).derivedRows key =
      db.derivedRows key ++ if owner = key then rows else [] := by
  simp only [derivedRows, withRows, List.filter_append, List.map_append]
  congr 1
  by_cases h : owner = key
  · simp [h, List.filter_map, Function.comp_def]
  · simp [h, List.filter_map, Function.comp_def]

/-- Only the owner's row takes the payload. -/
theorem row_updatePayload (payload : DeliveredChange) :
    (db.updatePayload owner payload).row key =
      (db.row key).map fun row => if owner = key then { row with payload } else row := by
  simp only [Database.row, updatePayload, List.find?_map]
  have same : ((fun row : DeliveryRow => decide (row.key = key)) ∘
      fun row => if row.key = owner then { row with payload } else row) =
      fun row => decide (row.key = key) := by
    funext row
    by_cases h : row.key = owner <;> simp [h]
  rw [same]
  cases h : db.deliveries.find? fun row => row.key = key with
  | none => rfl
  | some row =>
    have := List.find?_some h
    simp only [decide_eq_true_eq] at this
    simp [this, eq_comm]

@[simp] theorem derivedRows_updatePayload (payload : DeliveredChange) :
    (db.updatePayload owner payload).derivedRows key = db.derivedRows key := rfl

/-- The derived rows of a delivery go with it. -/
theorem derivedRows_deleteDeliveries (doomed : DeliveryKey → Bool) :
    (db.deleteDeliveries doomed).derivedRows key = if doomed key then [] else db.derivedRows key := by
  simp only [derivedRows, deleteDeliveries, List.filter_filter]
  by_cases h : doomed key = true
  · rw [if_pos h, List.map_eq_nil_iff, List.filter_eq_nil_iff]
    intro r _
    by_cases hk : r.owner = key <;> simp [hk, h]
  · rw [if_neg h]
    congr 1
    refine List.filter_congr fun r _ => ?_
    by_cases hk : r.owner = key <;> simp [hk, h]

variable {row : DeliveryRow}

theorem key_of_row (h : db.row key = some row) : row.key = key := by
  simpa using List.find?_some h

theorem mem_of_row (h : db.row key = some row) : row ∈ db.deliveries :=
  List.mem_of_find?_eq_some h

theorem withRows_nil : db.withRows owner [] = db := by
  simp [withRows]

theorem withRows_withRows (rows more : List DerivedRow) :
    (db.withRows owner rows).withRows owner more = db.withRows owner (rows ++ more) := by
  simp [withRows]

/-- A derived row that is inserted is the only change. -/
theorem insertDerived_ok {row : DerivedRow} (h : db.insertDerived operation owner row = .ok db') :
    db' = db.withRows owner [row] := by
  unfold insertDerived at h
  split at h
  · cases h
  · exact (Except.ok.inj h).symm

/-- A loop whose steps add rows adds the rows of all of them. -/
theorem foldlM_withRows {α : Type} {f : Database → α → Except GraphError Database} {rows : α → List DerivedRow}
    (one : ∀ db a db', f db a = .ok db' → db' = db.withRows owner (rows a)) {as : List α}
    (run : as.foldlM f db = .ok db') : db' = db.withRows owner (as.flatMap rows) := by
  have step : ∀ done s a t, s = db.withRows owner (List.flatMap rows done) → f s a = .ok t →
      t = db.withRows owner (List.flatMap rows (done ++ [a])) := by
    rintro done s a t rfl h
    rw [one _ a t h, withRows_withRows]
    simp
  have start : db = db.withRows owner (List.flatMap rows []) := withRows_nil.symm
  exact foldlM_invariant step start run

theorem foldlM_withRow {α : Type} {f : Database → α → Except GraphError Database}
    {row : α → DerivedRow} (one : ∀ db a db', f db a = .ok db' → db' = db.withRows owner [row a])
    {as : List α} (run : as.foldlM f db = .ok db') : db' = db.withRows owner (as.map row) := by
  rw [foldlM_withRows one run, List.map_eq_flatMap]

/-! ### Scopes and version keys -/

variable {update : HistoryScope → HistoryScope} {repository branch : Text}

theorem upsertScope_deliveries : (db.upsertScope repository branch update).deliveries = db.deliveries := by
  unfold upsertScope
  split <;> rfl

theorem upsertScope_derived : (db.upsertScope repository branch update).derived = db.derived := by
  unfold upsertScope
  split <;> rfl

theorem upsertScope_historyMeta : (db.upsertScope repository branch update).historyMeta = db.historyMeta := by
  unfold upsertScope
  split <;> rfl

theorem insertScope_ok {row : ScopeRow} (h : db.insertScope operation row = .ok db') :
    db' = { db with scopes := db.scopes ++ [row] } := by
  unfold insertScope at h
  split at h
  · cases h
  · exact (Except.ok.inj h).symm

theorem insertMeta_ok {key : MetaKey} {value : Text} (h : db.insertMeta operation key value = .ok db') :
    db' = { db with historyMeta := db.historyMeta ++ [(key, value)] } := by
  unfold insertMeta at h
  split at h
  · cases h
  · exact (Except.ok.inj h).symm

end Database

open Database

variable {db db' : Database} {owner : DeliveryKey}

def fileRows (ordinal : Nat) (file : FileChange) : List DerivedRow :=
  .file (fileRow ordinal file) ::
    ((lineageStep file).toList.map (lineageRow ordinal) ++ symbolRows ordinal file)

def DeliveredChange.insertedRows (change : DeliveredChange) : List DerivedRow :=
  change.delivery.tasks.map (fun task => .task (taskRow task)) ++
    (change.suppliedSnapshots.map snapshotRow ++
      change.files.zipIdx.flatMap fun (file, ordinal) => fileRows ordinal file)

/-- A symbol adds the rows of its sides. -/
theorem insertSymbol_ok {ordinal : Nat} {symbol : SymbolChange × Nat}
    (h : insertSymbol owner ordinal db symbol = .ok db') : db' = db.withRows owner
      (symbol.1.sides.map fun item => .symbol (symbolRow ordinal symbol.2 symbol.1 item)) := by
  have one : ∀ db item db', insertSymbolSide owner ordinal symbol.2 symbol.1 db item = .ok db' →
      db' = db.withRows owner [.symbol (symbolRow ordinal symbol.2 symbol.1 item)] := by
    intro db item db' h
    obtain ⟨_, h₁, h⟩ := bind_eq_ok.mp h
    obtain ⟨_, h₂, h⟩ := bind_eq_ok.mp h
    obtain ⟨_, h₃, h⟩ := bind_eq_ok.mp h
    obtain ⟨_, h₄, h⟩ := bind_eq_ok.mp h
    rw [i64Len_ok h₁, i64Len_ok h₂, i64Len_ok h₃, i64Len_ok h₄] at h
    exact insertDerived_ok h
  exact foldlM_withRow one h

/-- A file adds the row of its lineage step, if it has one. -/
theorem insertLineage_ok {ordinal : Nat} {file : FileChange} (h : insertLineage owner ordinal file db = .ok db') :
    db' = db.withRows owner ((lineageStep file).toList.map (lineageRow ordinal)) := by
  unfold insertLineage at h
  split at h
  next none =>
    rw [none]
    simpa [withRows_nil] using (Except.ok.inj h).symm
  next step some =>
    rw [some]
    obtain ⟨_, h₁, h⟩ := bind_eq_ok.mp h
    rw [i64Len_ok h₁] at h
    exact insertDerived_ok h

/-- A file adds its own row, its lineage and its symbols. -/
theorem insertFile_ok {file : FileChange × Nat} (h : insertFile owner db file = .ok db') :
    db' = db.withRows owner (fileRows file.2 file.1) := by
  obtain ⟨_, h₁, h⟩ := bind_eq_ok.mp h
  obtain ⟨_, h₂, h⟩ := bind_eq_ok.mp h
  obtain ⟨_, h₃, h⟩ := bind_eq_ok.mp h
  rw [i64Len_ok h₁, i64Len_ok h₂, i64Len_ok h₃] at h
  obtain ⟨db₁, hfile, h⟩ := bind_eq_ok.mp h
  obtain ⟨db₂, hlineage, h⟩ := bind_eq_ok.mp h
  have one : ∀ db symbol db', insertSymbol owner file.2 db symbol = .ok db' →
      db' = db.withRows owner
        (symbol.1.sides.map fun item => .symbol (symbolRow file.2 symbol.2 symbol.1 item)) :=
    fun _ _ _ h => insertSymbol_ok h
  have symbols := foldlM_withRows one h
  rw [symbols, insertLineage_ok hlineage, insertDerived_ok hfile, withRows_withRows, withRows_withRows]
  rfl

variable {change : DeliveredChange} {under : Contracts}

/-- A new delivery adds its row and the rows derived from it, and nothing else. -/
theorem insertNew_ok {report report' : HistoryImportReport}
    (h : insertNew change under report db = .ok (report', db')) : report' = report ∧
      db' = (db.withDelivery (.ofChange change under)).withRows change.delivery.key change.insertedRows := by
  obtain ⟨_, h₁, h⟩ := bind_eq_ok.mp h
  obtain ⟨_, h₂, h⟩ := bind_eq_ok.mp h
  obtain ⟨_, h₃, h⟩ := bind_eq_ok.mp h
  rw [i64Len_ok h₁, i64Len_ok h₂, i64Len_ok h₃] at h
  obtain ⟨db₁, htasks, h⟩ := bind_eq_ok.mp h
  obtain ⟨db₂, hsnapshots, h⟩ := bind_eq_ok.mp h
  obtain ⟨db₃, hfiles, h⟩ := bind_eq_ok.mp h
  obtain ⟨rfl, rfl⟩ := Prod.mk.inj (Except.ok.inj h)
  refine ⟨rfl, ?_⟩
  have oneFile : ∀ db file db', insertFile change.delivery.key db file = .ok db' →
      db' = db.withRows change.delivery.key (fileRows file.2 file.1) :=
    fun _ _ _ h => insertFile_ok h
  have tasks := foldlM_withRow (fun _ _ _ h => insertDerived_ok h) htasks
  have snapshots := foldlM_withRow (fun _ _ _ h => insertDerived_ok h) hsnapshots
  rw [foldlM_withRows oneFile hfiles, snapshots, tasks, withRows_withRows, withRows_withRows]
  rfl

@[simp] theorem key_redactChange (change : DeliveredChange) :
    (redactChange change).delivery.key = change.delivery.key := rfl

/-- What a successful `insert_delivery` has done: inserted the delivery, or found it
with the same content and nothing to add, or added the snapshots it lacked. -/
theorem insertDelivery_cases {report : HistoryImportReport} (h : insertDelivery change under db = .ok (report, db')) :
    (db.row change.delivery.key = none ∧ report.inserted = true ∧
      db' = (db.withDelivery (.ofChange (redactChange change) under)).withRows change.delivery.key
        (redactChange change).insertedRows) ∨
    ∃ row additions, db.row change.delivery.key = some row ∧ report.inserted = false ∧
      row.payload.delivery = (redactChange change).delivery ∧ row.payload.files = (redactChange change).files ∧
      newSnapshots row.payload (redactChange change).suppliedSnapshots = .ok additions ∧
      ((additions = [] ∧ db' = db) ∨
        db' = (db.updatePayload change.delivery.key (row.payload.extend additions)).withRows
          change.delivery.key (additions.map snapshotRow)) := by
  simp only [insertDelivery, key_redactChange] at h
  cases hrow : db.row change.delivery.key with
  | none =>
    rw [hrow] at h
    obtain ⟨rfl, written⟩ := insertNew_ok h
    exact .inl ⟨rfl, rfl, written⟩
  | some row =>
    rw [hrow] at h
    refine .inr ?_
    obtain ⟨_, same, h⟩ := bind_eq_ok.mp h
    obtain ⟨_, _, sameDelivery, sameFiles⟩ := ensure_eq_ok.mp same
    obtain ⟨additions, hnew, h⟩ := bind_eq_ok.mp h
    refine ⟨row, additions, rfl, ?_⟩
    split at h
    next none =>
      obtain ⟨rfl, rfl⟩ := Prod.mk.inj (Except.ok.inj h)
      exact ⟨rfl, sameDelivery, sameFiles, hnew, .inl ⟨none, rfl⟩⟩
    next =>
      obtain ⟨db₁, hsnapshots, h⟩ := bind_eq_ok.mp h
      obtain ⟨rfl, rfl⟩ := Prod.mk.inj (Except.ok.inj h)
      have snapshots := foldlM_withRow (fun _ _ _ h => insertDerived_ok h) hsnapshots
      exact ⟨rfl, sameDelivery, sameFiles, hnew, .inr snapshots⟩

end OrbitGraph.History
