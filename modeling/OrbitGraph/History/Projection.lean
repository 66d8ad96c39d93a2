import OrbitGraph.History.System

/-!
The projection invariant: the columns and derived rows of every stored delivery
are the projection of its payload, and no derived row is without its delivery.

`DeliveredChange.projection` lists the derived rows table by table. The writers
produce them in another order and in several steps; each step lemma here says
that one write keeps the invariant, and the run lemma that every operation does.
-/

namespace OrbitGraph.History

open Lib Database

/-! ### The projection of a payload -/

/-- The rows of `history_files` for a payload. -/
def DeliveredChange.fileTable (change : DeliveredChange) : List DerivedRow :=
  change.files.zipIdx.map fun (file, ordinal) => .file (fileRow ordinal file)

/-- The rows of `history_path_lineage` for a payload. -/
def DeliveredChange.lineageTable (change : DeliveredChange) : List DerivedRow :=
  change.files.zipIdx.flatMap fun (file, ordinal) =>
    (lineageStep file).toList.map (lineageRow ordinal)

/-- The rows of `history_symbols` for a payload. -/
def DeliveredChange.symbolTable (change : DeliveredChange) : List DerivedRow :=
  change.files.zipIdx.flatMap fun (file, ordinal) => symbolRows ordinal file

def DeliveredChange.projection (change : DeliveredChange) : List DerivedRow :=
  change.delivery.tasks.map (fun task => .task (taskRow task)) ++
    (change.suppliedSnapshots.map snapshotRow ++ (change.fileTable ++ (change.lineageTable ++ change.symbolTable)))

theorem insertedRows_perm (change : DeliveredChange) : change.insertedRows.Perm change.projection := by
  refine (List.Perm.refl _).append ((List.Perm.refl _).append ?_)
  have split := List.flatMap_append_perm change.files.zipIdx
    (fun (file, ordinal) => [DerivedRow.file (fileRow ordinal file)])
    (fun (file, ordinal) => (lineageStep file).toList.map (lineageRow ordinal) ++ symbolRows ordinal file)
  refine split.symm.trans ?_
  have files : change.files.zipIdx.flatMap
      (fun (file, ordinal) => [DerivedRow.file (fileRow ordinal file)]) = change.fileTable :=
    List.map_eq_flatMap.symm
  rw [files]
  exact (List.Perm.refl _).append (List.flatMap_append_perm _ _ _).symm

theorem projection_extend (change : DeliveredChange) (additions : List TaskAssociation) :
    (change.extend additions).projection.Perm (change.projection ++ additions.map snapshotRow) := by
  have move : (additions.map snapshotRow ++ (change.fileTable ++ (change.lineageTable ++ change.symbolTable))).Perm
      ((change.fileTable ++ (change.lineageTable ++ change.symbolTable)) ++
        additions.map snapshotRow) := List.perm_append_comm
  simp only [DeliveredChange.projection, DeliveredChange.extend, List.map_append, List.append_assoc] at move ⊢
  exact (List.Perm.refl _).append ((List.Perm.refl _).append move)

/-! ### The invariant -/

/-- Columns and derived rows are the projection of the payloads. -/
structure Projected (db : Database) : Prop where
  unique : (db.deliveries.map DeliveryRow.key).Nodup
  columns : ∀ row ∈ db.deliveries, row = .ofChange row.payload row.extractedUnder
  derived : ∀ row ∈ db.deliveries, (db.derivedRows row.key).Perm row.payload.projection
  owned : ∀ r ∈ db.derived, ∃ row ∈ db.deliveries, row.key = r.owner

namespace Projected

variable {db db' : Database}

theorem initialSchema : Projected initialSchema where
  unique := List.nodup_nil
  columns := by simp [History.initialSchema]
  derived := by simp [History.initialSchema]
  owned := by simp [History.initialSchema]

theorem congr (h : Projected db) (deliveries : db'.deliveries = db.deliveries)
    (derived : db'.derived = db.derived) : Projected db' := by
  have rows : ∀ key, db'.derivedRows key = db.derivedRows key := fun key => by
    simp only [derivedRows, derived]
  exact
    { unique := deliveries ▸ h.unique
      columns := deliveries ▸ h.columns
      derived := fun row mem => by
        rw [rows]
        exact h.derived row (deliveries ▸ mem)
      owned := by
        rw [deliveries, derived]
        exact h.owned }

theorem key_eq (h : Projected db) {row : DeliveryRow} (mem : row ∈ db.deliveries) :
    row.key = row.payload.delivery.key := by
  have := h.columns row mem
  rw [this]
  rfl

theorem row_of_mem (h : Projected db) {row : DeliveryRow} (mem : row ∈ db.deliveries) :
    db.row row.key = some row := by
  have unique := h.unique
  unfold Database.row
  generalize db.deliveries = rows at mem unique
  induction rows with
  | nil => cases mem
  | cons first rest ih =>
    obtain ⟨fresh, unique⟩ := List.nodup_cons.mp unique
    rcases List.mem_cons.mp mem with rfl | mem
    · simp
    · have other : first.key ≠ row.key := fun eq =>
        fresh (eq ▸ List.mem_map_of_mem mem)
      rw [List.find?_cons_of_neg (by simpa using other)]
      exact ih mem unique

variable {key : DeliveryKey}

theorem derivedRows_of_none (h : Projected db) (none : db.row key = none) :
    db.derivedRows key = [] := by
  rw [derivedRows, List.map_eq_nil_iff, List.filter_eq_nil_iff]
  rintro r mem owner
  obtain ⟨row, hrow, hkey⟩ := h.owned r mem
  have := h.row_of_mem hrow
  rw [hkey, of_decide_eq_true owner, none] at this
  cases this

/-! ### One write -/

variable {change : DeliveredChange} {under : Contracts}

/-- Inserting a delivery that is not stored keeps the invariant. -/
theorem insertRow (h : Projected db) (fresh : db.row change.delivery.key = none) :
    Projected ((db.withDelivery (.ofChange change under)).withRows change.delivery.key change.insertedRows) where
  unique := by
    have notMem : change.delivery.key ∉ db.deliveries.map DeliveryRow.key := by
      rintro mem
      obtain ⟨row, hrow, hkey⟩ := List.mem_map.mp mem
      have := h.row_of_mem hrow
      rw [hkey, fresh] at this
      cases this
    simp only [withRows, withDelivery, List.map_append, List.map_cons, List.map_nil]
    exact List.nodup_append.mpr
      ⟨h.unique, by simp, fun a ha b hb => by
        rw [List.mem_singleton.mp hb]
        rintro rfl
        exact notMem ha⟩
  columns := by
    intro row mem
    rcases List.mem_append.mp mem with mem | mem
    · exact h.columns row mem
    · rw [List.mem_singleton.mp mem]
      rfl
  derived := by
    intro row mem
    rw [derivedRows_withRows, derivedRows_withDelivery]
    rcases List.mem_append.mp mem with mem | mem
    · have other : change.delivery.key ≠ row.key := by
        intro eq
        have := h.row_of_mem mem
        rw [← eq, fresh] at this
        cases this
      rw [if_neg other, List.append_nil]
      exact h.derived row mem
    · rw [List.mem_singleton.mp mem]
      have none := h.derivedRows_of_none fresh
      simpa [DeliveryRow.ofChange, none] using insertedRows_perm change
  owned := by
    intro r mem
    rcases List.mem_append.mp mem with mem | mem
    · obtain ⟨row, hrow, hkey⟩ := h.owned r mem
      exact ⟨row, List.mem_append_left _ hrow, hkey⟩
    · obtain ⟨derived, _, rfl⟩ := List.mem_map.mp mem
      exact ⟨_, List.mem_append_right _ (List.mem_singleton.mpr rfl), rfl⟩

theorem addSnapshots (h : Projected db) {row : DeliveryRow}
    (found : db.row key = some row) (additions : List TaskAssociation) :
    Projected ((db.updatePayload key (row.payload.extend additions)).withRows key (additions.map snapshotRow)) where
  unique := by
    have keys : (db.updatePayload key (row.payload.extend additions)).deliveries.map
        DeliveryRow.key = db.deliveries.map DeliveryRow.key := by
      simp only [updatePayload, List.map_map]
      refine List.map_congr_left fun r _ => ?_
      by_cases hk : r.key = key <;> simp [hk]
    exact keys ▸ h.unique
  columns := by
    intro row' mem
    obtain ⟨r, hr, rfl⟩ := List.mem_map.mp mem
    by_cases hk : r.key = key
    · have := h.row_of_mem hr
      rw [hk, found] at this
      obtain rfl := Option.some.inj this
      have columns := h.columns row hr
      rw [if_pos hk]
      rw [columns]
      rfl
    · rw [if_neg hk]
      exact h.columns r hr
  derived := by
    intro row' mem
    obtain ⟨r, hr, rfl⟩ := List.mem_map.mp mem
    rw [derivedRows_withRows, derivedRows_updatePayload]
    by_cases hk : r.key = key
    · have := h.row_of_mem hr
      rw [hk, found] at this
      obtain rfl := Option.some.inj this
      rw [if_pos hk]
      simp only [hk, if_true]
      have before := h.derived row hr
      rw [hk] at before
      exact (before.append_right _).trans (projection_extend _ _).symm
    · rw [if_neg hk, if_neg (fun eq => hk eq.symm), List.append_nil]
      exact h.derived r hr
  owned := by
    have stored : ∀ r ∈ db.deliveries, ∃ r' ∈ (db.updatePayload key
        (row.payload.extend additions)).deliveries, r'.key = r.key := by
      intro r hr
      refine ⟨_, List.mem_map_of_mem hr, ?_⟩
      by_cases hk : r.key = key <;> simp [hk]
    intro r mem
    rcases List.mem_append.mp mem with mem | mem
    · obtain ⟨row', hrow, hkey⟩ := h.owned r mem
      obtain ⟨r', hr', same⟩ := stored row' hrow
      exact ⟨r', hr', same.trans hkey⟩
    · obtain ⟨derived, _, rfl⟩ := List.mem_map.mp mem
      obtain ⟨r', hr', same⟩ := stored row (mem_of_row found)
      exact ⟨r', hr', same.trans (key_of_row found)⟩

theorem deleteDeliveries (h : Projected db) (doomed : DeliveryKey → Bool) :
    Projected (db.deleteDeliveries doomed) where
  unique := (List.filter_sublist.map _).nodup h.unique
  columns row mem := h.columns row (List.mem_filter.mp mem).1
  derived := by
    intro row mem
    obtain ⟨mem, kept⟩ := List.mem_filter.mp mem
    rw [derivedRows_deleteDeliveries, if_neg (by simpa using kept)]
    exact h.derived row mem
  owned := by
    intro r mem
    obtain ⟨mem, kept⟩ := List.mem_filter.mp mem
    obtain ⟨row, hrow, hkey⟩ := h.owned r mem
    exact ⟨row, List.mem_filter.mpr ⟨hrow, by rw [hkey]; exact kept⟩, hkey⟩

theorem insertDelivery (h : Projected db) {report : HistoryImportReport}
    (run : History.insertDelivery change under db = .ok (report, db')) : Projected db' := by
  rcases insertDelivery_cases run with ⟨fresh, _, rfl⟩ | ⟨row, additions, found, _, _, _, _, last⟩
  · exact h.insertRow fresh
  · rcases last with ⟨_, rfl⟩ | rfl
    · exact h
    · exact h.addSnapshots found additions

/-! ### One transaction -/

theorem insertStored (h : Projected db) {row : DeliveredChange × Contracts}
    (run : History.insertStored db row = .ok db') : Projected db' := by
  obtain ⟨⟨report, db₁⟩, inserted, run⟩ := bind_eq_ok.mp run
  obtain rfl := Except.ok.inj run
  exact h.insertDelivery inserted

theorem insertStored_all (h : Projected db) {rows : List (DeliveredChange × Contracts)}
    (run : rows.foldlM History.insertStored db = .ok db') : Projected db' :=
  foldlM_keeps (fun _ _ _ _ h run => h.insertStored run) h run

theorem insertScopes (h : Projected db) {operation : String} {rows : List ScopeRow} {f : ScopeRow → ScopeRow}
    (run : rows.foldlM (fun db row => db.insertScope operation (f row)) db = .ok db') : Projected db' := by
  refine foldlM_keeps (fun db row db' _ h run => ?_) h run
  rw [insertScope_ok run]
  exact h.congr rfl rfl

theorem copyPreviousSchema (h : Projected db) {previous : Option Database} {u : Unit}
    (run : History.copyPreviousSchema previous db = .ok (u, db')) : Projected db' := by
  unfold History.copyPreviousSchema at run
  split at run
  · obtain ⟨_, rfl⟩ := Prod.mk.inj (Except.ok.inj run)
    exact h
  · split at run
    · obtain ⟨_, rfl⟩ := Prod.mk.inj (Except.ok.inj run)
      exact h.congr rfl rfl
    · split at run
      · obtain ⟨_, rfl⟩ := Prod.mk.inj (Except.ok.inj run)
        exact h.congr rfl rfl
      · split at run
        · obtain ⟨db₁, copied, run⟩ := bind_eq_ok.mp run
          obtain ⟨_, rfl⟩ := Prod.mk.inj (Except.ok.inj run)
          obtain ⟨db₂, deliveries, scopes⟩ := bind_eq_ok.mp copied
          have := (h.insertStored_all deliveries).insertScopes (f := id) scopes
          exact this.congr rfl rfl
        · obtain ⟨_, rfl⟩ := Prod.mk.inj (Except.ok.inj run)
          exact h.congr rfl rfl

variable {index : HistoryIndex}

variable {branches : List Text} {legacy : Text}

theorem moveScopeVersions (h : Projected db) {c : Contract}
    (run : index.moveScopeVersions branches legacy db c = .ok db') : Projected db' := by
  refine foldlM_keeps (fun db version db' _ h run => ?_) h run
  obtain ⟨db₁, inserted, run⟩ := bind_eq_ok.mp run
  obtain rfl := Except.ok.inj run
  rw [insertMeta_ok inserted]
  exact h.congr rfl rfl

theorem migrateRepository (h : Projected db)
    (run : index.migrateRepository branches db legacy = .ok db') : Projected db' := by
  obtain ⟨db₁, deliveries, run⟩ := bind_eq_ok.mp run
  obtain ⟨db₂, scopes, run⟩ := bind_eq_ok.mp run
  obtain ⟨db₃, versions, run⟩ := bind_eq_ok.mp run
  obtain rfl := Except.ok.inj run
  have reinserted := (h.insertStored_all deliveries).insertScopes scopes
  have renamed : Projected db₃ :=
    foldlM_keeps (fun _ _ _ _ h run => h.moveScopeVersions run) reinserted versions
  exact (renamed.deleteDeliveries fun key => key.repository = legacy).congr rfl rfl

theorem migrateScopes (h : Projected db) {u : Unit}
    (run : index.migrateScopes db = .ok (u, db')) : Projected db' := by
  obtain ⟨branches, _, run⟩ := bind_eq_ok.mp run
  obtain ⟨db₁, moved, run⟩ := bind_eq_ok.mp run
  obtain ⟨_, rfl⟩ := Prod.mk.inj (Except.ok.inj run)
  have : Projected db₁ := foldlM_keeps (fun _ _ _ _ h run => h.migrateRepository run) h moved
  exact this.congr rfl rfl

theorem storeSnapshot (h : Projected db) {deliveryId : Text} {snapshot : TaskAssociation} {stored : Bool}
    (run : index.storeSnapshot deliveryId snapshot db = .ok (stored, db')) : Projected db' := by
  rcases storeSnapshot_ok run with rfl | ⟨row, found, _, rfl⟩
  · exact h
  · exact h.addSnapshots found [snapshot]

theorem insertExtracted_all (h : Projected db) {changes : List DeliveredChange} {n n' : Nat}
    (run : changes.foldlM insertExtracted (n, db) = .ok (n', db')) : Projected db' := by
  refine foldlM_keeps (P := fun s : Nat × Database => Projected s.2)
    (fun s change t _ h run => ?_) (s := (n, db)) h run
  obtain ⟨⟨report, db₁⟩, inserted, run⟩ := bind_eq_ok.mp run
  obtain rfl := Except.ok.inj run
  exact h.insertDelivery inserted

theorem commitSync (h : Projected db) {plan : SyncPlan}
    {report : HistorySyncReport} (run : index.commitSync plan db = .ok (report, db')) : Projected db' := by
  obtain ⟨_, _, run⟩ := bind_eq_ok.mp run
  obtain ⟨⟨inserted, db₁⟩, extracted, run⟩ := bind_eq_ok.mp run
  obtain ⟨_, rfl⟩ := Prod.mk.inj (Except.ok.inj run)
  have := h.insertExtracted_all extracted
  exact this.congr (HistoryIndex.writeSyncedScope_deliveries ..)
    (HistoryIndex.writeSyncedScope_derived ..)

theorem deleteScope (h : Projected db) (repository branch : Text) : Projected (db.deleteScope repository branch).2 :=
  (h.deleteDeliveries fun key => key.repository = repository ∧ key.landingBranch = branch).congr rfl rfl

theorem commitRebuild (h : Projected db) {plan : RebuildPlan} {preserved : List DeliveredChange} {removed : Nat}
    (run : index.commitRebuild plan preserved db = .ok (removed, db')) : Projected db' := by
  obtain ⟨_, _, run⟩ := bind_eq_ok.mp run
  obtain ⟨db₁, kept, run⟩ := bind_eq_ok.mp run
  obtain ⟨db₂, extracted, run⟩ := bind_eq_ok.mp run
  obtain ⟨db₃, stamped, run⟩ := bind_eq_ok.mp run
  obtain ⟨_, rfl⟩ := Prod.mk.inj (Except.ok.inj run)
  have one : ∀ db change db', change ∈ preserved → Projected db →
      HistoryIndex.insertCurrent db change = .ok db' → Projected db' :=
    fun _ _ _ _ h run => h.insertStored run
  have preserved : Projected db₁ := foldlM_keeps one (h.deleteScope _ _) kept
  have all : Projected db₂ := foldlM_keeps (fun _ _ _ _ h run => h.insertStored run) preserved extracted
  have cursor : Projected (db₂.writeCursor index.repository index.landingBranch plan.tip) :=
    all.congr (upsertScope_deliveries ..) (upsertScope_derived ..)
  obtain ⟨deliveries, derived, _⟩ := stampRebuiltScope_rows stamped
  exact cursor.congr deliveries derived

/-! ### Every operation -/

theorem kept : Kept (OnFile Projected) fun _ => True where
  initialSchema _ := initialSchema
  purged _ h := h.congr rfl rfl
  copied _ _ _ _ _ h run := h.copyPreviousSchema run
  migrated _ _ _ _ h run := h.migrateScopes run
  inserted _ _ _ _ h run := h.insertDelivery run
  attached _ _ _ _ _ _ h run := h.storeSnapshot run
  synced _ _ _ _ _ h run := h.commitSync run
  rebuilt _ _ _ _ _ _ h run := h.commitRebuild run

end Projected

/-- Files to start from: none, or one whose rows are projections already, as an
earlier run leaves it. -/
def StartsProjected (file _previous : Option Database) : Prop := OnFile Projected file

theorem projected_inductive [GitObjects] : (system StartsProjected).Inductive fun s => OnFile Projected s.file where
  init _ h := h.2
  step s op t h step := by
    rw [step.2]
    exact Projected.kept.run op trivial h

/-- In every reachable history database the columns and derived rows of each
delivery are the projection of its payload, and each derived row belongs to a
delivery. -/
theorem rows_are_projections [GitObjects] {s : Store}
    (reach : (system StartsProjected).Reachable s) {db : Database} (file : s.file = some db) :
    Projected db := by
  have := reach.of_inductive projected_inductive
  rw [file] at this
  exact this

namespace Sample

local instance : GitObjects := objects

theorem rows_are_projections_synced :
    ∃ db, synced.file = some db ∧ db.deliveries.length = 1 ∧ Projected db := by
  have stored : (synced.file.map fun db => db.deliveries.length) = some 1 := by decide +kernel
  obtain ⟨db, file, one⟩ := Option.map_eq_some_iff.mp stored
  exact ⟨db, file, one, rows_are_projections (synced_reachable trivial) file⟩

end Sample

end OrbitGraph.History
