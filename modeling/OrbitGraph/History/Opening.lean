import OrbitGraph.History.Migration

/-!
Opening a history database for writing, and what it moves.

In every reachable database versions are recorded for stored scopes only
(`recorded_inductive`). So a migration at open finds every version that it has
to move, and `opening_moves` says for every outcome of an open which history is
stored afterwards.
-/

namespace OrbitGraph.History

open Lib Database

variable {db db' : Database}

/-! ### Stored scopes -/

theorem mem_storedScopes_tags {repository branch : Text} : (repository, branch) ∈ db.storedScopes ↔
      (∃ row ∈ db.scopes, row.repository = repository ∧ row.landingBranch = branch) ∨
        ∃ tag ∈ db.tags, tag.1.repository = repository ∧ tag.1.landingBranch = branch := by
  rw [mem_storedScopes]
  simp [tags]

theorem mem_storedScopes_upsertScope {repository branch repository' branch' : Text}
    {update : HistoryScope → HistoryScope} :
    (repository', branch') ∈ (db.upsertScope repository branch update).storedScopes ↔
      (repository', branch') ∈ db.storedScopes ∨ (repository' = repository ∧ branch' = branch) := by
  rw [mem_storedScopes, mem_storedScopes, upsertScope_deliveries]
  have scopes : (∃ row ∈ (db.upsertScope repository branch update).scopes,
      row.repository = repository' ∧ row.landingBranch = branch') ↔
      (∃ row ∈ db.scopes, row.repository = repository' ∧ row.landingBranch = branch') ∨
        (repository' = repository ∧ branch' = branch) := by
    unfold upsertScope
    split
    next there =>
      have kept : (∃ row ∈ db.scopes.map (fun row =>
            if row.repository = repository ∧ row.landingBranch = branch then
              { row with scope := update row.scope } else row),
          row.repository = repository' ∧ row.landingBranch = branch') ↔
          ∃ row ∈ db.scopes, row.repository = repository' ∧ row.landingBranch = branch' := by
        simp only [List.mem_map, exists_exists_and_eq_and]
        refine exists_congr fun row => and_congr_right fun _ => ?_
        split <;> rfl
      rw [kept]
      constructor
      · exact .inl
      · rintro (found | ⟨rfl, rfl⟩)
        · exact found
        · obtain ⟨row, found⟩ := Option.isSome_iff_exists.mp there
          exact ⟨row, List.mem_of_find?_eq_some found, by simpa using List.find?_some found⟩
    next =>
      constructor
      · rintro ⟨row, mem, rfl, rfl⟩
        rcases List.mem_append.mp mem with mem | mem
        · exact .inl ⟨row, mem, rfl, rfl⟩
        · rw [List.mem_singleton.mp mem]
          exact .inr ⟨rfl, rfl⟩
      · rintro (⟨row, mem, rfl, rfl⟩ | ⟨rfl, rfl⟩)
        · exact ⟨row, List.mem_append_left _ mem, rfl, rfl⟩
        · exact ⟨_, List.mem_append_right _ (List.mem_singleton.mpr rfl), rfl, rfl⟩
  rw [scopes]
  exact or_right_comm

variable {news : List (DeliveryKey × Contracts)}

theorem Adds.storedScopes (h : Adds news db db')
    {repository branch : Text} (stored : (repository, branch) ∈ db.storedScopes) :
    (repository, branch) ∈ db'.storedScopes := by
  rw [mem_storedScopes_tags] at stored ⊢
  obtain ⟨added, _, tags⟩ := h.tags
  rw [h.scopes, tags]
  refine stored.imp_right ?_
  rintro ⟨tag, mem, here⟩
  exact ⟨tag, List.mem_append_left _ mem, here⟩

theorem Adds.scopeVersions (h : Adds news db db') : db'.scopeVersions = db.scopeVersions := by
  rw [Database.scopeVersions, h.historyMeta]
  rfl

/-! ### Versions are recorded for stored scopes -/

theorem VersionsStored.mono (h : VersionsStored db)
    (stored : ∀ repository branch, (repository, branch) ∈ db.storedScopes → (repository, branch) ∈ db'.storedScopes)
    (versions : ∀ c repository branch value, (.scopeContract c repository branch, value) ∈ db'.scopeVersions →
        (.scopeContract c repository branch, value) ∈ db.scopeVersions ∨
          (repository, branch) ∈ db'.storedScopes) : VersionsStored db' := by
  intro c repository branch value mem
  rcases versions c repository branch value mem with mem | stored'
  · exact stored _ _ (h _ _ _ _ mem)
  · exact stored'

theorem VersionsStored.adds (h : VersionsStored db) (adds : Adds news db db') : VersionsStored db' :=
  h.mono (fun _ _ stored => adds.storedScopes stored) fun _ _ _ _ mem =>
    .inl (adds.scopeVersions ▸ mem)

/-- Histories that differ in other keys of `history_meta` only. -/
structure SameHistory (db db' : Database) : Prop where
  deliveries : db'.deliveries = db.deliveries
  scopes : db'.scopes = db.scopes
  derived : db'.derived = db.derived
  versions : db'.scopeVersions = db.scopeVersions

namespace SameHistory

theorem rfl : SameHistory db db := ⟨Eq.refl _, Eq.refl _, Eq.refl _, Eq.refl _⟩

theorem trans {db'' : Database} (h : SameHistory db db') (h' : SameHistory db' db'') : SameHistory db db'' where
  deliveries := h'.deliveries.trans h.deliveries
  scopes := h'.scopes.trans h.scopes
  derived := h'.derived.trans h.derived
  versions := h'.versions.trans h.versions

theorem putMeta {key : MetaKey} {value : Text} (other : key.isScopeVersion = false) :
    SameHistory db (db.putMeta key value) :=
  ⟨Eq.refl _, Eq.refl _, Eq.refl _, scopeVersions_putMeta other⟩

theorem deleteMeta {key : MetaKey} (other : key.isScopeVersion = false) : SameHistory db (db.deleteMeta key) :=
  ⟨Eq.refl _, Eq.refl _, Eq.refl _, scopeVersions_deleteMeta other⟩

theorem storedScopes (h : SameHistory db db') : db'.storedScopes = db.storedScopes := by
  simp only [Database.storedScopes, h.deliveries, h.scopes]

theorem projected (h : SameHistory db db') (before : Projected db) : Projected db' :=
  before.congr h.deliveries h.derived

theorem versionsStored (h : SameHistory db db') (before : VersionsStored db) : VersionsStored db' :=
  before.mono (fun _ _ stored => h.storedScopes ▸ stored) fun _ _ _ _ mem =>
    .inl (h.versions ▸ mem)

theorem credentialedRepositories (h : SameHistory db db') (index : HistoryIndex) :
    index.credentialedRepositories db' = index.credentialedRepositories db := by
  simp only [HistoryIndex.credentialedRepositories, h.storedScopes]

end SameHistory

/-! ### Transactions -/

/-- `db'` is `db`, in which nothing was stored, with the previous database's rows. -/
def Copied (previous : Option Database) (db db' : Database) : Prop :=
  db.deliveries = [] ∧ db.scopes = [] ∧
    ∃ p db₀ db₁, previous = some p ∧ SameHistory db db₀ ∧ copyPrevious p db₀ = .ok db₁ ∧
      SameHistory db₁ db'

variable {previous : Option Database}

theorem Copied.of_same {db'' : Database} (same : SameHistory db db')
    (h : Copied previous db' db'') : Copied previous db db'' := by
  obtain ⟨deliveries, scopes, p, db₀, db₁, older, same₀, copied, same₁⟩ := h
  exact ⟨same.deliveries ▸ deliveries, same.scopes ▸ scopes, p, db₀, db₁, older, same.trans same₀, copied, same₁⟩

theorem copyPreviousSchema_ok {u : Unit} (run : copyPreviousSchema previous db = .ok (u, db')) :
    SameHistory db db' ∨ Copied previous db db' := by
  unfold copyPreviousSchema at run
  split at run
  · obtain ⟨_, rfl⟩ := Prod.mk.inj (Except.ok.inj run)
    exact .inl SameHistory.rfl
  · split at run
    · obtain ⟨_, rfl⟩ := Prod.mk.inj (Except.ok.inj run)
      exact .inl (SameHistory.putMeta rfl)
    next nothing =>
      split at run
      · obtain ⟨_, rfl⟩ := Prod.mk.inj (Except.ok.inj run)
        exact .inl (SameHistory.putMeta rfl)
      next p =>
        split at run
        · obtain ⟨db₁, copied, run⟩ := bind_eq_ok.mp run
          obtain ⟨_, rfl⟩ := Prod.mk.inj (Except.ok.inj run)
          have deliveries : db.deliveries = [] := List.length_eq_zero_iff.mp (by omega)
          have scopes : db.scopes = [] := List.length_eq_zero_iff.mp (by omega)
          exact .inr ⟨deliveries, scopes, p, db, db₁, rfl, SameHistory.rfl, copied, SameHistory.putMeta rfl⟩
        · obtain ⟨_, rfl⟩ := Prod.mk.inj (Except.ok.inj run)
          exact .inl (SameHistory.putMeta rfl)

theorem VersionsStored.copyPreviousSchema (h : VersionsStored db)
    {u : Unit} (run : copyPreviousSchema previous db = .ok (u, db')) : VersionsStored db' := by
  rcases copyPreviousSchema_ok run with same | ⟨_, _, p, db₀, db₁, _, same₀, copied, same⟩
  · exact same.versionsStored h
  · refine same.versionsStored ?_
    have h := same₀.versionsStored h
    obtain ⟨db₂, deliveries, scopes⟩ := bind_eq_ok.mp copied
    rw [insertScopes_ok (f := id) scopes]
    refine (h.adds (Adds.insertStored_all deliveries)).mono (fun r b stored => ?_)
      fun _ _ _ _ mem => .inl mem
    rw [mem_storedScopes_tags] at stored ⊢
    refine stored.imp_left ?_
    rintro ⟨row, mem, here⟩
    exact ⟨row, List.mem_append_left _ mem, here⟩

theorem VersionsStored.upsertScope (h : VersionsStored db) {repository branch : Text}
    {update : HistoryScope → HistoryScope} : VersionsStored (db.upsertScope repository branch update) := by
  have versions : (db.upsertScope repository branch update).scopeVersions = db.scopeVersions := by
    simp only [scopeVersions, upsertScope_historyMeta]
  exact h.mono (fun _ _ stored => mem_storedScopes_upsertScope.mpr (.inl stored))
    fun _ _ _ _ mem => .inl (versions ▸ mem)

theorem commitSync_ok {index : HistoryIndex} {plan : SyncPlan} {report : HistorySyncReport}
    (run : index.commitSync plan db = .ok (report, db')) :
    ∃ db₁, Adds (plan.extracted.map DeliveredChange.currentTag) db db₁ ∧ db' = index.writeSyncedScope plan db₁ := by
  obtain ⟨_, _, run⟩ := bind_eq_ok.mp run
  obtain ⟨⟨inserted, db₁⟩, extracted, run⟩ := bind_eq_ok.mp run
  obtain ⟨_, rfl⟩ := Prod.mk.inj (Except.ok.inj run)
  exact ⟨db₁, Adds.insertExtracted_all extracted, rfl⟩

variable {preserved : List DeliveredChange}

variable {plan : RebuildPlan} {removed : Nat}

/-- What a committed rebuild has done: deleted the scope, added deliveries, written
the cursor and stamped the scope. -/
theorem commitRebuild_ok {index : HistoryIndex}
    (run : index.commitRebuild plan preserved db = .ok (removed, db')) :
    index.refuseUnsupportedContracts db = .ok () ∧
    ∃ db₁, Adds ((preserved ++ plan.extracted).map DeliveredChange.currentTag)
        (db.deleteScope index.repository index.landingBranch).2 db₁ ∧
      stampRebuiltScope (db₁.writeCursor index.repository index.landingBranch plan.tip)
        index.repository index.landingBranch = .ok db' := by
  obtain ⟨_, supported, run⟩ := bind_eq_ok.mp run
  obtain ⟨db₁, kept, run⟩ := bind_eq_ok.mp run
  obtain ⟨db₂, extracted, run⟩ := bind_eq_ok.mp run
  obtain ⟨db₃, stamped, run⟩ := bind_eq_ok.mp run
  obtain ⟨_, rfl⟩ := Prod.mk.inj (Except.ok.inj run)
  refine ⟨supported, db₂, ?_, stamped⟩
  have all : (preserved ++ plan.extracted).foldlM HistoryIndex.insertCurrent
      (db.deleteScope index.repository index.landingBranch).2 = .ok db₂ := by
    rw [List.foldlM_append]
    exact bind_eq_ok.mpr ⟨db₁, kept, extracted⟩
  exact Adds.insertCurrent_all all

theorem mem_putMeta {key : MetaKey} {value : Text} {row : MetaKey × Text} :
    row ∈ (db.putMeta key value).historyMeta ↔ (row ∈ db.historyMeta ∧ row.1 ≠ key) ∨ row = (key, value) := by
  simp [putMeta]

theorem stampRebuiltScope_versions {repository branch : Text}
    (stamped : stampRebuiltScope db repository branch = .ok db') {c : Contract} {repository' branch' value : Text}
    (mem : (.scopeContract c repository' branch', value) ∈ db'.scopeVersions) :
    (.scopeContract c repository' branch', value) ∈ db.scopeVersions ∨
      (repository' = repository ∧ branch' = branch) := by
  rw [mem_scopeVersions] at mem ⊢
  have scope : ∀ row ∈ (stampScope db repository branch).historyMeta,
      row = (.scopeContract c repository' branch', value) →
      row ∈ db.historyMeta ∨ (repository' = repository ∧ branch' = branch) := by
    rintro row mem rfl
    simp only [stampScope, contractVersions, List.foldl_cons, List.foldl_nil, mem_putMeta,
      Prod.mk.injEq, MetaKey.scopeContract.injEq] at mem
    rcases mem with ⟨⟨mem, _⟩ | ⟨⟨_, rfl, rfl⟩, _⟩, _⟩ | ⟨⟨_, rfl, rfl⟩, _⟩
    · rcases mem with ⟨mem, _⟩ | ⟨eq, _⟩
      · exact .inl mem
      · cases eq
    · exact .inr ⟨rfl, rfl⟩
    · exact .inr ⟨rfl, rfl⟩
  rcases stampRebuiltScope_ok stamped with ⟨_, rfl⟩ | rfl
  · refine scope _ ?_ rfl
    simp only [stampGlobal, contractVersions, List.foldl_cons, List.foldl_nil, List.mem_filter, mem_putMeta] at mem
    obtain ⟨⟨mem, _⟩ | eq, _⟩ := mem
    · obtain ⟨⟨mem, _⟩ | eq, _⟩ := mem
      · exact mem
      · cases eq
    · cases eq
  · exact scope _ mem rfl

theorem VersionsStored.commitRebuild (h : VersionsStored db) {index : HistoryIndex}
    (run : index.commitRebuild plan preserved db = .ok (removed, db')) : VersionsStored db' := by
  obtain ⟨_, db₁, adds, stamped⟩ := commitRebuild_ok run
  obtain ⟨deliveries, _, scopes⟩ := stampRebuiltScope_rows stamped
  have storedScopes : ∀ repository branch, (repository, branch) ∈ db'.storedScopes ↔
      (repository, branch) ∈ db₁.storedScopes ∨
        (repository = index.repository ∧ branch = index.landingBranch) := by
    intro repository branch
    rw [mem_storedScopes, deliveries, scopes, ← mem_storedScopes]
    exact mem_storedScopes_upsertScope
  refine h.mono (fun repository branch stored => ?_) fun c repository branch value mem => ?_
  · rw [storedScopes]
    by_cases own : repository = index.repository ∧ branch = index.landingBranch
    · exact .inr own
    · refine .inl (adds.storedScopes ?_)
      rw [mem_storedScopes] at stored ⊢
      refine stored.imp ?_ ?_
      · rintro ⟨row, mem, rfl, rfl⟩
        exact ⟨row, List.mem_filter.mpr ⟨mem, by simpa using not_and_or.mp own⟩, rfl, rfl⟩
      · rintro ⟨row, mem, rfl, rfl⟩
        exact ⟨row, List.mem_filter.mpr ⟨mem, by simpa using not_and_or.mp own⟩, rfl, rfl⟩
  · rcases stampRebuiltScope_versions stamped mem with mem | own
    · have versions : (db₁.writeCursor index.repository index.landingBranch plan.tip).scopeVersions =
          db₁.scopeVersions := by
        simp only [scopeVersions, writeCursor, upsertScope_historyMeta]
      rw [versions, adds.scopeVersions] at mem
      exact .inl mem
    · exact .inr ((storedScopes _ _).mpr (.inr own))

/-! ### Every operation -/

/-- A database whose rows are projections and whose versions are those of stored
scopes. -/
structure Recorded (db : Database) : Prop where
  projected : Projected db
  versions : VersionsStored db

namespace Recorded

theorem same (h : Recorded db) (same : SameHistory db db') : Recorded db' :=
  ⟨same.projected h.projected, same.versionsStored h.versions⟩

theorem copyPreviousSchema (h : Recorded db) {previous : Option Database} {u : Unit}
    (run : History.copyPreviousSchema previous db = .ok (u, db')) : Recorded db' :=
  ⟨h.projected.copyPreviousSchema run, h.versions.copyPreviousSchema run⟩

variable {index : HistoryIndex}

theorem migrateScopes (h : Recorded db) {u : Unit} (run : index.migrateScopes db = .ok (u, db')) : Recorded db' :=
  ⟨h.projected.migrateScopes run,
    (migrateScopes_moved h.projected h.versions run).2.versionsStored h.projected h.versions⟩

theorem insertDelivery (h : Recorded db) {change : DeliveredChange} {under : Contracts} {report : HistoryImportReport}
    (run : History.insertDelivery change under db = .ok (report, db')) : Recorded db' :=
  ⟨h.projected.insertDelivery run, h.versions.adds (Adds.insertDelivery (List.mem_singleton.mpr rfl) run)⟩

theorem storeSnapshot (h : Recorded db) {deliveryId : Text} {snapshot : TaskAssociation} {stored : Bool}
    (run : index.storeSnapshot deliveryId snapshot db = .ok (stored, db')) : Recorded db' := by
  refine ⟨h.projected.storeSnapshot run, ?_⟩
  rcases storeSnapshot_ok run with rfl | ⟨row, _, _, rfl⟩
  · exact h.versions
  · refine h.versions.mono (fun _ _ stored => ?_) fun _ _ _ _ mem => .inl mem
    have tags : (db.updatePayload row.key (row.payload.extend [snapshot])).tags = db.tags :=
      tags_updatePayload _ _
    rw [mem_storedScopes_tags] at stored ⊢
    rwa [← tags] at stored

theorem commitSync (h : Recorded db) {plan : SyncPlan}
    {report : HistorySyncReport} (run : index.commitSync plan db = .ok (report, db')) : Recorded db' := by
  refine ⟨h.projected.commitSync run, ?_⟩
  obtain ⟨db₁, adds, rfl⟩ := commitSync_ok run
  unfold HistoryIndex.writeSyncedScope
  split <;> exact (h.versions.adds adds).upsertScope

theorem kept : Kept (OnFile Recorded) fun _ => True where
  initialSchema _ := by
    refine ⟨Projected.initialSchema, fun c repository branch value mem => ?_⟩
    have none : initialSchema.scopeVersions = [] := by decide
    rw [none] at mem
    cases mem
  purged _ h := h.same (SameHistory.deleteMeta rfl)
  copied _ _ _ _ _ h run := h.copyPreviousSchema run
  migrated _ _ _ _ h run := h.migrateScopes run
  inserted _ _ _ _ h run := h.insertDelivery run
  attached _ _ _ _ _ _ h run := h.storeSnapshot run
  synced _ _ _ _ _ h run := h.commitSync run
  rebuilt _ _ _ _ _ _ h run := ⟨h.projected.commitRebuild run, h.versions.commitRebuild run⟩

end Recorded

/-- Files to start from: none, or one as an earlier run leaves it. -/
def StartsRecorded (file _previous : Option Database) : Prop := OnFile Recorded file

theorem recorded_inductive [GitObjects] : (system StartsRecorded).Inductive fun s => OnFile Recorded s.file ∧ True :=
  Recorded.kept.inductive_file fun _ _ begins => ⟨begins, trivial⟩

/-! ### Opening for writing -/

/-- `db'` holds the history of `db`, moved to the handle's repository. -/
structure Settled (index : HistoryIndex) (db db' : Database) : Prop where
  apart : ¬index.Collides (index.credentialedRepositories db) db
  moved : index.Moved (index.credentialedRepositories db) db db'

namespace Settled

variable {index : HistoryIndex} {db'' : Database}

theorem same (h : Settled index db db') (same : SameHistory db' db'') : Settled index db db'' where
  apart := h.apart
  moved :=
    { deliveries := same.deliveries ▸ h.moved.deliveries
      scopes := same.scopes ▸ h.moved.scopes
      versions := same.versions ▸ h.moved.versions }

theorem of_same (same : SameHistory db db') (h : Settled index db' db'') : Settled index db db'' := by
  have legacy := same.credentialedRepositories index
  refine ⟨fun collides => h.apart ?_, ?_⟩
  · rw [legacy]
    obtain ⟨repository, mem, branch, stored, taken⟩ := collides
    refine ⟨repository, mem, branch, same.storedScopes ▸ stored, ?_⟩
    rwa [same.storedScopes]
  · have moved := h.moved
    rw [legacy] at moved
    exact
      { deliveries := same.deliveries ▸ moved.deliveries
        scopes := same.scopes ▸ moved.scopes
        versions := same.versions ▸ moved.versions }

theorem of_nil (none : index.credentialedRepositories db = []) (same : SameHistory db db') :
    Settled index db db' := by
  have settled : Settled index db db := by
    refine ⟨?_, none ▸ moved_nil⟩
    rintro ⟨repository, mem, _⟩
    rw [none] at mem
    cases mem
  exact settled.same same

end Settled

theorem finishIdentityPurge_same {env : Environment} : Command.Keeps (SameHistory db) (finishIdentityPurge env) :=
  Keeps.finishIdentityPurge fun _ same => same.trans (SameHistory.deleteMeta rfl)

section

variable {index : HistoryIndex} {env : Environment}

/-- The migration settles the history if it succeeds, and otherwise has moved all of
it or nothing. -/
theorem migrateCredentialedScopes_settles (index : HistoryIndex) (env : Environment) (recorded : Recorded db) :
    Command.Triple (SameHistory db) (index.migrateCredentialedScopes env)
      (fun _ => Settled index db) (fun t => SameHistory db t ∨ Settled index db t) := by
  refine Command.Triple.andThen
    (Q := fun legacy t => SameHistory db t ∧ legacy = index.credentialedRepositories db)
    (.query (fun s legacy same run => ⟨same, ?_⟩) fun _ same => .inl same) fun legacy => ?_
  · exact (Except.ok.inj run).symm.trans (same.credentialedRepositories index)
  split
  next nil =>
    refine .of_each fun s before => ?_
    have none : index.credentialedRepositories db = [] := before.2.symm.trans nil
    have purge : Command.Keeps (SameHistory db) (finishIdentityPurge env) := finishIdentityPurge_same
    refine (purge.weaken (fun t eq => ?_) fun _ t same => ?_).weakenError fun _ same => .inl same
    · exact eq ▸ before.1
    · exact Settled.of_nil none same
  next =>
    refine Command.Triple.andThen (Q := fun _ t => Settled index db t)
      (.transaction (fun s u t before run => ?_) fun _ before => .inl before.1) fun _ => ?_
    · have recorded := recorded.same before.1
      obtain ⟨apart, moved⟩ := migrateScopes_moved recorded.projected recorded.versions run
      exact Settled.of_same before.1 ⟨apart, moved⟩
    · have purge : Command.Keeps (Settled index db) (finishIdentityPurge env) :=
        Keeps.finishIdentityPurge fun _ settled => settled.same (SameHistory.deleteMeta rfl)
      exact purge.weakenError fun _ settled => .inr settled

variable {previous : Option Database}

/-- What an open that has come to the tables leaves: the history of `db`, or the one
copied into it from `previous`, settled if the open succeeds, and otherwise
settled or as it was. -/
theorem openTables_settles (recorded : Recorded db) : Command.Triple (SameHistory db) (index.openTables env previous)
      (fun _ t => ∃ db₁, (SameHistory db db₁ ∨ Copied previous db db₁) ∧ Settled index db₁ t)
      (fun t => ∃ db₁, (SameHistory db db₁ ∨ Copied previous db db₁) ∧
        (SameHistory db₁ t ∨ Settled index db₁ t)) := by
  have early : ∀ t, SameHistory db t → ∃ db₁, (SameHistory db db₁ ∨ Copied previous db db₁) ∧
      (SameHistory db₁ t ∨ Settled index db₁ t) :=
    fun t same => ⟨t, .inl same, .inl SameHistory.rfl⟩
  have check : ∀ f, Command.Triple (SameHistory db) (Command.query f : Command GraphError Database Unit)
      (fun _ => SameHistory db) (fun t => ∃ db₁, (SameHistory db db₁ ∨ Copied previous db db₁) ∧
        (SameHistory db₁ t ∨ Settled index db₁ t)) :=
    fun f => .query (fun _ _ same _ => same) early
  refine (check _).andThen fun _ => .andThen (finishIdentityPurge_same.weakenError early) fun _ =>
    (check _).andThen fun _ => ?_
  refine .andThen (Q := fun _ t => Recorded t ∧ (SameHistory db t ∨ Copied previous db t))
    (.transaction (fun s u t same run => ?_) early) fun _ => ?_
  · refine ⟨(recorded.same same).copyPreviousSchema run, ?_⟩
    exact (copyPreviousSchema_ok run).imp same.trans (Copied.of_same same)
  · refine .of_each fun db₁ before => ?_
    have settles := migrateCredentialedScopes_settles index env before.1
    refine .andThen (Q := fun _ t => Settled index db₁ t) ?_ fun _ => ?_
    · refine (settles.weaken (fun t (eq : t = db₁) => eq ▸ SameHistory.rfl) fun _ _ h => h).weakenError ?_
      exact fun t h => ⟨db₁, before.2, h⟩
    · exact .query (fun t _ settled _ => ⟨db₁, before.2, settled⟩)
        fun t settled => ⟨db₁, before.2, .inr settled⟩

variable {dbPath branch : Text}

/-- An open of tables that are there: it fails before it comes to them, or answers
with the resolved handle if the tables do. -/
theorem openWriter_some (env : Environment) (db : Database) :
    (∃ e, HistoryIndex.openWriter env previous dbPath branch (some db) = (.error e, some db)) ∨
      ∃ index, HistoryIndex.resolve env dbPath branch = .ok index ∧
        HistoryIndex.openWriter env previous dbPath branch (some db) =
          ((index.openTables env previous db).1.map fun _ => index, some (index.openTables env previous db).2) := by
  simp only [HistoryIndex.openWriter, bind, Command.andThen, Command.query, require, onTables]
  cases resolved : HistoryIndex.resolve env dbPath branch with
  | error e => exact .inl ⟨e, rfl⟩
  | ok index =>
    cases env.check .lock with
    | error e => exact .inl ⟨e, rfl⟩
    | ok u =>
      refine .inr ⟨index, rfl, ?_⟩
      simp only [initializeIfEmpty]
      cases (index.openTables env previous db).1 <;> rfl

theorem openConfirmed_some (env : Environment) (db : Database) :
    (∃ e, HistoryIndex.openConfirmed env dbPath branch (some db) = (.error e, some db)) ∨
      ∃ index, HistoryIndex.resolve env dbPath branch = .ok index ∧
        HistoryIndex.openConfirmed env dbPath branch (some db) =
          ((index.migrateCredentialedScopes env db).1.map fun _ => index,
            some (index.migrateCredentialedScopes env db).2) := by
  simp only [HistoryIndex.openConfirmed, bind, Command.andThen, Command.query, require]
  cases resolved : HistoryIndex.resolve env dbPath branch with
  | error e => exact .inl ⟨e, rfl⟩
  | ok index =>
    dsimp only
    cases index.refuseAgentMain with
    | error e => exact .inl ⟨e, rfl⟩
    | ok u =>
      cases env.check .lock with
      | error e => exact .inl ⟨e, rfl⟩
      | ok u =>
        simp only [HistoryIndex.initializeOrCheck, onTables, Command.query]
        cases index.checkRebuildable db with
        | error e => exact .inl ⟨e, rfl⟩
        | ok u =>
          refine .inr ⟨index, rfl, ?_⟩
          dsimp only
          cases (index.migrateCredentialedScopes env db).1 <;> rfl

end

/-- What opening for writing leaves, in every reachable history database.

`db₁` is the history that is to be moved: the one in the file, or the previous
database's if nothing was stored. A handle is given only after all of it was moved;
without one, all of it was moved or nothing. Where scopes collide there is no
handle, and no row of the history is written. -/
theorem opening_moves [GitObjects] {s : Store} (reach : (system StartsRecorded).Reachable s)
    {db : Database} (file : s.file = some db) {env : Environment} {dbPath branch : Text}
    {outcome : Except GraphError HistoryIndex × Option Database}
    (opened : outcome = HistoryIndex.openWriter env s.previous dbPath branch s.file ∨
      outcome = HistoryIndex.openConfirmed env dbPath branch s.file) :
    ∃ db₁ db', outcome.2 = some db' ∧ Recorded db' ∧
      (SameHistory db db₁ ∨ Copied s.previous db db₁) ∧
      (∀ index, outcome.1 = .ok index → Settled index db₁ db') ∧
      (∀ e, outcome.1 = .error e → SameHistory db₁ db' ∨
        ∃ index, HistoryIndex.resolve env dbPath branch = .ok index ∧ Settled index db₁ db') ∧
      ∀ index, HistoryIndex.resolve env dbPath branch = .ok index →
        index.Collides (index.credentialedRepositories db₁) db₁ →
          (∃ e, outcome.1 = .error e) ∧ SameHistory db₁ db' := by
  have recorded : Recorded db := by
    have := (reach.of_inductive recorded_inductive).1
    rwa [file] at this
  -- Both opens fail before they come to the tables, or do what settles the history.
  have settles : (∃ e, outcome = (.error e, some db)) ∨
      ∃ index db₁ db', HistoryIndex.resolve env dbPath branch = .ok index ∧
        (SameHistory db db₁ ∨ Copied s.previous db db₁) ∧ outcome.2 = some db' ∧ Recorded db' ∧
        ((outcome.1 = .ok index ∧ Settled index db₁ db') ∨
          (∃ e, outcome.1 = .error e) ∧ (SameHistory db₁ db' ∨ Settled index db₁ db')) := by
    rw [file] at opened
    rcases opened with rfl | rfl
    · rcases openWriter_some env db with early | ⟨index, resolved, run⟩
      · exact .inl early
      · have after : Recorded (index.openTables env s.previous db).2 :=
          (Recorded.kept.openTables trivial).state recorded
        refine .inr ⟨index, ?_⟩
        rw [run]
        rcases (openTables_settles recorded).outcome SameHistory.rfl with
          ⟨_, ok, db₁, source, settled⟩ | ⟨e, error, db₁, source, settled⟩
        · refine ⟨db₁, _, resolved, source, rfl, after, .inl ⟨?_, settled⟩⟩
          rw [ok]
          rfl
        · refine ⟨db₁, _, resolved, source, rfl, after, .inr ⟨⟨e, ?_⟩, settled⟩⟩
          rw [error]
          rfl
    · rcases openConfirmed_some env db with early | ⟨index, resolved, run⟩
      · exact .inl early
      · have after : Recorded (index.migrateCredentialedScopes env db).2 :=
          Recorded.kept.migrateCredentialedScopes.state recorded
        refine .inr ⟨index, db, ?_⟩
        rw [run]
        rcases (migrateCredentialedScopes_settles index env recorded).outcome SameHistory.rfl with
          ⟨_, ok, settled⟩ | ⟨e, error, settled⟩
        · refine ⟨_, resolved, .inl SameHistory.rfl, rfl, after, .inl ⟨?_, settled⟩⟩
          rw [ok]
          rfl
        · refine ⟨_, resolved, .inl SameHistory.rfl, rfl, after, .inr ⟨⟨e, ?_⟩, settled⟩⟩
          rw [error]
          rfl
  rcases settles with ⟨e, rfl⟩ | ⟨index, db₁, db', resolved, source, file', recorded', outcome'⟩
  · refine ⟨db, db, rfl, recorded, .inl SameHistory.rfl, ?_, ?_, ?_⟩
    · rintro index ok
      cases ok
    · exact fun _ _ => .inl SameHistory.rfl
    · exact fun _ _ _ => ⟨⟨e, rfl⟩, SameHistory.rfl⟩
  · refine ⟨db₁, db', file', recorded', source, ?_, ?_, ?_⟩
    · intro index' ok
      rcases outcome' with ⟨ok', settled⟩ | ⟨⟨e, error⟩, _⟩
      · obtain rfl := Except.ok.inj (ok.symm.trans ok')
        exact settled
      · rw [ok] at error
        cases error
    · intro e error
      rcases outcome' with ⟨ok, _⟩ | ⟨_, same | settled⟩
      · rw [ok] at error
        cases error
      · exact .inl same
      · exact .inr ⟨index, resolved, settled⟩
    · intro index' resolved' collides
      obtain rfl := Except.ok.inj (resolved.symm.trans resolved')
      rcases outcome' with ⟨_, settled⟩ | ⟨error, same | settled⟩
      · exact absurd collides settled.apart
      · exact ⟨error, same⟩
      · exact absurd collides settled.apart

namespace Sample

local instance : GitObjects := objects

def credentialed : Text := "https://u:p@host/r"

def scopeOf (repository : Text) : ScopeRow where
  repository
  landingBranch := "main"
  scope := { HistoryScope.empty with cursor := some first.hex }

def withScopes (scopes : List ScopeRow) : Database := { initialSchema with scopes }

theorem withScopes_recorded (scopes : List ScopeRow) : Recorded (withScopes scopes) where
  projected := Projected.initialSchema.congr rfl rfl
  versions := by
    intro c repository branch value mem
    have none : (withScopes scopes).scopeVersions = [] := by
      change initialSchema.scopeVersions = []
      decide
    rw [none] at mem
    cases mem

def found (scopes : List ScopeRow) (previous : Option Database) : Store :=
  { file := some (withScopes scopes), previous, handles := [] }

theorem found_reachable (scopes : List ScopeRow) (previous : Option Database) :
    (system StartsRecorded).Reachable (found scopes previous) :=
  .of_init ⟨rfl, withScopes_recorded scopes⟩

def reopened (scopes : List ScopeRow) (previous : Option Database) :
    Except GraphError HistoryIndex × Option Database :=
  HistoryIndex.openWriter (environment second) previous index.dbPath "main"
    (some (withScopes scopes))

def older : Database where
  historyMeta :=
    (.schemaVersion, decimal previousHistoryIndexSchemaVersion) ::
      contractVersions.map fun c => (.contract c, decimal c.expected)
  scopes := [scopeOf credentialed]
  deliveries := ((synced.file.map Database.deliveries).getD []).map fun row =>
    .ofChange (HistoryIndex.rekey { index with repository := credentialed } row.payload) .current
  derived := []

theorem opening_moves_older :
    ∃ db₁ db', (reopened [] (some older)).2 = some db' ∧ db'.deliveries.length = 1 ∧
      Settled index db₁ db' := by
  have answered : (reopened [] (some older)).1.toOption = some index := by decide +kernel
  have one : ((reopened [] (some older)).2.map fun db => db.deliveries.length) = some 1 := by
    decide +kernel
  obtain ⟨db₁, db', file, _, _, settles, _⟩ := opening_moves (s := found [] (some older))
    (found_reachable _ _) rfl (.inl (Eq.refl (reopened [] (some older))))
  rw [file] at one
  refine ⟨db₁, db', file, Option.some.inj one, settles index ?_⟩
  cases h : (reopened [] (some older)).1 with
  | error e =>
    rw [h] at answered
    cases answered
  | ok opened =>
    rw [h] at answered
    exact congrArg _ (Option.some.inj answered)

def colliding : List ScopeRow := [scopeOf credentialed, scopeOf index.repository]

def elsewhere : List ScopeRow := [scopeOf "https://u:p@other/r"]

theorem opening_writes_and_leaves :
    ((system StartsRecorded).Reachable (found colliding none) ∧
      index.Collides (index.credentialedRepositories (withScopes colliding))
        (withScopes colliding) ∧
      (reopened colliding none).1.toOption = none ∧
      (reopened colliding none).2 ≠ some (withScopes colliding)) ∧
    (system StartsRecorded).Reachable (found elsewhere none) ∧
      (reopened elsewhere none).1.toOption = some index ∧
      ((reopened elsewhere none).2.map Database.scopes) = some elsewhere := by
  refine ⟨⟨found_reachable _ _, ?_, by decide +kernel, by decide +kernel⟩, found_reachable _ _,
    by decide +kernel, by decide +kernel⟩
  refine ⟨credentialed, by decide +kernel, "main", by decide +kernel, .inl ?_⟩
  decide +kernel

end Sample

end OrbitGraph.History
