import OrbitGraph.History.Opening

/-!
The recorded contract versions are never more than what was extracted.

A version key is a claim about `extractedUnder`, which the program does not store.
`Honest` says that the claims are true; `Raises` says of two databases that no
version in the second is older than in the first. Every transaction keeps the one
and is the other.
-/

namespace OrbitGraph.History

open Lib Database

variable {db db' : Database}

/-! ### Version keys -/

theorem metaValue_deleteMeta (key other : MetaKey) :
    (db.deleteMeta key).metaValue other = if other = key then none else db.metaValue other := by
  simp only [metaValue, deleteMeta, find?_filter_ne]
  by_cases h : other = key <;> simp [h]

theorem metaValue_putMeta (key other : MetaKey) (value : Text) :
    (db.putMeta key value).metaValue other = if other = key then some value else db.metaValue other := by
  simp only [metaValue, putMeta, List.find?_append, find?_filter_ne]
  by_cases h : other = key
  · simp [h]
  · simp [h, Ne.symm h]

/-- The keys of `history_meta` are distinct. -/
def UniqueKeys (db : Database) : Prop := (db.historyMeta.map Prod.fst).Nodup

namespace UniqueKeys

theorem deleteMeta (h : UniqueKeys db) (key : MetaKey) : UniqueKeys (db.deleteMeta key) :=
  (List.filter_sublist.map _).nodup h

theorem putMeta (h : UniqueKeys db) (key : MetaKey) (value : Text) : UniqueKeys (db.putMeta key value) := by
  have kept := h.deleteMeta key
  simp only [UniqueKeys, Database.deleteMeta] at kept
  simp only [UniqueKeys, Database.putMeta, List.map_append, List.map_cons, List.map_nil]
  refine List.nodup_append.mpr ⟨kept, by simp, ?_⟩
  rintro a mem b memB rfl
  obtain ⟨row, kept, eq⟩ := List.mem_map.mp mem
  have other := (List.mem_filter.mp kept).2
  simp [eq, List.mem_singleton.mp memB] at other

theorem insertMeta (h : UniqueKeys db) {operation : String} {key : MetaKey} {value : Text}
    (run : db.insertMeta operation key value = .ok db') : UniqueKeys db' := by
  have absent : ∀ row ∈ db.historyMeta, row.1 ≠ key := by
    unfold Database.insertMeta at run
    split at run
    · cases run
    next none =>
      rintro row mem rfl
      exact none (List.any_eq_true.mpr ⟨row, mem, by simp⟩)
  rw [insertMeta_ok run]
  simp only [UniqueKeys, List.map_append, List.map_cons, List.map_nil]
  refine List.nodup_append.mpr ⟨h, by simp, ?_⟩
  rintro a mem b memB rfl
  obtain ⟨row, stored, eq⟩ := List.mem_map.mp mem
  exact absent row stored (eq.trans (List.mem_singleton.mp memB))

theorem metaValue_eq_some (h : UniqueKeys db) {key : MetaKey} {value : Text} :
    db.metaValue key = some value ↔ (key, value) ∈ db.historyMeta := by
  unfold UniqueKeys at h
  unfold metaValue
  generalize db.historyMeta = rows at h
  induction rows with
  | nil => simp
  | cons row rest ih =>
    obtain ⟨fresh, unique⟩ := List.nodup_cons.mp h
    by_cases eq : row.1 = key
    · have absent : (key, value) ∉ rest := fun mem =>
        fresh (eq ▸ List.mem_map_of_mem (f := Prod.fst) mem)
      obtain ⟨key', value'⟩ := row
      obtain rfl : key' = key := eq
      simp [absent, eq_comm]
    · have other : (key, value) ≠ row := fun h => eq (by rw [← h])
      rw [List.find?_cons_of_neg (by simpa using eq), ih unique, List.mem_cons]
      simp [other]

end UniqueKeys

theorem mem_of_metaValue {key : MetaKey} {value : Text} (found : db.metaValue key = some value) :
    (key, value) ∈ db.historyMeta := by
  obtain ⟨row, hrow, rfl⟩ := Option.map_eq_some_iff.mp found
  have key := List.find?_some hrow
  simp only [decide_eq_true_eq] at key
  rw [← key]
  exact List.mem_of_find?_eq_some hrow

theorem scopeContractVersion_eq_ok {c : Contract} {repository branch value : Text} :
    scopeContractVersion db c repository branch = .ok value ↔ db.scopeVersion c repository branch = some value := by
  unfold scopeContractVersion Database.scopeVersion readMeta
  cases db.metaValue (.scopeContract c repository branch) with
  | some own => simp
  | none =>
    cases db.metaValue (.contract c) with
    | some value' => simp
    | none => simp

/-! ### The invariant -/

/-- A scope that is recorded as current was extracted under the current contract, and
where the database is recorded as current every stored scope is. -/
structure Honest (db : Database) : Prop where
  unique : UniqueKeys db
  scope : ∀ c, ∀ tag ∈ db.tags,
    db.scopeVersion c tag.1.repository tag.1.landingBranch = some (decimal c.expected) →
      tag.2.version c = c.expected
  all : ∀ c, db.metaValue (.contract c) = some (decimal c.expected) →
    ∀ repository branch, (repository, branch) ∈ db.storedScopes →
      db.scopeVersion c repository branch = some (decimal c.expected)

/-- A version, and the one that replaces it: itself, or the current one if it is not
newer. -/
def NotLowered (c : Contract) (old new : Text) : Prop :=
  new = old ∨ (isOlderOrCurrent old c.expected = true ∧ new = decimal c.expected)

/-- No version key of `db'`, and no stored scope in it, has an older version than in
`db`. -/
structure Raises (db db' : Database) : Prop where
  keys : ∀ key c old new, key.base = some c → db.metaValue key = some old →
    db'.metaValue key = some new → NotLowered c old new
  scopes : ∀ c repository branch old, (repository, branch) ∈ db.storedScopes →
    (repository, branch) ∈ db'.storedScopes → db.scopeVersion c repository branch = some old →
      ∃ new, db'.scopeVersion c repository branch = some new ∧ NotLowered c old new

def SameVersions (db db' : Database) : Prop :=
  ∀ key c, key.base = some c → db'.metaValue key = db.metaValue key

namespace SameVersions

theorem of_eq (same : db'.historyMeta = db.historyMeta) : SameVersions db db' := by
  intro key c _
  simp only [metaValue, same]

theorem putMeta {key : MetaKey} {value : Text} (other : key.base = none) :
    SameVersions db (db.putMeta key value) := by
  intro key' c base
  rw [metaValue_putMeta, if_neg]
  rintro rfl
  simp [other] at base

theorem deleteMeta {key : MetaKey} (other : key.base = none) : SameVersions db (db.deleteMeta key) := by
  intro key' c base
  rw [metaValue_deleteMeta, if_neg]
  rintro rfl
  simp [other] at base

theorem scopeVersion (same : SameVersions db db') (c : Contract) (repository branch : Text) :
    db'.scopeVersion c repository branch = db.scopeVersion c repository branch := by
  unfold Database.scopeVersion
  rw [same (.scopeContract c repository branch) c rfl, same (.contract c) c rfl]

end SameVersions

variable {value : Text}

theorem NotLowered.rfl {c : Contract} : NotLowered c value value := .inl (Eq.refl _)

theorem Raises.of_same (same : SameVersions db db') : Raises db db' where
  keys key c old new base before after := by
    rw [same key c base, before] at after
    exact .inl (Option.some.inj after).symm
  scopes c repository branch old _ _ before :=
    ⟨old, (same.scopeVersion c repository branch).trans before, .rfl⟩

theorem Honest.current (h : Honest db) (stored : VersionsStored db) {c : Contract}
    (global : db.metaValue (.contract c) = some (decimal c.expected)) (repository branch : Text) :
    db.scopeVersion c repository branch = some (decimal c.expected) := by
  cases own : db.metaValue (.scopeContract c repository branch) with
  | none => simp [Database.scopeVersion, own, global]
  | some value =>
    have mem := mem_scopeVersions.mpr (mem_of_metaValue own)
    exact h.all c global repository branch (stored _ _ _ _ mem)

/-- Deliveries that are new under the same versions are honest if they are current. -/
theorem Honest.of_same (h : Honest db) (stored : VersionsStored db) (unique : UniqueKeys db')
    (same : SameVersions db db')
    (tags : ∀ tag ∈ db'.tags, tag ∈ db.tags ∨ ∀ c, tag.2.version c = Contract.expected c) : Honest db' where
  unique := unique
  scope c tag mem current := by
    rw [same.scopeVersion] at current
    rcases tags tag mem with old | new
    · exact h.scope c tag old current
    · exact new c
  all c global repository branch _ := by
    rw [same (.contract c) c rfl] at global
    rw [same.scopeVersion]
    exact h.current stored global repository branch

/-! ### Inserting, attaching, syncing and copying -/

theorem Honest.adds (h : Honest db) (stored : VersionsStored db)
    {changes : List DeliveredChange} (adds : Adds (changes.map DeliveredChange.currentTag) db db') : Honest db' := by
  refine h.of_same stored ?_ (SameVersions.of_eq adds.historyMeta) fun tag mem => ?_
  · exact (congrArg (fun rows => (rows.map Prod.fst).Nodup) adds.historyMeta).mpr h.unique
  · refine (adds.mem_tags mem).imp_right fun new c => ?_
    obtain ⟨change, _, rfl⟩ := List.mem_map.mp new
    exact Contracts.current_version c

theorem Honest.upsertScope (h : Honest db) (stored : VersionsStored db) {repository branch : Text}
    {update : HistoryScope → HistoryScope} : Honest (db.upsertScope repository branch update) := by
  have same : (db.upsertScope repository branch update).historyMeta = db.historyMeta :=
    upsertScope_historyMeta
  refine h.of_same stored ?_ (SameVersions.of_eq same) fun tag mem => .inl ?_
  · exact (congrArg (fun rows => (rows.map Prod.fst).Nodup) same).mpr h.unique
  · rwa [tags, upsertScope_deliveries] at mem

theorem Honest.commitSync (h : Honest db) (stored : VersionsStored db) {index : HistoryIndex}
    {plan : SyncPlan} {report : HistorySyncReport}
    (run : index.commitSync plan db = .ok (report, db')) : Honest db' := by
  obtain ⟨db₁, adds, rfl⟩ := commitSync_ok run
  have honest := h.adds stored adds
  unfold HistoryIndex.writeSyncedScope
  split <;> exact honest.upsertScope (stored.adds adds)

theorem Honest.storeSnapshot (h : Honest db) (stored : VersionsStored db) {index : HistoryIndex}
    {deliveryId : Text} {snapshot : TaskAssociation} {added : Bool}
    (run : index.storeSnapshot deliveryId snapshot db = .ok (added, db')) : Honest db' ∧ SameVersions db db' := by
  rcases storeSnapshot_ok run with rfl | ⟨row, _, _, rfl⟩
  · exact ⟨h, SameVersions.of_eq rfl⟩
  · refine ⟨h.of_same stored h.unique (SameVersions.of_eq rfl) fun tag mem => .inl ?_, SameVersions.of_eq rfl⟩
    have same : (db.updatePayload row.key (row.payload.extend [snapshot])).tags = db.tags :=
      tags_updatePayload _ _
    exact same ▸ mem

theorem Honest.of_matches {previous : Database} (h : Honest previous)
    (accepted : previousMatches previous = true) {row : DeliveryRow} (mem : row ∈ previous.deliveries)
    (c : Contract) : row.extractedUnder.version c = c.expected := by
  simp only [previousMatches, Bool.and_eq_true, List.all_eq_true, decide_eq_true_eq] at accepted
  have global := accepted.2 c (mem_contractVersions c)
  have stored : (row.key.repository, row.key.landingBranch) ∈ previous.storedScopes :=
    mem_storedScopes.mpr (.inr ⟨row, mem, rfl, rfl⟩)
  exact h.scope c _ (List.mem_map_of_mem mem) (h.all c global _ _ stored)

theorem Honest.copyPreviousSchema (h : Honest db) (stored : VersionsStored db)
    {previous : Option Database} (older : OnFile Honest previous) {u : Unit}
    (run : copyPreviousSchema previous db = .ok (u, db')) : Honest db' ∧ SameVersions db db' := by
  have put : ∀ value, Honest (db.putMeta .legacyCopy value) ∧
      SameVersions db (db.putMeta .legacyCopy value) := fun value =>
    ⟨h.of_same stored (h.unique.putMeta _ _) (.putMeta rfl) fun tag mem => .inl mem, .putMeta rfl⟩
  unfold History.copyPreviousSchema at run
  split at run
  · obtain ⟨_, rfl⟩ := Prod.mk.inj (Except.ok.inj run)
    exact ⟨h, SameVersions.of_eq rfl⟩
  · split at run
    · obtain ⟨_, rfl⟩ := Prod.mk.inj (Except.ok.inj run)
      exact put _
    · split at run
      · obtain ⟨_, rfl⟩ := Prod.mk.inj (Except.ok.inj run)
        exact put _
      next p =>
        split at run
        next accepted =>
          obtain ⟨db₁, copied, run⟩ := bind_eq_ok.mp run
          obtain ⟨_, rfl⟩ := Prod.mk.inj (Except.ok.inj run)
          obtain ⟨db₂, deliveries, scopes⟩ := bind_eq_ok.mp copied
          have adds := Adds.insertStored_all deliveries
          have written := insertScopes_ok (f := id) scopes
          have historyMeta : db₁.historyMeta = db.historyMeta := by
            rw [written]
            exact adds.historyMeta
          have same : SameVersions db (db₁.putMeta .legacyCopy (copiedOutcome p)) := by
            intro key c base
            have put : SameVersions db₁ (db₁.putMeta .legacyCopy (copiedOutcome p)) := .putMeta rfl
            exact (put key c base).trans (SameVersions.of_eq historyMeta key c base)
          have unique : UniqueKeys db₁ :=
            (congrArg (fun rows => (rows.map Prod.fst).Nodup) historyMeta).mpr h.unique
          refine ⟨h.of_same stored (unique.putMeta _ _) same fun tag mem => ?_, same⟩
          have mem : tag ∈ db₂.tags := by
            rw [written] at mem
            exact mem
          refine (adds.mem_tags mem).imp_right fun new c => ?_
          rw [List.map_map] at new
          obtain ⟨row, copiedRow, rfl⟩ := List.mem_map.mp new
          exact Honest.of_matches older accepted copiedRow c
        · obtain ⟨_, rfl⟩ := Prod.mk.inj (Except.ok.inj run)
          exact put _

/-! ### Stamping -/

theorem metaValue_filter (keep : MetaKey → Bool) (key : MetaKey) :
    ({ db with historyMeta := db.historyMeta.filter fun row => keep row.1 } : Database).metaValue key =
      if keep key then db.metaValue key else none := by
  simp only [metaValue, List.find?_filter]
  by_cases h : keep key = true
  · rw [if_pos h]
    congr 2
    funext row
    by_cases hk : row.1 = key <;> simp [hk, h]
  · rw [if_neg h, Option.map_eq_none_iff, List.find?_eq_none]
    intro row _
    by_cases hk : row.1 = key <;> simp [hk, h]

theorem metaValue_stampScope {repository branch : Text} {key : MetaKey} {c : Contract}
    (base : key.base = some c) :
    (stampScope db repository branch).metaValue key =
      if key = .scopeContract c repository branch then some (decimal c.expected)
      else db.metaValue key := by
  have notSchema : key ≠ .schemaVersion := by
    rintro rfl
    cases base
  simp only [stampScope, contractVersions, List.foldl_cons, List.foldl_nil, metaValue_putMeta, notSchema, if_false]
  cases key with
  | scopeContract d repository' branch' =>
    obtain rfl : d = c := Option.some.inj base
    cases d <;> simp
  | _ => simp

/-- The version keys after the second half: the database's are current, and there are
no others. -/
theorem metaValue_stampGlobal {key : MetaKey} {c : Contract} (base : key.base = some c) :
    (stampGlobal db).metaValue key =
      if key = .contract c then some (decimal c.expected) else none := by
  simp only [stampGlobal, contractVersions, List.foldl_cons, List.foldl_nil]
  rw [metaValue_filter (fun key => !key.isScoped .importSchemaVersion), metaValue_putMeta,
    metaValue_filter (fun key => !key.isScoped .extractorVersion), metaValue_putMeta]
  cases key with
  | contract d =>
    obtain rfl : d = c := Option.some.inj base
    cases d <;> simp [MetaKey.isScoped]
  | scopeContract d repository branch | contractAt d suffix => cases d <;> simp [MetaKey.isScoped]
  | _ => cases base

theorem UniqueKeys.stampScope (h : UniqueKeys db) (repository branch : Text) :
    UniqueKeys (stampScope db repository branch) := by
  simp only [History.stampScope, contractVersions, List.foldl_cons, List.foldl_nil]
  exact ((h.putMeta _ _).putMeta _ _).putMeta _ _

theorem UniqueKeys.stampGlobal (h : UniqueKeys db) : UniqueKeys (stampGlobal db) := by
  have filtered : ∀ {db : Database} (keep : MetaKey × Text → Bool), UniqueKeys db →
      UniqueKeys { db with historyMeta := db.historyMeta.filter keep } :=
    fun keep h => (List.filter_sublist.map _).nodup h
  simp only [History.stampGlobal, contractVersions, List.foldl_cons, List.foldl_nil]
  exact filtered _ ((filtered _ (h.putMeta _ _)).putMeta _ _)

theorem scopeVersion_stampScope (c : Contract) (repository branch repository' branch' : Text) :
    (stampScope db repository branch).scopeVersion c repository' branch' =
      if repository' = repository ∧ branch' = branch then some (decimal c.expected)
      else db.scopeVersion c repository' branch' := by
  unfold Database.scopeVersion
  rw [metaValue_stampScope (c := c) rfl, metaValue_stampScope (c := c) rfl]
  by_cases h : repository' = repository ∧ branch' = branch
  · simp [h]
  · simp [h]

theorem scopeVersion_stampGlobal (c : Contract) (repository branch : Text) :
    (stampGlobal db).scopeVersion c repository branch = some (decimal c.expected) := by
  unfold Database.scopeVersion
  rw [metaValue_stampGlobal (c := c) rfl, metaValue_stampGlobal (c := c) rfl]
  simp

theorem scopesCurrent_eq_true (current : scopesCurrent db = .ok true) (c : Contract)
    {repository branch : Text} (stored : (repository, branch) ∈ db.storedScopes) :
    db.scopeVersion c repository branch = some (decimal c.expected) := by
  have scope := allM_eq_true.mp current _ stored
  have contract := allM_eq_true.mp scope c (mem_contractVersions c)
  obtain ⟨value, found, eq⟩ := bind_eq_ok.mp contract
  have eq := of_decide_eq_true (Except.ok.inj eq)
  rw [← eq]
  exact scopeContractVersion_eq_ok.mp found

theorem refuseUnsupportedContracts_ok {index : HistoryIndex}
    (supported : index.refuseUnsupportedContracts db = .ok ()) {key : MetaKey} {c : Contract}
    (base : key.base = some c) (found : db.metaValue key = some value) :
    isOlderOrCurrent value c.expected = true := by
  have row := forM_eq_ok.mp supported _ (mem_of_metaValue found)
  simp only [base] at row
  by_contra newer
  rw [if_neg newer] at row
  cases row

/-! ### Rebuilding -/

/-- The rebuilt scope, deleted and filled again, before it is stamped: its deliveries
are current, and what else is stored was stored before, under the same keys. -/
theorem commitRebuild_written {index : HistoryIndex} {plan : RebuildPlan}
    {preserved : List DeliveredChange} {removed : Nat}
    (run : index.commitRebuild plan preserved db = .ok (removed, db')) :
    ∃ written : Database, index.refuseUnsupportedContracts db = .ok () ∧
      stampRebuiltScope written index.repository index.landingBranch = .ok db' ∧
      written.historyMeta = db.historyMeta ∧ ∀ tag ∈ written.tags, (∀ c, tag.2.version c = Contract.expected c) ∨
        (tag ∈ db.tags ∧ ¬(tag.1.repository = index.repository ∧ tag.1.landingBranch = index.landingBranch)) := by
  obtain ⟨supported, db₁, adds, stamped⟩ := commitRebuild_ok run
  refine ⟨_, supported, stamped, upsertScope_historyMeta.trans adds.historyMeta, fun tag mem => ?_⟩
  have mem : tag ∈ db₁.tags := by
    rwa [tags, writeCursor, upsertScope_deliveries] at mem
  rcases adds.mem_tags mem with old | new
  · refine .inr ?_
    obtain ⟨row, kept, rfl⟩ := List.mem_map.mp old
    obtain ⟨stored, outside⟩ := List.mem_filter.mp kept
    exact ⟨List.mem_map_of_mem stored, not_and_or.mpr (by simpa using outside)⟩
  · obtain ⟨change, _, rfl⟩ := List.mem_map.mp new
    exact .inl fun c => Contracts.current_version c

theorem Honest.commitRebuild (h : Honest db) (stored : VersionsStored db) {index : HistoryIndex}
    {plan : RebuildPlan} {preserved : List DeliveredChange} {removed : Nat}
    (run : index.commitRebuild plan preserved db = .ok (removed, db')) : Honest db' := by
  obtain ⟨written, _, stamped, historyMeta, tags⟩ := commitRebuild_written run
  have same := SameVersions.of_eq historyMeta
  have unique : UniqueKeys written :=
    (congrArg (fun rows => (rows.map Prod.fst).Nodup) historyMeta).mpr h.unique
  have scope : Honest (stampScope written index.repository index.landingBranch) := by
    refine ⟨unique.stampScope _ _, fun c tag mem current => ?_, fun c global repository branch _ => ?_⟩
    · rcases tags tag mem with new | ⟨old, outside⟩
      · exact new c
      · rw [scopeVersion_stampScope, if_neg outside, same.scopeVersion] at current
        exact h.scope c tag old current
    · rw [metaValue_stampScope (c := c) rfl, if_neg (by simp), same (.contract c) c rfl] at global
      rw [scopeVersion_stampScope, same.scopeVersion]
      split
      · rfl
      · exact h.current stored global repository branch
  rcases stampRebuiltScope_ok stamped with ⟨current, rfl⟩ | rfl
  · refine ⟨scope.unique.stampGlobal, fun c tag mem _ => ?_, fun c _ repository branch _ => ?_⟩
    · refine scope.scope c tag mem (scopesCurrent_eq_true current c ?_)
      exact mem_storedScopes_tags.mpr (.inr ⟨tag, mem, rfl, rfl⟩)
    · exact scopeVersion_stampGlobal c repository branch
  · exact scope

/-- A rebuild lowers no version: it replaces those that it has checked. -/
theorem Raises.commitRebuild {index : HistoryIndex} {plan : RebuildPlan}
    {preserved : List DeliveredChange} {removed : Nat}
    (run : index.commitRebuild plan preserved db = .ok (removed, db')) : Raises db db' := by
  obtain ⟨written, supported, stamped, historyMeta, _⟩ := commitRebuild_written run
  have same := SameVersions.of_eq historyMeta
  have checked : ∀ c repository branch old, db.scopeVersion c repository branch = some old →
      isOlderOrCurrent old c.expected = true := by
    intro c repository branch old found
    unfold Database.scopeVersion at found
    cases own : db.metaValue (.scopeContract c repository branch) with
    | some value =>
      rw [own] at found
      obtain rfl := Option.some.inj found
      have base : (MetaKey.scopeContract c repository branch).base = some c := rfl
      exact refuseUnsupportedContracts_ok supported base own
    | none =>
      rw [own] at found
      have base : (MetaKey.contract c).base = some c := rfl
      exact refuseUnsupportedContracts_ok supported base found
  have scope : Raises db (stampScope written index.repository index.landingBranch) := by
    constructor
    · intro key c old new base before after
      rw [metaValue_stampScope base] at after
      split at after
      · exact .inr ⟨refuseUnsupportedContracts_ok supported base before, (Option.some.inj after).symm⟩
      · rw [same key c base, before] at after
        exact .inl (Option.some.inj after).symm
    · intro c repository branch old _ _ before
      rw [scopeVersion_stampScope, same.scopeVersion]
      split
      · exact ⟨_, rfl, .inr ⟨checked c _ _ old before, rfl⟩⟩
      · exact ⟨old, before, .rfl⟩
  rcases stampRebuiltScope_ok stamped with ⟨_, rfl⟩ | rfl
  · constructor
    · intro key c old new base before after
      rw [metaValue_stampGlobal base] at after
      split at after
      · exact .inr ⟨refuseUnsupportedContracts_ok supported base before, (Option.some.inj after).symm⟩
      · cases after
    · intro c repository branch old _ _ before
      exact ⟨_, scopeVersion_stampGlobal c repository branch, .inr ⟨checked c repository branch old before, rfl⟩⟩
  · exact scope

/-! ### Migrating -/

theorem metaValue_insertMeta {operation : String} {key other : MetaKey}
    (run : db.insertMeta operation key value = .ok db') (different : other ≠ key) :
    db'.metaValue other = db.metaValue other := by
  rw [insertMeta_ok run]
  simp [metaValue, List.find?_append, different.symm]

/-- What a migration leaves of the keys that are not versions of scopes. -/
theorem migrateScopes_keys (unique : UniqueKeys db) {index : HistoryIndex} {u : Unit}
    (run : index.migrateScopes db = .ok (u, db')) :
    UniqueKeys db' ∧ ∀ key, key.isScopeVersion = false → key ≠ .originIdentityPurgePending →
      db'.metaValue key = db.metaValue key := by
  obtain ⟨branches, _, run⟩ := bind_eq_ok.mp run
  obtain ⟨db₁, migrated, run⟩ := bind_eq_ok.mp run
  obtain ⟨_, rfl⟩ := Prod.mk.inj (Except.ok.inj run)
  let P (s : Database) : Prop := UniqueKeys s ∧
    ∀ key, key.isScopeVersion = false → s.metaValue key = db.metaValue key
  have same : ∀ {s t : Database}, P s → t.historyMeta = s.historyMeta → P t := by
    rintro s t ⟨unique, values⟩ eq
    refine ⟨(congrArg (fun rows => (rows.map Prod.fst).Nodup) eq).mpr unique, fun key other => ?_⟩
    rw [← values key other]
    simp only [metaValue, eq]
  have version : ∀ s version t legacy c, P s → index.moveScopeVersion legacy c s version = .ok t →
      P t := by
    rintro s version t legacy c ⟨unique, values⟩ run
    obtain ⟨s', inserted, run⟩ := bind_eq_ok.mp run
    obtain rfl := Except.ok.inj run
    refine ⟨(unique.insertMeta inserted).deleteMeta _, fun key other => ?_⟩
    have renamed : ∀ repository, key ≠ .scopeContract c repository version.1 := by
      rintro repository rfl
      cases other
    rw [metaValue_deleteMeta, if_neg (renamed _), metaValue_insertMeta inserted (renamed _)]
    exact values key other
  have start : P db := ⟨unique, fun _ _ => rfl⟩
  have moved : P db₁ := by
    refine foldlM_keeps (P := P) (fun s legacy t _ hs run => ?_) start migrated
    obtain ⟨s₁, reinserted, run⟩ := bind_eq_ok.mp run
    obtain ⟨s₂, copied, run⟩ := bind_eq_ok.mp run
    obtain ⟨s₃, renamed, run⟩ := bind_eq_ok.mp run
    obtain rfl := Except.ok.inj run
    have h₁ := same hs (Adds.insertStored_all reinserted).historyMeta
    have h₂ : P s₂ := by
      rw [copyScopes_ok copied]
      exact same h₁ rfl
    have h₃ : P s₃ := foldlM_keeps (P := P)
      (fun _ c _ _ h run => foldlM_keeps (P := P) (fun _ _ _ _ h run => version _ _ _ _ _ h run) h run)
      h₂ renamed
    exact same h₃ rfl
  refine ⟨moved.1.putMeta _ _, fun key other notPurge => ?_⟩
  rw [metaValue_putMeta, if_neg notPurge]
  exact moved.2 key other

section

variable {index : HistoryIndex}

/-- Where no scopes collide, a scope comes from one scope only. -/
theorem HistoryIndex.migrated_unique
    (apart : ¬index.Collides (index.credentialedRepositories db) db) {branch first second : Text}
    (storedFirst : (first, branch) ∈ db.storedScopes) (storedSecond : (second, branch) ∈ db.storedScopes)
    (same : index.migratedRepository (index.credentialedRepositories db) first =
      index.migratedRepository (index.credentialedRepositories db) second) : first = second := by
  generalize index.credentialedRepositories db = legacy at apart same
  by_contra different
  unfold HistoryIndex.migratedRepository at same
  by_cases h₁ : first ∈ legacy
  · by_cases h₂ : second ∈ legacy
    · exact apart ⟨first, h₁, branch, storedFirst, .inr ⟨second, h₂, Ne.symm different, storedSecond⟩⟩
    · rw [if_pos h₁, if_neg h₂] at same
      exact apart ⟨first, h₁, branch, storedFirst, .inl (same ▸ storedSecond)⟩
  · by_cases h₂ : second ∈ legacy
    · rw [if_neg h₁, if_pos h₂] at same
      exact apart ⟨second, h₂, branch, storedSecond, .inl (same ▸ storedFirst)⟩
    · rw [if_neg h₁, if_neg h₂] at same
      exact different same

variable {u : Unit}

theorem migrated_scopeVersion (recorded : Recorded db) (honest : Honest db)
    (run : index.migrateScopes db = .ok (u, db')) (c : Contract) {repository branch : Text}
    (stored : (repository, branch) ∈ db.storedScopes) : db'.scopeVersion c
        (index.migratedRepository (index.credentialedRepositories db) repository) branch =
      db.scopeVersion c repository branch := by
  obtain ⟨apart, moved⟩ := migrateScopes_moved recorded.projected recorded.versions run
  obtain ⟨unique, keys⟩ := migrateScopes_keys honest.unique run
  have own : db'.metaValue (.scopeContract c
        (index.migratedRepository (index.credentialedRepositories db) repository) branch) =
      db.metaValue (.scopeContract c repository branch) := by
    refine Option.ext fun value => ?_
    rw [unique.metaValue_eq_some, honest.unique.metaValue_eq_some, ← mem_scopeVersions, ← mem_scopeVersions]
    constructor
    · intro mem
      obtain ⟨old, before, eq⟩ := moved.mem_scopeVersions mem
      obtain rfl := HistoryIndex.migrated_unique apart (recorded.versions _ _ _ _ before) stored eq
      exact before
    · intro mem
      refine moved.versions.mem_iff.mpr (List.mem_map.mpr ⟨_, mem, ?_⟩)
      rw [migratedKey_scopeContract]
  unfold Database.scopeVersion
  rw [own, keys (.contract c) rfl (by simp)]

theorem Honest.migrateScopes (honest : Honest db) (recorded : Recorded db)
    (run : index.migrateScopes db = .ok (u, db')) : Honest db' := by
  obtain ⟨apart, moved⟩ := migrateScopes_moved recorded.projected recorded.versions run
  obtain ⟨unique, keys⟩ := migrateScopes_keys honest.unique run
  refine ⟨unique, fun c tag mem current => ?_, fun c global repository branch stored => ?_⟩
  · obtain ⟨row, after, rfl⟩ := List.mem_map.mp mem
    obtain ⟨old, before, rfl⟩ := List.mem_map.mp (moved.deliveries.mem_iff.mp after)
    have stored : (old.key.repository, old.key.landingBranch) ∈ db.storedScopes :=
      mem_storedScopes.mpr (.inr ⟨old, before, rfl, rfl⟩)
    rw [migratedRow_key recorded.projected before] at current
    rw [migrated_scopeVersion recorded honest run c stored] at current
    have := honest.scope c _ (List.mem_map_of_mem before) current
    simp only
    rwa [migratedRow_extractedUnder]
  · rw [keys (.contract c) rfl (by simp)] at global
    obtain ⟨old, before, rfl⟩ := (moved.mem_storedScopes recorded.projected).mp stored
    rw [migrated_scopeVersion recorded honest run c before]
    exact honest.all c global old branch before

theorem HistoryIndex.migrated_idem (db : Database) (repository : Text) :
    index.migratedRepository (index.credentialedRepositories db)
        (index.migratedRepository (index.credentialedRepositories db) repository) =
      index.migratedRepository (index.credentialedRepositories db) repository := by
  have own : index.repository ∉ index.credentialedRepositories db := by
    intro mem
    simpa using (List.mem_filter.mp mem).2
  unfold HistoryIndex.migratedRepository
  by_cases h : repository ∈ index.credentialedRepositories db
  · rw [if_pos h, if_neg own]
  · rw [if_neg h, if_neg h]

/-- A migration lowers no version: a scope that was stored and still is has not moved. -/
theorem Raises.migrateScopes (honest : Honest db) (recorded : Recorded db)
    (run : index.migrateScopes db = .ok (u, db')) : Raises db db' := by
  obtain ⟨apart, moved⟩ := migrateScopes_moved recorded.projected recorded.versions run
  obtain ⟨unique, keys⟩ := migrateScopes_keys honest.unique run
  -- What is stored before and comes from `old` after is `old` itself.
  have stays : ∀ old repository branch, (old, branch) ∈ db.storedScopes →
      (repository, branch) ∈ db.storedScopes →
      index.migratedRepository (index.credentialedRepositories db) old = repository →
        old = repository := by
    rintro old repository branch storedOld stored rfl
    exact HistoryIndex.migrated_unique apart storedOld stored (HistoryIndex.migrated_idem db old).symm
  constructor
  · intro key c old new base before after
    cases hkey : key.isScopeVersion with
    | false =>
      have notPurge : key ≠ .originIdentityPurgePending := by
        rintro rfl
        cases base
      rw [keys key hkey notPurge, before] at after
      exact .inl (Option.some.inj after).symm
    | true =>
      cases key with
      | scopeContract d repository branch =>
        have mem := mem_scopeVersions.mpr (unique.metaValue_eq_some.mp after)
        obtain ⟨origin, was, eq⟩ := moved.mem_scopeVersions mem
        have here := mem_scopeVersions.mpr (honest.unique.metaValue_eq_some.mp before)
        obtain rfl := stays origin repository branch (recorded.versions _ _ _ _ was)
          (recorded.versions _ _ _ _ here) eq
        have found := honest.unique.metaValue_eq_some.mpr (mem_scopeVersions.mp was)
        rw [before] at found
        exact .inl (Option.some.inj found).symm
      | _ => cases hkey
  · intro c repository branch old stored stored' before
    obtain ⟨origin, was, eq⟩ := (moved.mem_storedScopes recorded.projected).mp stored'
    obtain rfl := stays origin repository branch was stored eq
    have version := migrated_scopeVersion recorded honest run c was
    rw [eq] at version
    exact ⟨old, version.trans before, .rfl⟩

end

/-! ### Every operation -/

/-- The transactions that write a database, beside `previous`. -/
inductive Write (previous : Option Database) : Database → Database → Prop where
  | purged (db : Database) : Write previous db (db.deleteMeta .originIdentityPurgePending)
  | copied {db db' : Database} {u : Unit} :
      copyPreviousSchema previous db = .ok (u, db') → Write previous db db'
  | migrated {index : HistoryIndex} {db db' : Database} {u : Unit} :
      index.migrateScopes db = .ok (u, db') → Write previous db db'
  | inserted {change : DeliveredChange} {db db' : Database} {report : HistoryImportReport} :
      insertDelivery change .current db = .ok (report, db') → Write previous db db'
  | attached {index : HistoryIndex} {deliveryId : Text} {snapshot : TaskAssociation}
      {db db' : Database} {stored : Bool} :
      index.storeSnapshot deliveryId snapshot db = .ok (stored, db') → Write previous db db'
  | synced {index : HistoryIndex} {plan : SyncPlan} {db db' : Database} {report : HistorySyncReport} :
      index.commitSync plan db = .ok (report, db') → Write previous db db'
  | rebuilt {index : HistoryIndex} {plan : RebuildPlan} {preserved : List DeliveredChange}
      {db db' : Database} {removed : Nat} :
      index.commitRebuild plan preserved db = .ok (removed, db') → Write previous db db'

/-- What is recorded is honest. -/
structure Sound (db : Database) : Prop where
  recorded : Recorded db
  honest : Honest db

variable {previous : Option Database}

/-- One transaction keeps what is recorded honest, and lowers no version. -/
theorem Write.sound (older : OnFile Honest previous)
    (write : Write previous db db') (h : Sound db) : Sound db' ∧ Raises db db' := by
  obtain ⟨recorded, honest⟩ := h
  have stored := recorded.versions
  cases write with
  | purged =>
    refine ⟨⟨recorded.same (SameHistory.deleteMeta rfl), ?_⟩, Raises.of_same (.deleteMeta rfl)⟩
    exact honest.of_same stored (honest.unique.deleteMeta _) (.deleteMeta rfl) fun _ mem => .inl mem
  | copied run =>
    obtain ⟨honest', same⟩ := honest.copyPreviousSchema stored older run
    exact ⟨⟨recorded.copyPreviousSchema run, honest'⟩, Raises.of_same same⟩
  | migrated run =>
    exact ⟨⟨recorded.migrateScopes run, honest.migrateScopes recorded run⟩,
      Raises.migrateScopes honest recorded run⟩
  | @inserted change _ _ _ run =>
    have adds : Adds ([change].map DeliveredChange.currentTag) db db' :=
      Adds.insertDelivery (List.mem_singleton.mpr rfl) run
    exact ⟨⟨recorded.insertDelivery run, honest.adds stored adds⟩, Raises.of_same (.of_eq adds.historyMeta)⟩
  | attached run =>
    obtain ⟨honest', same⟩ := honest.storeSnapshot stored run
    exact ⟨⟨recorded.storeSnapshot run, honest'⟩, Raises.of_same same⟩
  | synced run =>
    refine ⟨⟨recorded.commitSync run, honest.commitSync stored run⟩, Raises.of_same ?_⟩
    obtain ⟨db₁, adds, rfl⟩ := commitSync_ok run
    refine .of_eq (Eq.trans ?_ adds.historyMeta)
    unfold HistoryIndex.writeSyncedScope
    split <;> exact upsertScope_historyMeta
  | rebuilt run =>
    exact ⟨⟨⟨recorded.projected.commitRebuild run, recorded.versions.commitRebuild run⟩,
      honest.commitRebuild stored run⟩, Raises.commitRebuild run⟩

theorem Write.alone (write : Write none db db') (h : Sound db) : Sound db' := by
  have older : OnFile Honest none := trivial
  exact (write.sound older h).1

/-- A transaction that lowers no version. -/
def RaisingWrite (previous : Option Database) (db db' : Database) : Prop :=
  Write previous db db' ∧ Raises db db'

/-- A file that a chain of such transactions leads to from `db`. -/
def Follows (previous : Option Database) (db : Database) (file : Option Database) : Prop :=
  ∃ db', file = some db' ∧ Sound db' ∧ Relation.ReflTransGen (RaisingWrite previous) db db'

theorem Follows.write (older : OnFile Honest previous) {start : Database}
    (h : Follows previous start (some db)) (write : Write previous db db') : Follows previous start (some db') := by
  obtain ⟨_, same, sound, chain⟩ := h
  obtain rfl := Option.some.inj same
  obtain ⟨sound', raises⟩ := write.sound older sound
  exact ⟨db', rfl, sound', chain.tail ⟨write, raises⟩⟩

theorem Follows.kept (older : OnFile Honest previous)
    (start : Database) : Kept (Follows previous start) (· = previous) where
  initialSchema h := by
    obtain ⟨_, file, _⟩ := h
    cases file
  purged _ h := h.write older (.purged _)
  copied _ _ _ _ eq h run := h.write older (.copied (eq ▸ run))
  migrated _ _ _ _ h run := h.write older (.migrated run)
  inserted _ _ _ _ h run := h.write older (.inserted run)
  attached _ _ _ _ _ _ h run := h.write older (.attached run)
  synced _ _ _ _ _ h run := h.write older (.synced run)
  rebuilt _ _ _ _ _ _ h run := h.write older (.rebuilt run)

theorem Sound.initialSchema : Sound initialSchema where
  recorded := Recorded.kept.initialSchema trivial
  honest :=
    { unique := by
        unfold UniqueKeys
        decide
      scope := nofun
      all := fun c _ repository branch stored => by
        have none : History.initialSchema.storedScopes = [] := by decide
        rw [none] at stored
        cases stored }

theorem Sound.kept : Kept (OnFile Sound) (OnFile Honest) where
  initialSchema _ := Sound.initialSchema
  purged _ h := Write.alone (.purged _) h
  copied _ _ _ _ older h run := ((Write.copied run).sound older h).1
  migrated _ _ _ _ h run := Write.alone (.migrated run) h
  inserted _ _ _ _ h run := Write.alone (.inserted run) h
  attached _ _ _ _ _ _ h run := Write.alone (.attached run) h
  synced _ _ _ _ _ h run := Write.alone (.synced run) h
  rebuilt _ _ _ _ _ _ h run := Write.alone (.rebuilt run) h

/-- Files to start from: none, or ones whose recorded versions are true of them, as
earlier runs leave them. -/
def StartsSound (file previous : Option Database) : Prop := OnFile Sound file ∧ OnFile Honest previous

/-- In every reachable history database: what passes `validate_versions` was extracted
under the current contracts; where the database's version is current, every stored
scope's is; and whatever operation comes next, it is a chain of transactions of
which none replaces a version by an older one. -/
theorem versions_not_overstated [GitObjects] {s : Store} (reach : (system StartsSound).Reachable s)
    {db : Database} (file : s.file = some db) :
    (∀ index : HistoryIndex, index.validateVersions db = .ok () →
      ∀ row ∈ db.deliveries, index.inScope row.key = true → row.extractedUnder = .current) ∧
    (∀ c, db.metaValue (.contract c) = some (decimal c.expected) →
      ∀ repository branch, (repository, branch) ∈ db.storedScopes →
        db.scopeVersion c repository branch = some (decimal c.expected)) ∧
    ∀ op : Operation, ∃ db', (op.run s).file = some db' ∧
      Relation.ReflTransGen (RaisingWrite s.previous) db db' := by
  obtain ⟨sound, older⟩ := reach.of_inductive (Sound.kept.inductive_file fun _ _ begins => begins)
  rw [file] at sound
  have sound : Sound db := sound
  refine ⟨fun index valid row mem inScope => ?_, sound.honest.all, fun op => ?_⟩
  · obtain ⟨_, _, contracts⟩ := bind_eq_ok.mp valid
    obtain ⟨repository, branch⟩ := of_decide_eq_true inScope
    have version : ∀ c, row.extractedUnder.version c = Contract.expected c := by
      intro c
      obtain ⟨actual, found, checked⟩ :=
        bind_eq_ok.mp (forM_eq_ok.mp contracts c (mem_contractVersions c))
      have current : actual = decimal c.expected := by
        unfold HistoryIndex.checkContract at checked
        split at checked
        · assumption
        · split at checked <;> cases checked
      refine sound.honest.scope c _ (List.mem_map_of_mem mem) ?_
      rw [← current]
      simp only [repository, branch]
      exact scopeContractVersion_eq_ok.mp found
    have extractor := version .extractorVersion
    have importSchema := version .importSchemaVersion
    cases h : row.extractedUnder
    simp_all [Contracts.version, Contracts.current, Contract.expected]
  · have start : Follows s.previous db s.file := ⟨db, file, sound, .refl⟩
    obtain ⟨db', file', _, chain⟩ := (Follows.kept older db).run op rfl start
    exact ⟨db', file', chain⟩

namespace Sample

local instance : GitObjects := objects

theorem versions_not_overstated_synced :
    ∃ db, synced.file = some db ∧ db.deliveries.length = 1 ∧
      index.validateVersions db = .ok () ∧
      ∀ row ∈ db.deliveries, index.inScope row.key = true → row.extractedUnder = .current := by
  have stored : (synced.file.map fun db => (db.deliveries.length,
      (index.validateVersions db).toOption)) = some (1, some ()) := by decide +kernel
  obtain ⟨db, file, eq⟩ := Option.map_eq_some_iff.mp stored
  obtain ⟨one, valid⟩ := Prod.mk.inj eq
  have valid : index.validateVersions db = .ok () := by
    cases h : index.validateVersions db with
    | error e =>
      rw [h] at valid
      cases valid
    | ok u => rfl
  have current := versions_not_overstated (synced_reachable ⟨trivial, trivial⟩) file
  exact ⟨db, file, one, valid, current.1 index valid⟩

end Sample

end OrbitGraph.History
