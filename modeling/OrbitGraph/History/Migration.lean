import OrbitGraph.History.Batches

/-!
The migration of scopes that were stored under a repository with credentials.

`Moved legacy db db'` says that every delivery, scope and scope version of `db` is
in `db'`, each once, with the repositories in `legacy` replaced by the handle's;
nothing else is there. The migration works through the legacy repositories one
by one; the invariant of that loop is `Moved` for those that are done, and what
keeps the next one from meeting stored rows is that no two scopes collide.
-/

namespace OrbitGraph.History

open Lib Database

def MetaKey.isScopeVersion : MetaKey → Bool
  | .scopeContract _ _ _ => true
  | _ => false

def Database.scopeVersions (db : Database) : List (MetaKey × Text) :=
  db.historyMeta.filter fun row => row.1.isScopeVersion

theorem mem_scopeVersions {db : Database} {c : Contract} {repository branch value : Text} :
    (.scopeContract c repository branch, value) ∈ db.scopeVersions ↔
      (.scopeContract c repository branch, value) ∈ db.historyMeta := by
  simp [Database.scopeVersions, MetaKey.isScopeVersion]

theorem scopeVersions_deleteMeta {db : Database} {key : MetaKey} (other : key.isScopeVersion = false) :
    (db.deleteMeta key).scopeVersions = db.scopeVersions := by
  simp only [Database.scopeVersions, deleteMeta, List.filter_filter]
  refine List.filter_congr fun row _ => ?_
  by_cases h : row.1 = key
  · simp [h, other]
  · simp [h]

theorem scopeVersions_putMeta {db : Database} {key : MetaKey} {value : Text}
    (other : key.isScopeVersion = false) : (db.putMeta key value).scopeVersions = db.scopeVersions := by
  have deleted : (db.deleteMeta key).scopeVersions = db.scopeVersions :=
    scopeVersions_deleteMeta other
  rw [← deleted]
  simp [Database.scopeVersions, putMeta, deleteMeta, other]

namespace HistoryIndex

variable (index : HistoryIndex)

/-! ### What moves where -/

def migratedRepository (legacy : List Text) (repository : Text) : Text :=
  if repository ∈ legacy then index.repository else repository

/-- A delivery row after the migration of `legacy`. -/
def migratedRow (legacy : List Text) (row : DeliveryRow) : DeliveryRow :=
  if row.key.repository ∈ legacy then
    .ofChange (redactChange (index.rekey row.payload)) row.extractedUnder
  else row

def migratedScope (legacy : List Text) (row : ScopeRow) : ScopeRow :=
  if row.repository ∈ legacy then { row with repository := index.repository } else row

def migratedKey (legacy : List Text) : MetaKey → MetaKey
  | .scopeContract c repository branch =>
    if repository ∈ legacy then .scopeContract c index.repository branch
    else .scopeContract c repository branch
  | key => key

/-- `db'` is `db` with the repositories in `legacy` replaced by the handle's. -/
structure Moved (legacy : List Text) (db db' : Database) : Prop where
  deliveries : db'.deliveries.Perm (db.deliveries.map (index.migratedRow legacy))
  scopes : db'.scopes.Perm (db.scopes.map (index.migratedScope legacy))
  versions : db'.scopeVersions.Perm
    (db.scopeVersions.map fun row => (index.migratedKey legacy row.1, row.2))

/-- Two stored scopes would become one. -/
def Collides (legacy : List Text) (db : Database) : Prop :=
  ∃ repository ∈ legacy, ∃ branch, (repository, branch) ∈ db.storedScopes ∧
    ((index.repository, branch) ∈ db.storedScopes ∨
      ∃ other ∈ legacy, other ≠ repository ∧ (other, branch) ∈ db.storedScopes)

end HistoryIndex

def VersionsStored (db : Database) : Prop :=
  ∀ c repository branch value, (.scopeContract c repository branch, value) ∈ db.scopeVersions →
    (repository, branch) ∈ db.storedScopes

theorem mem_storedScopes {db : Database} {repository branch : Text} : (repository, branch) ∈ db.storedScopes ↔
      (∃ row ∈ db.scopes, row.repository = repository ∧ row.landingBranch = branch) ∨
        ∃ row ∈ db.deliveries, row.key.repository = repository ∧ row.key.landingBranch = branch := by
  simp [storedScopes, List.mem_dedup]

variable {index : HistoryIndex} {db db' : Database}

/-! ### The collision check -/

theorem mem_branchesOf {repository branch : Text} :
    branch ∈ HistoryIndex.branchesOf db repository ↔ (repository, branch) ∈ db.storedScopes := by
  simp [HistoryIndex.branchesOf]

theorem branchesOf_nodup (repository : Text) : (HistoryIndex.branchesOf db repository).Nodup := by
  refine List.Nodup.map_on ?_ ((List.nodup_dedup _).filter _)
  rintro ⟨r₁, b₁⟩ h₁ ⟨r₂, b₂⟩ h₂ eq
  have h₁ := of_decide_eq_true (List.mem_filter.mp h₁).2
  have h₂ := of_decide_eq_true (List.mem_filter.mp h₂).2
  simp only at h₁ h₂ eq
  rw [h₁, h₂, eq]

theorem claimBranches_ok {pending seen branches : List Text} (nodup : seen.Nodup)
    (free : ∀ branch ∈ seen, (index.repository, branch) ∉ db.storedScopes) :
    pending.foldlM (index.claimBranch db) seen = .ok branches ↔ branches = seen ++ pending ∧ branches.Nodup ∧
        ∀ branch ∈ branches, (index.repository, branch) ∉ db.storedScopes := by
  induction pending generalizing seen with
  | nil =>
    constructor
    · intro run
      obtain rfl := Except.ok.inj run
      exact ⟨by simp, nodup, free⟩
    · rintro ⟨rfl, _, _⟩
      simp [pure, Except.pure]
  | cons branch rest ih =>
    rw [List.foldlM_cons, bind_eq_ok]
    constructor
    · rintro ⟨next, claimed, run⟩
      obtain ⟨_, available, claimed⟩ := bind_eq_ok.mp claimed
      obtain ⟨unused, fresh⟩ := ensure_eq_ok.mp available
      obtain rfl := Except.ok.inj claimed
      have nodup' : (seen ++ [branch]).Nodup := by
        simpa using List.nodup_middle.mpr (by simpa using ⟨fresh, nodup⟩)
      have free' : ∀ b ∈ seen ++ [branch], (index.repository, b) ∉ db.storedScopes := by
        intro b mem
        rcases List.mem_append.mp mem with mem | mem
        · exact free b mem
        · rw [List.mem_singleton.mp mem]
          exact unused
      simpa using (ih nodup' free').mp run
    · rintro ⟨rfl, nodup', free'⟩
      have fresh : branch ∉ seen := by
        intro mem
        exact absurd rfl ((List.nodup_append.mp nodup').2.2 branch mem branch (by simp))
      have unused := free' branch (by simp)
      refine ⟨seen ++ [branch], bind_eq_ok.mpr ⟨(), ensure_eq_ok.mpr ⟨unused, fresh⟩, rfl⟩, ?_⟩
      have nodupNext : (seen ++ [branch]).Nodup := by
        refine nodup'.sublist ?_
        exact (List.Sublist.refl seen).append (by simp)
      refine (ih nodupNext fun b mem => free' b ?_).mpr ⟨by simp, nodup', free'⟩
      rcases List.mem_append.mp mem with mem | mem
      · exact List.mem_append_left _ mem
      · rw [List.mem_singleton.mp mem]
        simp

theorem migratedBranches_ok {legacy branches : List Text} : index.migratedBranches db legacy = .ok branches ↔
      branches = legacy.flatMap (HistoryIndex.branchesOf db) ∧ branches.Nodup ∧
        ∀ branch ∈ branches, (index.repository, branch) ∉ db.storedScopes := by
  unfold HistoryIndex.migratedBranches
  rw [claimBranches_ok List.nodup_nil (by simp)]
  simp

variable {legacy : List Text}

theorem migratedBranches_isOk (distinct : legacy.Nodup) :
    (∃ branches, index.migratedBranches db legacy = .ok branches) ↔ ¬index.Collides legacy db := by
  constructor
  · rintro ⟨branches, run⟩
    obtain ⟨rfl, nodup, free⟩ := migratedBranches_ok.mp run
    rintro ⟨repository, mem, branch, stored, taken | ⟨other, memOther, different, storedOther⟩⟩
    · exact free branch (List.mem_flatMap.mpr ⟨repository, mem, mem_branchesOf.mpr stored⟩) taken
    · have disjoint := (List.nodup_flatMap.mp nodup).2
      have : Std.Symm (Function.onFun List.Disjoint (HistoryIndex.branchesOf db)) :=
        ⟨fun _ _ h => h.symm⟩
      exact disjoint.forall mem memOther different.symm (mem_branchesOf.mpr stored)
        (mem_branchesOf.mpr storedOther)
  · intro apart
    refine ⟨_, migratedBranches_ok.mpr ⟨rfl, ?_, ?_⟩⟩
    · refine List.nodup_flatMap.mpr ⟨fun repository _ => branchesOf_nodup repository, ?_⟩
      refine distinct.imp_of_mem fun mem memOther different => ?_
      intro branch stored storedOther
      exact apart ⟨_, mem, branch, mem_branchesOf.mp stored,
        .inr ⟨_, memOther, different.symm, mem_branchesOf.mp storedOther⟩⟩
    · intro branch mem taken
      obtain ⟨repository, mem, stored⟩ := List.mem_flatMap.mp mem
      exact apart ⟨repository, mem, branch, mem_branchesOf.mp stored, .inl taken⟩

/-! ### One repository -/

/-- Rows with a property, put at the end as their images, which lack it, in place of
themselves. -/
theorem moveRows_perm {α : Type} (p : α → Bool) (f : α → α) (xs : List α)
    (gone : ∀ a, p a = true → p (f a) = false) :
    ((xs ++ (xs.filter p).map f).filter fun a => !p a).Perm
      (xs.map fun a => if p a then f a else a) := by
  have kept : ((xs.filter p).map f).filter (fun a => !p a) = (xs.filter p).map f := by
    rw [List.filter_eq_self]
    intro a mem
    obtain ⟨b, hb, rfl⟩ := List.mem_map.mp mem
    simp [gone b (List.mem_filter.mp hb).2]
  rw [List.filter_append, kept]
  exact filter_append_map_perm p f xs

theorem copyScopes_ok {legacy : Text} (run : index.copyScopes legacy db = .ok db') : db' = { db with
      scopes := db.scopes ++ (db.scopes.filter fun row => row.repository = legacy).map
        fun row => { row with repository := index.repository } } :=
  insertScopes_ok run

/-- Whether a version row is for a scope of `legacy`, under the contract `c`. -/
def isVersionOf (c : Contract) (legacy : Text) (row : MetaKey × Text) : Bool :=
  match row.1 with
  | .scopeContract c' repository _ => c' = c ∧ repository = legacy
  | _ => false

def versionRow (c : Contract) (repository : Text) (version : Text × Text) : MetaKey × Text :=
  (.scopeContract c repository version.1, version.2)

theorem isVersionOf_iff {c : Contract} {legacy : Text} {row : MetaKey × Text} :
    isVersionOf c legacy row = true ↔ ∃ version, row = versionRow c legacy version := by
  obtain ⟨key, value⟩ := row
  cases key with
  | scopeContract c' repository branch =>
    simp only [isVersionOf, versionRow, decide_eq_true_eq, Prod.mk.injEq, MetaKey.scopeContract.injEq]
    constructor
    · rintro ⟨rfl, rfl⟩
      exact ⟨(branch, value), ⟨rfl, rfl, rfl⟩, rfl⟩
    · rintro ⟨version, ⟨rfl, rfl, _⟩, _⟩
      exact ⟨rfl, rfl⟩
  | _ => simp [isVersionOf, versionRow]

variable {branches : List Text}

theorem scopeVersionsOf_rows {rows : List (MetaKey × Text)} {legacy : Text} {c : Contract}
    (recorded : ∀ branch value, (.scopeContract c legacy branch, value) ∈ rows → branch ∈ branches) :
    (HistoryIndex.scopeVersionsOf { db with historyMeta := rows } c legacy branches).map
      (versionRow c legacy) = rows.filter (isVersionOf c legacy) := by
  unfold HistoryIndex.scopeVersionsOf
  induction rows with
  | nil => rfl
  | cons row rest ih =>
    have ih := ih fun branch value mem => recorded branch value (List.mem_cons_of_mem _ mem)
    obtain ⟨key, value⟩ := row
    cases key with
    | scopeContract c' repository branch =>
      by_cases h : c' = c ∧ repository = legacy
      · obtain ⟨rfl, rfl⟩ := h
        have mem := recorded branch value List.mem_cons_self
        simpa [isVersionOf, versionRow, mem] using ih
      · have skip : ¬(c' = c ∧ repository = legacy ∧ branch ∈ branches) := fun h' =>
          h ⟨h'.1, h'.2.1⟩
        simpa [isVersionOf, h, skip] using ih
    | _ => simpa [isVersionOf] using ih

theorem moveScopeVersions_ok {legacy : Text} {c : Contract} (different : legacy ≠ index.repository)
    (recorded : ∀ branch value, (.scopeContract c legacy branch, value) ∈ db.historyMeta → branch ∈ branches)
    (run : index.moveScopeVersions branches legacy db c = .ok db') : ∃ versions : List (Text × Text),
      versions.map (versionRow c legacy) = db.historyMeta.filter (isVersionOf c legacy) ∧ db' = { db with
        historyMeta := (db.historyMeta.filter fun row => !isVersionOf c legacy row) ++
          versions.map (versionRow c index.repository) } := by
  -- After the versions in `done`, their old rows are gone and their new ones at the end.
  let Q (done : List (Text × Text)) (s : Database) : Prop :=
    s = { db with
      historyMeta :=
        (db.historyMeta.filter fun row => row.1 ∉ done.map fun v => (versionRow c legacy v).1) ++
          done.map (versionRow c index.repository) }
  have step : ∀ done s version t, Q done s →
      index.moveScopeVersion legacy c s version = .ok t → Q (done ++ [version]) t := by
    rintro done s version t rfl h
    obtain ⟨s', inserted, h⟩ := bind_eq_ok.mp h
    obtain rfl := Except.ok.inj h
    rw [insertMeta_ok inserted]
    have keep : ∀ vs : List (Text × Text),
        (vs.map (versionRow c index.repository)).filter
          (fun row => decide (row.1 ≠ .scopeContract c legacy version.1)) =
            vs.map (versionRow c index.repository) := by
      intro vs
      rw [List.filter_eq_self]
      intro row mem
      obtain ⟨v, _, rfl⟩ := List.mem_map.mp mem
      simp [versionRow, different.symm]
    have keepLast := keep [version]
    simp only [List.map_cons, List.map_nil] at keepLast
    simp only [Q, deleteMeta, List.filter_append, List.map_append, List.filter_filter, keep, List.append_assoc]
    refine congrArg (fun rows => { db with historyMeta := rows }) ?_
    refine congrArg₂ (· ++ ·) (List.filter_congr fun row _ => ?_) (congrArg _ keepLast)
    rw [Bool.eq_iff_iff, Bool.and_eq_true, decide_eq_true_iff, decide_eq_true_iff,
      decide_eq_true_iff, List.mem_append, not_or, and_comm]
    simp [versionRow]
  have start : Q [] db := by
    simp [Q]
  have final : Q _ db' := foldlM_invariant step start run
  have rows : (HistoryIndex.scopeVersionsOf db c legacy branches).map (versionRow c legacy) =
      db.historyMeta.filter (isVersionOf c legacy) := scopeVersionsOf_rows recorded
  refine ⟨_, rows, ?_⟩
  rw [final]
  refine congrArg (fun rows => { db with historyMeta := rows }) ?_
  refine congrArg (· ++ _) (List.filter_congr fun row mem => ?_)
  have here : row.1 ∈ (HistoryIndex.scopeVersionsOf db c legacy branches).map
      (fun v => (versionRow c legacy v).1) ↔ isVersionOf c legacy row = true := by
    constructor
    · intro found
      obtain ⟨v, _, eq⟩ := List.mem_map.mp found
      refine isVersionOf_iff.mpr ⟨(v.1, row.2), ?_⟩
      exact Prod.ext eq.symm rfl
    · intro version
      have found : row ∈ db.historyMeta.filter (isVersionOf c legacy) :=
        List.mem_filter.mpr ⟨mem, version⟩
      rw [← rows] at found
      obtain ⟨v, memV, rfl⟩ := List.mem_map.mp found
      exact List.mem_map.mpr ⟨v, memV, rfl⟩
  rw [List.nil_append]
  cases h : isVersionOf c legacy row with
  | true => simpa using here.mpr h
  | false =>
    have absent := mt here.mp (by simp [h])
    simpa using absent

def rekeyVersion (index : HistoryIndex) (c : Contract) (legacy : Text) (row : MetaKey × Text) :
    MetaKey × Text :=
  match row.1 with
  | .scopeContract c' repository branch =>
    if c' = c ∧ repository = legacy then (.scopeContract c index.repository branch, row.2) else row
  | _ => row

theorem rekeyVersion_eq (c : Contract) (legacy : Text) (row : MetaKey × Text) :
    rekeyVersion index c legacy row =
      if isVersionOf c legacy row then rekeyVersion index c legacy row else row := by
  obtain ⟨key, value⟩ := row
  cases key with
  | scopeContract c' repository branch =>
    by_cases h : c' = c ∧ repository = legacy <;> simp [rekeyVersion, isVersionOf, h]
  | _ => rfl

theorem moveScopeVersions_perm {legacy : Text} {c : Contract} (different : legacy ≠ index.repository)
    (recorded : ∀ branch value, (.scopeContract c legacy branch, value) ∈ db.historyMeta → branch ∈ branches)
    (run : index.moveScopeVersions branches legacy db c = .ok db') :
    db'.scopes = db.scopes ∧ db'.deliveries = db.deliveries ∧ db'.derived = db.derived ∧
      db'.historyMeta.Perm (db.historyMeta.map (rekeyVersion index c legacy)) := by
  obtain ⟨versions, rows, rfl⟩ := moveScopeVersions_ok different recorded run
  refine ⟨rfl, rfl, rfl, ?_⟩
  have renamed : versions.map (versionRow c index.repository) =
      (db.historyMeta.filter (isVersionOf c legacy)).map (rekeyVersion index c legacy) := by
    rw [← rows, List.map_map]
    refine List.map_congr_left fun v _ => ?_
    simp [rekeyVersion, versionRow]
  have moved := filter_append_map_perm (isVersionOf c legacy) (rekeyVersion index c legacy)
    db.historyMeta
  rw [← renamed] at moved
  refine moved.trans (List.Perm.of_eq (List.map_congr_left fun row _ => ?_))
  exact (rekeyVersion_eq c legacy row).symm

theorem moveAllVersions_perm {legacy : Text} (different : legacy ≠ index.repository)
    (recorded : ∀ c branch value, (.scopeContract c legacy branch, value) ∈ db.historyMeta → branch ∈ branches)
    (run : contractVersions.foldlM (index.moveScopeVersions branches legacy) db = .ok db') :
    db'.scopes = db.scopes ∧ db'.deliveries = db.deliveries ∧ db'.derived = db.derived ∧ db'.historyMeta.Perm
        (db.historyMeta.map fun row => (index.migratedKey [legacy] row.1, row.2)) := by
  obtain ⟨db₁, first, run⟩ := bind_eq_ok.mp run
  obtain ⟨db₂, second, run⟩ := bind_eq_ok.mp run
  obtain rfl := Except.ok.inj run
  obtain ⟨scopes₁, deliveries₁, derived₁, meta₁⟩ :=
    moveScopeVersions_perm different (recorded _) first
  have recorded₁ : ∀ branch value,
      (.scopeContract .importSchemaVersion legacy branch, value) ∈ db₁.historyMeta →
        branch ∈ branches := by
    intro branch value mem
    obtain ⟨⟨key, value'⟩, before, eq⟩ := List.mem_map.mp (meta₁.mem_iff.mp mem)
    cases key with
    | scopeContract c repository branch' =>
      by_cases h : c = .extractorVersion ∧ repository = legacy
      · simp [rekeyVersion, h] at eq
      · simp only [rekeyVersion, if_neg h, Prod.mk.injEq, MetaKey.scopeContract.injEq] at eq
        obtain ⟨⟨rfl, rfl, rfl⟩, rfl⟩ := eq
        exact recorded _ _ _ before
    | _ => simp [rekeyVersion] at eq
  obtain ⟨scopes₂, deliveries₂, derived₂, meta₂⟩ :=
    moveScopeVersions_perm different recorded₁ second
  refine ⟨scopes₂.trans scopes₁, deliveries₂.trans deliveries₁, derived₂.trans derived₁, ?_⟩
  refine meta₂.trans ((meta₁.map _).trans (List.Perm.of_eq ?_))
  rw [List.map_map]
  refine List.map_congr_left fun row _ => ?_
  obtain ⟨key, value⟩ := row
  cases key with
  | scopeContract c repository branch =>
    by_cases h : repository = legacy
    · cases c <;> simp [rekeyVersion, HistoryIndex.migratedKey, h]
    · cases c <;> simp [rekeyVersion, HistoryIndex.migratedKey, h]
  | _ => rfl

theorem isScopeVersion_migratedKey (key : MetaKey) :
    (index.migratedKey legacy key).isScopeVersion = key.isScopeVersion := by
  cases key with
  | scopeContract c repository branch =>
    simp only [HistoryIndex.migratedKey]
    by_cases h : repository ∈ legacy <;> simp [h, MetaKey.isScopeVersion]
  | _ => rfl

variable {row : DeliveryRow}

theorem migratedRow_of_mem (mem : row.key.repository ∈ legacy) : index.migratedRow legacy row =
      .ofChange (redactChange (index.rekey row.payload)) row.extractedUnder := by
  simp [HistoryIndex.migratedRow, mem]

theorem migratedRow_of_notMem (notMem : row.key.repository ∉ legacy) : index.migratedRow legacy row = row := by
  simp [HistoryIndex.migratedRow, notMem]

theorem migratedScope_eq (row : ScopeRow) : index.migratedScope legacy row =
      { row with repository := index.migratedRepository legacy row.repository } := by
  by_cases h : row.repository ∈ legacy <;>
    simp [HistoryIndex.migratedScope, HistoryIndex.migratedRepository, h]

theorem migratedKey_scopeContract (c : Contract) (repository branch : Text) :
    index.migratedKey legacy (.scopeContract c repository branch) =
      .scopeContract c (index.migratedRepository legacy repository) branch := by
  by_cases h : repository ∈ legacy <;>
    simp [HistoryIndex.migratedKey, HistoryIndex.migratedRepository, h]

theorem migratedRow_key (projected : Projected db) (mem : row ∈ db.deliveries) : (index.migratedRow legacy row).key =
      { row.key with repository := index.migratedRepository legacy row.key.repository } := by
  by_cases h : row.key.repository ∈ legacy
  · rw [migratedRow_of_mem h, projected.key_eq mem] at *
    simp only [HistoryIndex.migratedRepository, h, if_true]
    rfl
  · rw [migratedRow_of_notMem h]
    simp [HistoryIndex.migratedRepository, h]

theorem migratedRow_extractedUnder (row : DeliveryRow) :
    (index.migratedRow legacy row).extractedUnder = row.extractedUnder := by
  unfold HistoryIndex.migratedRow
  split <;> rfl

theorem migrateRepository_moved (projected : Projected db) {legacy : Text} (different : legacy ≠ index.repository)
    (free : ∀ branch, (legacy, branch) ∈ db.storedScopes → (index.repository, branch) ∉ db.storedScopes)
    (recorded : ∀ c branch value, (.scopeContract c legacy branch, value) ∈ db.historyMeta → branch ∈ branches)
    (run : index.migrateRepository branches db legacy = .ok db') : index.Moved [legacy] db db' := by
  obtain ⟨db₁, reinserted, run⟩ := bind_eq_ok.mp run
  obtain ⟨db₂, copied, run⟩ := bind_eq_ok.mp run
  obtain ⟨db₃, renamed, run⟩ := bind_eq_ok.mp run
  obtain rfl := Except.ok.inj run
  let here (row : DeliveryRow) : Bool := row.key.repository = legacy
  have keyOf : ∀ row ∈ db.deliveries.filter here, (index.rekey row.payload).delivery.key =
      { row.key with repository := index.repository } := by
    intro row mem
    rw [projected.key_eq (List.mem_filter.mp mem).1]
    rfl
  have distinct : (((db.deliveries.filter here).map fun row =>
      (index.rekey row.payload, row.extractedUnder)).map fun row => row.1.delivery.key).Nodup := by
    rw [List.map_map]
    refine List.Nodup.map_on ?_ ((projected.unique.of_map _).filter _)
    rintro row₁ mem₁ row₂ mem₂ eq
    have eq : (index.rekey row₁.payload).delivery.key = (index.rekey row₂.payload).delivery.key := eq
    rw [keyOf row₁ mem₁, keyOf row₂ mem₂] at eq
    obtain ⟨mem₁, here₁⟩ := List.mem_filter.mp mem₁
    obtain ⟨mem₂, here₂⟩ := List.mem_filter.mp mem₂
    have same : row₁.key = row₂.key := by
      have here₁ : row₁.key.repository = legacy := of_decide_eq_true here₁
      have here₂ : row₂.key.repository = legacy := of_decide_eq_true here₂
      cases h₁ : row₁.key
      cases h₂ : row₂.key
      simp_all
    have found₁ := projected.row_of_mem mem₁
    rw [same, projected.row_of_mem mem₂] at found₁
    exact (Option.some.inj found₁).symm
  have fresh : ∀ row ∈ (db.deliveries.filter here).map fun row =>
      (index.rekey row.payload, row.extractedUnder), db.row row.1.delivery.key = none := by
    intro row mem
    obtain ⟨row, stored, rfl⟩ := List.mem_map.mp mem
    rw [keyOf row stored]
    obtain ⟨mem, here⟩ := List.mem_filter.mp stored
    cases taken : db.row { row.key with repository := index.repository } with
    | none => rfl
    | some other =>
      have key := key_of_row taken
      refine absurd (mem_storedScopes.mpr (.inr ⟨other, mem_of_row taken, ?_, ?_⟩))
        (free row.key.landingBranch (mem_storedScopes.mpr (.inr ⟨row, mem, of_decide_eq_true here, rfl⟩)))
      · rw [key]
      · rw [key]
  obtain ⟨deliveries₁, scopes₁, meta₁⟩ := insertStored_all_fresh distinct fresh reinserted
  have copied := copyScopes_ok copied
  have recorded₂ : ∀ c branch value,
      (.scopeContract c legacy branch, value) ∈ db₂.historyMeta → branch ∈ branches := by
    rw [copied, meta₁]
    exact recorded
  obtain ⟨scopes₃, deliveries₃, _, meta₃⟩ := moveAllVersions_perm different recorded₂ renamed
  have deliveries₂ : db₃.deliveries = db.deliveries ++
      (db.deliveries.filter here).map (index.migratedRow [legacy]) := by
    rw [deliveries₃, copied, deliveries₁, List.map_map]
    refine congrArg _ (List.map_congr_left fun row mem => ?_)
    have here : row.key.repository = legacy := of_decide_eq_true (List.mem_filter.mp mem).2
    rw [migratedRow_of_mem (by simp [here])]
    rfl
  have scopes₂ : db₃.scopes = db.scopes ++
      (db.scopes.filter fun row => row.repository = legacy).map (index.migratedScope [legacy]) := by
    rw [scopes₃, copied, scopes₁]
    refine congrArg _ (List.map_congr_left fun row mem => ?_)
    have here : row.repository = legacy := of_decide_eq_true (List.mem_filter.mp mem).2
    simp [HistoryIndex.migratedScope, here]
  constructor
  · have moved := moveRows_perm here (index.migratedRow [legacy]) db.deliveries fun row h => by
      have h : row.key.repository = legacy := of_decide_eq_true h
      rw [migratedRow_of_mem (by simp [h])]
      exact decide_eq_false different.symm
    rw [← deliveries₂] at moved
    refine moved.trans (List.Perm.of_eq (List.map_congr_left fun row _ => ?_))
    by_cases h : row.key.repository = legacy
    · simp [here, h]
    · simp [here, h, migratedRow_of_notMem]
  · have moved := moveRows_perm (fun row : ScopeRow => row.repository = legacy)
      (index.migratedScope [legacy]) db.scopes fun row h => by
        have h : row.repository = legacy := of_decide_eq_true h
        simp [HistoryIndex.migratedScope, h, different.symm]
    rw [← scopes₂] at moved
    refine (List.Perm.of_eq ?_).trans (moved.trans (List.Perm.of_eq ?_))
    · simp [HistoryIndex.deleteRepository, deleteDeliveries]
    · refine List.map_congr_left fun row _ => ?_
      by_cases h : row.repository = legacy <;> simp [HistoryIndex.migratedScope, h]
  · have moved := meta₃.filter fun row => row.1.isScopeVersion
    rw [copied, meta₁, List.filter_map] at moved
    refine moved.trans (List.Perm.of_eq (congrArg _ (List.filter_congr fun row _ => ?_)))
    exact isScopeVersion_migratedKey row.1

/-! ### All repositories -/

theorem moved_nil : index.Moved [] db db where
  deliveries := by
    refine List.Perm.of_eq (List.map_id'' (fun row => ?_) _).symm
    exact migratedRow_of_notMem (by simp)
  scopes := by
    refine List.Perm.of_eq (List.map_id'' (fun row => ?_) _).symm
    simp [HistoryIndex.migratedScope]
  versions := by
    refine List.Perm.of_eq (List.map_id'' (fun row => ?_) _).symm
    obtain ⟨key, value⟩ := row
    cases key <;> simp [HistoryIndex.migratedKey]

namespace HistoryIndex.Moved

variable {done : List Text} {legacy : Text} {s t : Database}

theorem snoc (before : index.Moved done db s) (different : legacy ≠ index.repository)
    (moved : index.Moved [legacy] s t) : index.Moved (done ++ [legacy]) db t where
  deliveries := by
    refine moved.deliveries.trans ((before.deliveries.map _).trans (List.Perm.of_eq ?_))
    rw [List.map_map]
    refine List.map_congr_left fun row _ => ?_
    by_cases h : row.key.repository ∈ done
    · have here : row.key.repository ∈ done ++ [legacy] := List.mem_append_left _ h
      have gone : (DeliveryRow.ofChange (redactChange (index.rekey row.payload))
          row.extractedUnder).key.repository ∉ [legacy] :=
        fun mem => different (List.mem_singleton.mp mem).symm
      rw [Function.comp_apply, migratedRow_of_mem h, migratedRow_of_notMem gone, migratedRow_of_mem here]
    · simp [HistoryIndex.migratedRow, h]
  scopes := by
    refine moved.scopes.trans ((before.scopes.map _).trans (List.Perm.of_eq ?_))
    rw [List.map_map]
    refine List.map_congr_left fun row _ => ?_
    by_cases h : row.repository ∈ done
    · simp [HistoryIndex.migratedScope, h, different.symm]
    · simp [HistoryIndex.migratedScope, h]
  versions := by
    refine moved.versions.trans ((before.versions.map _).trans (List.Perm.of_eq ?_))
    rw [List.map_map]
    refine List.map_congr_left fun row _ => ?_
    obtain ⟨key, value⟩ := row
    cases key with
    | scopeContract c repository branch =>
      by_cases h : repository ∈ done
      · simp [HistoryIndex.migratedKey, h, different.symm]
      · simp [HistoryIndex.migratedKey, h]
    | _ => rfl

theorem mem_storedScopes (projected : Projected db) (moved : index.Moved done db s) {repository branch : Text} :
    (repository, branch) ∈ s.storedScopes ↔
      ∃ old, (old, branch) ∈ db.storedScopes ∧ index.migratedRepository done old = repository := by
  have scope : (∃ row ∈ s.scopes, row.repository = repository ∧ row.landingBranch = branch) ↔
      ∃ row ∈ db.scopes, index.migratedRepository done row.repository = repository ∧
        row.landingBranch = branch := by
    simp [moved.scopes.mem_iff, migratedScope_eq]
  have delivery : (∃ row ∈ s.deliveries, row.key.repository = repository ∧ row.key.landingBranch = branch) ↔
      ∃ row ∈ db.deliveries, index.migratedRepository done row.key.repository = repository ∧
        row.key.landingBranch = branch := by
    constructor
    · rintro ⟨row, after, here⟩
      obtain ⟨old, mem, rfl⟩ := List.mem_map.mp (moved.deliveries.mem_iff.mp after)
      rw [migratedRow_key projected mem] at here
      exact ⟨old, mem, here⟩
    · rintro ⟨row, mem, here⟩
      refine ⟨_, moved.deliveries.mem_iff.mpr (List.mem_map_of_mem mem), ?_⟩
      rw [migratedRow_key projected mem]
      exact here
  rw [History.mem_storedScopes, scope, delivery]
  constructor
  · rintro (⟨row, mem, rfl, rfl⟩ | ⟨row, mem, rfl, rfl⟩)
    · exact ⟨_, History.mem_storedScopes.mpr (.inl ⟨row, mem, rfl, rfl⟩), rfl⟩
    · exact ⟨_, History.mem_storedScopes.mpr (.inr ⟨row, mem, rfl, rfl⟩), rfl⟩
  · rintro ⟨old, stored, rfl⟩
    rcases History.mem_storedScopes.mp stored with ⟨row, mem, rfl, rfl⟩ | ⟨row, mem, rfl, rfl⟩
    · exact .inl ⟨row, mem, rfl, rfl⟩
    · exact .inr ⟨row, mem, rfl, rfl⟩

theorem mem_scopeVersions (moved : index.Moved done db s) {c : Contract}
    {repository branch value : Text} (mem : (.scopeContract c repository branch, value) ∈ s.scopeVersions) :
    ∃ old, (.scopeContract c old branch, value) ∈ db.scopeVersions ∧
      index.migratedRepository done old = repository := by
  obtain ⟨⟨key, value'⟩, before, eq⟩ := List.mem_map.mp (moved.versions.mem_iff.mp mem)
  obtain ⟨renamed, rfl⟩ := Prod.mk.inj eq
  cases key with
  | scopeContract c' old branch' =>
    rw [migratedKey_scopeContract] at renamed
    obtain ⟨rfl, here, rfl⟩ := MetaKey.scopeContract.inj renamed
    exact ⟨old, before, here⟩
  | _ => cases renamed

theorem versionsStored (projected : Projected db) (moved : index.Moved done db s)
    (stored : VersionsStored db) : VersionsStored s := by
  intro c repository branch value mem
  obtain ⟨old, mem, here⟩ := moved.mem_scopeVersions mem
  exact (moved.mem_storedScopes projected).mpr ⟨old, stored _ _ _ _ mem, here⟩

end HistoryIndex.Moved

/-- What a committed migration has done. -/
theorem migrateScopes_moved (projected : Projected db) (stored : VersionsStored db) {u : Unit}
    (run : index.migrateScopes db = .ok (u, db')) : ¬index.Collides (index.credentialedRepositories db) db ∧
      index.Moved (index.credentialedRepositories db) db db' := by
  obtain ⟨branches, claimed, run⟩ := bind_eq_ok.mp run
  obtain ⟨db₁, migrated, run⟩ := bind_eq_ok.mp run
  obtain ⟨_, rfl⟩ := Prod.mk.inj (Except.ok.inj run)
  generalize hlegacy : index.credentialedRepositories db = legacy at claimed migrated ⊢
  have distinct : legacy.Nodup := hlegacy ▸ (List.nodup_dedup _).filter _
  have different : ∀ r ∈ legacy, r ≠ index.repository := by
    rintro r mem
    rw [← hlegacy] at mem
    have := (List.mem_filter.mp mem).2
    simp only [Bool.and_eq_true, decide_eq_true_eq] at this
    exact this.1
  have apart := (migratedBranches_isOk distinct).mp ⟨branches, claimed⟩
  have claimedAll : ∀ r ∈ legacy, ∀ branch, (r, branch) ∈ db.storedScopes → branch ∈ branches := by
    intro r mem branch stored
    rw [(migratedBranches_ok.mp claimed).1]
    exact List.mem_flatMap.mpr ⟨r, mem, mem_branchesOf.mpr stored⟩
  refine ⟨apart, ?_⟩
  have loop : index.Moved legacy db db₁ ∧ Projected db₁ := by
    refine foldlM_split (P := fun done s => index.Moved done db s ∧ Projected s)
      (fun done r rest s t split h run => ?_) ⟨moved_nil, projected⟩ migrated
    obtain ⟨moved, projectedS⟩ := h
    have mem : r ∈ legacy := by simp [split]
    have notDone : r ∉ done := by
      rw [split] at distinct
      intro again
      exact (List.nodup_append.mp distinct).2.2 r again r List.mem_cons_self rfl
    -- What is stored under `r` is what was stored under it at the start.
    have unmoved : ∀ old, index.migratedRepository done old = r → old = r := by
      intro old eq
      by_cases h : old ∈ done
      · rw [HistoryIndex.migratedRepository, if_pos h] at eq
        exact absurd eq.symm (different r mem)
      · rwa [HistoryIndex.migratedRepository, if_neg h] at eq
    have free : ∀ branch, (r, branch) ∈ s.storedScopes →
        (index.repository, branch) ∉ s.storedScopes := by
      intro branch hr taken
      obtain ⟨old, before, eq⟩ := (moved.mem_storedScopes projected).mp hr
      obtain rfl := unmoved old eq
      obtain ⟨other, beforeOther, eq⟩ := (moved.mem_storedScopes projected).mp taken
      by_cases h : other ∈ done
      · have memOther : other ∈ legacy := by simp [split, h]
        refine apart ⟨old, mem, branch, before, .inr ⟨other, memOther, ?_, beforeOther⟩⟩
        rintro rfl
        exact notDone h
      · rw [HistoryIndex.migratedRepository, if_neg h] at eq
        exact apart ⟨old, mem, branch, before, .inl (eq ▸ beforeOther)⟩
    have recorded : ∀ c branch value, (.scopeContract c r branch, value) ∈ s.historyMeta →
        branch ∈ branches := by
      intro c branch value hr
      obtain ⟨old, before, eq⟩ := moved.mem_scopeVersions (mem_scopeVersions.mpr hr)
      obtain rfl := unmoved old eq
      exact claimedAll old mem branch (stored _ _ _ _ before)
    have next := migrateRepository_moved projectedS (different r mem) free recorded run
    exact ⟨moved.snoc (different r mem) next, projectedS.migrateRepository run⟩
  exact
    { deliveries := loop.1.deliveries
      scopes := loop.1.scopes
      versions := (List.Perm.of_eq (scopeVersions_putMeta rfl)).trans loop.1.versions }

end OrbitGraph.History
