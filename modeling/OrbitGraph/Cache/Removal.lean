import OrbitGraph.Cache.Entries

/-!
The loop over the candidates of a clean.

No two candidates are at one path, so a lock says the same of a candidate before and after
the others are removed: a plan, which only asks for the locks, and an apply, which takes
them and removes, come to the same.
-/

namespace OrbitGraph.Cache.Retention

open Lib

variable {env : Surroundings} {cache cache' : CacheDir} {path : Path} {file : LockFile}

/-! ### Locks -/

/-- What the lock of a candidate makes of it. -/
inductive LockVerdict where
  | removed
  | busy
  | refused (reason : Text)

/-- A lock that is not there is held by no one, and one that is not ours is not followed. -/
def lockVerdict (euid : Nat) : StateFile LockState → LockVerdict
  | .missing _ => .removed
  | .orphaned => .removed
  | .unreachable => .busy
  | .symlink => .refused symlinkRefused
  | .directory _ => .refused notRegular
  | .file stat _ _ lock =>
    if stat.uid = euid then (if lock = .held then .busy else .removed)
    else .refused (otherOwner stat.uid euid)

def Agrees (path : Path) (file : LockFile) (verdict : LockVerdict) : Except CacheError Bool → Prop
  | .ok true => verdict = .busy
  | .ok false => verdict = .removed
  | .error (.unsafeStatePath at' reason) => at' = CacheDir.within path (lockFileName file) ∧ verdict = .refused reason
  | .error _ => True

theorem lockIsHeld_agrees (node : StateFile LockState) :
    Agrees path file (lockVerdict env.euid node) (lockIsHeld env path file node) := by
  cases node with
  | missing _ => rfl
  | orphaned => rfl
  | unreachable => trivial
  | symlink => exact ⟨rfl, rfl⟩
  | directory readable =>
    cases readable with
    | false => trivial
    | true => exact ⟨rfl, rfl⟩
  | file stat readable writable lock =>
    cases readable with
    | false => trivial
    | true =>
      by_cases owned : stat.uid = env.euid
      · simp only [lockIsHeld, openToRead, checkOwner, lockVerdict, if_pos owned]
        cases lock with
        | free => rfl
        | held => rfl
        | failing => trivial
      · simp only [lockIsHeld, openToRead, checkOwner, lockVerdict, if_neg owned]
        exact ⟨rfl, rfl⟩

theorem openLock_agrees {node : StateFile LockState} :
    match openLock env path file node with
    | .ok none => node = .orphaned
    | .ok (some (.free, _)) => lockVerdict env.euid node = .removed
    | .ok (some (.held, _)) => lockVerdict env.euid node = .busy
    | .ok (some (.failing, _)) => True
    | .error e => Agrees path file (lockVerdict env.euid node) (.error e) := by
  cases node with
  | missing creatable =>
    cases creatable with
    | false => trivial
    | true => rfl
  | orphaned => rfl
  | unreachable => trivial
  | symlink => exact ⟨rfl, rfl⟩
  | directory _ => trivial
  | file stat readable writable lock =>
    cases usable : readable && writable with
    | false => simp only [openLock, openToWrite, usable]; trivial
    | true =>
      by_cases owned : stat.uid = env.euid
      · simp only [openLock, openToWrite, usable, checkOwner, lockVerdict, if_pos owned]
        cases lock with
        | free => rfl
        | held => rfl
        | failing => trivial
      · simp only [openLock, openToWrite, usable, checkOwner, lockVerdict, if_neg owned]
        exact ⟨rfl, rfl⟩

namespace CacheDir

def paths (cache : CacheDir) : List Path := cache.entries.map fun e => cache.join e.name

theorem join_injective {a b : List UInt8} (same : cache.join a = cache.join b) : a = b := by
  simpa [join] using same

theorem entries_names_nodup (cache : CacheDir) : (cache.entries.map DirEntry.name).Nodup := by
  unfold entries
  cases listed : cache.listing with
  | none => exact List.nodup_nil
  | some entries => exact cache.distinct entries listed

theorem paths_nodup (cache : CacheDir) : cache.paths.Nodup := by
  have names := cache.entries_names_nodup.map fun a b => @join_injective cache a b
  rwa [List.map_map] at names

theorem eq_of_join_eq {e f : DirEntry} (left : e ∈ cache.entries) (right : f ∈ cache.entries)
    (same : cache.join e.name = cache.join f.name) : e = f :=
  List.inj_on_of_nodup_map cache.paths_nodup left right same

theorem lockAt_of_mem {e : DirEntry} (mem : e ∈ cache.entries) :
    cache.lockAt (cache.join e.name) file = e.lock file := by
  unfold lockAt
  cases found : cache.entries.find? fun f => cache.join f.name = cache.join e.name with
  | none => simpa using List.find?_eq_none.mp found e mem
  | some f =>
    have same := List.find?_some found
    rw [decide_eq_true_eq] at same
    rw [eq_of_join_eq (List.mem_of_find?_eq_some found) mem same]

theorem lockAt_of_not_mem (absent : path ∉ cache.paths) : cache.lockAt path file = .orphaned := by
  unfold lockAt
  cases found : cache.entries.find? fun e => cache.join e.name = path with
  | none => rfl
  | some e =>
    have same := List.find?_some found
    rw [decide_eq_true_eq] at same
    exact absurd (List.mem_map.mpr ⟨e, List.mem_of_find?_eq_some found, same⟩) absent

theorem entries_setLock (node : StateFile LockState) : (cache.setLock path file node).entries =
    cache.entries.map fun e => if cache.join e.name = path then e.setLock file node else e := by
  change (Option.map _ cache.listing).getD [] = List.map _ (cache.listing.getD [])
  cases cache.listing <;> rfl

theorem entries_remove : (cache.remove path).entries = cache.entries.filter fun e => cache.join e.name ≠ path := by
  change (Option.map _ cache.listing).getD [] = List.filter _ (cache.listing.getD [])
  cases cache.listing <;> rfl

theorem name_setLock (e : DirEntry) (node : StateFile LockState) : (e.setLock file node).name = e.name := by
  cases file <;> rfl

theorem paths_setLock (node : StateFile LockState) : (cache.setLock path file node).paths = cache.paths := by
  unfold paths
  rw [entries_setLock, List.map_map]
  apply List.map_congr_left
  intro e _
  dsimp only [Function.comp]
  split
  · exact congrArg cache.join (name_setLock e node)
  · rfl

theorem paths_remove : (cache.remove path).paths = cache.paths.filter (· ≠ path) := by
  unfold paths
  rw [entries_remove, List.filter_map]
  rfl

theorem lockAt_setLock {other : Path} (apart : other ≠ path) (node : StateFile LockState) (of : LockFile) :
    (cache.setLock path file node).lockAt other of = cache.lockAt other of := by
  by_cases listed : other ∈ cache.paths
  · obtain ⟨e, mem, rfl⟩ := List.mem_map.mp listed
    have still : e ∈ (cache.setLock path file node).entries := by
      rw [entries_setLock]
      exact List.mem_map.mpr ⟨e, mem, if_neg apart⟩
    rw [lockAt_of_mem mem]
    exact lockAt_of_mem still
  · rw [lockAt_of_not_mem listed, lockAt_of_not_mem (by rwa [paths_setLock])]

theorem lockAt_remove {other : Path} (apart : other ≠ path) (of : LockFile) :
    (cache.remove path).lockAt other of = cache.lockAt other of := by
  by_cases listed : other ∈ cache.paths
  · obtain ⟨e, mem, rfl⟩ := List.mem_map.mp listed
    have still : e ∈ (cache.remove path).entries := by
      rw [entries_remove]
      exact List.mem_filter.mpr ⟨mem, decide_eq_true apart⟩
    rw [lockAt_of_mem mem]
    exact lockAt_of_mem still
  · have gone : other ∉ (cache.remove path).paths := by
      rw [paths_remove]
      exact fun mem => listed (List.mem_of_mem_filter mem)
    rw [lockAt_of_not_mem listed, lockAt_of_not_mem gone]

end CacheDir

/-- What one candidate may do to the directory: only its own removal takes a path away. -/
structure Touches (mode : Mode) (path : Path) (outcome : Except CacheError Bool) (cache cache' : CacheDir) :
    Prop where
  locks : ∀ other, other ≠ path → ∀ of, cache'.lockAt other of = cache.lockAt other of
  removed : mode = .apply → outcome = .ok false → cache'.paths = cache.paths.filter (· ≠ path)
  left : outcome ≠ .ok false → cache'.paths = cache.paths
  plan : mode = .plan → cache' = cache

namespace Touches

variable {outcome : Except CacheError Bool}

theorem refl {mode : Mode} (kept : mode = .apply → outcome ≠ .ok false) : Touches mode path outcome cache cache where
  locks _ _ _ := rfl
  removed apply same := absurd same (kept apply)
  left _ := rfl
  plan _ := rfl

theorem setLock (node : StateFile LockState) (kept : outcome ≠ .ok false) :
    Touches .apply path outcome cache (cache.setLock path file node) where
  locks _ apart of := CacheDir.lockAt_setLock apart node of
  removed _ same := absurd same kept
  left _ := CacheDir.paths_setLock node
  plan same := by cases same

theorem remove : Touches .apply path (.ok false) cache (cache.remove path) where
  locks _ apart of := CacheDir.lockAt_remove apart of
  removed _ _ := CacheDir.paths_remove
  left other := absurd rfl other
  plan same := by cases same

theorem setLock_remove (node : StateFile LockState) :
    Touches .apply path (.ok false) cache ((cache.setLock path file node).remove path) where
  locks _ apart of := by rw [CacheDir.lockAt_remove apart, CacheDir.lockAt_setLock apart]
  removed _ _ := by rw [CacheDir.paths_remove, CacheDir.paths_setLock]
  left other := absurd rfl other
  plan same := by cases same

end Touches

theorem removeDirAllWithin_cases {outcome : Except CacheError Unit}
    (run : removeDirAllWithin path cache = (outcome, cache')) :
    (outcome = .ok () ∧ cache' = cache.remove path) ∨
      (outcome = .error (.io "remove snapshot cache entry" path) ∧ cache' = cache) := by
  unfold removeDirAllWithin at run
  split at run
  · split at run
    · obtain ⟨rfl, rfl⟩ := Prod.mk.inj run
      exact .inl ⟨rfl, rfl⟩
    · obtain ⟨rfl, rfl⟩ := Prod.mk.inj run
      exact .inr ⟨rfl, rfl⟩
  · obtain ⟨rfl, rfl⟩ := Prod.mk.inj run
    exact .inr ⟨rfl, rfl⟩

variable {mode : Mode}

/-- A candidate is busy as its lock says, and a plan changes nothing. -/
theorem isBusy_spec {outcome : Except CacheError Bool} (run : isBusy env mode path file cache = (outcome, cache')) :
    Agrees path file (lockVerdict env.euid (cache.lockAt path file)) outcome ∧ Touches mode path outcome cache cache' := by
  cases mode with
  | plan =>
    obtain ⟨rfl, rfl⟩ := Prod.mk.inj run
    exact ⟨lockIsHeld_agrees _, .refl nofun⟩
  | apply =>
    have agrees := @openLock_agrees env path file (cache.lockAt path file)
    unfold isBusy removeIfUnlocked at run
    cases opened : openLock env path file (cache.lockAt path file) with
    | error e =>
      rw [opened] at run agrees
      obtain ⟨rfl, rfl⟩ := Prod.mk.inj run
      exact ⟨agrees, .refl nofun⟩
    | ok found =>
      rw [opened] at run agrees
      cases found with
      | none =>
        obtain ⟨rfl, rfl⟩ := Prod.mk.inj run
        have orphaned : cache.lockAt path file = .orphaned := agrees
        refine ⟨?_, .remove⟩
        rw [orphaned]
        rfl
      | some pair =>
        obtain ⟨lock, node⟩ := pair
        cases lock with
        | held =>
          obtain ⟨rfl, rfl⟩ := Prod.mk.inj run
          exact ⟨agrees, .setLock node nofun⟩
        | failing =>
          obtain ⟨rfl, rfl⟩ := Prod.mk.inj run
          exact ⟨trivial, .setLock node nofun⟩
        | free =>
          dsimp only at run
          cases removal : removeDirAllWithin path (cache.setLock path file node) with
          | mk answer after =>
            rw [removal] at run
            rcases removeDirAllWithin_cases removal with ⟨rfl, rfl⟩ | ⟨rfl, rfl⟩
            · obtain ⟨rfl, rfl⟩ := Prod.mk.inj run
              exact ⟨agrees, .setLock_remove node⟩
            · obtain ⟨rfl, rfl⟩ := Prod.mk.inj run
              exact ⟨trivial, .setLock node nofun⟩

/-! ### The candidates -/

def deletedOf (euid : Nat) (cache : CacheDir) (candidate : Candidate) : Option CleanedEntry :=
  match lockVerdict euid (cache.lockAt candidate.1.path candidate.2) with
  | .removed => some candidate.1
  | _ => none

def sparedOf (euid : Nat) (cache : CacheDir) (candidate : Candidate) : Option CleanedEntry :=
  match lockVerdict euid (cache.lockAt candidate.1.path candidate.2) with
  | .removed => none
  | .busy => some { candidate.1 with reason := busyReason candidate.2 }
  | .refused reason =>
    some { candidate.1 with
      reason := .untrusted
      detail := some (CacheError.refusal (CacheDir.within candidate.1.path (lockFileName candidate.2)) reason) }

def CleanReport.after (euid : Nat) (cache : CacheDir) (report : CleanReport) (candidate : Candidate) : CleanReport :=
  { report with
    wouldDelete := report.wouldDelete ++ (deletedOf euid cache candidate).toList
    kept := report.kept ++ (sparedOf euid cache candidate).toList }

variable {report r : CleanReport}

variable {rest : List Candidate} {candidate : Candidate}

/-- One round of the loop over the candidates. -/
theorem settle_cons (run : settle env mode (candidate :: rest) report cache = (.ok r, cache')) : ∃ outcome between,
      isBusy env mode candidate.1.path candidate.2 cache = (outcome, between) ∧
        settle env mode rest (report.after env.euid cache candidate) between = (.ok r, cache') ∧
          (outcome = .ok false ↔ deletedOf env.euid cache candidate = some candidate.1) := by
  obtain ⟨entry, file⟩ := candidate
  unfold settle at run
  cases busy : isBusy env mode entry.path file cache with
  | mk outcome between =>
    have agrees := (isBusy_spec busy).1
    rw [busy] at run
    refine ⟨outcome, between, rfl, ?_⟩
    cases outcome with
    | error e =>
      cases e with
      | io operation path | metadata operation path => cases (Prod.mk.inj run).1
      | unsafeStatePath path reason =>
        obtain ⟨rfl, refused⟩ := agrees
        simp only [CleanReport.after, deletedOf, sparedOf, refused]
        exact ⟨by simpa using run, by simp⟩
    | ok held =>
      cases held with
      | true =>
        have verdict : lockVerdict env.euid (cache.lockAt entry.path file) = .busy := agrees
        simp only [CleanReport.after, deletedOf, sparedOf, verdict]
        exact ⟨by simpa using run, by simp⟩
      | false =>
        have verdict : lockVerdict env.euid (cache.lockAt entry.path file) = .removed := agrees
        simp only [CleanReport.after, deletedOf, sparedOf, verdict]
        exact ⟨by simpa using run, by simp⟩

variable {candidates : List Candidate}

/-- The whole loop: each candidate by its lock in the directory the loop began with. -/
theorem settle_spec (distinct : (candidates.map fun c => c.1.path).Nodup)
    (run : settle env mode candidates report cache = (.ok r, cache')) : r = { report with
        wouldDelete := report.wouldDelete ++ candidates.filterMap (deletedOf env.euid cache)
        kept := report.kept ++ candidates.filterMap (sparedOf env.euid cache) } ∧
      (mode = .plan → cache' = cache) ∧
        (mode = .apply → cache'.paths =
          cache.paths.filter fun p => p ∉ (candidates.filterMap (deletedOf env.euid cache)).map CleanedEntry.path) := by
  induction candidates generalizing report cache with
  | nil =>
    obtain ⟨same, rfl⟩ := Prod.mk.inj run
    obtain rfl := Except.ok.inj same
    exact ⟨by simp, fun _ => rfl, fun _ => by simp⟩
  | cons candidate rest ih =>
    obtain ⟨outcome, between, busy, run, deleted⟩ := settle_cons run
    obtain ⟨agrees, touches⟩ := isBusy_spec busy
    rw [List.map_cons, List.nodup_cons] at distinct
    obtain ⟨rfl, plan, apply⟩ := ih distinct.2 run
    have elsewhere : ∀ c ∈ rest, between.lockAt c.1.path c.2 = cache.lockAt c.1.path c.2 := by
      intro c mem
      refine touches.locks _ (fun same => distinct.1 ?_) _
      exact List.mem_map.mpr ⟨c, mem, same⟩
    have deletes : rest.filterMap (deletedOf env.euid between) = rest.filterMap (deletedOf env.euid cache) :=
      List.filterMap_congr fun c mem => by unfold deletedOf; rw [elsewhere c mem]
    have spares : rest.filterMap (sparedOf env.euid between) = rest.filterMap (sparedOf env.euid cache) :=
      List.filterMap_congr fun c mem => by unfold sparedOf; rw [elsewhere c mem]
    rw [deletes] at apply
    refine ⟨?_, fun same => (plan same).trans (touches.plan same), fun same => ?_⟩
    · rw [deletes, spares, filterMap_cons_toList (deletedOf env.euid cache),
        filterMap_cons_toList (sparedOf env.euid cache), ← List.append_assoc, ← List.append_assoc]
      rfl
    · rw [apply same, filterMap_cons_toList]
      cases gone : deletedOf env.euid cache candidate with
      | none =>
        have kept : outcome ≠ .ok false := by
          intro free
          rw [deleted.mp free] at gone
          cases gone
        rw [touches.left kept, Option.toList_none, List.nil_append]
      | some entry =>
        have removed : deletedOf env.euid cache candidate = some candidate.1 := by
          unfold deletedOf at gone ⊢
          cases verdict : lockVerdict env.euid (cache.lockAt candidate.1.path candidate.2) with
          | removed => rfl
          | busy | refused _ => simp [verdict] at gone
        obtain rfl := Option.mem_unique gone removed
        rw [touches.removed same (deleted.mpr removed), List.filter_filter]
        apply List.filter_congr
        intro p _
        rw [Option.toList_some, List.singleton_append, List.map_cons, Bool.eq_iff_iff]
        simp [and_comm]

theorem settled_perm (euid : Nat) (cache : CacheDir) (candidates : List Candidate) :
    ((candidates.filterMap (deletedOf euid cache)).map CleanedEntry.path ++
      (candidates.filterMap (sparedOf euid cache)).map CleanedEntry.path).Perm
        (candidates.map fun c => c.1.path) := by
  rw [List.map_filterMap, List.map_filterMap, ← List.filterMap_eq_map]
  refine filterMap_append_perm (fun c => ?_) candidates
  unfold deletedOf sparedOf
  cases lockVerdict euid (cache.lockAt c.1.path c.2) with
  | removed | busy | refused _ => exact .refl _

/-! ### Plans -/

/-- A lock that an apply answers about, a plan answers about. -/
def Answers : Except CacheError Bool → Prop
  | .ok _ => True
  | .error (.unsafeStatePath _ _) => True
  | .error _ => False

theorem plan_answers {outcome : Except CacheError Bool}
    (run : isBusy env .apply path file cache = (outcome, cache')) (answers : Answers outcome) :
    Answers (lockIsHeld env path file (cache.lockAt path file)) := by
  unfold isBusy removeIfUnlocked at run
  cases node : cache.lockAt path file with
  | missing _ | orphaned | symlink => trivial
  | unreachable =>
    rw [node] at run
    obtain ⟨rfl, rfl⟩ := Prod.mk.inj run
    exact answers
  | directory _ =>
    rw [node] at run
    obtain ⟨rfl, rfl⟩ := Prod.mk.inj run
    cases answers
  | file stat readable writable lock =>
    rw [node] at run
    cases readable with
    | false =>
      obtain ⟨rfl, rfl⟩ := Prod.mk.inj run
      cases answers
    | true =>
      by_cases owned : stat.uid = env.euid
      · cases lock with
        | free | held => simp [lockIsHeld, openToRead, checkOwner, owned, Answers, bind, Except.bind, pure, Except.pure]
        | failing =>
          cases writable with
          | false =>
            obtain ⟨rfl, rfl⟩ := Prod.mk.inj run
            cases answers
          | true =>
            simp only [openLock, openToWrite, checkOwner, if_pos owned] at run
            obtain ⟨rfl, rfl⟩ := Prod.mk.inj run
            cases answers
      · simp [lockIsHeld, openToRead, checkOwner, owned, Answers, bind, Except.bind]

theorem settle_answers (run : settle env mode (candidate :: rest) report cache = (.ok r, cache')) :
    ∃ outcome between, isBusy env mode candidate.1.path candidate.2 cache = (outcome, between) ∧ Answers outcome := by
  obtain ⟨entry, file⟩ := candidate
  unfold settle at run
  cases busy : isBusy env mode entry.path file cache with
  | mk outcome between =>
    refine ⟨outcome, between, rfl, ?_⟩
    rw [busy] at run
    cases outcome with
    | ok _ => trivial
    | error e =>
      cases e with
      | io _ _ | metadata _ _ => cases (Prod.mk.inj run).1
      | unsafeStatePath _ _ => trivial

theorem settle_plan (report : CleanReport)
    (answers : ∀ c ∈ candidates, Answers (lockIsHeld env c.1.path c.2 (cache.lockAt c.1.path c.2))) :
    ∃ r, settle env .plan candidates report cache = (.ok r, cache) := by
  induction candidates generalizing report with
  | nil => exact ⟨report, rfl⟩
  | cons candidate rest ih =>
    obtain ⟨entry, file⟩ := candidate
    have first := answers _ List.mem_cons_self
    have others := fun report => ih report fun c mem => answers c (List.mem_cons_of_mem _ mem)
    unfold settle
    dsimp only [isBusy]
    cases busy : lockIsHeld env entry.path file (cache.lockAt entry.path file) with
    | ok held =>
      cases held with
      | true | false => exact others _
    | error e =>
      rw [busy] at first
      cases e with
      | io _ _ => cases first
      | metadata _ _ => cases first
      | unsafeStatePath _ _ => exact others _

theorem answers_of_apply (distinct : (candidates.map fun c => c.1.path).Nodup)
    (run : settle env .apply candidates report cache = (.ok r, cache')) :
    ∀ c ∈ candidates, Answers (lockIsHeld env c.1.path c.2 (cache.lockAt c.1.path c.2)) := by
  induction candidates generalizing report cache with
  | nil => exact nofun
  | cons candidate rest ih =>
    obtain ⟨outcome, between, busy, later, _⟩ := settle_cons run
    obtain ⟨outcome', between', busy', answers⟩ := settle_answers run
    obtain ⟨rfl, rfl⟩ := Prod.mk.inj (busy.symm.trans busy')
    rw [List.map_cons, List.nodup_cons] at distinct
    intro c mem
    rcases List.mem_cons.mp mem with rfl | mem
    · exact plan_answers busy answers
    · have elsewhere : c.1.path ≠ candidate.1.path := fun same =>
        distinct.1 (List.mem_map.mpr ⟨c, mem, same⟩)
      rw [← (isBusy_spec busy).2.locks _ elsewhere]
      exact ih distinct.2 later c mem

end OrbitGraph.Cache.Retention
