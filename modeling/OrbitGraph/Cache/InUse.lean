import OrbitGraph.Cache.Model
import OrbitGraph.Lib.Lists

/-!
Whether the cache removes what is in use.

The lock that a process holds is on a file; the directory it removes is looked up by
its path. Nothing in use is removed as long as the two belong together: a removal
begins in the directory whose lock file its process has locked, and a lookup or a
build goes on with a locked file that is in its directory, while nobody removes that.
The code checks neither, and a removal that comes late takes an entry in use.
-/

namespace OrbitGraph.Cache

open Lib

namespace Pc

/-- The directory that a process is removing. -/
def removes : Pc → Option DirId
  | .removing _ dir _ => some dir
  | _ => none

/-- An entry that a lookup has found under its lock, or that is open. -/
def pins : Pc → Option (Text × Inode)
  | .verify c _ i _ => some (c, i)
  | .touch c _ i => some (c, i)
  | .holding c _ i => some (c, i)
  | _ => none

/-- The staging directory of a builder that has its lock, with its lock files. -/
def builds : Pc → Option (DirId × Inode × Option Inode)
  | .createInUse _ dir i => some (dir, i, none)
  | .lockStaged staged => some (staged.dir, staged.building, some staged.inUse)
  | .building staged _ => some (staged.dir, staged.building, some staged.inUse)
  | .publishing staged _ => some (staged.dir, staged.building, some staged.inUse)
  | .checkDestination staged => some (staged.dir, staged.building, some staged.inUse)
  | .renaming staged => some (staged.dir, staged.building, some staged.inUse)
  | _ => none

/-- A removal that is about to begin, with the lock that its process holds. -/
def begins : Pc → Option (Name × Inode)
  | .beginRemove name i => some (name, i)
  | _ => none

/-- A lookup that has its lock and is about to look for `entry.json` again. -/
def rechecks : Pc → Option (Name × Inode)
  | .recheck c _ i => some (.entry c, i)
  | _ => none

def locksBuilding : Pc → Option (Name × Inode)
  | .lockBuilding _ dir i => some (.staging dir, i)
  | _ => none

/-- The staging directory that a process has made. -/
def owns : Pc → Option DirId
  | .createBuilding _ dir => some dir
  | .lockBuilding _ dir _ => some dir
  | .dropping dir _ => some dir
  | pc => pc.builds.map Prod.fst

theorem pins_locked {pc : Pc} {c : Text} {i : Inode} (pins : pc.pins = some (c, i)) :
    ⟨i, .shared⟩ ∈ pc.locks ∧ pc.removes = none := by
  unfold Pc.pins at pins
  split at pins <;> simp_all [locks, removes]

theorem builds_locked {pc : Pc} {dir : DirId} {i : Inode} {j : Option Inode} (builds : pc.builds = some (dir, i, j)) :
    ⟨i, .exclusive⟩ ∈ pc.locks ∧ pc.removes = none ∧ pc.owns = some dir := by
  refine ⟨?_, ?_, ?_⟩
  · unfold Pc.builds at builds
    split at builds <;> simp_all [locks, StagedEntry.locks]
  · unfold Pc.builds at builds
    split at builds <;> simp_all [removes]
  · unfold owns
    split
    next => cases builds
    next => cases builds
    next => cases builds
    next => simp [builds]

end Pc

-- The case principle of `act`, made once for the lemmas below and those of the later modules.
attribute [elab_as_elim] act.fun_cases_unfolding

section Act

variable {paths : Text → List Text} {ours : Key} {granted : Lock → Bool} {fs : Fs} {pc pc' : Pc} {a : Action}
  {e : Effect}

/-! ### What a step can do -/

theorem act_locks (run : act paths ours granted fs pc a = some (e, pc')) :
    ∀ lock ∈ pc'.locks, lock ∈ pc.locks ∨ granted lock = true := by
  revert run
  fun_cases act paths ours granted fs pc a <;> intro run <;>
    grind [Pc.locks, StagedEntry.locks, openLock, createLocked, openDir, dropStaged, writeStaged]

variable {dir : DirId}

/-- A removal goes on, or begins in the directory at a path whose lock the process holds, or in its
own staging directory. -/
theorem act_removes (run : act paths ours granted fs pc a = some (e, pc')) (removes : pc'.removes = some dir) :
    pc.removes = some dir ∨ (∃ name i, pc = .beginRemove name i ∧ a = .next ∧ fs.names name = some dir) ∨
      ∃ id, pc.owns = some id ∧ fs.names (.staging id) = some dir := by
  revert run
  fun_cases act paths ours granted fs pc a <;> intro run <;>
    grind [Pc.removes, Pc.owns, openLock, createLocked, openDir, dropStaged, writeStaged]

theorem act_unlink {item : Item} (run : act paths ours granted fs pc a = some (.unlink dir item, pc')) :
    pc.removes = some dir := by
  revert run
  fun_cases act paths ours granted fs pc a <;> intro run <;>
    grind [Pc.removes, openLock, createLocked, openDir, dropStaged, writeStaged]

theorem act_rmdir {name : Name} (run : act paths ours granted fs pc a = some (.rmdir name, pc'))
    (named : fs.names name = some dir) : fs.items dir = [] := by
  revert run
  fun_cases act paths ours granted fs pc a <;> intro run <;>
    grind [openLock, createLocked, openDir, dropStaged, writeStaged]

theorem act_rename {id : DirId} {c : Text} (run : act paths ours granted fs pc a = some (.rename id c, pc')) :
    ∃ staged, pc = .renaming staged ∧ id = staged.dir ∧ c = staged.commitSha ∧
      pc' = .holding c ⟨c, ours⟩ staged.inUse ∧ ∀ dir, fs.names (.entry c) = some dir → fs.items dir = [] := by
  revert run
  fun_cases act paths ours granted fs pc a <;> intro run <;>
    grind [openLock, createLocked, openDir, dropStaged, writeStaged]

theorem act_pins (run : act paths ours granted fs pc a = some (e, pc')) {c : Text} {i : Inode}
    (pins : pc'.pins = some (c, i)) : pc.pins = some (c, i) ∨
      (∃ metadata, pc = .recheck c metadata i ∧ a = .next ∧ e = .none ∧ (fs.metadataAt (.entry c)).isSome = true) ∨
      ∃ staged, pc = .renaming staged ∧ c = staged.commitSha ∧ i = staged.inUse ∧
        (fs.names (.staging staged.dir)).isSome = true ∧ e = .rename staged.dir c := by
  revert run
  fun_cases act paths ours granted fs pc a <;> intro run <;>
    grind [Pc.pins, openLock, createLocked, openDir, dropStaged, writeStaged]

/-- A builder keeps its claim, or takes the builder lock, or adds the in-use lock. -/
theorem act_builds (run : act paths ours granted fs pc a = some (e, pc')) {i : Inode}
    {j : Option Inode} (builds : pc'.builds = some (dir, i, j)) : pc.builds = some (dir, i, j) ∨
      (∃ c, pc = .lockBuilding c dir i ∧ a = .next ∧ j = none ∧ e = .none ∧ granted ⟨i, .exclusive⟩ = true) ∨
      (pc.builds = some (dir, i, none) ∧ j = some fs.nextInode ∧ e = .createLock (.staging dir) .inUse ∧
        ∀ found, fs.names (.staging dir) = some found → fs.lockIn found .inUse = none) := by
  revert run
  fun_cases act paths ours granted fs pc a <;> intro run <;>
    grind [Pc.builds, openLock, createLocked, openDir, dropStaged, writeStaged]

theorem act_owns (run : act paths ours granted fs pc a = some (e, pc'))
    (owns : pc'.owns = some dir) : pc.owns = some dir ∨ (dir = fs.nextDir ∧ e = .mkdir) := by
  revert run
  fun_cases act paths ours granted fs pc a <;> intro run <;>
    grind [Pc.owns, Pc.builds, openLock, createLocked, openDir, dropStaged, writeStaged]

end Act

namespace Fs

/-- A name leads to one directory and a directory has one name; a staging directory has its own. -/
structure Sound (fs : Fs) : Prop where
  injective : ∀ m n dir, fs.names m = some dir → fs.names n = some dir → m = n
  staging : ∀ id dir, fs.names (.staging id) = some dir → dir = id
  below : ∀ name dir, fs.names name = some dir → dir < fs.nextDir

variable {fs : Fs} {name : Name} {dir : DirId} {file : LockFile} {i : Inode}

theorem items_ne_nil (locked : fs.lockIn dir file = some i) : fs.items dir ≠ [] := by
  intro none
  simp [lockIn, none] at locked

theorem lockIn_append (locked : fs.lockIn dir file = some i) (where_ : Name) (item : Item) (next : Inode) :
    lockIn { fs with items := fs.append where_ item, nextInode := next } dir file = some i := by
  unfold append
  cases named : fs.names where_ with
  | none => exact locked
  | some found =>
    by_cases same : found = dir
    · subst same
      simp only [lockIn, Function.update_self, List.findSome?_append]
      rw [show (fs.items found).findSome? _ = some i from locked]
      rfl
    · simp only [lockIn, Function.update_of_ne (Ne.symm same)]
      exact locked

theorem lockIn_create (named : fs.names name = some dir) (absent : fs.lockIn dir file = none) :
    (Effect.apply fs (.createLock name file)).lockIn dir file = some fs.nextInode := by
  have old : (fs.items dir).findSome? _ = none := absent
  simp only [Effect.apply, append, named, lockIn, Function.update_self, List.findSome?_append, old]
  simp

theorem named_of_metadata (present : (fs.metadataAt name).isSome = true) : ∃ dir, fs.names name = some dir := by
  obtain ⟨_, found⟩ := Option.isSome_iff_exists.mp present
  obtain ⟨dir, named, -⟩ := Option.bind_eq_some_iff.mp found
  exact ⟨dir, named⟩

/-- What an effect may not do to a directory for it to keep its name and its lock file. -/
def Spares (fs : Fs) (name : Name) (dir : DirId) : Effect → Prop
  | .unlink other _ => other ≠ dir
  | .rmdir other => ∀ found, fs.names other = some found → fs.items found = []
  | .rename id c => name ≠ .staging id ∧ ∀ found, fs.names (.entry c) = some found → fs.items found = []
  | _ => True

theorem Sound.keeps (sound : fs.Sound) (named : fs.names name = some dir) (locked : fs.lockIn dir file = some i)
    {e : Effect} (spares : fs.Spares name dir e) :
    (e.apply fs).names name = some dir ∧ (e.apply fs).lockIn dir file = some i := by
  have full := items_ne_nil locked
  cases e with
  | none => exact ⟨named, locked⟩
  | mkdir =>
    have old : dir ≠ fs.nextDir := Nat.ne_of_lt (sound.below name dir named)
    have other : name ≠ .staging fs.nextDir := by
      rintro rfl
      exact old (sound.staging _ _ named)
    exact ⟨(Function.update_of_ne other ..).trans named, by
      simp only [Effect.apply, lockIn, Function.update_of_ne old]
      exact locked⟩
  | createLock where_ file' | add where_ item => exact ⟨named, lockIn_append locked where_ _ _⟩
  | unlink other item =>
    refine ⟨named, ?_⟩
    simp only [Effect.apply, lockIn, Function.update_of_ne (Ne.symm spares)]
    exact locked
  | rmdir other =>
    have different : name ≠ other := by
      rintro rfl
      exact full (spares dir named)
    exact ⟨(Function.update_of_ne different ..).trans named, locked⟩
  | rename id c =>
    have different : name ≠ .entry c := by
      rintro rfl
      exact full (spares.2 dir named)
    refine ⟨?_, locked⟩
    simp only [Effect.apply, Function.update_of_ne different, Function.update_of_ne spares.1]
    exact named

theorem Sound.apply (sound : fs.Sound) (e : Effect) : (e.apply fs).Sound := by
  cases e with
  | none => exact sound
  | createLock where_ file | add where_ item | unlink other item => exact ⟨sound.injective, sound.staging, sound.below⟩
  | mkdir =>
    have named : ∀ name dir, (Effect.apply fs .mkdir).names name = some dir →
        (name = .staging fs.nextDir ∧ dir = fs.nextDir) ∨ (fs.names name = some dir ∧ dir < fs.nextDir) := by
      intro name dir found
      simp only [Effect.apply, Function.update_apply] at found
      split at found
      next new => exact .inl ⟨new, (Option.some.inj found).symm⟩
      next => exact .inr ⟨found, sound.below name dir found⟩
    constructor
    · intro m n dir hm hn
      rcases named m dir hm with ⟨hm', eq⟩ | ⟨hm', below⟩
      · rcases named n dir hn with ⟨hn', -⟩ | ⟨-, below⟩
        · rw [hm', hn']
        · exact absurd eq (Nat.ne_of_lt below)
      · rcases named n dir hn with ⟨-, eq⟩ | ⟨hn', -⟩
        · exact absurd eq (Nat.ne_of_lt below)
        · exact sound.injective m n dir hm' hn'
    · intro id dir found
      rcases named _ dir found with ⟨same, eq⟩ | ⟨old, -⟩
      · rw [eq, Name.staging.inj same]
      · exact sound.staging id dir old
    · intro name dir found
      show dir < fs.nextDir + 1
      rcases named name dir found with ⟨-, eq⟩ | ⟨-, below⟩
      · exact eq ▸ Nat.lt_succ_self _
      · exact Nat.lt_succ_of_lt below
  | rmdir other =>
    have named : ∀ name dir, (Effect.apply fs (.rmdir other)).names name = some dir →
        fs.names name = some dir := by
      intro name dir found
      simp only [Effect.apply, Function.update_apply] at found
      split at found
      next => cases found
      next => exact found
    exact ⟨fun m n dir hm hn => sound.injective m n dir (named m dir hm) (named n dir hn),
      fun id dir found => sound.staging id dir (named _ dir found),
      fun name dir found => sound.below name dir (named name dir found)⟩
  | rename id c =>
    -- the directory moves from its staging name to the entry
    have named : ∀ name dir, (Effect.apply fs (.rename id c)).names name = some dir →
        (name = .entry c ∧ fs.names (.staging id) = some dir) ∨
          (name ≠ .entry c ∧ name ≠ .staging id ∧ fs.names name = some dir) := by
      intro name dir found
      simp only [Effect.apply, Function.update_apply] at found
      split at found
      next moved => exact .inl ⟨moved, found⟩
      next moved =>
        split at found
        next => cases found
        next gone => exact .inr ⟨moved, gone, found⟩
    constructor
    · intro m n dir hm hn
      rcases named m dir hm with ⟨moved, hm'⟩ | ⟨-, apart, hm'⟩
      · rcases named n dir hn with ⟨moved', -⟩ | ⟨-, apart, hn'⟩
        · rw [moved, moved']
        · exact absurd (sound.injective _ _ dir hn' hm') apart
      · rcases named n dir hn with ⟨-, hn'⟩ | ⟨-, -, hn'⟩
        · exact absurd (sound.injective _ _ dir hm' hn') apart
        · exact sound.injective m n dir hm' hn'
    · intro other dir found
      rcases named _ dir found with ⟨same, -⟩ | ⟨-, -, old⟩
      · cases same
      · exact sound.staging other dir old
    · intro name dir found
      rcases named name dir found with ⟨-, old⟩ | ⟨-, -, old⟩
      · exact sound.below _ dir old
      · exact sound.below _ dir old

end Fs

namespace State

variable (s : State)

/-- No process is removing the directory. -/
def Unremoved (dir : DirId) : Prop := ∀ proc ∈ s.procs, proc.pc.removes ≠ some dir

/-- The lock file that a process has open is the one in the directory at the path, if there is any. -/
def Current (name : Name) (inode : Inode) : Prop :=
  ∀ dir ∈ s.fs.names name, s.fs.lockIn dir name.lockFile = some inode

/-- The directory at the path, if there is any, has the locked file, and no process is removing it. -/
def Settled (name : Name) (inode : Inode) : Prop :=
  ∀ dir ∈ s.fs.names name, s.fs.lockIn dir name.lockFile = some inode ∧ s.Unremoved dir

/-- What a step needs: a removal begins in the directory whose lock its process holds, and a lookup or
a builder that goes on with its lock has a settled directory. -/
def KeepsLocks (label : Nat × Action) : Prop :=
  label.2 = .next → ∀ proc ∈ s.procs[label.1]?,
    (∀ place ∈ proc.pc.begins, s.Current place.1 place.2) ∧
      (∀ place ∈ proc.pc.rechecks, (s.fs.metadataAt place.1).isSome = true → s.Settled place.1 place.2) ∧
      (∀ place ∈ proc.pc.locksBuilding, s.granted ⟨place.2, .exclusive⟩ = true → s.Settled place.1 place.2)

instance (dir : DirId) : Decidable (s.Unremoved dir) :=
  inferInstanceAs (Decidable (∀ proc ∈ s.procs, proc.pc.removes ≠ some dir))

instance (name : Name) (inode : Inode) : Decidable (s.Current name inode) :=
  inferInstanceAs (Decidable (∀ dir ∈ s.fs.names name, _))

instance (name : Name) (inode : Inode) : Decidable (s.Settled name inode) :=
  inferInstanceAs (Decidable (∀ dir ∈ s.fs.names name, _ ∧ _))

instance (label : Nat × Action) : Decidable (s.KeepsLocks label) :=
  inferInstanceAs (Decidable (_ → ∀ proc ∈ s.procs[label.1]?, _ ∧ _ ∧ _))

/-- The entry is there, with the lock file that is held on it. -/
def Pinned (c : Text) (inode : Inode) : Prop :=
  ∃ dir, s.fs.names (.entry c) = some dir ∧ s.fs.lockIn dir .inUse = some inode ∧ s.Unremoved dir

/-- The staging directory of a builder, unless it is gone, has its lock files. -/
def Claimed (dir : DirId) (building : Inode) (inUse : Option Inode) : Prop :=
  s.fs.names (.staging dir) = some dir →
    s.fs.lockIn dir .building = some building ∧ (∀ j ∈ inUse, s.fs.lockIn dir .inUse = some j) ∧ s.Unremoved dir

structure Sound : Prop where
  fs : s.fs.Sound
  locks : AdvisoryLock.Exclusive (fun proc : Proc => proc.pc.locks) s.procs
  owned : ∀ m ∈ s.procs, ∀ dir, m.pc.owns = some dir → dir < s.fs.nextDir
  owners : ∀ (p q : Nat) m n dir, p ≠ q → s.procs[p]? = some m → s.procs[q]? = some n →
    m.pc.owns = some dir → n.pc.owns ≠ some dir
  pinned : ∀ m ∈ s.procs, ∀ c i, m.pc.pins = some (c, i) → s.Pinned c i
  claimed : ∀ m ∈ s.procs, ∀ dir i j, m.pc.builds = some (dir, i, j) → s.Claimed dir i j

variable {s} {t : State} {paths : Text → List Text}

theorem next_eq_some {label : Nat × Action} : s.next paths label = some t ↔
    ∃ proc e pc, s.procs[label.1]? = some proc ∧ act paths proc.key s.granted s.fs proc.pc label.2 = some (e, pc) ∧
      t = { fs := e.apply s.fs, procs := s.procs.set label.1 { proc with pc } } := by
  simp only [next, Option.bind_eq_bind, Option.bind_eq_some_iff, Option.some.injEq, Prod.exists]
  constructor
  · rintro ⟨proc, here, e, pc, run, rfl⟩
    exact ⟨proc, e, pc, here, run, rfl⟩
  · rintro ⟨proc, e, pc, here, run, rfl⟩
    exact ⟨proc, here, e, pc, run, rfl⟩

theorem names_staging_back {e : Effect} {fs : Fs} {id dir : DirId} (old : id < fs.nextDir)
    (named : (e.apply fs).names (.staging id) = some dir) : fs.names (.staging id) = some dir := by
  cases e with
  | none | createLock | add | unlink => exact named
  | mkdir =>
    have other : Name.staging id ≠ .staging fs.nextDir := fun same => Nat.ne_of_lt old (Name.staging.inj same)
    simpa only [Effect.apply, Function.update_of_ne other] using named
  | rmdir name =>
    simp only [Effect.apply, Function.update_apply] at named
    split at named
    · cases named
    · exact named
  | rename other c =>
    have entry : Name.staging id ≠ .entry c := nofun
    simp only [Effect.apply, Function.update_of_ne entry, Function.update_apply] at named
    split at named
    · cases named
    · exact named

section Step

variable {p q : Nat} {a : Action} {proc n : Proc} {e : Effect} {pc : Pc}

variable {dir : DirId} {i : Inode}

/-- A directory whose lock file is locked, and that nobody removes, is spared by every step but those of
its own holder. -/
theorem Sound.spares (sound : s.Sound) (condition : s.KeepsLocks (p, a)) (here : s.procs[p]? = some proc)
    (run : act paths proc.key s.granted s.fs proc.pc a = some (e, pc)) (hn : s.procs[q]? = some n)
    (apart : p ≠ q ∨ (pc.removes = none ∧ ∀ id c, e ≠ .rename id c)) (name : Name)
    {kind : LockKind} (named : s.fs.names name = some dir) (locked : s.fs.lockIn dir name.lockFile = some i)
    (held : ⟨i, kind⟩ ∈ n.pc.locks) (own : ∀ id, name = .staging id → n.pc.owns = some id)
    (unremoved : s.Unremoved dir) : s.fs.Spares name dir e ∧ pc.removes ≠ some dir := by
  constructor
  · cases e with
    | none | mkdir | createLock | add => trivial
    | unlink other item =>
      rintro rfl
      exact unremoved proc (List.mem_of_getElem? here) (act_unlink run)
    | rmdir other => exact fun found => act_rmdir run
    | rename id c =>
      obtain ⟨staged, moves, rfl, rfl, -, empty⟩ := act_rename run
      refine ⟨?_, empty⟩
      rintro rfl
      have ours : proc.pc.owns = some staged.dir := by rw [moves]; rfl
      rcases apart with apart | ⟨-, notRename⟩
      · exact sound.owners p q proc n _ apart here hn ours (own _ rfl)
      · exact notRename _ _ rfl
  · intro removes
    rcases apart with apart | ⟨none, -⟩
    · rcases act_removes run removes with already | ⟨other, j, begins, rfl, found⟩ | ⟨id, ours, found⟩
      · exact unremoved proc (List.mem_of_getElem? here) already
      · -- the locked file is the one of this directory, so its lock is held twice
        have current := (condition rfl proc here).1 (other, j) (by rw [begins]; rfl)
        obtain rfl := sound.fs.injective _ _ _ found named
        have same : j = i := Option.mem_unique (current dir found) locked
        refine sound.locks.absurd apart here hn ?_ held
        rw [begins, same]
        exact List.mem_singleton.mpr rfl
      · obtain rfl := sound.fs.injective _ _ _ found named
        exact sound.owners p q proc n id apart here hn ours (own id rfl)
    · rw [none] at removes
      cases removes

/-- No process removes the directory after a step if none did before and this one does not begin. -/
theorem Unremoved.set (unremoved : s.Unremoved dir) (new : pc.removes ≠ some dir) {fs : Fs} :
    Unremoved { fs, procs := s.procs.set p { proc with pc } } dir := by
  intro m mem
  rcases mem_set mem with rfl | ⟨q, -, found⟩
  · exact new
  · exact unremoved m (List.mem_of_getElem? found)

theorem Pinned.step (sound : s.Sound) (condition : s.KeepsLocks (p, a)) (here : s.procs[p]? = some proc)
    (run : act paths proc.key s.granted s.fs proc.pc a = some (e, pc)) (hn : s.procs[q]? = some n)
    (apart : p ≠ q ∨ (pc.removes = none ∧ ∀ id c, e ≠ .rename id c)) {c : Text}
    (held : ⟨i, .shared⟩ ∈ n.pc.locks) (pinned : s.Pinned c i) :
    Pinned { fs := e.apply s.fs, procs := s.procs.set p { proc with pc } } c i := by
  obtain ⟨dir, named, locked, unremoved⟩ := pinned
  obtain ⟨spares, new⟩ := sound.spares condition here run hn apart (.entry c) named locked held nofun unremoved
  obtain ⟨named', locked'⟩ := sound.fs.keeps named locked spares
  exact ⟨dir, named', locked', unremoved.set new⟩

theorem Claimed.step (sound : s.Sound) (condition : s.KeepsLocks (p, a)) (here : s.procs[p]? = some proc)
    (run : act paths proc.key s.granted s.fs proc.pc a = some (e, pc)) (hn : s.procs[q]? = some n)
    (apart : p ≠ q ∨ (pc.removes = none ∧ ∀ id c, e ≠ .rename id c)) {j : Option Inode}
    (held : ⟨i, .exclusive⟩ ∈ n.pc.locks) (owns : n.pc.owns = some dir) (claimed : s.Claimed dir i j) :
    Claimed { fs := e.apply s.fs, procs := s.procs.set p { proc with pc } } dir i j := by
  intro named'
  have old := sound.owned n (List.mem_of_getElem? hn) dir owns
  have named := names_staging_back old named'
  obtain ⟨locked, inUse, unremoved⟩ := claimed named
  obtain ⟨spares, new⟩ := sound.spares condition here run hn apart (.staging dir) named locked held
    (fun id same => (Name.staging.inj same) ▸ owns) unremoved
  exact ⟨(sound.fs.keeps named locked spares).2,
    fun k mem => (sound.fs.keeps named (inUse k mem) spares).2, unremoved.set new⟩

/-- What holds of the others holds after a step; what the process itself claims, it claimed before, or
its condition gives it. -/
theorem Sound.next (sound : s.Sound) {label : Nat × Action} (condition : s.KeepsLocks label)
    (step : s.next paths label = some t) : t.Sound := by
  obtain ⟨p, a⟩ := label
  obtain ⟨proc, e, pc, here, run, rfl⟩ := next_eq_some.mp step
  have mem := List.mem_of_getElem? here
  have grown : s.fs.nextDir ≤ (e.apply s.fs).nextDir := by
    cases e <;> simp [Effect.apply]
  constructor
  · exact sound.fs.apply e
  · refine sound.locks.set here fun lock held => ?_
    exact (act_locks run lock held).imp_right of_decide_eq_true
  · intro m found dir owns
    rcases mem_set found with rfl | ⟨q, -, found⟩
    · rcases act_owns run owns with already | ⟨rfl, rfl⟩
      · exact Nat.lt_of_lt_of_le (sound.owned proc mem dir already) grown
      · exact Nat.lt_succ_self _
    · exact Nat.lt_of_lt_of_le (sound.owned m (List.mem_of_getElem? found) dir owns) grown
  · -- a new staging directory is not yet anybody's
    have new : ∀ q n dir, q ≠ p → s.procs[q]? = some n → pc.owns = some dir → n.pc.owns ≠ some dir := by
      intro q n dir apart hn owns other
      rcases act_owns run owns with already | ⟨rfl, -⟩
      · exact sound.owners p q proc n dir apart.symm here hn already other
      · exact Nat.lt_irrefl _ (sound.owned n (List.mem_of_getElem? hn) _ other)
    intro q r m n dir apart hm hn owns other
    rcases get_set hm with ⟨rfl, rfl⟩ | ⟨hq, hm'⟩
    · rcases get_set hn with ⟨rfl, -⟩ | ⟨hr, hn'⟩
      · exact apart rfl
      · exact new r n dir hr hn' owns other
    · rcases get_set hn with ⟨rfl, rfl⟩ | ⟨hr, hn'⟩
      · exact new q m dir hq hm' other owns
      · exact sound.owners q r m n dir apart hm' hn' owns other
  · intro m found c i pins
    rcases mem_set found with rfl | ⟨q, apart, found⟩
    · obtain ⟨-, notRemoving⟩ := Pc.pins_locked pins
      rcases act_pins run pins with already | ⟨metadata, locked, rfl, rfl, present⟩ |
        ⟨staged, moves, rfl, rfl, present, rfl⟩
      · refine (sound.pinned proc mem c i already).step sound condition here run here (.inr ⟨notRemoving, ?_⟩)
          (Pc.pins_locked already).1
        rintro id c' rfl
        obtain ⟨staged, moves, -⟩ := act_rename run
        rw [moves] at already
        cases already
      · obtain ⟨dir, named⟩ := Fs.named_of_metadata present
        obtain ⟨current, unremoved⟩ := (condition rfl proc here).2.1 (.entry c, i) (by rw [locked]; rfl) present dir named
        exact ⟨dir, named, current, unremoved.set (by simp [notRemoving])⟩
      · -- the staging directory has its lock files, and takes them along
        obtain ⟨dir, named⟩ := Option.isSome_iff_exists.mp present
        obtain rfl := sound.fs.staging _ _ named
        have builds : proc.pc.builds = some (staged.dir, staged.building, some staged.inUse) := by
          rw [moves]
          rfl
        obtain ⟨-, inUse, unremoved⟩ := sound.claimed proc mem _ _ _ builds named
        exact ⟨staged.dir, (Function.update_self ..).trans named, inUse _ rfl,
          unremoved.set (by simp [notRemoving])⟩
    · have old := List.mem_of_getElem? found
      exact (sound.pinned m old c i pins).step sound condition here run found (.inl apart.symm)
        (Pc.pins_locked pins).1
  · intro m found dir i j builds
    rcases mem_set found with rfl | ⟨q, apart, found⟩
    · obtain ⟨-, notRemoving, -⟩ := Pc.builds_locked builds
      rcases act_builds run builds with already | ⟨c, locks, rfl, rfl, rfl, free⟩ | ⟨claims, rfl, rfl, fresh⟩
      · obtain ⟨held, -, owns⟩ := Pc.builds_locked already
        refine (sound.claimed proc mem dir i j already).step sound condition here run here
          (.inr ⟨notRemoving, ?_⟩) held owns
        rintro id c' rfl
        obtain ⟨_, _, _, _, rfl, _⟩ := act_rename run
        cases builds
      · intro named
        obtain ⟨current, unremoved⟩ := (condition rfl proc here).2.2 (.staging dir, i) (by rw [locks]; rfl) free dir named
        exact ⟨current, nofun, unremoved.set (by simp [notRemoving])⟩
      · intro named
        have before : s.fs.names (.staging dir) = some dir := named
        obtain ⟨building, -, unremoved⟩ := sound.claimed proc mem dir i none claims before
        refine ⟨Fs.lockIn_append building _ _ _, ?_, unremoved.set (by simp [notRemoving])⟩
        rintro _ ⟨⟩
        exact Fs.lockIn_create before (fresh dir before)
    · obtain ⟨held, -, owns⟩ := Pc.builds_locked builds
      exact (sound.claimed m (List.mem_of_getElem? found) dir i j builds).step sound condition here run found
        (.inl apart.symm) held owns

end Step

theorem Sound.initial (start : (cache paths).init s) : s.Sound := by
  obtain ⟨fs, idle⟩ := start
  have at_ : ∀ (p : Nat) m, s.procs[p]? = some m → m.pc = .idle := fun p m found => idle m (List.mem_of_getElem? found)
  constructor
  · rw [fs]
    have unnamed : ∀ name dir, Fs.empty.names name ≠ some dir := nofun
    exact ⟨fun m _ dir h _ => absurd h (unnamed m dir), fun _ dir h => absurd h (unnamed _ dir),
      fun name dir h => absurd h (unnamed name dir)⟩
  · exact .of_unlocked fun m mem => by simp [idle m mem, Pc.locks]
  · intro m mem dir owns
    rw [idle m mem] at owns
    cases owns
  · intro p q m n dir _ hm _ owns
    rw [at_ p m hm] at owns
    cases owns
  · intro m mem c i pins
    rw [idle m mem] at pins
    cases pins
  · intro m mem dir i j builds
    rw [idle m mem] at builds
    cases builds

theorem sound_of_run {s₀ s : State} {ls : List (Nat × Action)} (start : (cache paths).init s₀)
    (run : (cache paths).Run s₀ ls s) (met : (cache paths).Meets KeepsLocks s₀ ls) : s.Sound :=
  run.preserves_under (fun _ _ _ sound condition step => sound.next condition step) met (.initial start)

/-! ### Nothing in use is removed -/

/-- The directory that a step takes something from. -/
def takesFrom (s : State) (label : Nat × Action) : Option DirId :=
  match (s.procs[label.1]?).map Proc.pc, label.2 with
  | some (.removing _ dir _), .unlink _ => some dir
  | some (.removing name _ _), .rmdir => (s.fs.names name).filter fun dir => s.fs.items dir = []
  | _, _ => none

/-- A step takes nothing from an entry that is open, or from the staging directory of a builder. -/
def Spared (s : State) (label : Nat × Action) : Prop :=
  ∀ dir, s.takesFrom label = some dir → ∀ (q : Nat) n, s.procs[q]? = some n →
    (∀ c metadata i, n.pc = .holding c metadata i → s.fs.names (.entry c) ≠ some dir) ∧
      ∀ own, n.pc.builds.map Prod.fst = some own → s.fs.names (.staging own) ≠ some dir

/-- **Nothing in use is removed** in a run in which every removal begins in the directory whose lock is
held, and every lookup and builder goes on with the lock file that is in its directory. -/
theorem nothing_in_use_removed {s₀ s t : State} {ls : List (Nat × Action)} {l : Nat × Action}
    (start : (cache paths).init s₀) (run : (cache paths).Run s₀ ls s)
    (met : (cache paths).Meets KeepsLocks s₀ ls) (step : (cache paths).step s l t) : s.Spared l := by
  have sound := sound_of_run start run met
  obtain ⟨p, a⟩ := l
  intro dir takes q n hn
  -- what is pinned or claimed is in no removal, and its lock file keeps it from being empty
  have safe : ∀ i file, s.fs.lockIn dir file = some i → s.Unremoved dir → False := by
    intro i file locked unremoved
    unfold takesFrom at takes
    split at takes
    next name d locks item removing _ =>
      obtain rfl := Option.some.inj takes
      obtain ⟨proc, found, pc⟩ := Option.map_eq_some_iff.mp removing
      exact unremoved proc (List.mem_of_getElem? found) (by rw [pc]; rfl)
    next =>
      obtain ⟨-, empty⟩ := Option.filter_eq_some_iff.mp takes
      exact Fs.items_ne_nil locked (of_decide_eq_true empty)
    next => cases takes
  have mem := List.mem_of_getElem? hn
  constructor
  · intro c metadata i holds named
    obtain ⟨found, named', locked, unremoved⟩ := sound.pinned n mem c i (by rw [holds]; rfl)
    obtain rfl : found = dir := Option.mem_unique named' named
    exact safe i _ locked unremoved
  · intro own built named
    obtain ⟨⟨own, i, j⟩, builds, rfl⟩ := Option.map_eq_some_iff.mp built
    obtain rfl := sound.fs.staging _ _ named
    obtain ⟨locked, -, unremoved⟩ := sound.claimed n mem _ i j builds named
    exact safe i _ locked unremoved

end State

namespace Sample

def paths (_ : Text) : List Text := ["a.rs"]

def key : Key := ⟨1, 1, 1⟩

def commit : Text := "c0ffee"

def start : State := ⟨Fs.empty, List.replicate 3 ⟨key, .idle⟩⟩

theorem start_init : (cache paths).init start :=
  ⟨rfl, fun proc mem => by rw [List.eq_of_mem_replicate mem]⟩

def build (p : Nat) : List (Nat × Action) :=
  (p, .stage commit) :: List.replicate 8 (p, .next) ++ (p, .publish) :: List.replicate 5 (p, .next)

/-- The builder of one entry has it open while a staging directory that another left is removed. -/
def abandoned : List (Nat × Action) :=
  build 2 ++ [(0, .stage "facade"), (0, .crash), (1, .clean (.staging 1)), (1, .next), (1, .next), (1, .next)]

def abandonedState : State :=
  (abandoned.foldlM (fun (s : State) l => if s.KeepsLocks l then s.next paths l else none) start).get
    (by decide +kernel)

theorem nothing_in_use_removed_abandoned : abandonedState.procs[2]? = some ⟨key, .holding commit ⟨commit, key⟩ 1⟩ ∧
    abandonedState.Spared (1, .unlink (.lock .building 2)) := by
  refine ⟨by decide +kernel, ?_⟩
  obtain ⟨run, met⟩ := TransitionSystem.Run.of_apply_meets (T := cache paths) (C := State.KeepsLocks)
    (fun _ _ _ => Iff.rfl) (Option.some_get _).symm
  obtain ⟨t, step⟩ := Option.isSome_iff_exists.mp
    (show (abandonedState.next paths (1, .unlink (.lock .building 2))).isSome = true by decide +kernel)
  exact State.nothing_in_use_removed start_init run met step

def files (building inUse : Inode) : List Item :=
  [.treeFile "a.rs", .db 1 1, .tree, .index, .lastUsed, .entryJson ⟨commit, key⟩, .lock .building building,
    .lock .inUse inUse]

def late : List (Nat × Action) :=
  build 2 ++ [(2, .release), (0, .clean (.entry commit)), (0, .next), (1, .clean (.entry commit)), (1, .next),
    (1, .next), (1, .next)] ++ (files 0 1).map (fun item => (1, .unlink item)) ++ [(1, .rmdir)] ++ build 2 ++
    [(0, .next), (0, .next)]

def lateState : State := (late.foldlM (State.next paths) start).get (by decide +kernel)

/-- The entry that process 2 holds loses a file. -/
theorem late_removal : (cache paths).Run start late lateState ∧
    (∃ t, (cache paths).step lateState (0, .unlink (.treeFile "a.rs")) t) ∧
    ¬ lateState.Spared (0, .unlink (.treeFile "a.rs")) := by
  refine ⟨.of_apply (fun _ _ _ => id) (Option.some_get _).symm, ?_, fun spared => ?_⟩
  · exact Option.isSome_iff_exists.mp (by decide +kernel)
  · have holds : lateState.procs[2]? = some ⟨key, .holding commit ⟨commit, key⟩ 3⟩ := by decide +kernel
    exact (spared 1 (by decide +kernel) 2 _ holds).1 commit _ _ rfl (by decide +kernel)

end Sample

end OrbitGraph.Cache
