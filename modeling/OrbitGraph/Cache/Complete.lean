import OrbitGraph.Cache.InUse

/-!
Whether an entry that a lookup returns is complete.

A lookup trusts `entry.json`, which a builder writes last, and the existence of two
paths. A removal takes the files of a directory in any order, and a process that
crashes in the middle of one leaves what is left with its lock released. And the
`entry.json` that a lookup has read may be another one once it has its lock. An entry is
complete as long as such a removal has taken `entry.json` too, or nothing but what is
beside the snapshot, and as long as no other entry takes the place of the one read.
-/

namespace OrbitGraph.Cache

open Lib

def Item.metadata : Item → Option EntryMetadata
  | .entryJson metadata => some metadata
  | _ => none

theorem Item.metadata_eq_some {item : Item} {metadata : EntryMetadata} :
    item.metadata = some metadata ↔ item = .entryJson metadata := by
  cases item <;> simp [Item.metadata]

theorem metadata_of_snapshot {paths : Text → List Text} {ours : Key} {c : Text} {item : Item}
    (mem : item ∈ snapshot paths ours c) : item.metadata = none := by
  simp only [snapshot, List.mem_append, List.mem_cons, List.mem_map, List.not_mem_nil, or_false] at mem
  rcases mem with ((rfl | rfl) | ⟨path, -, rfl⟩) | rfl <;> rfl

theorem EntryMetadata.eq_of_current {metadata : EntryMetadata} {ours : Key} {c : Text}
    (current : metadata.keyMatch ours c = .current) : metadata = ⟨c, ours⟩ := by
  obtain ⟨commitSha, ⟨schema, extractor, store⟩⟩ := metadata
  unfold keyMatch at current
  split at current
  next => cases current
  next own =>
    dsimp only at current own
    split at current
    · cases current
    · split at current
      next same =>
        simp only [List.all_cons, List.all_nil, Bool.and_true, Bool.and_eq_true, beq_iff_eq] at same
        obtain ⟨rfl, rfl, rfl⟩ := same
        rw [not_not.mp own]
      next => cases current

namespace Pc

/-- The path and the directory of a removal. -/
def takes : Pc → Option (Name × DirId)
  | .removing name dir _ => some (name, dir)
  | _ => none

/-- The commit and the staging directory of a builder. -/
def makes : Pc → Option (Text × DirId)
  | .createBuilding c dir => some (c, dir)
  | .lockBuilding c dir _ => some (c, dir)
  | .createInUse c dir _ => some (c, dir)
  | .lockStaged staged => some (staged.commitSha, staged.dir)
  | .building staged _ => some (staged.commitSha, staged.dir)
  | .publishing staged _ => some (staged.commitSha, staged.dir)
  | .checkDestination staged => some (staged.commitSha, staged.dir)
  | .renaming staged => some (staged.commitSha, staged.dir)
  | _ => none

/-- What a builder has yet to write of the snapshot. -/
def lacks : Pc → Option (StagedEntry × List Item)
  | .building staged todo => some (staged, todo)
  | .publishing staged _ => some (staged, [])
  | .checkDestination staged => some (staged, [])
  | .renaming staged => some (staged, [])
  | _ => none

def writes : Pc → Option (Text × DirId × List Item)
  | .building staged todo => some (staged.commitSha, staged.dir, todo)
  | .publishing staged todo => some (staged.commitSha, staged.dir, todo)
  | _ => none

/-- What a builder adds to its staging directory next. -/
def adds (pc : Pc) : Option (Name × Item) :=
  match pc.writes with
  | some (_, dir, item :: _) => some (.staging dir, item)
  | _ => none

/-- What a lookup has read of `entry.json`, until it has its lock and looks again. -/
def reads : Pc → Option (Text × EntryMetadata)
  | .openInUse c metadata => some (c, metadata)
  | .lockInUse c metadata _ => some (c, metadata)
  | .recheck c metadata _ => some (c, metadata)
  | _ => none

/-- The commit of a lookup that has found `entry.json` with its lock. -/
def checks : Pc → Option Text
  | .verify c _ _ _ => some c
  | .touch c _ _ => some c
  | _ => none

variable {pc : Pc} {dir : DirId}

theorem takes_removes {name : Name} (takes : pc.takes = some (name, dir)) : pc.removes = some dir := by
  unfold Pc.takes at takes
  split at takes <;> simp_all [removes]

theorem removes_takes (removes : pc.removes = some dir) : ∃ name, pc.takes = some (name, dir) := by
  unfold Pc.removes at removes
  split at removes <;> simp_all [takes]

theorem makes_owns {c : Text} (makes : pc.makes = some (c, dir)) : pc.owns = some dir := by
  unfold Pc.makes at makes
  split at makes <;> simp_all [owns, builds]

variable {todo : List Item}

theorem lacks_makes {staged : StagedEntry} (lacks : pc.lacks = some (staged, todo)) :
    pc.makes = some (staged.commitSha, staged.dir) ∧
      pc.builds = some (staged.dir, staged.building, some staged.inUse) := by
  unfold Pc.lacks at lacks
  split at lacks <;> simp_all [makes, builds]

theorem writes_makes {c : Text} (writes : pc.writes = some (c, dir, todo)) :
    pc.makes = some (c, dir) := by
  unfold Pc.writes at writes
  split at writes <;> simp_all [makes]

theorem adds_writes {name : Name} {item : Item} (adds : pc.adds = some (name, item)) :
    ∃ c dir todo, pc.writes = some (c, dir, item :: todo) ∧ name = .staging dir := by
  unfold Pc.adds at adds
  split at adds
  next c dir _ todo writes =>
    obtain ⟨rfl, rfl⟩ := Prod.mk.inj (Option.some.inj adds)
    exact ⟨c, dir, todo, writes, rfl⟩
  next => cases adds

theorem checks_pins {c : Text} (checks : pc.checks = some c) : ∃ i, pc.pins = some (c, i) := by
  unfold Pc.checks at checks
  split at checks <;> simp_all [pins]

end Pc

section Act

variable {paths : Text → List Text} {ours : Key} {granted : Lock → Bool} {fs : Fs} {pc pc' : Pc} {a : Action}
  {e : Effect}

variable {dir : DirId}

theorem act_takes (run : act paths ours granted fs pc a = some (e, pc')) {name : Name}
    (takes : pc'.takes = some (name, dir)) :
    pc.takes = some (name, dir) ∨ (e = .none ∧ fs.names name = some dir) := by
  revert run
  fun_cases act paths ours granted fs pc a <;> intro run <;>
    grind [Pc.takes, openLock, createLocked, openDir, dropStaged, writeStaged]

theorem act_ends (run : act paths ours granted fs pc a = some (e, pc')) {name : Name}
    (takes : pc.takes = some (name, dir)) : pc'.takes = some (name, dir) ∨
      ((a = .crash ∨ a = .rmdir) ∧ pc' = .idle ∧ (e = .none ∨ e = .rmdir name)) := by
  revert run
  fun_cases act paths ours granted fs pc a <;> intro run <;>
    grind [Pc.takes, openLock, createLocked, openDir, dropStaged, writeStaged]

variable {c : Text}

theorem act_makes (run : act paths ours granted fs pc a = some (e, pc'))
    (makes : pc'.makes = some (c, dir)) : pc.makes = some (c, dir) ∨ (dir = fs.nextDir ∧ e = .mkdir) := by
  revert run
  fun_cases act paths ours granted fs pc a <;> intro run <;>
    grind [Pc.makes, openLock, createLocked, openDir, dropStaged, writeStaged]

theorem act_add {name : Name} {item : Item} (run : act paths ours granted fs pc a = some (.add name item, pc')) :
    item = .lastUsed ∨ pc.adds = some (name, item) := by
  revert run
  fun_cases act paths ours granted fs pc a <;> intro run <;>
    grind [Pc.adds, Pc.writes, openLock, createLocked, openDir, dropStaged, writeStaged]

variable {todo : List Item}

/-- What a builder writes: the snapshot, and then `entry.json` for its commit and its key. -/
theorem act_writes (run : act paths ours granted fs pc a = some (e, pc'))
    (writes : pc'.writes = some (c, dir, todo)) :
    todo = snapshot paths ours c ∨ todo = [.entryJson ⟨c, ours⟩, .lastUsed] ∨
      pc.writes.map (Prod.map id (Prod.map id List.tail)) = some (c, dir, todo) := by
  revert run
  fun_cases act paths ours granted fs pc a <;> intro run <;>
    grind [Pc.writes, openLock, createLocked, openDir, dropStaged, writeStaged]

/-- A builder has the whole snapshot to write, and what it no longer has to, it has written. -/
theorem act_lacks (run : act paths ours granted fs pc a = some (e, pc')) {staged : StagedEntry}
    (lacks : pc'.lacks = some (staged, todo)) :
    (pc.lacks = some (staged, todo) ∧ ∀ name item, e ≠ .unlink name item) ∨
      todo = snapshot paths ours staged.commitSha ∨
      ∃ item, pc.lacks = some (staged, item :: todo) ∧ e = .add (.staging staged.dir) item := by
  revert run
  fun_cases act paths ours granted fs pc a <;> intro run <;>
    grind [Pc.lacks, openLock, createLocked, openDir, dropStaged, writeStaged]

theorem act_reads (run : act paths ours granted fs pc a = some (e, pc')) {metadata : EntryMetadata}
    (reads : pc'.reads = some (c, metadata)) : pc.reads = some (c, metadata) ∨ metadata.keyMatch ours c = .current := by
  revert run
  fun_cases act paths ours granted fs pc a <;> intro run <;>
    grind [Pc.reads, openLock, createLocked, openDir, dropStaged, writeStaged]

theorem act_checks (run : act paths ours granted fs pc a = some (e, pc')) (checks : pc'.checks = some c) :
    e = .none ∧ (pc.checks = some c ∨
      ∃ metadata i found, pc = .recheck c metadata i ∧ a = .next ∧ fs.metadataAt (.entry c) = some found) := by
  revert run
  fun_cases act paths ours granted fs pc a <;> intro run <;>
    grind [Pc.checks, openLock, createLocked, openDir, dropStaged, writeStaged]

end Act

namespace Fs

variable {fs : Fs} {e : Effect} {name : Name} {dir : DirId} {item : Item}

/-- The snapshot is there, if `entry.json` says that it is. -/
def Whole (fs : Fs) (paths : Text → List Text) (c : Text) (dir : DirId) : Prop :=
  ∀ entry ∈ fs.items dir, ∀ metadata ∈ entry.metadata, ∀ item ∈ snapshot paths metadata.key c, item ∈ fs.items dir

instance (paths : Text → List Text) (c : Text) : Decidable (fs.Whole paths c dir) :=
  inferInstanceAs (Decidable (∀ entry ∈ fs.items dir, _))

theorem mem_append {added : Item} : item ∈ fs.append name added dir ↔
    item ∈ fs.items dir ∨ (fs.names name = some dir ∧ item = added) := by
  unfold append
  cases fs.names name with
  | none => simp
  | some found =>
    by_cases same : dir = found
    · simp [same]
    · simp [same, Ne.symm same]

theorem mem_apply (old : dir < fs.nextDir) (mem : item ∈ fs.items dir) (kept : e ≠ .unlink dir item) :
    item ∈ (e.apply fs).items dir := by
  cases e with
  | none | rmdir | rename => exact mem
  | mkdir =>
    simp only [Effect.apply, Function.update_of_ne (Nat.ne_of_lt old)]
    exact mem
  | createLock | add => exact mem_append.mpr (.inl mem)
  | unlink other gone =>
    by_cases same : other = dir
    · subst same
      have different : item ≠ gone := fun h => kept (h ▸ rfl)
      simp [Effect.apply, mem, different]
    · simp only [Effect.apply, Function.update_of_ne (Ne.symm same)]
      exact mem

theorem of_mem_apply (mem : item ∈ (e.apply fs).items dir) : item ∈ fs.items dir ∨
    (∃ name, e = .add name item ∧ fs.names name = some dir) ∨ ∃ file inode, item = .lock file inode := by
  cases e with
  | none | rmdir | rename => exact .inl mem
  | mkdir =>
    by_cases same : dir = fs.nextDir
    · simp [Effect.apply, same] at mem
    · simp only [Effect.apply, Function.update_of_ne same] at mem
      exact .inl mem
  | createLock where_ file =>
    rcases mem_append.mp mem with old | ⟨-, rfl⟩
    · exact .inl old
    · exact .inr (.inr ⟨_, _, rfl⟩)
  | add where_ added =>
    rcases mem_append.mp mem with old | ⟨named, rfl⟩
    · exact .inl old
    · exact .inr (.inl ⟨_, rfl, named⟩)
  | unlink other gone =>
    by_cases same : dir = other
    · simp only [Effect.apply, same, Function.update_self] at mem
      exact .inl (same ▸ List.mem_of_mem_filter mem)
    · simp only [Effect.apply, Function.update_of_ne same] at mem
      exact .inl mem

/-- A directory had its name before a step, or is made, or is moved to it. -/
theorem of_names_apply (named : (e.apply fs).names name = some dir) : fs.names name = some dir ∨
    (name = .staging fs.nextDir ∧ dir = fs.nextDir) ∨
      ∃ id c, e = .rename id c ∧ name = .entry c ∧ fs.names (.staging id) = some dir := by
  cases e with
  | none | createLock | add | unlink => exact .inl named
  | mkdir =>
    simp only [Effect.apply, Function.update_apply] at named
    split at named
    next new => exact .inr (.inl ⟨new, (Option.some.inj named).symm⟩)
    next => exact .inl named
  | rmdir =>
    simp only [Effect.apply, Function.update_apply] at named
    split at named
    · cases named
    · exact .inl named
  | rename id c =>
    simp only [Effect.apply, Function.update_apply] at named
    split at named
    next moved => exact .inr (.inr ⟨id, c, rfl, moved, named⟩)
    next =>
      split at named
      · cases named
      · exact .inl named

theorem entryJson_of_metadataAt {metadata : EntryMetadata} (found : fs.metadataAt name = some metadata) :
    ∃ dir, fs.names name = some dir ∧ .entryJson metadata ∈ fs.items dir := by
  obtain ⟨dir, named, found⟩ := Option.bind_eq_some_iff.mp found
  obtain ⟨item, mem, same⟩ := List.exists_of_findSome?_eq_some found
  refine ⟨dir, named, ?_⟩
  split at same
  next => exact (Option.some.inj same) ▸ mem
  next => cases same

end Fs

/-! ### The invariant -/

/-- What a removal that ends may leave at its path. -/
def Fs.Left (fs : Fs) (paths : Text → List Text) : Name → DirId → Prop
  | .entry c, dir => fs.Whole paths c dir
  | .staging _, _ => True

instance (fs : Fs) (paths : Text → List Text) (name : Name) (dir : DirId) : Decidable (fs.Left paths name dir) :=
  match name with
  | .entry c => inferInstanceAs (Decidable (fs.Whole paths c dir))
  | .staging _ => inferInstanceAs (Decidable True)

namespace State

variable (paths : Text → List Text) (s : State)

/-- What a step needs besides `KeepsLocks`: the last removal of an entry that ends, with a crash or an
error, leaves no `entry.json` without its snapshot. -/
def LeavesWhole (label : Nat × Action) : Prop :=
  label.2 = .crash ∨ label.2 = .rmdir → ∀ proc ∈ s.procs[label.1]?, ∀ place ∈ proc.pc.takes,
    s.fs.names place.1 = some place.2 →
      Unremoved { s with procs := s.procs.set label.1 { proc with pc := .idle } } place.2 →
        s.fs.Left paths place.1 place.2

instance (label : Nat × Action) : Decidable (s.LeavesWhole paths label) :=
  inferInstanceAs (Decidable (_ → ∀ proc ∈ s.procs[label.1]?, ∀ place ∈ proc.pc.takes, _ → _ → _))

/-- A lookup that has its lock finds the `entry.json` that it has read, or none. -/
def FindsRead (label : Nat × Action) : Prop :=
  ∀ proc ∈ s.procs[label.1]?, ∀ read ∈ proc.pc.reads, ∀ lock ∈ proc.pc.locks,
    ∀ found ∈ s.fs.metadataAt (.entry read.1), found = read.2

instance (label : Nat × Action) : Decidable (s.FindsRead label) :=
  inferInstanceAs (Decidable (∀ proc ∈ s.procs[label.1]?, ∀ read ∈ proc.pc.reads, ∀ lock ∈ proc.pc.locks, _))

/-- The condition on a step for entries to be complete. -/
def Careful (label : Nat × Action) : Prop := s.KeepsLocks label ∧ s.LeavesWhole paths label ∧ s.FindsRead label

instance (label : Nat × Action) : Decidable (s.Careful paths label) := inferInstanceAs (Decidable (_ ∧ _))

structure Intact : Prop where
  takes : ∀ m ∈ s.procs, ∀ name dir, m.pc.takes = some (name, dir) →
    dir < s.fs.nextDir ∧ ∀ n, s.fs.names n = some dir → n = name
  entries : ∀ c dir, s.fs.names (.entry c) = some dir → s.Unremoved dir → s.fs.Whole paths c dir
  keyed : ∀ m ∈ s.procs, ∀ c dir, m.pc.makes = some (c, dir) → s.fs.names (.staging dir) = some dir →
    ∀ metadata, .entryJson metadata ∈ s.fs.items dir → metadata = ⟨c, m.key⟩
  writes : ∀ m ∈ s.procs, ∀ c dir todo, m.pc.writes = some (c, dir, todo) →
    todo <:+ snapshot paths m.key c ∨ todo <:+ [.entryJson ⟨c, m.key⟩, .lastUsed]
  lacks : ∀ m ∈ s.procs, ∀ staged todo, m.pc.lacks = some (staged, todo) →
    s.fs.names (.staging staged.dir) = some staged.dir →
      ∀ item ∈ snapshot paths m.key staged.commitSha, item ∈ todo ∨ item ∈ s.fs.items staged.dir
  reads : ∀ m ∈ s.procs, ∀ c metadata, m.pc.reads = some (c, metadata) → metadata = ⟨c, m.key⟩
  checks : ∀ m ∈ s.procs, ∀ c, m.pc.checks = some c →
    ∃ dir, s.fs.names (.entry c) = some dir ∧ .entryJson ⟨c, m.key⟩ ∈ s.fs.items dir

variable {paths} {s} {t : State}

section Step

variable {p : Nat} {a : Action} {proc : Proc} {e : Effect} {pc : Pc}

variable {dir : DirId}

theorem Unremoved.keeps (unremoved : s.Unremoved dir) (here : s.procs[p]? = some proc)
    (run : act paths proc.key s.granted s.fs proc.pc a = some (e, pc)) (old : dir < s.fs.nextDir) {item : Item}
    (mem : item ∈ s.fs.items dir) : item ∈ (e.apply s.fs).items dir := by
  refine Fs.mem_apply old mem ?_
  rintro rfl
  exact unremoved proc (List.mem_of_getElem? here) (act_unlink run)

/-- `entry.json` is added by the builder of a staging directory, with its commit and its key. -/
theorem Intact.entryJson_apply (intact : s.Intact paths) (sound : s.Sound) (here : s.procs[p]? = some proc)
    (run : act paths proc.key s.granted s.fs proc.pc a = some (e, pc)) {metadata : EntryMetadata}
    (mem : .entryJson metadata ∈ (e.apply s.fs).items dir) : .entryJson metadata ∈ s.fs.items dir ∨
      ∃ c, proc.pc.makes = some (c, dir) ∧ s.fs.names (.staging dir) = some dir ∧ metadata = ⟨c, proc.key⟩ := by
  rcases Fs.of_mem_apply mem with old | ⟨name, rfl, named⟩ | ⟨file, inode, lock⟩
  · exact .inl old
  · rcases act_add run with used | adds
    · cases used
    · obtain ⟨c, id, todo, writes, rfl⟩ := Pc.adds_writes adds
      obtain rfl := sound.fs.staging _ _ named
      refine .inr ⟨c, Pc.writes_makes writes, named, ?_⟩
      rcases intact.writes proc (List.mem_of_getElem? here) _ _ _ writes with snap | last
      · cases metadata_of_snapshot (snap.mem List.mem_cons_self)
      · simpa using last.mem List.mem_cons_self
  · cases lock

theorem Intact.entries_step (intact : s.Intact paths) (sound : s.Sound) (careful : s.Careful paths (p, a))
    (here : s.procs[p]? = some proc) (run : act paths proc.key s.granted s.fs proc.pc a = some (e, pc))
    {c : Text} (named' : (e.apply s.fs).names (.entry c) = some dir)
    (unremoved' : Unremoved { fs := e.apply s.fs, procs := s.procs.set p { proc with pc } } dir) :
    (e.apply s.fs).Whole paths c dir := by
  have mem := List.mem_of_getElem? here
  rcases Fs.of_names_apply named' with named | ⟨made, -⟩ | ⟨id, c', rfl, same, named⟩
  · have old := sound.fs.below _ _ named
    by_cases unremoved : s.Unremoved dir
    · -- the items of the entry stay, and `entry.json` is no new one
      have whole := intact.entries c dir named unremoved
      intro entry found metadata is_ item snap
      obtain rfl := Item.metadata_eq_some.mp is_
      rcases intact.entryJson_apply sound here run found with found | ⟨c', -, staging, -⟩
      · exact unremoved.keeps here run old (whole _ found metadata rfl item snap)
      · cases sound.fs.injective _ _ _ named staging
    · -- the last removal of it has ended
      have ended : proc.pc.removes = some dir ∧ pc.removes ≠ some dir := by
        refine ⟨?_, ?_⟩
        · by_contra other
          refine unremoved fun m hm removes => ?_
          obtain ⟨q, found⟩ := List.mem_iff_getElem?.mp hm
          rcases eq_or_ne q p with rfl | apart
          · obtain rfl := Option.mem_unique found here
            exact other removes
          · refine unremoved' m (List.mem_iff_getElem?.mpr ⟨q, ?_⟩) removes
            exact (List.getElem?_set_ne (Ne.symm apart)).trans found
        · refine unremoved' { proc with pc } (List.mem_iff_getElem?.mpr ⟨p, ?_⟩)
          rw [List.getElem?_set_self' , here]
          rfl
      obtain ⟨name, takes⟩ := Pc.removes_takes ended.1
      obtain rfl := (intact.takes proc mem name dir takes).2 _ named
      rcases act_ends run takes with goes | ⟨ends, rfl, effect⟩
      · exact absurd (Pc.takes_removes goes) ended.2
      · have whole := careful.2.1 ends proc here (_, dir) takes named unremoved'
        rcases effect with rfl | rfl
        · exact whole
        · exact whole
  · cases made
  · -- a build is published
    cases same
    obtain ⟨staged, moves, rfl, rfl, -⟩ := act_rename run
    obtain rfl := sound.fs.staging _ _ named
    intro entry found metadata is_ item snap
    obtain rfl := Item.metadata_eq_some.mp is_
    obtain rfl := intact.keyed proc mem staged.commitSha staged.dir (by rw [moves]; rfl) named metadata found
    rcases intact.lacks proc mem staged [] (by rw [moves]; rfl) named item snap with none | there
    · cases none
    · exact there

/-- What holds of the entries, of the staging directories and of every process holds after a step. -/
theorem Intact.next (intact : s.Intact paths) (sound : s.Sound) {label : Nat × Action}
    (careful : s.Careful paths label) (step : s.next paths label = some t) : t.Intact paths := by
  obtain ⟨p, a⟩ := label
  obtain ⟨proc, e, pc, here, run, rfl⟩ := next_eq_some.mp step
  have mem := List.mem_of_getElem? here
  have grown : s.fs.nextDir ≤ (e.apply s.fs).nextDir := by
    cases e <;> simp [Effect.apply]
  constructor
  · -- a removal that goes on: its directory is not moved
    have goes : ∀ m ∈ s.procs, ∀ name dir, m.pc.takes = some (name, dir) →
        dir < (e.apply s.fs).nextDir ∧ ∀ n, (e.apply s.fs).names n = some dir → n = name := by
      intro m hm name dir takes
      obtain ⟨old, unique⟩ := intact.takes m hm name dir takes
      refine ⟨Nat.lt_of_lt_of_le old grown, fun n named' => ?_⟩
      rcases Fs.of_names_apply named' with named | ⟨-, new⟩ | ⟨id, c, rfl, rfl, named⟩
      · exact unique n named
      · exact absurd new (Nat.ne_of_lt old)
      · obtain ⟨staged, moves, rfl, rfl, -⟩ := act_rename run
        obtain rfl := sound.fs.staging _ _ named
        obtain ⟨-, -, unremoved⟩ := sound.claimed proc mem _ staged.building (some staged.inUse)
          (by rw [moves]; rfl) named
        exact absurd (Pc.takes_removes takes) (unremoved m hm)
    intro m found name dir takes
    rcases mem_set found with rfl | ⟨q, -, found⟩
    · rcases act_takes run takes with already | ⟨rfl, named⟩
      · exact goes proc mem name dir already
      · exact ⟨sound.fs.below _ _ named, fun n named' => sound.fs.injective _ _ _ named' named⟩
    · exact goes m (List.mem_of_getElem? found) name dir takes
  · exact fun c dir named' unremoved' => intact.entries_step sound careful here run named' unremoved'
  · intro m found c dir makes named' metadata added
    -- the directory is the process's own, before and after
    have old : ∀ n ∈ s.procs, n.pc.makes = some (c, dir) → n.key = m.key →
        (∀ c', proc.pc.makes = some (c', dir) → c' = c ∧ proc.key = m.key) → metadata = ⟨c, m.key⟩ := by
      intro n hn makes key same
      have below := sound.owned n hn dir (Pc.makes_owns makes)
      have named := names_staging_back below named'
      rcases intact.entryJson_apply sound here run added with before | ⟨c', makes', -, rfl⟩
      · exact key ▸ intact.keyed n hn c dir makes named metadata before
      · obtain ⟨rfl, key⟩ := same c' makes'
        rw [key]
    rcases mem_set found with rfl | ⟨q, apart, found⟩
    · rcases act_makes run makes with already | ⟨rfl, rfl⟩
      · refine old proc mem already rfl fun c' makes' => ⟨?_, rfl⟩
        exact (Prod.mk.inj (Option.mem_unique makes' already)).1
      · simp [Effect.apply] at added
    · refine old m (List.mem_of_getElem? found) makes rfl fun c' makes' => ?_
      exact absurd (Pc.makes_owns makes')
        (sound.owners q p m proc dir apart found here (Pc.makes_owns makes))
  · intro m found c dir todo writes
    rcases mem_set found with rfl | ⟨q, -, found⟩
    · rcases act_writes run writes with rfl | rfl | wrote
      · exact .inl List.suffix_rfl
      · exact .inr List.suffix_rfl
      · obtain ⟨⟨c, dir, before⟩, had, eq⟩ := Option.map_eq_some_iff.mp wrote
        cases eq
        exact (intact.writes proc mem _ _ _ had).imp (List.tail_suffix before).trans
          (List.tail_suffix before).trans
    · exact intact.writes m (List.mem_of_getElem? found) c dir todo writes
  · -- the staging directory of a builder keeps what it has
    have keeps : ∀ m ∈ s.procs, ∀ staged todo, m.pc.lacks = some (staged, todo) →
        (e.apply s.fs).names (.staging staged.dir) = some staged.dir →
          s.fs.names (.staging staged.dir) = some staged.dir ∧
            ∀ item ∈ snapshot paths m.key staged.commitSha,
              item ∈ todo ∨ item ∈ (e.apply s.fs).items staged.dir := by
      intro m hm staged todo lacks named'
      obtain ⟨makes, builds⟩ := Pc.lacks_makes lacks
      have below := sound.owned m hm _ (Pc.makes_owns makes)
      have named := names_staging_back below named'
      obtain ⟨-, -, unremoved⟩ := sound.claimed m hm _ _ _ builds named
      exact ⟨named, fun item snap => (intact.lacks m hm staged todo lacks named item snap).imp_right fun there =>
        unremoved.keeps here run below there⟩
    intro m found staged todo lacks named' item snap
    rcases mem_set found with rfl | ⟨q, -, found⟩
    · rcases act_lacks run lacks with ⟨already, -⟩ | rfl | ⟨wrote, before, rfl⟩
      · exact (keeps proc mem staged todo already named').2 item snap
      · exact .inl snap
      · obtain ⟨named, kept⟩ := keeps proc mem staged _ before named'
        rcases kept item snap with inTodo | there
        · rcases List.mem_cons.mp inTodo with rfl | rest
          · exact .inr (Fs.mem_append.mpr (.inr ⟨named, rfl⟩))
          · exact .inl rest
        · exact .inr there
    · exact (keeps m (List.mem_of_getElem? found) staged todo lacks named').2 item snap
  · intro m found c metadata reads
    rcases mem_set found with rfl | ⟨q, -, found⟩
    · rcases act_reads run reads with already | current
      · exact intact.reads proc mem c metadata already
      · exact EntryMetadata.eq_of_current current
    · exact intact.reads m (List.mem_of_getElem? found) c metadata reads
  · intro m found c checks
    rcases mem_set found with rfl | ⟨q, apart, found⟩
    · obtain ⟨rfl, already | ⟨metadata, i, json, rechecks, -, present⟩⟩ := act_checks run checks
      · exact intact.checks proc mem c already
      · -- it looks with its lock, and finds what it has read: its own key
        obtain ⟨dir, named, inside⟩ := Fs.entryJson_of_metadataAt present
        have reads : proc.pc.reads = some (c, metadata) := by rw [rechecks]; rfl
        have lock : ⟨i, .shared⟩ ∈ proc.pc.locks := by rw [rechecks]; exact List.mem_singleton_self _
        obtain rfl := careful.2.2 proc here (c, metadata) reads _ lock json present
        rw [intact.reads proc mem c _ reads] at inside
        exact ⟨dir, named, inside⟩
    · have hm := List.mem_of_getElem? found
      obtain ⟨i, pins⟩ := Pc.checks_pins checks
      obtain ⟨dir, named, json⟩ := intact.checks m hm c checks
      obtain ⟨dir', named', locked, unremoved⟩ := sound.pinned m hm c i pins
      obtain rfl := Option.mem_unique named named'
      have below := sound.fs.below _ _ named
      obtain ⟨spares, -⟩ := sound.spares careful.1 here run found (.inl apart.symm) (.entry c) named locked
        (Pc.pins_locked pins).1 (by simp) unremoved
      exact ⟨dir, (sound.fs.keeps named locked spares).1, unremoved.keeps here run below json⟩

end Step

theorem Intact.initial (start : (cache paths).init s) : s.Intact paths := by
  obtain ⟨fs, idle⟩ := start
  have unnamed : ∀ name dir, s.fs.names name ≠ some dir := by
    rw [fs]
    exact nofun
  constructor
  · intro m mem name dir takes
    rw [idle m mem] at takes
    cases takes
  · exact fun c dir named => absurd named (unnamed _ dir)
  · exact fun m mem c dir makes named => absurd named (unnamed _ dir)
  · intro m mem c dir todo writes
    rw [idle m mem] at writes
    cases writes
  · exact fun m mem staged todo lacks named => absurd named (unnamed _ _)
  · intro m mem c metadata reads
    rw [idle m mem] at reads
    cases reads
  · intro m mem c checks
    rw [idle m mem] at checks
    cases checks

theorem intact_of_run {s₀ s : State} {ls : List (Nat × Action)} (start : (cache paths).init s₀)
    (run : (cache paths).Run s₀ ls s) (met : (cache paths).Meets (Careful paths) s₀ ls) : s.Sound ∧ s.Intact paths :=
  run.preserves_under (P := fun s => s.Sound ∧ s.Intact paths)
    (fun _ _ _ both careful step => ⟨both.1.next careful.1 step, both.2.next both.1 careful step⟩) met
    ⟨.initial start, .initial start⟩

/-! ### A hit is complete -/

/-- The commit and the key of the entry that a step of a lookup returns. -/
def returns (s : State) (label : Nat × Action) : Option (Text × Key) :=
  match s.procs[label.1]?, label.2 with
  | some ⟨key, .touch c _ _⟩, .next => if (s.fs.names (.entry c)).isSome then some (c, key) else none
  | _, _ => none

/-- What a build of a commit for a key publishes is at the path of the commit: its `entry.json`, and the whole tree and
index. -/
def Complete (s : State) (paths : Text → List Text) (c : Text) (key : Key) : Prop :=
  ∀ item ∈ .entryJson ⟨c, key⟩ :: snapshot paths key c, s.fs.holdsAt (.entry c) item = true

instance (c : Text) (key : Key) : Decidable (s.Complete paths c key) :=
  inferInstanceAs (Decidable (∀ item ∈ (.entryJson ⟨c, key⟩ :: snapshot paths key c : List Item), _))

/-- **A cache hit is complete** in a run in which no removal of an entry ends with its `entry.json` but
not its snapshot, no lookup finds another entry than the one it has read, and locks are kept. -/
theorem hit_complete {s₀ s t : State} {ls : List (Nat × Action)} {l : Nat × Action}
    (start : (cache paths).init s₀) (run : (cache paths).Run s₀ ls s)
    (met : (cache paths).Meets (Careful paths) s₀ ls) (step : (cache paths).step s l t) {c : Text} {key : Key}
    (hit : s.returns l = some (c, key)) : t.Complete paths c key := by
  obtain ⟨sound, intact⟩ := intact_of_run start run met
  obtain ⟨proc, e, pc, here, ran, rfl⟩ := next_eq_some.mp step
  have mem := List.mem_of_getElem? here
  unfold returns at hit
  split at hit
  next _ _ key' c' metadata i touching isNext =>
    obtain rfl := Option.mem_unique here touching
    split at hit
    next =>
      cases hit
      obtain ⟨dir, named, json⟩ := intact.checks _ mem c rfl
      obtain ⟨dir', named', -, unremoved⟩ := sound.pinned _ mem c i rfl
      obtain rfl := Option.mem_unique named named'
      have whole := intact.entries c dir named unremoved _ json _ rfl
      intro item published
      have there : item ∈ s.fs.items dir := by
        rcases List.mem_cons.mp published with rfl | snap
        · exact json
        · exact whole item snap
      rw [isNext] at ran
      simp only [act, named, Option.some.injEq, Prod.mk.injEq] at ran
      obtain ⟨rfl, -⟩ := ran
      have after : item ∈ s.fs.append (.entry c) .lastUsed dir := Fs.mem_append.mpr (.inl there)
      simp [Fs.holdsAt, Effect.apply, named, after]
    next => cases hit
  next => cases hit

end State

namespace Sample

def found (p : Nat) : List (Nat × Action) := (p, .lookup commit) :: List.replicate 8 (p, .next)

def reused : List (Nat × Action) := build 2 ++ (2, .release) :: found 1

def reusedState : State :=
  (reused.foldlM (fun (s : State) l => if s.Careful paths l then s.next paths l else none) start).get
    (by decide +kernel)

theorem hit_complete_reused : ∃ t, (cache paths).step reusedState (1, .next) t ∧ t.Complete paths commit key := by
  obtain ⟨run, met⟩ := TransitionSystem.Run.of_apply_meets (T := cache paths) (C := State.Careful paths)
    (fun _ _ _ => Iff.rfl) (Option.some_get _).symm
  obtain ⟨t, step⟩ := Option.isSome_iff_exists.mp
    (show (reusedState.next paths (1, .next)).isSome = true by decide +kernel)
  exact ⟨t, step, State.hit_complete start_init run met step (by decide +kernel)⟩

def cutShort : List (Nat × Action) :=
  build 2 ++ [(2, .release), (0, .clean (.entry commit)), (0, .next), (0, .next), (0, .next),
    (0, .unlink (.treeFile "a.rs")), (0, .crash)] ++ found 1

def cutShortState : State :=
  (cutShort.foldlM (fun (s : State) l => if s.KeepsLocks l then s.next paths l else none) start).get
    (by decide +kernel)

/-- Every lock is where it has to be, and the lookup returns an entry without the file. -/
theorem hit_incomplete : (cache paths).Run start cutShort cutShortState ∧
    (cache paths).Meets State.KeepsLocks start cutShort ∧ cutShortState.returns (1, .next) = some (commit, key) ∧
    ∃ t, (cache paths).step cutShortState (1, .next) t ∧ ¬ t.Complete paths commit key := by
  obtain ⟨run, met⟩ := TransitionSystem.Run.of_apply_meets (T := cache paths) (C := State.KeepsLocks)
    (fun _ _ _ => Iff.rfl) (Option.some_get _).symm
  refine ⟨run, met, by decide +kernel, ?_⟩
  have lost : ((cutShortState.next paths (1, .next)).any fun t => ! decide (t.Complete paths commit key)) = true := by
    decide +kernel
  obtain ⟨t, step, incomplete⟩ := (Option.any_eq_true _ _).mp lost
  exact ⟨t, step, by simpa using incomplete⟩

end Sample

end OrbitGraph.Cache
