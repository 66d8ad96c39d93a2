import OrbitGraph.CodeIndex.Answers

/-!
Whether the published generation stays whole.

While a call has the lock nothing else changes the directory, so what it has read of
the pointer stays true. It then spares what the pointer names: the generation it builds
is another one, since it creates the database anew, and the generations it retires
exclude the published one, if it could read which one that is. It cannot when the
pointer is another binary's, or when looking at the database fails; and a directory
flush that fails after the pointer was moved discards what it names.
-/

namespace OrbitGraph.CodeIndex

open Lib

theorem Fs.pointer_eq_some {fs : Fs} {index : PublishedIndex} :
    fs.pointer = some index ↔ ∃ file, fs.file .pointer = some file ∧ file.content = .pointer index := by
  unfold pointer
  split
  next published origin writes found =>
    rw [found]
    simp
  next other =>
    constructor
    · nofun
    · rintro ⟨⟨content, origin, writes⟩, found, rfl⟩
      exact absurd found (other index origin writes)

theorem Fs.pointer_apply {call : Nat} {fs : Fs} {e : Effect} (other : .pointer ∉ e.paths) :
    Fs.pointer (e.apply call fs) = fs.pointer := by
  unfold pointer
  rw [Fs.file_apply_of_notMem other]

section Prepare

variable {ours : Versions} {pid : UInt32} {full granted : Bool} {fs : Fs} {pc pc' : Pc} {e : Effect} {a : Action}

variable {previous : IndexState}

variable {todo : List (Generation × Suffix)}

theorem mem_superseded {recorded kept : List Text} {previous' : IndexState}
    (same : superseded previous recorded = .retire previous' kept todo) :
    previous' = previous ∧ kept = recorded.filter (fun database => previous.publishedDatabase = some database) ∧
      ∀ g suffix, (g, suffix) ∈ todo ↔
        g.name ∈ recorded ∧ previous.publishedDatabase ≠ some g.name ∧ suffix ∈ suffixes := by
  obtain ⟨rfl, rfl, rfl⟩ := Pc.retire.inj same
  refine ⟨rfl, rfl, fun g suffix => ?_⟩
  simp only [List.mem_flatMap, List.mem_filterMap, List.mem_filter, List.mem_map, Prod.mk.injEq, Generation.ofName_eq_some]
  constructor
  · rintro ⟨g', ⟨name, ⟨mem, other⟩, rfl⟩, suffix', suffixMem, rfl, rfl⟩
    exact ⟨mem, of_decide_eq_true other, suffixMem⟩
  · rintro ⟨mem, other, suffixMem⟩
    exact ⟨g, ⟨g.name, ⟨mem, decide_eq_true other⟩, rfl⟩, suffix, suffixMem, rfl, rfl⟩

theorem prepare_checkDatabase {index : PublishedIndex}
    (run : prepare ours pid full granted fs pc a = some (e, .checkDatabase index)) :
    e = .none ∧ fs.pointer = some index ∧ index.versions = ours := by
  generalize to_ : Pc.checkDatabase index = pc' at run
  revert run
  fun_cases prepare ours pid full granted fs pc a <;> intro run <;>
    grind [Fs.pointer_eq_some, superseded, Option.map_eq_some_iff]

/-- A published index that this binary can read is ready, unless the look at its database fails. -/
theorem prepare_readOwned (run : prepare ours pid full granted fs pc a = some (e, .readOwned previous)) : e = .none ∧
      ∀ index, fs.pointer = some index → index.versions = ours →
        isGenerationName ours.extractorVersion index.database = true → (fs[index.database]?).isSome = true →
        (∀ checked, pc = .checkDatabase checked → checked = index) → a ≠ .statFails → previous = .ready index := by
  generalize to_ : Pc.readOwned previous = pc' at run
  revert run
  fun_cases prepare ours pid full granted fs pc a <;> intro run <;>
    grind [Fs.pointer_eq_some, superseded, Option.map_eq_some_iff]

theorem prepare_retire {kept : List Text}
    (run : prepare ours pid full granted fs pc a = some (e, .retire previous kept todo)) :
    (∃ g suffix, pc = .retire previous kept ((g, suffix) :: todo) ∧ e = .unlink (.file g suffix)) ∨
      (pc = .readOwned previous ∧ e = .none ∧ ∃ recorded, superseded previous recorded = .retire previous kept todo ∧
          ((recorded = [] ∧ a = .fail) ∨ (recorded = fs.owned ∧ a = .next))) := by
  generalize to_ : Pc.retire previous kept todo = pc' at run
  revert run
  fun_cases prepare ours pid full granted fs pc a <;> intro run <;>
    grind [superseded, Option.map_eq_some_iff]

theorem prepare_creating {g : Generation} (run : prepare ours pid full granted fs pc a = some (e, pc'))
    (creating : pc'.creating = some g) : pc.creating = some g ∨ fs.file (.file g .database) = none := by
  revert run
  fun_cases prepare ours pid full granted fs pc a <;> intro run <;>
    grind [Pc.creating, superseded, Option.map_eq_some_iff, Option.isSome_iff_ne_none]

theorem prepare_statFails (run : prepare ours pid full granted fs pc .statFails = some (e, pc')) :
    ∃ index, pc = .checkDatabase index := by
  cases pc with
  | checkDatabase index => exact ⟨index, rfl⟩
  | record previous g recorded stage => cases stage <;> cases run
  | reclaim todo | retire previous kept todo => cases todo <;> cases run
  | _ => cases run

end Prepare

/-! ### What a call has settled on -/

/-- The generation that a caller has named. -/
def Pc.planned : Pc → Option Generation
  | .record _ g _ _ => some g
  | .listUnowned _ g _ => some g
  | .createGeneration plan => some plan.generation
  | .copySeed _ plan => some plan.generation
  | .createLockFile plan => some plan.generation
  | .spawn plan => some plan.generation
  | _ => none

def Job.generation : Job → Option Generation
  | .building g => some g
  | .decide g _ => some g
  | .finalizing g => some g
  | .pointing g _ => some g
  | .discard g _ _ => some g
  | .discarding g _ _ _ => some g
  | _ => Option.none

/-- Whether `atomic_write` has yet to replace its file, and has not failed. -/
def AtomicWrite.pending : AtomicWrite → Bool
  | .flushDir _ => false
  | .cleanUp _ => false
  | _ => true

/-- The generation of a build thread that has completed it, and not yet published. -/
def Job.completed : Job → Option Generation
  | .decide g .completed => some g
  | .finalizing g => some g
  | .pointing g stage => if stage.pending then some g else Option.none
  | _ => Option.none

/-- The temporary file holds what is to be written. -/
def Staged (fs : Fs) (content : Content) : AtomicWrite → Prop
  | .write temp => ∃ file, fs.file (.staging temp) = some file ∧ file.origin ≠ none
  | .flush temp => ∃ file, fs.file (.staging temp) = some file ∧ file.origin ≠ none ∧ file.content = content
  | .rename temp => ∃ file, fs.file (.staging temp) = some file ∧ file.origin ≠ none ∧ file.content = content
  | _ => True

section Work

variable {ours : Versions} {pid : UInt32} {full granted : Bool} {fs : Fs} {slot : Slot} {e : Effect} {a : Action}

variable {stage stage' : AtomicWrite} {target : Replaced} {content : Content}

theorem atomicWrite_staged (call : Nat)
    (staged : Staged fs content stage) (run : atomicWrite fs pid target content stage a = some (e, .going stage')) :
    Staged (e.apply call fs) content stage' := by
  cases atomicWrite_step run <;>
    grind [Staged, Fs.file_write, File.written, Effect.apply, Option.isSome_iff_ne_none]

theorem atomicWrite_pending (run : atomicWrite fs pid target content stage a = some (e, .going stage')) :
    (stage'.pending = true → stage.pending = true) ∧
      (stage'.moved = false → stage.moved = true → a = .fail ∧ ∃ temp, stage = .flushDir temp) := by
  cases atomicWrite_step run with
  | fails stage temp among =>
    simp only [List.mem_cons, List.not_mem_nil, or_false] at among
    rcases among with rfl | rfl | rfl | rfl <;> simp [AtomicWrite.pending, AtomicWrite.moved]
  | _ => simp [AtomicWrite.pending, AtomicWrite.moved]

variable {g : Generation}

theorem prepare_planned {pc pc' : Pc} (run : prepare ours pid full granted fs pc a = some (e, pc'))
    (planned : pc'.planned = some g) : pc.planned = some g ∨
      ∃ previous owned number, pc = .nameGeneration previous owned ∧ e = .none ∧
        pc' = .record previous g (insertName g.name owned) .create ∧ g = .numbered ours.extractorVersion number ∧
          (a ≠ .chooseTaken number → fs.taken ours.extractorVersion number = false) := by
  revert run
  fun_cases prepare ours pid full granted fs pc a <;> intro run <;>
    grind [Pc.planned, superseded, Option.map_eq_some_iff]

variable {job job' : Job}

theorem work_generation (run : work ours pid fs slot job a = some (e, job'))
    (generation : job'.generation = some g) : job.generation = some g := by
  revert run
  fun_cases work ours pid fs slot job a <;> intro run <;> grind [Job.generation, Option.map_eq_some_iff]

theorem work_pointing_of {job : Job} {stage : AtomicWrite}
    (run : work ours pid fs slot job a = some (e, .pointing g stage)) : (∃ stage', job = .pointing g stage' ∧
        atomicWrite fs pid .pointer (.pointer ⟨g.name, ours⟩) stage' a = some (e, .going stage)) ∨ stage = .create := by
  generalize to_ : Job.pointing g stage = job' at run
  revert run
  fun_cases work ours pid fs slot job a <;> intro run <;> grind [Option.map_eq_some_iff]

theorem work_unpublished (run : work ours pid fs slot job a = some (e, job'))
    (flushes : ∀ g temp, job = .pointing g (.flushDir temp) → a ≠ .fail) (unpublished : job'.unpublished = some g) :
    job.unpublished = some g ∧ e.publishes = 0 := by
  by_cases pointing : ∃ g stage, job = .pointing g stage
  · obtain ⟨g', stage, rfl⟩ := pointing
    obtain ⟨progress, writes, rfl⟩ := work_pointing run
    have same : g' = g ∧ stage.moved = false ∧ ∀ temp, progress ≠ .going (.flushDir temp) := by
      cases progress with
      | written => cases unpublished
      | failed =>
        refine ⟨Option.some.inj unpublished, ?_, nofun⟩
        cases stage with
        | flushDir temp =>
          have := atomicWrite_flushed writes (flushes g' temp rfl)
          cases this.2
        | _ => rfl
      | going stage' =>
        simp only [Job.unpublished] at unpublished
        split at unpublished
        next => cases unpublished
        next unmoved =>
          refine ⟨Option.some.inj unpublished, ?_, ?_⟩
          · by_contra moved
            obtain ⟨rfl, temp, rfl⟩ := (atomicWrite_pending writes).2 (by simpa using unmoved) (by simpa using moved)
            exact flushes g' temp rfl rfl
          · rintro temp ⟨⟩
            exact unmoved rfl
    obtain ⟨rfl, unmoved, going⟩ := same
    refine ⟨by simp [Job.unpublished, unmoved], ?_⟩
    rcases atomicWrite_publishes writes with ⟨none, -⟩ | ⟨temp, -, -, moved⟩
    · exact none
    · exact absurd moved (going temp)
  · revert run
    fun_cases work ours pid fs slot job a <;> intro run <;>
      grind [Job.unpublished, Effect.publishes, AtomicWrite.moved]

theorem work_completed (run : work ours pid fs slot job a = some (e, job')) (completed : job'.completed = some g) :
    (job.completed = some g ∧ .file g .database ∉ e.paths) ∨ e = .write (.file g .database) (.database true) := by
  by_cases pointing : ∃ g stage, job = .pointing g stage
  · obtain ⟨g', stage, rfl⟩ := pointing
    obtain ⟨progress, writes, rfl⟩ := work_pointing run
    cases progress with
    | written | failed => cases completed
    | going stage' =>
      simp only [Job.completed] at completed
      split at completed
      next pending =>
        obtain rfl := Option.some.inj completed
        refine .inl ⟨by simp [Job.completed, (atomicWrite_pending writes).1 pending], ?_⟩
        rcases atomicWrite_effect writes with rfl | ⟨temp, content, rfl⟩ | ⟨temp, rfl⟩ | ⟨temp, -, rfl⟩ <;>
          simp [Effect.paths, Replaced.path]
      next => cases completed
  · revert run
    fun_cases work ours pid fs slot job a <;> intro run <;>
      grind [Job.completed, Effect.paths, AtomicWrite.pending, sqliteContent]

end Work

/-! ### The steps that reach what is published -/

/-- Whether a step is the look at the published database that fails. -/
def Call.statFails (call : Call) (label : Thread × Action) : Bool :=
  match call.pc, label with
  | .checkDatabase _, (.caller, .statFails) => true
  | _, _ => false

/-- Whether a step reads a record that contains the generation of a pointer that this binary cannot
read. -/
def Call.retiresPublished (call : Call) (fs : Fs) (label : Thread × Action) : Bool :=
  match call.pc, label with
  | .readOwned _, (.caller, .next) =>
    fs.pointer.any fun index => index.versions ≠ call.ours ∧ index.database ∈ fs.owned
  | _, _ => false

namespace State

variable (s : State)

/-- Whether a step neither fails to flush the directory after the pointer was moved, nor fails to look at
the published database, nor reads a record that contains a generation published by another binary. -/
def SparesPublished (label : Nat × Thread × Action) : Prop :=
  ((s.calls[label.1]?).all fun call =>
    !call.flushFails label.2 && !call.statFails label.2 && !call.retiresPublished s.fs label.2) = true

instance (label : Nat × Thread × Action) : Decidable (s.SparesPublished label) := inferInstanceAs (Decidable (_ = true))

def Names (index : PublishedIndex) : Prop :=
  ∃ number db, index.database = (Generation.numbered index.versions.extractorVersion number).name ∧
    s.fs.file (.file (.numbered index.versions.extractorVersion number) .database) = some db ∧
    s.current = some db ∧ db.content = .database true

/-- The published generation is whole: a pointer that a build wrote names one, and a call that answers
without having published has changed neither. -/
structure Whole : Prop where
  pointer : ∀ file, s.fs.file .pointer = some file → file.origin ≠ none →
    ∃ index, file.content = .pointer index ∧ s.Names index
  spared : ∀ call ∈ s.calls, ∀ answer, call.pc = .answered answer → answer.isPublished = false →
    call.touched = false

end State

/-! ### What a call relies on -/

def Call.planned (call : Call) : Option Generation := call.pc.planned.or call.job.generation

/-- What a call knows about the pointer, and about its own files. -/
structure Call.Claims (fs : Fs) (call : Call) : Prop where
  checked : ∀ index, call.pc = .checkDatabase index → fs.pointer = some index ∧ index.versions = call.ours
  previous : ∀ previous, call.pc = .readOwned previous → ∀ index, fs.pointer = some index →
    index.versions = call.ours → previous = .ready index
  retires : ∀ previous kept todo, call.pc = .retire previous kept todo → ∀ index, fs.pointer = some index →
    ∀ g suffix, (g, suffix) ∈ todo → g.name ≠ index.database
  own : ∀ g, call.unpublished = some g → ∀ index, fs.pointer = some index → g.name ≠ index.database
  complete : ∀ g, call.job.completed = some g →
    ∃ db, fs.file (.file g .database) = some db ∧ db.content = .database true
  staged : ∀ g stage, call.job = .pointing g stage → Staged fs (.pointer ⟨g.name, call.ours⟩) stage
  numbered : ∀ g, call.planned = some g → ∃ number, g = .numbered call.ours.extractorVersion number

theorem Path.name_database (g : Generation) : (Path.file g .database).name = g.name := List.append_nil _

theorem Fs.file_database (fs : Fs) (g : Generation) : fs.file (.file g .database) = fs[g.name]? :=
  congrArg (fun name : Text => fs[name]?) (Path.name_database g)

variable {g : Generation}

theorem Pc.planned_of_creating {pc : Pc} (creating : pc.creating = some g) : pc.planned = some g := by
  cases pc <;> simp_all [Pc.creating, Pc.planned]

theorem Pc.locked_of_planned {pc : Pc} (planned : pc.planned = some g) : pc.locked = true := by
  cases pc <;> simp_all [Pc.locked, Pc.planned]

theorem Job.locked_of_generation {job : Job} (generation : job.generation = some g) : job.locked = true := by
  cases job <;> simp_all [Job.locked, Job.generation]

namespace Call

variable {call call' : Call} {granted : Bool} {fs fs' : Fs} {e : Effect} {label : Thread × Action}

theorem Claims.of_unlocked (free : ¬ call.Locked) : call.Claims fs where
  checked _ pc := absurd (.inl (by rw [pc]; rfl)) free
  previous _ pc := absurd (.inl (by rw [pc]; rfl)) free
  retires _ _ _ pc := absurd (.inl (by rw [pc]; rfl)) free
  own _ own := absurd (locked_of_unpublished own) free
  complete g completed := by
    refine absurd (.inr ?_) free
    cases job : call.job <;> simp_all [Job.completed, Job.locked]
  staged _ _ job := absurd (.inr (by rw [job]; rfl)) free
  numbered g planned := by
    rcases Option.or_eq_some_iff.mp planned with pc | ⟨-, job⟩
    · exact absurd (.inl (Pc.locked_of_planned pc)) free
    · exact absurd (.inr (Job.locked_of_generation job)) free

theorem Staged.congr {content : Content} {stage : AtomicWrite} (same : ∀ path, path ≠ .lock → fs'.file path = fs.file path)
    (staged : Staged fs content stage) : Staged fs' content stage := by
  unfold Staged at staged ⊢
  split <;> simp_all

theorem Claims.congr (same : ∀ path, path ≠ .lock → fs'.file path = fs.file path) (claims : call.Claims fs) :
    call.Claims fs' := by
  have pointer : fs'.pointer = fs.pointer := by
    unfold Fs.pointer
    rw [same .pointer nofun]
  constructor
  · rw [pointer]
    exact claims.checked
  · rw [pointer]
    exact claims.previous
  · rw [pointer]
    exact claims.retires
  · rw [pointer]
    exact claims.own
  · intro g completed
    rw [same (.file g .database) nofun]
    exact claims.complete g completed
  · intro g stage job
    exact Staged.congr same (claims.staged g stage job)
  · exact claims.numbered

theorem Claims.other {other : Call} (k : Nat) (claims : call.Claims fs) (does : other.Does fs e)
    (exclusive : other.Locked → ¬ call.Locked) : call.Claims (e.apply k fs) := by
  by_cases locked : other.Locked
  · exact .of_unlocked (exclusive locked)
  · refine claims.congr fun path apart => Fs.file_apply_of_notMem ?_
    rcases does.unlocked locked with rfl | rfl
    · exact List.not_mem_nil
    · simpa [Effect.paths] using apart

theorem Does.spares (does : call.Does fs e) (claims : call.Claims fs) {index : PublishedIndex} {g : Generation}
    {db : File} (pointer : fs.pointer = some index) (name : index.database = g.name)
    (present : fs.file (.file g .database) = some db) (stays : e.publishes = 0) : .file g .database ∉ e.paths := by
  have apart : ∀ h : Generation, h.name ≠ index.database → ∀ suffix, Path.file g .database ≠ .file h suffix := by
    rintro h different suffix same
    obtain ⟨rfl, -⟩ := Path.file.inj same
    exact different name.symm
  cases does with
  | point => cases stays
  | retire previous kept h suffix rest pc =>
    simpa [Effect.paths] using
      apart h (claims.retires _ _ _ pc index pointer h suffix List.mem_cons_self) suffix
  | create plan pc absent =>
    rintro (_ | ⟨_, ⟨⟩⟩)
    rw [absent] at present
    cases present
  | write h suffix content own | unlink h suffix own => simpa [Effect.paths] using apart h (claims.own h own index pointer) suffix
  | _ => simp [Effect.paths, Replaced.path]

theorem next_publishes (run : call.next granted fs label = some (e, call')) :
    call'.publishes = call.publishes + e.publishes ∧ call'.ours = call.ours := by
  rcases next_cases run with ⟨-, rfl, rfl⟩ | ⟨-, -, run⟩ | ⟨-, -, run⟩
  · exact ⟨rfl, rfl⟩
  · rcases advance_cases run with ⟨plan, -, rfl, rfl⟩ | ⟨plan, -, -, rfl, looks⟩ | ⟨plan, -, rfl, rfl⟩ | ⟨pc', prepares, rfl⟩
    · exact ⟨rfl, rfl⟩
    · rcases looks with ⟨result, -, rfl⟩ | ⟨-, rfl | rfl⟩ <;> exact ⟨rfl, rfl⟩
    · exact ⟨rfl, rfl⟩
    · rcases prepare_effect prepares with rfl | rfl | ⟨-, ⟨temp, rfl⟩ | ⟨temp, content, rfl⟩⟩ |
        ⟨_, _, _, temp, -, rfl⟩ | ⟨_, _, g, suffix, _, -, rfl⟩ | ⟨plan, -, -, rfl⟩ | ⟨g, suffix, content, -, rfl⟩ <;>
        exact ⟨rfl, rfl⟩
  · rcases build_cases run with ⟨phase, rfl, rfl⟩ | ⟨job', works, rfl⟩ <;> exact ⟨rfl, rfl⟩

theorem unpublished_of_divided (divided : call.pc.divided = true) : call.unpublished = call.job.unpublished := by
  cases pc : call.pc <;> simp_all [Pc.divided, Pc.creating, unpublished]

theorem planned_of_divided (divided : call.pc.divided = true) : call.planned = call.job.generation := by
  cases pc : call.pc <;> simp_all [Pc.divided, Pc.planned, planned]

theorem Claims.of_job (divided : call.pc.divided = true)
    (own : ∀ g, call.job.unpublished = some g → ∀ index, fs.pointer = some index → g.name ≠ index.database)
    (complete : ∀ g, call.job.completed = some g →
      ∃ db, fs.file (.file g .database) = some db ∧ db.content = .database true)
    (staged : ∀ g stage, call.job = .pointing g stage → Staged fs (.pointer ⟨g.name, call.ours⟩) stage)
    (numbered : ∀ g, call.job.generation = some g → ∃ number, g = .numbered call.ours.extractorVersion number) :
    call.Claims fs := by
  have free : call.pc.locked ≠ true := fun locked => by
    rw [Pc.divided_of_locked locked] at divided
    cases divided
  constructor
  · exact fun _ pc => absurd (by rw [pc]; rfl) free
  · exact fun _ pc => absurd (by rw [pc]; rfl) free
  · exact fun _ _ _ pc => absurd (by rw [pc]; rfl) free
  · rw [unpublished_of_divided divided]
    exact own
  · exact complete
  · exact staged
  · rw [planned_of_divided divided]
    exact numbered

theorem Claims.divided (claims : call.Claims fs) (before : call.pc.divided = true) (after : call'.pc.divided = true)
    (job : call'.job = call.job) (ours : call'.ours = call.ours) : call'.Claims fs := by
  have own := claims.own
  have numbered := claims.numbered
  rw [unpublished_of_divided before] at own
  rw [planned_of_divided before] at numbered
  exact .of_job after (by rw [job]; exact own) (by rw [job]; exact claims.complete)
    (by rw [job, ours]; exact claims.staged) (by rw [job, ours]; exact numbered)

variable {a : Action}

/-- What the caller relies on after a step of its own. -/
theorem Claims.prepares (k : Nat) (claims : call.Claims fs) (job : call.job = .none) {pc' : Pc}
    (readable : ∀ index, fs.pointer = some index → ∃ number db,
      index.database = (Generation.numbered index.versions.extractorVersion number).name ∧
        fs.file (.file (.numbered index.versions.extractorVersion number) .database) = some db)
    (prepares : prepare call.ours call.pid call.full granted fs call.pc a = some (e, pc'))
    (stats : call.statFails (.caller, a) = false) (retires : call.retiresPublished fs (.caller, a) = false) :
    ({ call with pc := pc' } : Call).Claims (e.apply k fs) := by
  have still : Fs.pointer (e.apply k fs) = fs.pointer := by
    refine Fs.pointer_apply ?_
    rcases prepare_effect prepares with rfl | rfl | ⟨-, ⟨temp, rfl⟩ | ⟨temp, content, rfl⟩⟩ |
      ⟨_, _, _, temp, -, rfl⟩ | ⟨_, _, g, suffix, _, -, rfl⟩ | ⟨plan, -, -, rfl⟩ | ⟨g, suffix, content, -, rfl⟩ <;>
      simp [Effect.paths, Replaced.path]
  constructor
  · rintro index rfl
    obtain ⟨rfl, found⟩ := prepare_checkDatabase prepares
    exact found
  · rintro previous rfl index pointer same
    obtain ⟨rfl, ready⟩ := prepare_readOwned prepares
    obtain ⟨number, db, name, present⟩ := readable index pointer
    have same : index.versions = call.ours := same
    refine ready index pointer same ?_ ?_ ?_ ?_
    · rw [name, ← same]
      exact isGenerationName_numbered _ _
    · rw [name, ← Fs.file_database, present]
      rfl
    · intro checked pc
      exact Option.some.inj ((claims.checked checked pc).1.symm.trans pointer)
    · rintro rfl
      obtain ⟨checked, pc⟩ := prepare_statFails prepares
      simp [Call.statFails, pc] at stats
  · rintro previous kept todo rfl index pointer g suffix mem
    rw [still] at pointer
    rcases prepare_retire prepares with ⟨h, suffix', pc, -⟩ | ⟨pc, -, recorded, same, origin⟩
    · exact claims.retires _ _ _ pc index pointer g suffix (List.mem_cons_of_mem _ mem)
    · obtain ⟨-, -, entries⟩ := mem_superseded same
      obtain ⟨inRecord, other, -⟩ := (entries g suffix).mp mem
      rcases origin with ⟨rfl, -⟩ | ⟨rfl, rfl⟩
      · cases inRecord
      · -- a recorded generation that the pointer names is this binary's, and then it is the published one
        intro name
        have versions : index.versions = call.ours := by
          by_contra different
          simp [Call.retiresPublished, pc, pointer, different, ← name, inRecord] at retires
        rw [claims.previous _ pc index pointer versions] at other
        exact other (congrArg some name.symm)
  · intro g own index pointer
    rw [still] at pointer
    have creating : pc'.creating = some g := by
      rcases Option.or_eq_some_iff.mp own with creating | ⟨-, unpublished⟩
      · exact creating
      · rw [show call.job = .none from job] at unpublished
        cases unpublished
    rcases prepare_creating prepares creating with before | absent
    · exact claims.own g (by rw [unpublished, before]; rfl) index pointer
    · obtain ⟨number, db, name, present⟩ := readable index pointer
      intro same
      rw [Fs.file_database, same, name, ← Fs.file_database, present] at absent
      cases absent
  · intro g completed
    rw [show call.job = .none from job] at completed
    cases completed
  · intro g stage pointing
    rw [show call.job = .none from job] at pointing
    cases pointing
  · intro g planned
    have named : pc'.planned = some g := by
      rcases Option.or_eq_some_iff.mp planned with named | ⟨-, generation⟩
      · exact named
      · rw [show call.job = .none from job] at generation
        cases generation
    rcases prepare_planned prepares named with before | ⟨_, _, number, -, -, -, numbered, -⟩
    · exact claims.numbered g (by rw [Call.planned, before]; rfl)
    · exact ⟨number, numbered⟩

/-- What a build thread relies on after a step of its own. -/
theorem Claims.works (k : Nat) (claims : call.Claims fs) (divided : call.pc.divided = true) {job' : Job}
    (works : work call.ours call.pid fs call.slot call.job a = some (e, job'))
    (flushes : ∀ g temp, call.job = .pointing g (.flushDir temp) → a ≠ .fail) (after : call'.pc = call.pc)
    (job : call'.job = job') (ours : call'.ours = call.ours) : call'.Claims (e.apply k fs) := by
  subst job
  refine .of_job (after ▸ divided) ?_ ?_ ?_ ?_
  · intro g own index pointer
    obtain ⟨before, stays⟩ := work_unpublished works flushes own
    have untouched : .pointer ∉ e.paths := by
      rcases work_effect works with rfl | ⟨-, ⟨temp, rfl⟩ | ⟨temp, content, rfl⟩⟩ | ⟨_, temp, -, rfl⟩ |
        ⟨g, suffix, -, ⟨content, rfl⟩ | ⟨rfl, -⟩⟩
      · exact List.not_mem_nil
      · simp [Effect.paths]
      · simp [Effect.paths]
      · cases stays
      · simp [Effect.paths]
      · simp [Effect.paths]
    rw [Fs.pointer_apply untouched] at pointer
    exact claims.own g (by rw [unpublished_of_divided divided, before]) index pointer
  · intro g completed
    rcases work_completed works completed with ⟨before, untouched⟩ | rfl
    · rw [Fs.file_apply_of_notMem untouched]
      exact claims.complete g before
    · exact ⟨_, Fs.file_write .., by unfold File.written; split <;> rfl⟩
  · intro g stage pointing
    rw [ours]
    rcases work_pointing_of (pointing ▸ works) with ⟨stage', before, writes⟩ | rfl
    · exact atomicWrite_staged k (claims.staged g stage' before) writes
    · trivial
  · intro g generation
    rw [ours]
    exact claims.numbered g (by rw [planned_of_divided divided, work_generation works generation])

theorem Claims.next {thread : Thread} (k : Nat) (claims : call.Claims fs) (honest : call.Honest)
    (readable : ∀ index, fs.pointer = some index → ∃ number db,
      index.database = (Generation.numbered index.versions.extractorVersion number).name ∧
        fs.file (.file (.numbered index.versions.extractorVersion number) .database) = some db)
    (run : call.next granted fs (thread, a) = some (e, call')) (flushes : call.flushFails (thread, a) = false)
    (stats : call.statFails (thread, a) = false) (retires : call.retiresPublished fs (thread, a) = false) :
    call'.Claims (e.apply k fs) := by
  rcases next_cases run with ⟨rfl, rfl, rfl⟩ | ⟨rfl, -, run⟩ | ⟨rfl, -, run⟩
  · refine .of_unlocked ?_
    rintro (pc | job)
    · unfold crashed at pc
      dsimp only at pc
      split at pc <;> cases pc
    · cases job
  · rcases advance_cases run with ⟨plan, spawn, rfl, rfl⟩ | ⟨plan, wait, -, rfl, looks⟩ |
      ⟨plan, expired, rfl, rfl⟩ | ⟨pc', prepares, rfl⟩
    · refine .of_job rfl ?_ nofun nofun ?_
      · rintro g ⟨⟩
        exact claims.own _ (by rw [unpublished, spawn]; rfl)
      · rintro g ⟨⟩
        exact claims.numbered _ (by rw [planned, spawn]; rfl)
    · have divided : call.pc.divided = true := by rw [wait]; rfl
      rcases looks with ⟨result, -, rfl⟩ | ⟨-, rfl | rfl⟩
      · exact claims.divided divided rfl rfl rfl
      · exact claims
      · exact claims.divided divided rfl rfl rfl
    · exact claims.divided (by rw [expired]; rfl) rfl rfl rfl
    · exact claims.prepares k (honest.undivided (prepare_divided prepares).1).2.1 readable prepares stats retires
  · rcases build_cases run with ⟨phase, rfl, rfl⟩ | ⟨job', works, rfl⟩
    · exact ⟨claims.checked, claims.previous, claims.retires, claims.own, claims.complete, claims.staged, claims.numbered⟩
    · have divided : call.pc.divided = true := by
        by_contra undivided
        exact (work_spawned works).1 (honest.undivided (by simpa using undivided)).2.1
      refine claims.works k divided works ?_ rfl rfl rfl
      rintro g temp pointing rfl
      simp [flushFails, pointing] at flushes

end Call

namespace State

/-- The invariant of the published generation. -/
structure Kept (s : State) : Prop where
  exclusive : s.Exclusive
  honest : ∀ call ∈ s.calls, call.Honest
  claims : ∀ call ∈ s.calls, call.Claims s.fs
  names : ∀ index, s.fs.pointer = some index → s.Names index
  written : ∀ file, s.fs.file .pointer = some file → file.origin ≠ none → s.fs.pointer ≠ none
  spared : ∀ call ∈ s.calls, call.touched = true → call.publishes ≠ 0

variable {s t : State} {label : Nat × Thread × Action}

theorem Names.readable {index : PublishedIndex} (names : s.Names index) : ∃ number db,
    index.database = (Generation.numbered index.versions.extractorVersion number).name ∧
      s.fs.file (.file (.numbered index.versions.extractorVersion number) .database) = some db := by
  obtain ⟨number, db, name, present, -⟩ := names
  exact ⟨number, db, name, present⟩

variable {call call' : Call} {e : Effect}

theorem Kept.same (kept : s.Kept) (mem : call ∈ s.calls)
    (run : call.next s.granted s.fs label.2 = some (e, call')) (stays : e.publishes = 0) :
    Fs.published (e.apply label.1 s.fs) = s.fs.published := by
  have does := Call.next_does (kept.honest call mem).divided run
  have untouched : .pointer ∉ e.paths := by
    rcases does.pointer with untouched | moves
    · exact untouched
    · rw [stays] at moves
      cases moves
  have pointer : Fs.pointer (e.apply label.1 s.fs) = s.fs.pointer := Fs.pointer_apply untouched
  unfold Fs.published
  rw [pointer, Fs.file_apply_of_notMem untouched]
  cases found : s.fs.pointer with
  | none => rfl
  | some index =>
    obtain ⟨number, db, name, present, -⟩ := kept.names index found
    have spares := does.spares (kept.claims call mem) found name present stays
    rw [Option.bind_some, Option.bind_some, name, ← Fs.file_database, ← Fs.file_database,
      Fs.file_apply_of_notMem spares]

theorem Kept.moved (kept : s.Kept) (mem : call ∈ s.calls)
    (run : call.next s.granted s.fs label.2 = some (e, call')) (moves : e.publishes = 1) :
    ∃ number db, Fs.pointer (e.apply label.1 s.fs) = some ⟨(Generation.numbered call.ours.extractorVersion number).name, call.ours⟩ ∧
      Fs.file (e.apply label.1 s.fs) (.file (.numbered call.ours.extractorVersion number) .database) = some db ∧
      db.content = .database true := by
  have claims := kept.claims call mem
  cases Call.next_does (kept.honest call mem).divided run with
  | point g temp job =>
    obtain ⟨file, found, -, content⟩ := claims.staged g _ job
    obtain ⟨db, present, complete⟩ := claims.complete g (by rw [job]; rfl)
    have planned : call.planned = some g := by
      have divided : call.pc.divided = true := by
        by_contra undivided
        have none := ((kept.honest call mem).undivided (by simpa using undivided)).2.1
        rw [job] at none
        cases none
      rw [Call.planned_of_divided divided, job]
      rfl
    obtain ⟨number, rfl⟩ := claims.numbered g planned
    refine ⟨number, db, ?_, ?_, complete⟩
    · exact Fs.pointer_eq_some.mpr ⟨file, Fs.file_rename found .pointer, content⟩
    · rw [Fs.file_apply_of_notMem (by simp [Effect.paths, Replaced.path]), present]
  | _ => cases moves

theorem Kept.next (kept : s.Kept) (condition : s.SparesPublished label) (next : s.next label = some t) : t.Kept := by
  obtain ⟨k, thread, a⟩ := label
  have exclusive := exclusive_next kept.exclusive next
  obtain ⟨call, e, call', found, run, rfl⟩ := next_eq_some.mp next
  have mem := List.mem_of_getElem? found
  have condition : (!call.flushFails (thread, a) && !call.statFails (thread, a) &&
      !call.retiresPublished s.fs (thread, a)) = true := by
    simpa [SparesPublished, found] using condition
  obtain ⟨⟨flushes, stats⟩, retires⟩ : (call.flushFails (thread, a) = false ∧ call.statFails (thread, a) = false) ∧
      call.retiresPublished s.fs (thread, a) = false := by
    simpa using condition
  have does := Call.next_does (kept.honest call mem).divided run
  obtain ⟨counts, ours⟩ := Call.next_publishes run
  have steady : e.publishes = 0 ∨ e.publishes = 1 := by
    unfold Effect.publishes
    split <;> simp
  have mine := Call.Claims.next k (kept.claims call mem) (kept.honest call mem)
    (fun index pointer => (kept.names index pointer).readable) run flushes stats retires
  constructor
  · exact exclusive
  · intro other memAfter
    rcases List.mem_or_eq_of_mem_set memAfter with old | rfl
    · exact kept.honest other old
    · have honest := Call.honest_next (kept.honest call mem) run flushes
      exact honest
  · intro other memAfter
    rcases mem_set memAfter with rfl | ⟨j, apart, old⟩
    · exact ⟨mine.checked, mine.previous, mine.retires, mine.own, mine.complete, mine.staged, mine.numbered⟩
    · refine (kept.claims other (List.mem_of_getElem? old)).other k does fun locked locked' => ?_
      exact kept.exclusive.absurd apart old found locked' locked
  · intro index pointer
    rcases steady with stays | moves
    · -- the pointer is as it was, and so is the file it names
      have same := kept.same mem run stays
      have untouched : Fs.pointer (e.apply k s.fs) = s.fs.pointer :=
        Fs.pointer_apply (does.pointer.resolve_right (by omega))
      obtain ⟨number, db, name, present, current, complete⟩ := kept.names index (untouched.symm.trans pointer)
      have spares := does.spares (kept.claims call mem) (untouched.symm.trans pointer) name present stays
      refine ⟨number, db, name, (Fs.file_apply_of_notMem spares).trans present, ?_, complete⟩
      show (if e.publishes = 1 then _ else _) = _
      rw [if_neg (by omega)]
      exact current
    · obtain ⟨number, db, moved, present, complete⟩ := kept.moved mem run moves
      obtain rfl := Option.mem_unique pointer moved
      refine ⟨number, db, rfl, present, ?_, complete⟩
      show (if e.publishes = 1 then _ else _) = _
      rw [if_pos moves, Fs.published]
      dsimp only
      rw [moved, Option.bind_some, ← Fs.file_database]
      exact present
  · intro file pointer written
    rcases steady with stays | moves
    · have untouched := does.pointer.resolve_right (by omega)
      rw [show Fs.pointer (e.apply k s.fs) = s.fs.pointer from Fs.pointer_apply untouched]
      exact kept.written file ((Fs.file_apply_of_notMem untouched).symm.trans pointer) written
    · obtain ⟨number, db, moved, -⟩ := kept.moved mem run moves
      rw [moved]
      nofun
  · intro other memAfter touched
    rcases List.mem_or_eq_of_mem_set memAfter with old | rfl
    · exact kept.spared other old touched
    · show call'.publishes ≠ 0
      rw [counts]
      rcases Bool.or_eq_true_iff.mp touched with before | changes
      · have := kept.spared call mem before
        omega
      · rcases steady with stays | moves
        · exact absurd (kept.same mem run stays) (of_decide_eq_true changes)
        · omega

end State

/-- **The published generation stays whole** in a run in which no directory flush fails after the pointer
was moved, no look at the published database fails, and no call reads a record that contains a generation
that another binary has published. -/
theorem published_stays_whole {s₀ s : State} {ls : List (Nat × Thread × Action)} (start : index.init s₀)
    (run : index.Run s₀ ls s) (met : index.Meets State.SparesPublished s₀ ls) : s.Whole := by
  obtain ⟨foreign, pointer, -, fresh⟩ := start
  have kept : s.Kept := by
    refine run.preserves_under (P := State.Kept) (fun _ _ _ => State.Kept.next) met ?_
    refine ⟨.of_fresh fresh, fun call mem => (fresh call mem).honest.1, fun call mem => .of_unlocked ?_, ?_, ?_, ?_⟩
    · obtain ⟨pc, job, -⟩ := fresh call mem
      simp [Call.Locked, pc, job, Pc.locked, Job.locked]
    · intro index found
      rw [pointer] at found
      cases found
    · intro file found written
      exact absurd (foreign _ file found) written
    · intro call mem touched
      rw [(fresh call mem).2.2.2.2.2] at touched
      cases touched
  constructor
  · intro file found written
    cases found' : s.fs.pointer with
    | none => exact absurd found' (kept.written file found written)
    | some index =>
      obtain ⟨file', same, content⟩ := Fs.pointer_eq_some.mp found'
      obtain rfl := Option.mem_unique found same
      exact ⟨index, content, kept.names index found'⟩
  · intro call mem answer answered unpublished
    by_contra touched
    have publishes := kept.spared call mem (by simpa using touched)
    have once := (kept.honest call mem).published_le
    have := ((kept.honest call mem).answered answered).mpr (by omega)
    rw [unpublished] at this
    cases this

namespace Sample

def publishedState : State :=
  (answered.foldlM (fun (s : State) l => if s.SparesPublished l then s.next l else none) start).get (by decide +kernel)

theorem published_stays_whole_answered : publishedState.Whole := by
  obtain ⟨run, met⟩ := TransitionSystem.Run.of_apply_meets (T := index) (C := State.SparesPublished)
    (fun _ _ _ => Iff.rfl) (Option.some_get _).symm
  exact published_stays_whole start_init run met

def upgraded : State := ⟨∅, [call ours, call ⟨25, 2⟩], none⟩

def retired : List (Nat × Thread × Action) :=
  prepares 0 10 1 4 ++ builds 0 ++ steps 0 .builder 3 ++ steps 0 .caller 1 ++ (1, .caller, .start) :: steps 1 .caller 14 ++
    [(1, .caller, .fail)]

def retiredState : State := (retired.foldlM State.next upgraded).get (by decide +kernel)

/-- The pointer names a generation that a call which answered with an error has deleted. -/
theorem retired_not_whole : index.Run upgraded retired retiredState ∧ ¬ retiredState.Whole := by
  refine ⟨.of_apply (fun _ _ _ => id) (Option.some_get _).symm, fun whole => ?_⟩
  have answer : (retiredState.calls[1]?).map Call.pc =
      some (.answered (.error "read repository status for code-graph sync")) := by decide +kernel
  have touched : (retiredState.calls[1]?).map Call.touched = some true := by decide +kernel
  obtain ⟨call, found, pc⟩ := Option.map_eq_some_iff.mp answer
  rw [found] at touched
  have spared := whole.spared call (List.mem_of_getElem? found) _ pc rfl
  cases spared.symm.trans (Option.some.inj touched)

end Sample

end OrbitGraph.CodeIndex
