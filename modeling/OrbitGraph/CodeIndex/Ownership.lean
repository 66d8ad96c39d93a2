import OrbitGraph.CodeIndex.Publication

/-!
Whose files a call deletes and writes.

A generation is recorded before its first file is created, and a recorded generation has
no foreign files, since the name of a new one is taken where no file of it is, if the
looks at them do not fail. So what a call deletes and writes is its own, whether or not
it could read the record. A record is only replaced by one that keeps every generation of
which files are left, as long as it can be read: a call that cannot read it starts a new
one, and leaves the old generations to nobody.
-/

namespace OrbitGraph.CodeIndex

open Lib

/-! ### Files of generations -/

def Fs.Created (fs : Fs) (g : Generation) : Prop :=
  ∀ suffix ∈ suffixes, ∀ file, fs.file (.file g suffix) = some file → file.origin ≠ none

def Fs.CreatedBy (fs : Fs) (k : Nat) (g : Generation) : Prop :=
  ∀ suffix ∈ suffixes, ∀ file, fs.file (.file g suffix) = some file → file.origin = some k

/-- Every recorded generation of which files are left is among some names. -/
def Fs.CoveredBy (fs : Fs) (names : List Text) : Prop :=
  ∀ g : Generation, g.name ∈ fs.owned → ∀ suffix ∈ suffixes, fs.file (.file g suffix) ≠ none → g.name ∈ names

def Fs.Own (fs : Fs) (name : Text) : Prop := ∀ g : Generation, g.name = name → fs.Created g

namespace Fs

variable {fs fs' : Fs} {k : Nat} {g : Generation} {e : Effect}

theorem CreatedBy.created (mine : fs.CreatedBy k g) : fs.Created g := fun suffix mem file found => by
  rw [mine suffix mem file found]
  exact Option.some_ne_none _

theorem file_of_apply {suffix : Suffix} {file : File} (found : Fs.file (e.apply k fs) (.file g suffix) = some file) :
    (∃ old, fs.file (.file g suffix) = some old ∧ file.origin = old.origin) ∨
      (file.origin = some k ∧ fs.file (.file g suffix) = none ∧ ∃ content, e = .write (.file g suffix) content) := by
  by_cases touched : .file g suffix ∈ e.paths
  · cases e with
    | none => cases touched
    | write path content =>
      obtain rfl : Path.file g suffix = path := by simpa [Effect.paths] using touched
      rw [file_write] at found
      obtain rfl := Option.some.inj found
      cases old : fs.file (.file g suffix) with
      | none => exact .inr ⟨rfl, rfl, content, rfl⟩
      | some before => exact .inl ⟨before, rfl, rfl⟩
    | unlink path =>
      obtain rfl : Path.file g suffix = path := by simpa [Effect.paths] using touched
      rw [file_unlink] at found
      cases found
    | rename temp target => cases target <;> simp [Effect.paths, Replaced.path] at touched
  · rw [file_apply_of_notMem touched] at found
    exact .inl ⟨file, found, rfl⟩

theorem deleted {name : Text} {file : File} (before : fs[name]? = some file) (after : (e.apply k fs)[name]? = none) :
    (∃ path : Path, e = .unlink path ∧ path.name = name) ∨
      ∃ (temp : StagingName) (target : Replaced), e = .rename temp target ∧ temp.name = name := by
  rw [getElem?_apply, before] at after
  cases e with
  | none => cases after
  | write path content =>
    dsimp only at after
    split at after <;> cases after
  | unlink path =>
    refine .inl ⟨path, rfl, ?_⟩
    by_contra other
    dsimp only at after
    rw [if_neg other] at after
    cases after
  | rename temp target =>
    refine .inr ⟨temp, target, rfl, ?_⟩
    by_contra other
    dsimp only at after
    rw [if_neg other] at after
    split at after
    next => cases after
    next => split at after <;> cases after

theorem Created.apply (created : fs.Created g) (k : Nat) (e : Effect) : Fs.Created (e.apply k fs) g := by
  intro suffix mem file found
  rcases file_of_apply found with ⟨old, before, same⟩ | ⟨new, -⟩
  · rw [same]
    exact created suffix mem old before
  · rw [new]
    nofun

theorem CreatedBy.apply (mine : fs.CreatedBy k g) (e : Effect) : Fs.CreatedBy (e.apply k fs) k g := by
  intro suffix mem file found
  rcases file_of_apply found with ⟨old, before, same⟩ | ⟨new, -⟩
  · rw [same]
    exact mine suffix mem old before
  · exact new

theorem Own.apply {name : Text} (own : fs.Own name) (k : Nat) (e : Effect) : Fs.Own (e.apply k fs) name :=
  fun g named => (own g named).apply k e

theorem owned_apply (other : .owned ∉ e.paths) : Fs.owned (e.apply k fs) = fs.owned := by
  unfold owned
  rw [file_apply_of_notMem other]

theorem CoveredBy.apply {names : List Text} (covered : fs.CoveredBy names) (k : Nat) (other : .owned ∉ e.paths)
    (creates : ∀ g suffix content, e = .write (.file g suffix) content → fs.file (.file g suffix) ≠ none) :
    Fs.CoveredBy (e.apply k fs) names := by
  intro g recorded suffix mem present
  rw [owned_apply other] at recorded
  obtain ⟨file, found⟩ := Option.ne_none_iff_exists'.mp present
  rcases file_of_apply found with ⟨old, before, -⟩ | ⟨-, absent, content, write⟩
  · exact covered g recorded suffix mem (by rw [before]; exact Option.some_ne_none _)
  · exact absurd absent (creates g suffix content write)

end Fs

/-! ### What a caller goes on -/

def IndexState.index : IndexState → Option PublishedIndex
  | .ready index => some index
  | _ => none

def Pc.ready : Pc → Option PublishedIndex
  | .checkDatabase index => some index
  | .readOwned previous => previous.index
  | .retire previous _ _ => previous.index
  | .readCheckout previous _ => previous.index
  | .nameGeneration previous _ => previous.index
  | _ => none

/-- What a caller owns, after it has retired the rest. -/
def Pc.owned : Pc → Option (List Text)
  | .readCheckout _ owned => some owned
  | .nameGeneration _ owned => some owned
  | .record _ _ recorded _ => some recorded
  | _ => none

def Pc.recorded : Pc → Option Generation
  | .listUnowned _ g _ => some g
  | .createGeneration plan => some plan.generation
  | .copySeed _ plan => some plan.generation
  | .createLockFile plan => some plan.generation
  | .spawn plan => some plan.generation
  | _ => none

section Prepare

variable {ours : Versions} {pid : UInt32} {full granted : Bool} {fs : Fs} {pc pc' : Pc} {e : Effect} {a : Action}

theorem prepare_ready {index : PublishedIndex} (run : prepare ours pid full granted fs pc a = some (e, pc'))
    (ready : pc'.ready = some index) : pc.ready = some index ∨ (e = .none ∧ fs.pointer = some index) := by
  revert run
  fun_cases prepare ours pid full granted fs pc a <;> intro run <;>
    grind [Pc.ready, IndexState.index, superseded, Fs.pointer_eq_some, Option.map_eq_some_iff]

theorem prepare_owned {owned : List Text} (run : prepare ours pid full granted fs pc a = some (e, pc'))
    (owns : pc'.owned = some owned) :
    (pc.owned = some owned ∧ (e = .none ∨ ∃ previous g stage, pc = .record previous g owned stage)) ∨
      (∃ previous kept, pc = .retire previous kept [] ∧ owned = stillOwned previous kept ∧ e = .none) ∨
      ∃ previous owned' g, pc = .nameGeneration previous owned' ∧ owned = insertName g.name owned' ∧ e = .none ∧
        pc' = .record previous g owned .create := by
  revert run
  fun_cases prepare ours pid full granted fs pc a <;> intro run <;>
    grind [Pc.owned, superseded, Option.map_eq_some_iff]

variable {g : Generation}

variable {previous : IndexState}

theorem prepare_record {recorded : List Text} {stage : AtomicWrite}
    (run : prepare ours pid full granted fs pc a = some (e, .record previous g recorded stage)) :
    (∃ stage', pc = .record previous g recorded stage' ∧
        atomicWrite fs pid .owned (.owned recorded) stage' a = some (e, .going stage)) ∨
      (stage = .create ∧ e = .none ∧ ∃ owned, recorded = insertName g.name owned) := by
  generalize to_ : Pc.record previous g recorded stage = pc' at run
  revert run
  fun_cases prepare ours pid full granted fs pc a <;> intro run <;> grind [superseded, Option.map_eq_some_iff]

theorem prepare_recording {names : List Text} {stage : AtomicWrite}
    (run : prepare ours pid full granted fs (.record previous g names stage) a = some (e, pc')) :
    ∃ progress, atomicWrite fs pid .owned (.owned names) stage a = some (e, progress) := by
  have run : Option.map _ _ = _ := run
  obtain ⟨⟨effect, progress⟩, writes, same⟩ := Option.map_eq_some_iff.mp run
  obtain ⟨rfl, -⟩ := Prod.mk.inj same
  exact ⟨progress, writes⟩

theorem prepare_recorded (run : prepare ours pid full granted fs pc a = some (e, pc'))
    (recorded : pc'.recorded = some g) :
    pc.recorded = some g ∨ ∃ previous names stage, pc = .record previous g names stage ∧
      atomicWrite fs pid .owned (.owned names) stage a = some (e, .written) := by
  revert run
  fun_cases prepare ours pid full granted fs pc a <;> intro run <;>
    grind [Pc.recorded, superseded, Option.map_eq_some_iff]

end Prepare

theorem mem_stillOwned {previous : IndexState} {kept : List Text} {name : Text} :
    (name ∈ kept → name ∈ stillOwned previous kept) ∧
      (name ∈ stillOwned previous kept → name ∈ kept ∨ ∃ index, previous.index = some index ∧ index.database = name) := by
  cases previous with
  | ready index =>
    simp only [stillOwned, IndexState.publishedDatabase]
    split
    next => simp only [mem_insertName]; exact ⟨.inr, fun mem => mem.symm.imp_right fun same => ⟨index, rfl, same.symm⟩⟩
    next => exact ⟨id, .inl⟩
  | _ => exact ⟨id, .inl⟩

theorem Fs.file_of_not_taken {fs : Fs} {extractorVersion : UInt32} {number : UInt64}
    (free : fs.taken extractorVersion number = false) :
    ∀ suffix ∈ suffixes, fs.file (.file (.numbered extractorVersion number) suffix) = none := fun suffix mem => by
  simpa using List.any_eq_false.mp free suffix mem

theorem atomicWrite_written {fs : Fs} {pid : UInt32} {target : Replaced} {content : Content} {stage : AtomicWrite}
    {a : Action} {e : Effect} (run : atomicWrite fs pid target content stage a = some (e, .written)) :
    e = .none ∧ stage.moved = true := by
  cases atomicWrite_step run with
  | flushDir temp => exact ⟨rfl, rfl⟩

def Call.recordFails (call : Call) (label : Thread × Action) : Bool :=
  match call.pc, label with
  | .readOwned _, (.caller, .fail) => true
  | _, _ => false

/-- Whether a step is a look at the files of a new generation that fails. -/
def lookFails : Thread × Action → Bool
  | (.caller, .chooseTaken _) => true
  | _ => false

namespace State

variable (s : State)

/-- Whether no look at the files of a new generation fails. -/
def Looks (_ : State) (label : Nat × Thread × Action) : Prop := lookFails label.2 = false

instance (label : Nat × Thread × Action) : Decidable (s.Looks label) := inferInstanceAs (Decidable (_ = _))

/-- Whether no read of the record fails. -/
def ReadsRecord (label : Nat × Thread × Action) : Prop :=
  ((s.calls[label.1]?).all fun call => !call.recordFails label.2) = true

instance (label : Nat × Thread × Action) : Decidable (s.ReadsRecord label) := inferInstanceAs (Decidable (_ = true))

/-- The files of the generations are recorded as long as they are there. -/
def NoneLeaked : Prop :=
  ∀ g : Generation, ∀ suffix ∈ suffixes, ∀ file, s.fs.file (.file g suffix) = some file → file.origin ≠ none →
    g.name ∈ s.fs.owned

/-- Calls delete and write their own files, those of a generation from after it is recorded. -/
structure OwnFiles : Prop where
  named : ∀ name file, s.fs[name]? = some file → file.origin ≠ none → ∃ path : Path, name = path.name
  deletes : ∀ label t, s.next label = some t → ∀ name file, s.fs[name]? = some file → t.fs[name]? = none →
    name ∉ [pointerFile, lockFile, ownedFile] ∧ (isStagingName name = true ∨
      (file.origin ≠ none ∧ ∃ g, ∃ suffix ∈ suffixes, name = (Path.file g suffix).name))
  writes : ∀ label t, s.next label = some t → ∀ g, ∀ suffix ∈ suffixes, ∀ file,
    t.fs.file (.file g suffix) = some file → s.fs.file (.file g suffix) ≠ some file →
    file.origin = some label.1 ∧ g.name ∈ s.fs.owned

end State

/-! ### What a call holds on to -/

def Call.recorded (call : Call) : Option Generation := call.pc.recorded.or call.job.generation

/-- What a call knows about the record, and about the files that it creates and deletes; which generations have
files, it knows where it is `sure` that every record could be read. -/
structure Call.Holds (sure : Prop) (k : Nat) (fs : Fs) (call : Call) : Prop where
  ready : ∀ index, call.pc.ready = some index → fs.Own index.database
  retires : ∀ previous kept todo, call.pc = .retire previous kept todo →
    (∀ name ∈ kept, fs.Own name) ∧ (∀ g suffix, (g, suffix) ∈ todo → fs.Created g ∧ suffix ∈ suffixes) ∧
      (sure → ∀ g : Generation, g.name ∈ fs.owned → ∀ suffix ∈ suffixes, fs.file (.file g suffix) ≠ none →
        g.name ∈ kept ∨ (g, suffix) ∈ todo)
  owned : ∀ names, call.pc.owned = some names → (∀ name ∈ names, fs.Own name) ∧ (sure → fs.CoveredBy names)
  record : ∀ previous g names stage, call.pc = .record previous g names stage →
    g.name ∈ names ∧ Staged fs (.owned names) stage ∧ (stage.moved = true → fs.owned = names)
  mine : ∀ g, call.planned = some g → fs.CreatedBy k g
  recorded : ∀ g, call.recorded = some g → g.name ∈ fs.owned
  pointing : ∀ g stage, call.job = .pointing g stage → Staged fs (.pointer ⟨g.name, call.ours⟩) stage
  discards : ∀ g again reason todo, call.job = .discarding g again reason todo → ∀ suffix ∈ todo, suffix ∈ suffixes

variable {g : Generation} {pc : Pc}

theorem Pc.recorded_of_creating (creating : pc.creating = some g) : pc.recorded = some g := by
  cases pc <;> simp_all [Pc.creating, Pc.recorded]

theorem Pc.locked_of_recorded (recorded : pc.recorded = some g) : pc.locked = true := by
  cases pc <;> simp_all [Pc.locked, Pc.recorded]

theorem Job.generation_of_unpublished {job : Job} (unpublished : job.unpublished = some g) :
    job.generation = some g := by
  cases job <;> simp_all [Job.unpublished, Job.generation]

theorem Generation.ext {g h : Generation} (same : g.name = h.name) : g = h := by
  cases g
  cases h
  cases same
  rfl

theorem Fs.Created.own {fs : Fs} (created : fs.Created g) : fs.Own g.name := fun h named => by
  rw [Generation.ext named]
  exact created

theorem Fs.owned_of_file {fs : Fs} {file : File} {names : List Text} (found : fs.file .owned = some file)
    (content : file.content = .owned names) : fs.owned = names := by
  obtain ⟨content', origin, writes⟩ := file
  obtain rfl : content' = .owned names := content
  unfold owned
  rw [found]

namespace Call

variable {sure : Prop} {call call' : Call} {granted : Bool} {fs fs' : Fs} {e : Effect} {k : Nat}

theorem recorded_of_unpublished (divided : call.Divided) {g : Generation} (own : call.unpublished = some g) :
    call.recorded = some g ∧ call.planned = some g := by
  rcases Option.or_eq_some_iff.mp own with creating | ⟨-, job⟩
  · exact ⟨by rw [recorded, Pc.recorded_of_creating creating]; rfl, by rw [planned, Pc.planned_of_creating creating]; rfl⟩
  · have generation := Job.generation_of_unpublished job
    have after : call.pc.divided = true := by
      by_contra undivided
      rw [divided (by simpa using undivided)] at job
      cases job
    refine ⟨?_, by rw [planned_of_divided after, generation]⟩
    cases pc : call.pc <;> simp_all [Pc.divided, Pc.recorded, recorded]

theorem Holds.of_unlocked (free : ¬ call.Locked) : call.Holds sure k fs where
  ready index ready := by
    refine absurd (.inl ?_) free
    cases pc : call.pc <;> simp_all [Pc.ready, Pc.locked]
  retires _ _ _ pc := absurd (.inl (by rw [pc]; rfl)) free
  owned names owns := by
    refine absurd (.inl ?_) free
    cases pc : call.pc <;> simp_all [Pc.owned, Pc.locked]
  record _ _ _ _ pc := absurd (.inl (by rw [pc]; rfl)) free
  mine g planned := by
    rcases Option.or_eq_some_iff.mp planned with pc | ⟨-, job⟩
    · exact absurd (.inl (Pc.locked_of_planned pc)) free
    · exact absurd (.inr (Job.locked_of_generation job)) free
  recorded g recorded := by
    rcases Option.or_eq_some_iff.mp recorded with pc | ⟨-, job⟩
    · exact absurd (.inl (Pc.locked_of_recorded pc)) free
    · exact absurd (.inr (Job.locked_of_generation job)) free
  pointing _ _ job := absurd (.inr (by rw [job]; rfl)) free
  discards _ _ _ _ job := absurd (.inr (by rw [job]; rfl)) free

theorem Holds.congr (same : ∀ path, path ≠ .lock → fs'.file path = fs.file path) (holds : call.Holds sure k fs) :
    call.Holds sure k fs' := by
  have owned : fs'.owned = fs.owned := by
    unfold Fs.owned
    rw [same .owned nofun]
  have files : ∀ g suffix, fs'.file (.file g suffix) = fs.file (.file g suffix) := fun g suffix => same _ nofun
  have own : ∀ name, fs'.Own name ↔ fs.Own name := fun name => by simp only [Fs.Own, Fs.Created, files]
  constructor
  · simpa only [own] using holds.ready
  · simpa only [own, Fs.Created, files, owned] using holds.retires
  · simpa only [own, Fs.CoveredBy, files, owned] using holds.owned
  · intro previous g names stage pc
    obtain ⟨mem, staged, moved⟩ := holds.record previous g names stage pc
    exact ⟨mem, Staged.congr same staged, owned ▸ moved⟩
  · simpa only [Fs.CreatedBy, files] using holds.mine
  · simpa only [owned] using holds.recorded
  · exact fun g stage job => Staged.congr same (holds.pointing g stage job)
  · exact holds.discards

theorem Holds.other {other : Call} (j : Nat) (holds : call.Holds sure k fs) (does : other.Does fs e)
    (exclusive : other.Locked → ¬ call.Locked) : call.Holds sure k (e.apply j fs) := by
  by_cases locked : other.Locked
  · exact .of_unlocked (exclusive locked)
  · refine holds.congr fun path apart => Fs.file_apply_of_notMem ?_
    rcases does.unlocked locked with rfl | rfl
    · exact List.not_mem_nil
    · simpa [Effect.paths] using apart

theorem Does.owned (does : call.Does fs e) : .owned ∉ e.paths ∨
    ∃ previous g names temp, call.pc = .record previous g names (.rename temp) ∧ e = .rename temp .owned := by
  cases does with
  | record previous g names temp pc => exact .inr ⟨previous, g, names, temp, pc, rfl⟩
  | _ => exact .inl (by simp [Effect.paths, Replaced.path])

theorem Holds.of_job (divided : call.pc.divided = true) (mine : ∀ g, call.job.generation = some g → fs.CreatedBy k g)
    (recorded : ∀ g, call.job.generation = some g → g.name ∈ fs.owned)
    (pointing : ∀ g stage, call.job = .pointing g stage → Staged fs (.pointer ⟨g.name, call.ours⟩) stage)
    (discards : ∀ g again reason todo, call.job = .discarding g again reason todo → ∀ suffix ∈ todo, suffix ∈ suffixes) :
    call.Holds sure k fs := by
  have alone : call.pc.ready = none ∧ call.pc.owned = none ∧ call.pc.recorded = none ∧ call.pc.planned = none := by
    cases pc : call.pc <;> simp_all [Pc.divided, Pc.ready, Pc.owned, Pc.recorded, Pc.planned]
  constructor
  · intro index ready
    rw [alone.1] at ready
    cases ready
  · intro previous kept todo pc
    rw [pc] at divided
    cases divided
  · intro names owned
    rw [alone.2.1] at owned
    cases owned
  · intro previous g names stage pc
    rw [pc] at divided
    cases divided
  · rw [planned, alone.2.2.2]
    exact mine
  · rw [Call.recorded, alone.2.2.1]
    exact recorded
  · exact pointing
  · exact discards

theorem recorded_of_divided (divided : call.pc.divided = true) : call.recorded = call.job.generation := by
  cases pc : call.pc <;> simp_all [Pc.divided, Pc.recorded, recorded]

theorem Holds.divided (holds : call.Holds sure k fs) (before : call.pc.divided = true) (after : call'.pc.divided = true)
    (job : call'.job = call.job) (ours : call'.ours = call.ours) : call'.Holds sure k fs := by
  have mine := holds.mine
  have recorded := holds.recorded
  rw [planned_of_divided before] at mine
  rw [recorded_of_divided before] at recorded
  exact .of_job after (by rw [job]; exact mine) (by rw [job]; exact recorded) (by rw [job, ours]; exact holds.pointing)
    (by rw [job]; exact holds.discards)

theorem Holds.replaced (holds : call.Holds sure k fs) {previous : IndexState} {g : Generation} {names : List Text}
    {temp : StagingName} (pc : call.pc = .record previous g names (.rename temp)) :
    Fs.owned (Effect.apply k fs (.rename temp .owned)) = names := by
  obtain ⟨-, ⟨file, found, -, content⟩, -⟩ := holds.record _ _ _ _ pc
  exact Fs.owned_of_file (Fs.file_rename found .owned) content

section Prepares

variable {pc' : Pc} {a : Action}

theorem Holds.ready_next (holds : call.Holds sure k fs) (pointer : ∀ index, fs.pointer = some index → fs.Own index.database)
    (prepares : prepare call.ours call.pid call.full granted fs call.pc a = some (e, pc')) {index : PublishedIndex}
    (ready : pc'.ready = some index) : Fs.Own (e.apply k fs) index.database := by
  rcases prepare_ready prepares ready with before | ⟨rfl, found⟩
  · exact (holds.ready index before).apply k e
  · exact pointer index found

variable {previous : IndexState}

theorem Holds.retires_next (holds : call.Holds sure k fs) (own : ∀ name ∈ fs.owned, fs.Own name)
    {kept : List Text} {todo : List (Generation × Suffix)}
    (prepares : prepare call.ours call.pid call.full granted fs call.pc a = some (e, .retire previous kept todo))
    (reads : sure → call.recordFails (.caller, a) = false) : (∀ name ∈ kept, Fs.Own (e.apply k fs) name) ∧
      (∀ g suffix, (g, suffix) ∈ todo → Fs.Created (e.apply k fs) g ∧ suffix ∈ suffixes) ∧
      (sure → ∀ g : Generation, g.name ∈ Fs.owned (e.apply k fs) → ∀ suffix ∈ suffixes,
        Fs.file (e.apply k fs) (.file g suffix) ≠ none → g.name ∈ kept ∨ (g, suffix) ∈ todo) := by
  rcases prepare_retire prepares with ⟨g, suffix, pc, rfl⟩ | ⟨pc, rfl, recorded, same, origin⟩
  · obtain ⟨names, created, covers⟩ := holds.retires _ _ _ pc
    refine ⟨fun name mem => (names name mem).apply k _, fun h other mem => ?_,
      fun sure h inRecord other known present => ?_⟩
    · obtain ⟨created, known⟩ := created h other (List.mem_cons_of_mem _ mem)
      exact ⟨created.apply k _, known⟩
    · -- what is still there was there before, and is not the file that was deleted
      rw [Fs.owned_apply (by simp [Effect.paths])] at inRecord
      obtain ⟨file, found⟩ := Option.ne_none_iff_exists'.mp present
      have before : fs.file (.file h other) ≠ none := by
        rcases Fs.file_of_apply found with ⟨old, before, -⟩ | ⟨-, -, content, write⟩
        · rw [before]
          exact Option.some_ne_none _
        · cases write
      refine (covers sure h inRecord other known before).imp_right fun mem => ?_
      rcases List.mem_cons.mp mem with deleted | mem
      · obtain ⟨rfl, rfl⟩ := Prod.mk.inj deleted
        exact absurd (Fs.file_unlink k fs _) present
      · exact mem
  · obtain ⟨-, rfl, entries⟩ := mem_superseded same
    rcases origin with ⟨rfl, rfl⟩ | ⟨rfl, -⟩
    · -- a record that cannot be read owns nothing, so that nothing is retired
      refine ⟨fun name mem => absurd (List.mem_of_mem_filter mem) List.not_mem_nil, fun g suffix mem => ?_, fun sure => ?_⟩
      · exact absurd ((entries g suffix).mp mem).1 List.not_mem_nil
      · have reads := reads sure
        simp [recordFails, pc] at reads
    · refine ⟨fun name mem => own name (List.mem_of_mem_filter mem), fun g suffix mem => ?_,
        fun _ g inRecord suffix known _ => ?_⟩
      · obtain ⟨inRecord, -, known⟩ := (entries g suffix).mp mem
        exact ⟨own g.name inRecord g rfl, known⟩
      · by_cases published : previous.publishedDatabase = some g.name
        · exact .inl (List.mem_filter.mpr ⟨inRecord, decide_eq_true published⟩)
        · exact .inr ((entries g suffix).mpr ⟨inRecord, published, known⟩)

variable {names : List Text}

theorem Holds.owned_next (holds : call.Holds sure k fs)
    (prepares : prepare call.ours call.pid call.full granted fs call.pc a = some (e, pc'))
    (mine : ∀ g, pc'.planned = some g → Fs.CreatedBy (e.apply k fs) k g)
    (owns : pc'.owned = some names) :
    (∀ name ∈ names, Fs.Own (e.apply k fs) name) ∧ (sure → Fs.CoveredBy (e.apply k fs) names) := by
  rcases prepare_owned prepares owns with ⟨before, origin⟩ | ⟨previous, kept, pc, rfl, rfl⟩ |
    ⟨previous, owned, g, pc, rfl, rfl, rfl⟩
  · obtain ⟨own, covers⟩ := holds.owned names before
    refine ⟨fun name mem => (own name mem).apply k e, fun sure => ?_⟩
    have covers := covers sure
    rcases origin with rfl | ⟨previous, g, stage, pc⟩
    · exact covers
    · obtain ⟨progress, writes⟩ := prepare_recording (pc ▸ prepares)
      rcases atomicWrite_effect writes with rfl | ⟨temp, content, rfl⟩ | ⟨temp, rfl⟩ | ⟨temp, rfl, rfl⟩
      · exact covers
      · exact covers.apply k (by simp [Effect.paths]) fun _ _ _ same => by cases same
      · exact covers.apply k (by simp [Effect.paths]) fun _ _ _ same => by cases same
      · -- the new record is what is kept
        intro h inRecord suffix known present
        rw [holds.replaced pc] at inRecord
        exact inRecord
  · obtain ⟨own, -, covers⟩ := holds.retires _ _ _ pc
    refine ⟨fun name mem => ?_, fun sure g inRecord suffix known present => ?_⟩
    · rcases mem_stillOwned.2 mem with mem | ⟨index, ready, rfl⟩
      · exact own name mem
      · exact holds.ready index (by rw [pc]; exact ready)
    · exact mem_stillOwned.1 ((covers sure g inRecord suffix known present).resolve_right List.not_mem_nil)
  · obtain ⟨own, covers⟩ := holds.owned owned (by rw [pc]; rfl)
    refine ⟨fun name mem => ?_, fun sure h inRecord suffix known present => ?_⟩
    · rcases mem_insertName.mp mem with rfl | mem
      · exact (mine g rfl).created.own
      · exact own name mem
    · exact mem_insertName.mpr (.inr (covers sure h inRecord suffix known present))

variable {g : Generation}

theorem Holds.record_next (holds : call.Holds sure k fs) {stage : AtomicWrite}
    (prepares : prepare call.ours call.pid call.full granted fs call.pc a = some (e, .record previous g names stage)) :
    g.name ∈ names ∧ Staged (e.apply k fs) (.owned names) stage ∧
      (stage.moved = true → Fs.owned (e.apply k fs) = names) := by
  rcases prepare_record prepares with ⟨stage', pc, writes⟩ | ⟨rfl, rfl, owned, rfl⟩
  · obtain ⟨mem, staged, -⟩ := holds.record _ _ _ _ pc
    refine ⟨mem, atomicWrite_staged k staged writes, fun moved => ?_⟩
    obtain ⟨temp, rfl⟩ : ∃ temp, stage = .flushDir temp := by
      cases stage <;> simp_all [AtomicWrite.moved]
    rcases atomicWrite_publishes writes with ⟨-, other⟩ | ⟨temp', rfl, rfl, -⟩
    · exact absurd rfl (other temp)
    · exact holds.replaced pc
  · exact ⟨mem_insertName.mpr (.inl rfl), trivial, fun moved => by cases moved⟩

theorem Holds.mine_next (holds : call.Holds sure k fs)
    (prepares : prepare call.ours call.pid call.full granted fs call.pc a = some (e, pc')) (looks : lookFails (.caller, a) = false)
    (planned : pc'.planned = some g) : Fs.CreatedBy (e.apply k fs) k g := by
  rcases prepare_planned prepares planned with before | ⟨previous, owned, number, pc, rfl, -, rfl, free⟩
  · exact (holds.mine g (by rw [Call.planned, before]; rfl)).apply e
  · have free := free (by rintro rfl; cases looks)
    intro suffix known file found
    cases (show fs.file _ = some file from found).symm.trans (Fs.file_of_not_taken free suffix known)

theorem Holds.recorded_next (holds : call.Holds sure k fs)
    (prepares : prepare call.ours call.pid call.full granted fs call.pc a = some (e, pc'))
    (does : call.Does fs e) (recorded : pc'.recorded = some g) : g.name ∈ Fs.owned (e.apply k fs) := by
  rcases prepare_recorded prepares recorded with before | ⟨previous, names, stage, pc, writes⟩
  · have mem := holds.recorded g (by rw [Call.recorded, before]; rfl)
    rcases does.owned with other | ⟨_, _, _, _, pc, -⟩
    · rw [Fs.owned_apply other]
      exact mem
    · rw [pc] at before
      cases before
  · obtain ⟨rfl, moved⟩ := atomicWrite_written writes
    obtain ⟨mem, -, same⟩ := holds.record _ _ _ _ pc
    show g.name ∈ fs.owned
    rw [same moved]
    exact mem

theorem Holds.prepares (holds : call.Holds sure k fs) (job : call.job = .none) (own : ∀ name ∈ fs.owned, fs.Own name)
    (pointer : ∀ index, fs.pointer = some index → fs.Own index.database)
    (prepares : prepare call.ours call.pid call.full granted fs call.pc a = some (e, pc'))
    (does : call.Does fs e) (reads : sure → call.recordFails (.caller, a) = false)
    (looks : lookFails (.caller, a) = false) :
    ({ call with pc := pc' } : Call).Holds sure k (e.apply k fs) := by
  have none : ∀ g, ¬ (Call.job { call with pc := pc' }).generation = some g := fun g generation => by
    rw [show Call.job _ = Job.none from job] at generation
    cases generation
  constructor
  · exact fun index ready => holds.ready_next pointer prepares ready
  · rintro previous kept todo rfl
    exact holds.retires_next own prepares reads
  · exact fun names owns => holds.owned_next prepares (fun g => holds.mine_next prepares looks) owns
  · rintro previous g names stage rfl
    exact holds.record_next prepares
  · intro g planned
    rcases Option.or_eq_some_iff.mp planned with named | ⟨-, generation⟩
    · exact holds.mine_next prepares looks named
    · exact absurd generation (none g)
  · intro g recorded
    rcases Option.or_eq_some_iff.mp recorded with named | ⟨-, generation⟩
    · exact holds.recorded_next prepares does named
    · exact absurd generation (none g)
  · intro g stage pointing
    exact absurd (by rw [pointing]; rfl) (none g)
  · intro g again reason todo discarding
    exact absurd (by rw [discarding]; rfl) (none g)

end Prepares

variable {a : Action}

/-- The files of a generation that are left to discard are the ones it began with, but the first. -/
theorem work_discarding {job : Job} {ours : Versions} {pid : UInt32} {slot : Slot} {g : Generation}
    {again : Bool} {reason : Reason} {todo : List Suffix}
    (run : work ours pid fs slot job a = some (e, .discarding g again reason todo)) :
    todo = suffixes ∨ ∃ suffix, job = .discarding g again reason (suffix :: todo) := by
  generalize to_ : Job.discarding g again reason todo = job' at run
  revert run
  fun_cases work ours pid fs slot job a <;> intro run
  case case15 | case16 =>
    obtain ⟨-, rfl⟩ := Prod.mk.inj (Option.some.inj run)
    obtain ⟨rfl, rfl, rfl, rfl⟩ := Job.discarding.inj to_
    exact .inr ⟨_, rfl⟩
  all_goals grind [Option.map_eq_some_iff]

theorem Holds.works (holds : call.Holds sure k fs) (divided : call.pc.divided = true) {job' : Job}
    (works : work call.ours call.pid fs call.slot call.job a = some (e, job')) (does : call.Does fs e)
    (after : call'.pc = call.pc) (job : call'.job = job') (ours : call'.ours = call.ours) :
    call'.Holds sure k (e.apply k fs) := by
  subst job
  refine .of_job (after ▸ divided) ?_ ?_ ?_ ?_
  · intro g generation
    exact (holds.mine g (by rw [planned_of_divided divided, work_generation works generation])).apply e
  · intro g generation
    have mem := holds.recorded g (by rw [recorded_of_divided divided, work_generation works generation])
    rcases does.owned with other | ⟨_, _, _, _, pc, -⟩
    · rw [Fs.owned_apply other]
      exact mem
    · rw [pc] at divided
      cases divided
  · intro g stage pointing
    rw [ours]
    rcases work_pointing_of (pointing ▸ works) with ⟨stage', before, writes⟩ | rfl
    · exact atomicWrite_staged k (holds.pointing g stage' before) writes
    · trivial
  · intro g again reason todo discarding suffix mem
    rcases work_discarding (discarding ▸ works) with rfl | ⟨first, before⟩
    · exact mem
    · exact holds.discards g again reason _ before suffix (List.mem_cons_of_mem _ mem)

theorem Holds.next {thread : Thread} (holds : call.Holds sure k fs) (divided : call.Divided)
    (own : ∀ name ∈ fs.owned, fs.Own name) (pointer : ∀ index, fs.pointer = some index → fs.Own index.database)
    (run : call.next granted fs (thread, a) = some (e, call'))
    (reads : sure → call.recordFails (thread, a) = false) (looks : lookFails (thread, a) = false) : call'.Holds sure k (e.apply k fs) := by
  have does := next_does divided run
  rcases next_cases run with ⟨rfl, rfl, rfl⟩ | ⟨rfl, -, run⟩ | ⟨rfl, -, run⟩
  · refine .of_unlocked ?_
    rintro (pc | job)
    · unfold crashed at pc
      dsimp only at pc
      split at pc <;> cases pc
    · cases job
  · rcases advance_cases run with ⟨plan, spawn, rfl, rfl⟩ | ⟨plan, wait, -, rfl, looks⟩ |
      ⟨plan, expired, rfl, rfl⟩ | ⟨pc', prepares, rfl⟩
    · refine .of_job rfl ?_ ?_ nofun nofun
      · rintro g ⟨⟩
        exact holds.mine _ (by rw [Call.planned, spawn]; rfl)
      · rintro g ⟨⟩
        exact holds.recorded _ (by rw [Call.recorded, spawn]; rfl)
    · have divided : call.pc.divided = true := by rw [wait]; rfl
      rcases looks with ⟨result, -, rfl⟩ | ⟨-, rfl | rfl⟩
      · exact holds.divided divided rfl rfl rfl
      · exact holds
      · exact holds.divided divided rfl rfl rfl
    · exact holds.divided (by rw [expired]; rfl) rfl rfl rfl
    · exact holds.prepares (divided (prepare_divided prepares).1) own pointer prepares does reads looks
  · rcases build_cases run with ⟨phase, rfl, rfl⟩ | ⟨job', works, rfl⟩
    · exact ⟨holds.ready, holds.retires, holds.owned, holds.record, holds.mine, holds.recorded, holds.pointing,
        holds.discards⟩
    · have after : call.pc.divided = true := by
        by_contra undivided
        exact (work_spawned works).1 (divided (by simpa using undivided))
      exact holds.works after works does rfl rfl rfl

end Call

/-! ### What holds of every state -/

theorem Fs.exists_path_of_apply {fs : Fs} {e : Effect} {k : Nat} {name : Text} {file : File}
    (before : ∀ name file, fs[name]? = some file → file.origin ≠ none → ∃ path : Path, name = path.name)
    (found : (e.apply k fs)[name]? = some file) (written : file.origin ≠ none) : ∃ path : Path, name = path.name := by
  by_cases touched : ∃ path ∈ e.paths, path.name = name
  · obtain ⟨path, -, rfl⟩ := touched
    exact ⟨path, rfl⟩
  · rw [Fs.getElem?_apply_of_ne fun path mem same => touched ⟨path, mem, same⟩] at found
    exact before name file found written

namespace State

/-- The invariant of the files in the directory; none is leaked where it is `sure` that every record could be
read. -/
structure Tracked (sure : Prop) (s : State) : Prop where
  exclusive : s.Exclusive
  divided : ∀ call ∈ s.calls, call.Divided
  holds : ∀ (k : Nat) call, s.calls[k]? = some call → call.Holds sure k s.fs
  paths : ∀ name file, s.fs[name]? = some file → file.origin ≠ none → ∃ path : Path, name = path.name
  recorded : sure → s.NoneLeaked
  own : ∀ name ∈ s.fs.owned, s.fs.Own name
  pointer : ∀ index, s.fs.pointer = some index → s.fs.Own index.database

variable {sure : Prop} {s t : State} {label : Nat × Thread × Action}

theorem Tracked.write (tracked : s.Tracked sure) {k : Nat} {call : Call} (found : s.calls[k]? = some call) {g : Generation}
    {suffix : Suffix} {content : Content} (does : call.Does s.fs (.write (.file g suffix) content)) :
    call.recorded = some g ∧ call.planned = some g := by
  cases does with
  | create plan pc absent => exact ⟨by rw [Call.recorded, pc]; rfl, by rw [Call.planned, pc]; rfl⟩
  | write _ _ _ own => exact Call.recorded_of_unpublished (tracked.divided call (List.mem_of_getElem? found)) own

theorem Tracked.next (tracked : s.Tracked sure) (looks : s.Looks label) (reads : sure → s.ReadsRecord label)
    (next : s.next label = some t) : t.Tracked sure := by
  obtain ⟨k, thread, a⟩ := label
  have exclusive := exclusive_next tracked.exclusive next
  obtain ⟨call, e, call', found, run, rfl⟩ := next_eq_some.mp next
  have mem := List.mem_of_getElem? found
  have reads : sure → call.recordFails (thread, a) = false := fun certain => by
    simpa [ReadsRecord, found] using reads certain
  have divided := tracked.divided call mem
  have holds := tracked.holds k call found
  have does := Call.next_does divided run
  have mine := holds.next divided tracked.own tracked.pointer run reads looks
  constructor
  · exact exclusive
  · intro other memAfter
    rcases List.mem_or_eq_of_mem_set memAfter with old | rfl
    · exact tracked.divided other old
    · have after := Call.divided_next divided run
      exact after
  · intro j other foundAfter
    rcases get_set foundAfter with ⟨rfl, rfl⟩ | ⟨apart, old⟩
    · exact ⟨mine.ready, mine.retires, mine.owned, mine.record, mine.mine, mine.recorded, mine.pointing, mine.discards⟩
    · refine (tracked.holds j other old).other k does fun locked locked' => ?_
      exact tracked.exclusive.absurd apart old found locked' locked
  · exact fun name file present written => Fs.exists_path_of_apply tracked.paths present written
  · intro certain g suffix known file present written
    rcases does.owned with other | ⟨previous, h, names, temp, pc, rfl⟩
    · rw [show Fs.owned (e.apply k s.fs) = s.fs.owned from Fs.owned_apply other]
      rcases Fs.file_of_apply present with ⟨old, before, same⟩ | ⟨-, -, content, rfl⟩
      · exact tracked.recorded certain g suffix known old before (same ▸ written)
      · exact holds.recorded g (tracked.write found does).1
    · -- the new record keeps every generation of which files are left
      rw [show Fs.owned (Effect.apply k s.fs _) = names from holds.replaced pc]
      rcases Fs.file_of_apply present with ⟨old, before, same⟩ | ⟨-, -, content, write⟩
      · have inRecord := tracked.recorded certain g suffix known old before (same ▸ written)
        exact (holds.owned names (by rw [pc]; rfl)).2 certain g inRecord suffix known (by rw [before]; exact Option.some_ne_none _)
      · cases write
  · intro name inRecord
    rcases does.owned with other | ⟨previous, h, names, temp, pc, rfl⟩
    · rw [show Fs.owned (e.apply k s.fs) = s.fs.owned from Fs.owned_apply other] at inRecord
      exact (tracked.own name inRecord).apply k e
    · rw [show Fs.owned (Effect.apply k s.fs _) = names from holds.replaced pc] at inRecord
      exact ((holds.owned names (by rw [pc]; rfl)).1 name inRecord).apply k _
  · intro index pointer
    by_cases untouched : .pointer ∉ e.paths
    · rw [show Fs.pointer (e.apply k s.fs) = s.fs.pointer from Fs.pointer_apply untouched] at pointer
      exact (tracked.pointer index pointer).apply k e
    · have moves := does.pointer.resolve_left untouched
      cases does with
      | point g temp job =>
        obtain ⟨file, staged, -, content⟩ := holds.pointing g _ job
        have after : call.pc.divided = true := by
          by_contra undivided
          rw [divided (by simpa using undivided)] at job
          cases job
        obtain ⟨file', same, content'⟩ := Fs.pointer_eq_some.mp pointer
        have renamed : Fs.file (Effect.apply k s.fs (.rename temp .pointer)) .pointer = some file :=
          Fs.file_rename staged .pointer
        obtain rfl := Option.mem_unique same renamed
        obtain rfl := Content.pointer.inj (content'.symm.trans content)
        have created := holds.mine g (by rw [Call.planned_of_divided after, job]; rfl)
        exact (created.created.own).apply k _
      | _ => cases moves

/-- A file is deleted as one that a call retires or discards, or as a temporary file. -/
theorem Tracked.deletes (tracked : s.Tracked sure) (next : s.next label = some t) {name : Text} {file : File}
    (before : s.fs[name]? = some file) (after : t.fs[name]? = none) :
    name ∉ [pointerFile, lockFile, ownedFile] ∧ (isStagingName name = true ∨
      (file.origin ≠ none ∧ ∃ g, ∃ suffix ∈ suffixes, name = (Path.file g suffix).name)) := by
  obtain ⟨call, e, call', found, run, rfl⟩ := next_eq_some.mp next
  have divided := tracked.divided call (List.mem_of_getElem? found)
  have holds := tracked.holds _ call found
  have staging : ∀ temp : StagingName, temp.name = name → name ∉ [pointerFile, lockFile, ownedFile] ∧
      (isStagingName name = true ∨ (file.origin ≠ none ∧ ∃ g, ∃ suffix ∈ suffixes, name = (Path.file g suffix).name)) := by
    rintro temp rfl
    exact ⟨staging_ne_fixed temp, .inl temp.staged⟩
  have generation : ∀ g suffix, suffix ∈ suffixes → s.fs.Created g → (Path.file g suffix).name = name →
      name ∉ [pointerFile, lockFile, ownedFile] ∧ (isStagingName name = true ∨
        (file.origin ≠ none ∧ ∃ g, ∃ suffix ∈ suffixes, name = (Path.file g suffix).name)) := by
    rintro g suffix known created rfl
    exact ⟨file_ne_fixed g suffix, .inr ⟨created suffix known file before, g, suffix, known, rfl⟩⟩
  have does := Call.next_does divided run
  rcases Fs.deleted before after with ⟨path, rfl, named⟩ | ⟨temp, target, rfl, named⟩
  · cases does with
    | clear temp => exact staging temp named
    | retire previous kept g suffix rest pc =>
      obtain ⟨-, entries, -⟩ := holds.retires _ _ _ pc
      obtain ⟨created, known⟩ := entries g suffix List.mem_cons_self
      exact generation g suffix known created named
    | unlink g suffix own known =>
      have mine := (holds.mine g (Call.recorded_of_unpublished divided own).2).created
      refine generation g suffix ?_ mine named
      rcases known with known | ⟨again, reason, rest, job⟩
      · exact known
      · exact holds.discards g again reason _ job suffix List.mem_cons_self
  · exact staging temp named

/-- A file of a generation that appears or changes is the call's own, and recorded. -/
theorem Tracked.writes (tracked : s.Tracked sure) (next : s.next label = some t) {g : Generation} {suffix : Suffix}
    (known : suffix ∈ suffixes) {file : File} (after : t.fs.file (.file g suffix) = some file)
    (before : s.fs.file (.file g suffix) ≠ some file) : file.origin = some label.1 ∧ g.name ∈ s.fs.owned := by
  obtain ⟨call, e, call', found, run, rfl⟩ := next_eq_some.mp next
  have divided := tracked.divided call (List.mem_of_getElem? found)
  have holds := tracked.holds _ call found
  have does := Call.next_does divided run
  have touched : .file g suffix ∈ e.paths := by
    by_contra other
    exact before ((Fs.file_apply_of_notMem other).symm.trans after)
  cases does with
  | write h other content own =>
    obtain ⟨rfl, rfl⟩ := Path.file.inj (List.mem_singleton.mp touched)
    obtain ⟨recorded, planned⟩ := Call.recorded_of_unpublished divided own
    exact ⟨(holds.mine g planned).apply _ suffix known file after, holds.recorded g recorded⟩
  | create plan pc absent =>
    obtain ⟨rfl, rfl⟩ := Path.file.inj (List.mem_singleton.mp touched)
    have mine := holds.mine plan.generation (by rw [Call.planned, pc]; rfl)
    have recorded := holds.recorded plan.generation (by rw [Call.recorded, pc]; rfl)
    exact ⟨mine.apply _ .database known file after, recorded⟩
  | retire previous kept h other rest pc | unlink h other own =>
    obtain ⟨rfl, rfl⟩ := Path.file.inj (List.mem_singleton.mp touched)
    cases (Fs.file_unlink label.1 s.fs _).symm.trans after
  | _ => simp [Effect.paths, Replaced.path] at touched

theorem Tracked.ownFiles (tracked : s.Tracked sure) : s.OwnFiles where
  named := tracked.paths
  deletes _ _ next _ _ before after := tracked.deletes next before after
  writes _ _ next _ _ known _ after before := tracked.writes next known after before

theorem Tracked.of_init (start : index.init s) : s.Tracked sure where
  exclusive := .of_fresh start.2.2.2
  divided call mem := (start.2.2.2 call mem).honest.1.divided
  holds k call found := by
    obtain ⟨pc, job, -⟩ := start.2.2.2 call (List.mem_of_getElem? found)
    refine .of_unlocked ?_
    rintro (locked | locked)
    · rw [pc] at locked
      cases locked
    · rw [job] at locked
      cases locked
  paths name file found written := absurd (start.1 name file found) written
  recorded _ g suffix _ file found written := absurd (start.1 _ file found) written
  own name mem := by
    rw [start.2.2.1] at mem
    cases mem
  pointer index found := by
    rw [start.2.1] at found
    cases found

end State

/-- **Calls delete and write their own files** in a run in which no look at the files of a new generation fails;
and none is leaked, if no read of the record fails either. -/
theorem own_files {s₀ s : State} {ls : List (Nat × Thread × Action)} (start : index.init s₀)
    (run : index.Run s₀ ls s) (looks : index.Meets State.Looks s₀ ls) :
    s.OwnFiles ∧ (index.Meets State.ReadsRecord s₀ ls → s.NoneLeaked) := by
  have met : index.Meets (fun t l => t.Looks l ∧ (index.Meets State.ReadsRecord s₀ ls → t.ReadsRecord l)) s₀ ls :=
    fun before l after t split begun => ⟨looks before l after t split begun, fun reads => reads before l after t split begun⟩
  have tracked : s.Tracked (index.Meets State.ReadsRecord s₀ ls) :=
    run.preserves_under (P := State.Tracked _)
      (fun _ _ _ tracked condition next => tracked.next condition.1 condition.2 next) met (.of_init start)
  exact ⟨tracked.ownFiles, tracked.recorded⟩

namespace Sample

def ownedState : State :=
  (answered.foldlM (fun (s : State) l => if s.Looks l ∧ s.ReadsRecord l then s.next l else none) start).get
    (by decide +kernel)

theorem own_files_answered : ownedState.OwnFiles ∧ ownedState.NoneLeaked := by
  obtain ⟨run, met⟩ := TransitionSystem.Run.of_apply_meets (T := index) (C := fun s l => s.Looks l ∧ s.ReadsRecord l)
    (fun _ _ _ => Iff.rfl) (Option.some_get _).symm
  have own := own_files start_init run fun before l after t split begun => (met before l after t split begun).1
  exact ⟨own.1, own.2 fun before l after t split begun => (met before l after t split begun).2⟩

def unread : List (Nat × Thread × Action) :=
  prepares 0 10 1 4 ++ (0, .caller, .crash) :: (1, .caller, .start) :: steps 1 .caller 7 ++
    (1, .caller, .fail) :: steps 1 .caller 2 ++ (1, .caller, .choose 2) :: (1, .caller, .temp 2) :: steps 1 .caller 4

def unreadState : State := (unread.foldlM State.next start).get (by decide +kernel)

def seeded : List (Nat × Thread × Action) :=
  prepares 0 10 1 4 ++ builds 0 ++ steps 0 .builder 3 ++ steps 0 .caller 1 ++ prepares 1 11 2 2

def seededState : State := (seeded.foldlM State.next start).get (by decide +kernel)

theorem unread_and_seeded :
    (index.Run start unread unreadState ∧ ∃ g file, unreadState.fs.file (.file g .database) = some file ∧
      file.origin = some 0 ∧ g.name ∉ unreadState.fs.owned ∧ unreadState.fs.pointer = none) ∧
    (index.Run start seeded seededState ∧ ∃ seed plan file, (seededState.calls[1]?).map Call.pc = some (.copySeed seed plan) ∧
      seededState.fs[seed]? = some file ∧ file.origin = some 0) := by
  refine ⟨⟨.of_apply (fun _ _ _ => id) (Option.some_get _).symm, .numbered 24 1, ⟨.database false, some 0, 0⟩, ?_⟩,
    .of_apply (fun _ _ _ => id) (Option.some_get _).symm, generationName 24 1, ⟨.numbered 24 2, generationName 24 1, []⟩,
    ⟨.database true, some 0, 2⟩, ?_⟩
  · decide +kernel
  · decide +kernel

end Sample

end OrbitGraph.CodeIndex
