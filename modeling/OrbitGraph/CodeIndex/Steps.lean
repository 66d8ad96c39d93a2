import OrbitGraph.CodeIndex.Model
import OrbitGraph.Lib.Lists

/-!
What one step of a call can do, to the index directory and to the call.

Every effect is on a temporary file, on the record, on a file of the call's own
generation or of one that it retires, or moves the pointer; without the lock there is
none but on the lock file. The steps are looked at once, here.
-/

namespace OrbitGraph.CodeIndex

open Lib

/-! ### What is in the directory after a step -/

theorem Fs.getElem?_apply (call : Nat) (fs : Fs) (e : Effect) (name : Text) : (e.apply call fs)[name]? =
    match e with
    | .none => fs[name]?
    | .write path content => if path.name = name then some (.written call content (fs.file path)) else fs[name]?
    | .unlink path => if path.name = name then none else fs[name]?
    | .rename temp target =>
      match fs.file (.staging temp) with
      | none => fs[name]?
      | some file =>
        if target.name = name then some file else if temp.name = name then none else fs[name]? := by
  cases e with
  | none => rfl
  | write path content => simp [Effect.apply, Std.TreeMap.getElem?_insert]
  | unlink path => simp [Effect.apply, Std.TreeMap.getElem?_erase]
  | rename temp target =>
    cases found : fs.file (.staging temp) with
    | none => simp [Effect.apply, found]
    | some file => simp [Effect.apply, found, Std.TreeMap.getElem?_insert, Std.TreeMap.getElem?_erase]

def Effect.paths : Effect → List Path
  | .none => []
  | .write path _ => [path]
  | .unlink path => [path]
  | .rename temp target => [.staging temp, target.path]

theorem Fs.getElem?_apply_of_ne {call : Nat} {fs : Fs} {e : Effect} {name : Text}
    (other : ∀ path ∈ e.paths, path.name ≠ name) : (e.apply call fs)[name]? = fs[name]? := by
  rw [Fs.getElem?_apply]
  cases e with
  | none => rfl
  | write path content | unlink path => exact if_neg (other path List.mem_cons_self)
  | rename temp target =>
    have target' : target.name ≠ name := by
      rw [← Replaced.path_name]
      exact other target.path (List.mem_cons_of_mem _ List.mem_cons_self)
    have temp' : temp.name ≠ name := other (.staging temp) List.mem_cons_self
    dsimp only
    split
    next => rfl
    next => rw [if_neg target', if_neg temp']

theorem Fs.file_apply_of_notMem {call : Nat} {fs : Fs} {e : Effect} {path : Path} (other : path ∉ e.paths) :
    Fs.file (e.apply call fs) path = fs.file path :=
  Fs.getElem?_apply_of_ne fun _ mem same => other (Path.name_injective same ▸ mem)

theorem Fs.file_write (call : Nat) (fs : Fs) (path : Path) (content : Content) :
    Fs.file (Effect.apply call fs (.write path content)) path = some (.written call content (fs.file path)) := by
  rw [Fs.file, Fs.getElem?_apply]
  exact if_pos rfl

theorem Fs.file_unlink (call : Nat) (fs : Fs) (path : Path) : Fs.file (Effect.apply call fs (.unlink path)) path = none := by
  rw [Fs.file, Fs.getElem?_apply]
  exact if_pos rfl

theorem Fs.file_rename {call : Nat} {fs : Fs} {temp : StagingName} {file : File} (found : fs.file (.staging temp) = some file)
    (target : Replaced) : Fs.file (Effect.apply call fs (.rename temp target)) target.path = some file := by
  rw [Fs.file, Fs.getElem?_apply]
  dsimp only
  rw [found]
  exact if_pos (Replaced.path_name target).symm

/-! ### What a call works on -/

def Pc.creating : Pc → Option Generation
  | .copySeed _ plan => some plan.generation
  | .createLockFile plan => some plan.generation
  | .spawn plan => some plan.generation
  | _ => none

/-- Whether `atomic_write` has replaced its file. -/
def AtomicWrite.moved : AtomicWrite → Bool
  | .flushDir _ => true
  | _ => false

/-- The generation that a build thread works on and has not published. -/
def Job.unpublished : Job → Option Generation
  | .building g => some g
  | .decide g _ => some g
  | .finalizing g => some g
  | .pointing g stage => if stage.moved then Option.none else some g
  | .discard g _ _ => some g
  | .discarding g _ _ _ => some g
  | _ => Option.none

def Call.unpublished (call : Call) : Option Generation := call.pc.creating.or call.job.unpublished

def Call.Locked (call : Call) : Prop := call.pc.locked = true ∨ call.job.locked = true

theorem Call.mem_locks {call : Call} {lock : AdvisoryLock Path} :
    lock ∈ call.locks ↔ call.Locked ∧ lock = ⟨.lock, .exclusive⟩ := by
  unfold locks Locked
  split
  next held => simp [held]
  next free => simp [free]

/-- What a step of a call does to the index directory. -/
inductive Call.Does (fs : Fs) (call : Call) : Effect → Prop where
  | nothing : Does fs call .none
  | openLock : Does fs call (.write .lock .other)
  | clear (temp : StagingName) : call.Locked → Does fs call (.unlink (.staging temp))
  | stage (temp : StagingName) (content : Content) : call.Locked → Does fs call (.write (.staging temp) content)
  | record (previous : IndexState) (g : Generation) (recorded : List Text) (temp : StagingName) :
      call.pc = .record previous g recorded (.rename temp) → Does fs call (.rename temp .owned)
  | point (g : Generation) (temp : StagingName) :
      call.job = .pointing g (.rename temp) → Does fs call (.rename temp .pointer)
  | retire (previous : IndexState) (kept : List Text) (g : Generation) (suffix : Suffix)
      (rest : List (Generation × Suffix)) :
      call.pc = .retire previous kept ((g, suffix) :: rest) → Does fs call (.unlink (.file g suffix))
  | create (plan : Plan) :
      call.pc = .createGeneration plan → fs.file (.file plan.generation .database) = none →
      Does fs call (.write (.file plan.generation .database) (.database false))
  | write (g : Generation) (suffix : Suffix) (content : Content) :
      call.unpublished = some g → Does fs call (.write (.file g suffix) content)
  | unlink (g : Generation) (suffix : Suffix) :
      call.unpublished = some g →
      (suffix ∈ suffixes ∨ ∃ again reason rest, call.job = .discarding g again reason (suffix :: rest)) →
      Does fs call (.unlink (.file g suffix))

/-- One step of `atomic_write`. -/
inductive AtomicWrite.Step (fs : Fs) (pid : UInt32) (target : Replaced) (content : Content) :
    AtomicWrite → Action → Effect → Progress → Prop where
  | taken (sequence : UInt64) : (fs.file (.staging (.temp target pid sequence))).isSome →
      Step fs pid target content .create (.temp sequence) .none (.going (.cleanUp (.temp target pid sequence)))
  | create (sequence : UInt64) : fs.file (.staging (.temp target pid sequence)) = none →
      Step fs pid target content .create (.temp sequence) (.write (.staging (.temp target pid sequence)) .other)
        (.going (.write (.temp target pid sequence)))
  | createFails : Step fs pid target content .create .fail .none .failed
  | write (temp : StagingName) :
      Step fs pid target content (.write temp) .next (.write (.staging temp) content) (.going (.flush temp))
  | flush (temp : StagingName) :
      Step fs pid target content (.flush temp) .next .none (.going (.rename temp))
  | rename (temp : StagingName) : (fs.file (.staging temp)).isSome →
      Step fs pid target content (.rename temp) .next (.rename temp target) (.going (.flushDir temp))
  | renameMissing (temp : StagingName) : fs.file (.staging temp) = none →
      Step fs pid target content (.rename temp) .next .none (.going (.cleanUp temp))
  | flushDir (temp : StagingName) :
      Step fs pid target content (.flushDir temp) .next .none .written
  | cleanUp (temp : StagingName) :
      Step fs pid target content (.cleanUp temp) .next (.unlink (.staging temp)) .failed
  | cleanUpFails (temp : StagingName) :
      Step fs pid target content (.cleanUp temp) .fail .none .failed
  | fails (stage : AtomicWrite) (temp : StagingName) : stage ∈ [.write temp, .flush temp, .rename temp, .flushDir temp] →
      Step fs pid target content stage .fail .none (.going (.cleanUp temp))

-- The case principles of the two steps, made once for the lemmas below and those of the later modules.
attribute [elab_as_elim] prepare.fun_cases_unfolding work.fun_cases_unfolding

section Step

variable {ours : Versions} {pid : UInt32} {full granted : Bool} {fs : Fs} {e : Effect} {a : Action}

variable {stage : AtomicWrite} {progress : Progress} {target : Replaced} {content : Content}

/-- Every step of `atomic_write` is one of these. -/
theorem atomicWrite_step
    (run : atomicWrite fs pid target content stage a = some (e, progress)) :
    AtomicWrite.Step fs pid target content stage a e progress := by
  cases stage with
  | create =>
    cases a with
    | temp sequence =>
      have run : (if (fs.file (.staging (.temp target pid sequence))).isSome then _ else _) = _ := run
      split at run
      next taken =>
        obtain ⟨rfl, rfl⟩ := Prod.mk.inj (Option.some.inj run)
        exact .taken _ taken
      next free =>
        obtain ⟨rfl, rfl⟩ := Prod.mk.inj (Option.some.inj run)
        exact .create _ (by simpa using free)
    | fail =>
      cases run
      exact .createFails
    | _ => cases run
  | write temp =>
    cases a with
    | next =>
      cases run
      exact .write temp
    | fail =>
      cases run
      exact .fails _ temp (by simp)
    | _ => cases run
  | flush temp =>
    cases a with
    | next =>
      cases run
      exact .flush temp
    | fail =>
      cases run
      exact .fails _ temp (by simp)
    | _ => cases run
  | rename temp =>
    cases a with
    | next =>
      have run : (if (fs.file (.staging temp)).isSome then _ else _) = _ := run
      split at run
      next there =>
        obtain ⟨rfl, rfl⟩ := Prod.mk.inj (Option.some.inj run)
        exact .rename temp there
      next gone =>
        obtain ⟨rfl, rfl⟩ := Prod.mk.inj (Option.some.inj run)
        exact .renameMissing temp (by simpa using gone)
    | fail =>
      cases run
      exact .fails _ temp (by simp)
    | _ => cases run
  | flushDir temp =>
    cases a with
    | next =>
      cases run
      exact .flushDir temp
    | fail =>
      cases run
      exact .fails _ temp (by simp)
    | _ => cases run
  | cleanUp temp =>
    cases a with
    | next =>
      cases run
      exact .cleanUp temp
    | fail =>
      cases run
      exact .cleanUpFails temp
    | _ => cases run

theorem atomicWrite_effect
    (run : atomicWrite fs pid target content stage a = some (e, progress)) :
    e = .none ∨ (∃ temp c, e = .write (.staging temp) c) ∨ (∃ temp, e = .unlink (.staging temp)) ∨
      ∃ temp, stage = .rename temp ∧ e = .rename temp target := by
  cases atomicWrite_step run <;> simp

theorem prepare_effect {pc pc' : Pc} (run : prepare ours pid full granted fs pc a = some (e, pc')) :
    e = .none ∨ e = .write .lock .other ∨
      (pc.locked = true ∧ ((∃ temp, e = .unlink (.staging temp)) ∨ ∃ temp c, e = .write (.staging temp) c)) ∨
      (∃ previous g recorded temp, pc = .record previous g recorded (.rename temp) ∧ e = .rename temp .owned) ∨
      (∃ previous kept g suffix rest, pc = .retire previous kept ((g, suffix) :: rest) ∧ e = .unlink (.file g suffix)) ∨
      (∃ plan, pc = .createGeneration plan ∧ fs.file (.file plan.generation .database) = none ∧
        e = .write (.file plan.generation .database) (.database false)) ∨
      ∃ g suffix c, pc.creating = some g ∧ e = .write (.file g suffix) c := by
  revert run
  fun_cases prepare ours pid full granted fs pc a <;> intro run <;>
    grind [Pc.locked, Pc.creating, atomicWrite_effect, Option.map_eq_some_iff, Option.isSome_iff_ne_none]

theorem work_effect {slot : Slot} {job job' : Job} (run : work ours pid fs slot job a = some (e, job')) :
    e = .none ∨
      (job.locked = true ∧ ((∃ temp, e = .unlink (.staging temp)) ∨ ∃ temp c, e = .write (.staging temp) c)) ∨
      (∃ g temp, job = .pointing g (.rename temp) ∧ e = .rename temp .pointer) ∨
      ∃ g suffix, job.unpublished = some g ∧ ((∃ c, e = .write (.file g suffix) c) ∨ (e = .unlink (.file g suffix) ∧
          (suffix ∈ suffixes ∨ ∃ again reason rest, job = .discarding g again reason (suffix :: rest)))) := by
  revert run
  fun_cases work ours pid fs slot job a <;> intro run <;>
    grind [Job.locked, Job.unpublished, atomicWrite_effect, Option.map_eq_some_iff, suffixes]

end Step

/-! ### A step of a call -/

/-- Whether the caller has handed its generation to a build thread, or is done. -/
def Pc.divided : Pc → Bool
  | .wait _ => true
  | .expired _ => true
  | .answered _ => true
  | .dead => true
  | _ => false

variable {pc : Pc}

theorem Pc.divided_of_locked (locked : pc.locked = true) : pc.divided = false := by
  cases pc <;> simp_all [Pc.locked, divided]

theorem Pc.locked_of_creating {g : Generation} (creating : pc.creating = some g) : pc.locked = true := by
  cases pc <;> simp_all [Pc.locked, Pc.creating]

theorem Pc.divided_of_operation {operation : String} (fails : pc.operation = some operation) :
    pc.divided = false := by
  unfold Pc.operation at fails
  split at fails <;> first | rfl | cases fails

theorem Job.locked_of_unpublished {job : Job} {g : Generation} (unpublished : job.unpublished = some g) :
    job.locked = true := by
  cases job <;> simp_all [Job.locked, Job.unpublished]

namespace Call

variable {call call' : Call} {granted : Bool} {fs : Fs} {e : Effect} {thread : Thread} {a : Action}

/-- A call has no build thread before it waits for one. -/
def Divided (call : Call) : Prop := call.pc.divided = false → call.job = .none

theorem next_cases (run : call.next granted fs (thread, a) = some (e, call')) :
    (a = .crash ∧ e = .none ∧ call' = call.crashed) ∨
      (thread = .caller ∧ a ≠ .crash ∧ call.advance granted fs a = some (e, call')) ∨
      (thread = .builder ∧ a ≠ .crash ∧ call.build fs a = some (e, call')) := by
  unfold next at run
  split at run
  next same =>
    obtain ⟨-, rfl⟩ := Prod.mk.inj same
    obtain ⟨rfl, rfl⟩ := Prod.mk.inj (Option.some.inj run)
    exact .inl ⟨rfl, rfl, rfl⟩
  next notCrash same =>
    obtain ⟨rfl, rfl⟩ := Prod.mk.inj same
    exact .inr (.inl ⟨rfl, fun crash => notCrash crash, run⟩)
  next notCrash same =>
    obtain ⟨rfl, rfl⟩ := Prod.mk.inj same
    exact .inr (.inr ⟨rfl, fun crash => notCrash crash, run⟩)

theorem advance_cases (run : call.advance granted fs a = some (e, call')) :
    (∃ plan, call.pc = .spawn plan ∧ e = .none ∧
        call' = { call with pc := .wait plan, job := .building plan.generation }) ∨
      (∃ plan, call.pc = .wait plan ∧ call.job.holdsSlot = false ∧ e = .none ∧
        ((∃ result, call.slot = .finished result ∧
            call' = { call with pc := .answered (answerOf plan result), slot := .abandoned }) ∨
          ((∀ result, call.slot ≠ .finished result) ∧
            (call' = call ∨ call' = { call with pc := .expired plan, slot := .abandoned })))) ∨
      (∃ plan, call.pc = .expired plan ∧ e = .none ∧
        call' = { call with pc := .answered (call.expiredAnswer plan) }) ∨
      ∃ pc', prepare call.ours call.pid call.full granted fs call.pc a = some (e, pc') ∧
        call' = { call with pc := pc' } := by
  revert run
  fun_cases advance call granted fs a <;> intro run <;> grind [Option.map_eq_some_iff]

theorem build_cases (run : call.build fs a = some (e, call')) :
    (∃ phase, e = .none ∧ call' = { call with phase }) ∨
      ∃ job', work call.ours call.pid fs call.slot call.job a = some (e, job') ∧
        call' = { call with
          job := job'
          slot := call.job.post call.slot
          publishes := call.publishes + e.publishes
          discards := call.discards + call.job.discards } := by
  unfold build at run
  split at run
  next =>
    obtain ⟨rfl, rfl⟩ := Prod.mk.inj (Option.some.inj run)
    exact .inl ⟨_, rfl, rfl⟩
  next =>
    obtain ⟨⟨effect, job'⟩, works, same⟩ := Option.map_eq_some_iff.mp run
    obtain ⟨rfl, rfl⟩ := Prod.mk.inj same
    exact .inr ⟨job', works, rfl⟩

end Call

section Step

variable {ours : Versions} {pid : UInt32} {full granted : Bool} {fs : Fs} {e : Effect} {a : Action}

theorem prepare_locked {pc pc' : Pc} (run : prepare ours pid full granted fs pc a = some (e, pc'))
    (locked : pc'.locked = true) : pc.locked = true ∨ granted = true := by
  revert run
  fun_cases prepare ours pid full granted fs pc a <;> intro run <;>
    grind [Pc.locked, superseded, Option.map_eq_some_iff]

theorem prepare_divided {pc pc' : Pc} (run : prepare ours pid full granted fs pc a = some (e, pc')) :
    pc.divided = false ∧ (pc'.divided = true → ∃ operation, pc' = .answered (.error operation)) := by
  revert run
  fun_cases prepare ours pid full granted fs pc a <;> intro run <;>
    grind [Pc.divided, Pc.divided_of_operation, superseded, Option.map_eq_some_iff]

theorem work_locked {slot : Slot} {job job' : Job} (run : work ours pid fs slot job a = some (e, job'))
    (locked : job'.locked = true) : job.locked = true := by
  revert run
  fun_cases work ours pid fs slot job a <;> intro run <;> grind [Job.locked]

theorem work_spawned {slot : Slot} {job job' : Job} (run : work ours pid fs slot job a = some (e, job')) :
    job ≠ .none ∧ job' ≠ .none := by
  revert run
  fun_cases work ours pid fs slot job a <;> intro run <;> grind [Option.map_eq_some_iff]

end Step

/-! ### A step of the system -/

theorem State.next_eq_some {s t : State} {label : Nat × Thread × Action} : s.next label = some t ↔
    ∃ call e call', s.calls[label.1]? = some call ∧ call.next s.granted s.fs label.2 = some (e, call') ∧
      t = { fs := e.apply label.1 s.fs
            calls := s.calls.set label.1 { call' with
              touched := call.touched || decide (Fs.published (e.apply label.1 s.fs) ≠ s.fs.published) }
            current := if e.publishes = 1 then (Fs.published (e.apply label.1 s.fs)).2 else s.current } := by
  unfold State.next
  constructor
  · intro next
    obtain ⟨call, found, next⟩ := Option.bind_eq_some_iff.mp next
    obtain ⟨⟨e, call'⟩, run, next⟩ := Option.bind_eq_some_iff.mp next
    exact ⟨call, e, call', found, run, (Option.some.inj next).symm⟩
  · rintro ⟨call, e, call', found, run, rfl⟩
    simp [found, run]

namespace State

variable {s t : State} {label : Nat × Thread × Action}

theorem forall_calls_next {P : Call → Prop} (holds : ∀ call ∈ s.calls, P call) (next : s.next label = some t)
    (keeps : ∀ call e call', s.calls[label.1]? = some call → call.next s.granted s.fs label.2 = some (e, call') →
      ∀ touched, P { call' with touched }) : ∀ call ∈ t.calls, P call := by
  obtain ⟨call, e, call', found, run, rfl⟩ := next_eq_some.mp next
  intro other mem
  rcases List.mem_or_eq_of_mem_set mem with old | rfl
  · exact holds other old
  · exact keeps call e call' found run _

end State

theorem Call.next_locked {call call' : Call} {granted : Bool} {fs : Fs} {e : Effect} {label : Thread × Action}
    (run : call.next granted fs label = some (e, call')) (locked : call'.Locked) : call.Locked ∨ granted = true := by
  rcases next_cases run with ⟨-, -, rfl⟩ | ⟨-, -, run⟩ | ⟨-, -, run⟩
  · rcases locked with pc | job
    · unfold crashed at pc
      dsimp only at pc
      split at pc <;> cases pc
    · cases job
  · rcases advance_cases run with ⟨plan, spawn, rfl, rfl⟩ | ⟨plan, wait, free, rfl, looks⟩ |
      ⟨plan, expired, rfl, rfl⟩ | ⟨pc', prepares, rfl⟩
    · exact .inl (.inl (by rw [spawn]; rfl))
    · rcases looks with ⟨result, finished, rfl⟩ | ⟨unfinished, rfl | rfl⟩
      · exact .inl (.inr (locked.resolve_left nofun))
      · exact .inl locked
      · exact .inl (.inr (locked.resolve_left nofun))
    · exact .inl (.inr (locked.resolve_left nofun))
    · rcases locked with pc | job
      · exact (prepare_locked prepares pc).imp_left .inl
      · exact .inl (.inr job)
  · rcases build_cases run with ⟨phase, rfl, rfl⟩ | ⟨job', works, rfl⟩
    · exact .inl locked
    · rcases locked with pc | job
      · exact .inl (.inl pc)
      · exact .inl (.inr (work_locked works job))

namespace State

variable {s t : State} {label : Nat × Thread × Action}

def Exclusive (s : State) : Prop := AdvisoryLock.Exclusive Call.locks s.calls

theorem exclusive_next (exclusive : s.Exclusive) (next : s.next label = some t) : t.Exclusive := by
  obtain ⟨call, e, call', found, run, rfl⟩ := next_eq_some.mp next
  refine AdvisoryLock.Exclusive.set exclusive found fun lock mem => ?_
  obtain ⟨locked, rfl⟩ := Call.mem_locks.mp mem
  rcases Call.next_locked run locked with held | granted
  · exact .inl (Call.mem_locks.mpr ⟨held, rfl⟩)
  · exact .inr (of_decide_eq_true granted)

theorem Exclusive.absurd (exclusive : s.Exclusive) {i j : Nat} {a b : Call} (apart : i ≠ j)
    (ha : s.calls[i]? = some a) (hb : s.calls[j]? = some b) (aLocked : a.Locked) (bLocked : b.Locked) : False :=
  AdvisoryLock.Exclusive.absurd exclusive apart ha hb (Call.mem_locks.mpr ⟨aLocked, rfl⟩)
    (Call.mem_locks.mpr ⟨bLocked, rfl⟩)

end State

namespace Call

variable {call call' : Call} {granted : Bool} {fs : Fs} {e : Effect} {label : Thread × Action}

theorem divided_next (divided : call.Divided) (run : call.next granted fs label = some (e, call')) : call'.Divided := by
  rcases next_cases run with ⟨-, -, rfl⟩ | ⟨-, -, run⟩ | ⟨-, -, run⟩
  · intro undivided
    unfold crashed at undivided
    dsimp only at undivided
    split at undivided <;> cases undivided
  · rcases advance_cases run with ⟨plan, -, -, rfl⟩ | ⟨plan, -, -, -, looks⟩ | ⟨plan, -, -, rfl⟩ | ⟨pc', prepares, rfl⟩
    · nofun
    · rcases looks with ⟨result, -, rfl⟩ | ⟨-, rfl | rfl⟩
      · nofun
      · exact divided
      · nofun
    · nofun
    · exact fun _ => divided (prepare_divided prepares).1
  · rcases build_cases run with ⟨phase, -, rfl⟩ | ⟨job', works, rfl⟩
    · exact divided
    · exact fun undivided => absurd (divided undivided) (work_spawned works).1

theorem next_does (divided : call.Divided) (run : call.next granted fs label = some (e, call')) : call.Does fs e := by
  rcases next_cases run with ⟨-, rfl, -⟩ | ⟨-, -, run⟩ | ⟨-, -, run⟩
  · exact .nothing
  · rcases advance_cases run with ⟨plan, -, rfl, -⟩ | ⟨plan, -, -, rfl, -⟩ | ⟨plan, -, rfl, -⟩ | ⟨pc', prepares, -⟩
    · exact .nothing
    · exact .nothing
    · exact .nothing
    · rcases prepare_effect prepares with rfl | rfl | ⟨locked, ⟨temp, rfl⟩ | ⟨temp, content, rfl⟩⟩ |
        ⟨previous, g, recorded, temp, pc, rfl⟩ | ⟨previous, kept, g, suffix, rest, pc, rfl⟩ | ⟨plan, pc, absent, rfl⟩ |
        ⟨g, suffix, content, creating, rfl⟩
      · exact .nothing
      · exact .openLock
      · exact .clear temp (.inl locked)
      · exact .stage temp content (.inl locked)
      · exact .record previous g recorded temp pc
      · exact .retire previous kept g suffix rest pc
      · exact .create plan pc absent
      · exact .write g suffix content (by rw [unpublished, creating]; rfl)
  · rcases build_cases run with ⟨phase, rfl, -⟩ | ⟨job', works, -⟩
    · exact .nothing
    · rcases work_effect works with rfl | ⟨locked, ⟨temp, rfl⟩ | ⟨temp, content, rfl⟩⟩ | ⟨g, temp, job, rfl⟩ |
        ⟨g, suffix, job, writes⟩
      · exact .nothing
      · exact .clear temp (.inr locked)
      · exact .stage temp content (.inr locked)
      · exact .point g temp job
      · -- the caller creates nothing any more
        have own : call.unpublished = some g := by
          cases creating : call.pc.creating with
          | none => rw [unpublished, creating, Option.none_or, job]
          | some other =>
            rw [divided (Pc.divided_of_locked (Pc.locked_of_creating creating))] at job
            cases job
        rcases writes with ⟨content, rfl⟩ | ⟨rfl, known⟩
        · exact .write g suffix content own
        · exact .unlink g suffix own known

theorem locked_of_unpublished {g : Generation} (own : call.unpublished = some g) : call.Locked := by
  rcases Option.or_eq_some_iff.mp own with creating | ⟨-, job⟩
  · exact .inl (Pc.locked_of_creating creating)
  · exact .inr (Job.locked_of_unpublished job)

theorem Does.unlocked (does : call.Does fs e) (free : ¬ call.Locked) : e = .none ∨ e = .write .lock .other := by
  cases does with
  | nothing => exact .inl rfl
  | openLock => exact .inr rfl
  | clear _ locked | stage _ _ locked => exact absurd locked free
  | record _ _ _ _ pc | retire _ _ _ _ _ pc | create _ pc => exact absurd (.inl (by rw [pc]; rfl)) free
  | point _ _ job => exact absurd (.inr (by rw [job]; rfl)) free
  | write _ _ _ own | unlink _ _ own => exact absurd (locked_of_unpublished own) free

theorem Does.pointer (does : call.Does fs e) : .pointer ∉ e.paths ∨ e.publishes = 1 := by
  cases does with
  | point => exact .inr rfl
  | _ => exact .inl (by simp [Effect.paths, Replaced.path])

end Call

end OrbitGraph.CodeIndex
