import OrbitGraph.CodeIndex.Steps

/-!
What the answer of a call says about its generation.

The caller and its build thread decide through the slot: the thread holds it from the
moment it finds that the caller still waits to the moment it leaves its result there.
So a caller that gives up is never published for, and one that gets a result gets what
was done. What the code counts wrong is a pointer whose directory cannot be flushed
after it was moved, and a build that failed in time, which is discarded twice.
-/

namespace OrbitGraph.CodeIndex

open Lib

/-! ### How far a build thread is -/

/-- How often a result says that the pointer was moved. -/
def publishedBy : BuildResult → Nat
  | .ok (some _) => 1
  | _ => 0

/-- How often a build thread has moved the pointer, by where it is. -/
def Job.published : Job → Nat
  | .pointing _ stage => if stage.moved then 1 else 0
  | .unlock result => result.elim 0 publishedBy
  | .finish result => publishedBy result
  | _ => 0

/-- How often a build thread has discarded its generation, by where it is. -/
def Job.discarded : Job → Nat
  | .discarding .. => 1
  | .unlock result => result.elim 1 fun result => 1 - publishedBy result
  | .finish result => 1 - publishedBy result
  | _ => 0

theorem publishedBy_le (result : BuildResult) : publishedBy result ≤ 1 := by
  unfold publishedBy
  split <;> omega

theorem Job.accounts (job : Job) : job.published + job.discarded ≤ 1 := by
  cases job with
  | pointing g stage => cases stage <;> simp [Job.published, Job.discarded, AtomicWrite.moved]
  | unlock result =>
    cases result with
    | none => simp [Job.published, Job.discarded]
    | some result =>
      have := publishedBy_le result
      simp only [Job.published, Job.discarded, Option.elim_some]
      omega
  | finish result =>
    have := publishedBy_le result
    simp only [Job.published, Job.discarded]
    omega
  | _ => simp [Job.published, Job.discarded]

theorem Job.published_reason (reason : Reason) : (Job.unlock reason.result).published = 0 := by
  cases reason <;> rfl

theorem Job.discarded_reason (reason : Reason) : (Job.unlock reason.result).discarded = 1 := by
  cases reason <;> rfl

theorem Reason.result_isNone (reason : Reason) : reason.result.isNone = decide (reason = .abandoned) := by
  cases reason <;> rfl

theorem Reason.result_isSome (reason : Reason) : reason.result.isSome = decide (reason ≠ .abandoned) := by
  cases reason <;> rfl

/-- Whether a build thread works for a caller that waits. -/
def Job.answers : Job → Bool
  | .none => false
  | .discard _ _ reason => reason ≠ .abandoned
  | .discarding _ _ reason _ => reason ≠ .abandoned
  | .unlock result => result.isSome
  | .ended => false
  | _ => true

/-- Whether a build thread may find that its caller has given up, or has found it. -/
def Job.abandonable : Job → Bool
  | .building _ => true
  | .decide .. => true
  | .discard _ _ reason => reason = .abandoned
  | .discarding _ _ reason _ => reason = .abandoned
  | .unlock result => result.isNone
  | .ended => true
  | _ => false

/-- Whether a build thread discards once at most. -/
def Job.once : Job → Bool
  | .discard _ again _ => !again
  | .discarding _ again _ _ => !again
  | _ => true

theorem Job.published_of_abandonable {job : Job} (abandonable : job.abandonable = true) : job.published = 0 := by
  cases job with
  | unlock result => cases result <;> simp_all [Job.published, Job.abandonable]
  | _ => simp_all [Job.published, Job.abandonable]

theorem Job.abandonable_of_answers {job : Job} (answers : job.answers = true) (free : job.holdsSlot = false) :
    job.abandonable = true := by
  cases job <;> simp_all [Job.answers, Job.holdsSlot, Job.abandonable]

/-! ### The steps that are counted wrong -/

/-- Whether a step is the flush of the directory that fails after the pointer was moved. -/
def Call.flushFails (call : Call) (label : Thread × Action) : Bool :=
  match call.job, label with
  | .pointing _ (.flushDir _), (.builder, .fail) => true
  | _, _ => false

/-- Whether a step is the decision on a build that failed, while its caller waits. -/
def Call.decidesFailure (call : Call) (label : Thread × Action) : Bool :=
  match call.job, call.slot, label with
  | _, .abandoned, _ => false
  | .decide _ (.failed _), _, (.builder, .next) => true
  | _, _, _ => false

section Work

variable {ours : Versions} {pid : UInt32} {fs : Fs} {slot : Slot} {job job' : Job} {e : Effect} {a : Action}

variable {stage : AtomicWrite} {progress : Progress} {target : Replaced} {content : Content}

theorem atomicWrite_publishes (run : atomicWrite fs pid target content stage a = some (e, progress)) :
    (e.publishes = 0 ∧ ∀ temp, progress ≠ .going (.flushDir temp)) ∨
      ∃ temp, stage = .rename temp ∧ e = .rename temp target ∧ progress = .going (.flushDir temp) := by
  cases atomicWrite_step run <;> simp [Effect.publishes]

theorem atomicWrite_flushed {temp : StagingName}
    (run : atomicWrite fs pid target content (.flushDir temp) a = some (e, progress)) (succeeds : a ≠ .fail) :
    e = .none ∧ progress = .written := by
  cases atomicWrite_step run with
  | flushDir => exact ⟨rfl, rfl⟩
  | fails => exact absurd rfl succeeds

theorem work_pointing {g : Generation}
    (run : work ours pid fs slot (.pointing g stage) a = some (e, job')) :
    ∃ progress, atomicWrite fs pid .pointer (.pointer ⟨g.name, ours⟩) stage a = some (e, progress) ∧
      job' = match progress with
        | .going stage => .pointing g stage
        | .written => .unlock (some (.ok (some ⟨g.name, ours⟩)))
        | .failed => .discard g false (.failed "write code-graph index file") := by
  obtain ⟨⟨effect, progress⟩, writes, same⟩ := Option.map_eq_some_iff.mp (show Option.map _ _ = _ from run)
  obtain ⟨rfl, rfl⟩ := Prod.mk.inj same
  exact ⟨progress, writes, rfl⟩

/-- The pointer is counted when it is moved, and its generation is not discarded after that. -/
theorem work_published (run : work ours pid fs slot job a = some (e, job'))
    (flushes : ∀ g temp, job = .pointing g (.flushDir temp) → a ≠ .fail) :
    job' = .ended ∨ job.published + e.publishes = job'.published := by
  by_cases pointing : ∃ g stage, job = .pointing g stage
  · obtain ⟨g, stage, rfl⟩ := pointing
    obtain ⟨progress, writes, rfl⟩ := work_pointing run
    by_cases flush : ∃ temp, stage = .flushDir temp
    · obtain ⟨temp, rfl⟩ := flush
      obtain ⟨rfl, rfl⟩ := atomicWrite_flushed writes (flushes g temp rfl)
      exact .inr rfl
    · have before : (Job.pointing g stage).published = 0 := by
        cases stage <;> simp_all [Job.published, AtomicWrite.moved]
      rcases atomicWrite_publishes writes with ⟨none, notMoved⟩ | ⟨temp, -, rfl, rfl⟩
      · refine .inr ?_
        rw [before, none]
        cases progress with
        | going stage => cases stage <;> simp_all [Job.published, AtomicWrite.moved]
        | written =>
          -- only a flush ends the write
          cases atomicWrite_step writes with
          | flushDir temp => exact absurd ⟨temp, rfl⟩ flush
        | failed => rfl
      · exact .inr (by rw [before]; rfl)
  · revert run
    fun_cases work ours pid fs slot job a <;> intro run <;>
      grind [Job.published, Job.published_reason, Effect.publishes, AtomicWrite.moved]

theorem work_discarded (run : work ours pid fs slot job a = some (e, job')) (once : job.once = true)
    (flushes : ∀ g temp, job = .pointing g (.flushDir temp) → a ≠ .fail)
    (decides : ∀ g operation, job = .decide g (.failed operation) → slot = .abandoned ∨ a ≠ .next) :
    job'.once = true ∧ (job' = .ended ∨ job.discarded + job.discards = job'.discarded) := by
  revert run
  fun_cases work ours pid fs slot job a <;> intro run <;>
    grind [Job.once, Job.discarded, Job.discarded_reason, Job.discards, Option.map_eq_some_iff, publishedBy]

theorem work_ended (run : work ours pid fs slot job a = some (e, .ended)) : e = .none ∧ job.discards = 0 := by
  revert run
  fun_cases work ours pid fs slot job a <;> intro run <;> grind [Job.discards, Option.map_eq_some_iff]

theorem work_answers (run : work ours pid fs slot job a = some (e, job')) (answers : job.answers = true)
    (waits : slot ≠ .abandoned) :
    (job'.answers = true ∧ ∀ result, job ≠ .finish result) ∨ ∃ result, job = .finish result ∧ job' = .ended := by
  revert run
  fun_cases work ours pid fs slot job a <;> intro run <;>
    grind [Job.answers, Reason.result_isSome, Option.map_eq_some_iff]

theorem work_abandonable (run : work ours pid fs .abandoned job a = some (e, job'))
    (abandonable : job.abandonable = true) : job'.abandonable = true ∧ e.publishes = 0 := by
  revert run
  fun_cases work ours pid fs .abandoned job a <;> intro run <;>
    grind [Job.abandonable, Effect.publishes, Reason.result_isNone]

end Work

/-! ### What holds of a call -/

/-- How a call stands with its build thread, and how often that has moved the pointer. -/
def Call.Honest (call : Call) : Prop :=
  match call.pc with
  | .wait _ =>
    (call.slot = .running ∧ call.job.answers = true ∧ call.publishes = call.job.published) ∨
      ∃ result, call.slot = .finished result ∧ call.job = .ended ∧ call.publishes = publishedBy result
  | .expired _ => call.slot = .abandoned ∧ call.job.abandonable = true ∧ call.publishes = 0
  | .answered answer =>
    (call.publishes = if answer.isPublished then 1 else 0) ∧
      (call.job = .none ∨ call.job = .ended ∨
        (call.slot = .abandoned ∧ call.job.abandonable = true ∧ call.publishes = 0))
  | .dead => call.job = .ended ∧ call.publishes ≤ 1
  | _ => call.slot = .running ∧ call.job = .none ∧ call.publishes = 0

/-- What the build thread has done is accounted for. -/
def Call.Counted (call : Call) : Prop :=
  (call.job = .ended ∧ call.publishes + call.discards ≤ 1) ∨
    (call.job.once = true ∧ call.publishes = call.job.published ∧ call.discards = call.job.discarded)

namespace Call

variable {call call' : Call} {granted : Bool} {fs : Fs} {e : Effect} {thread : Thread} {a : Action}

theorem Honest.published_le (honest : call.Honest) : call.publishes ≤ 1 := by
  unfold Honest at honest
  have := call.job.accounts
  have := publishedBy_le
  split at honest
  next =>
    rcases honest with ⟨-, -, count⟩ | ⟨result, -, -, count⟩
    · omega
    · rw [count]
      exact publishedBy_le result
  next => omega
  next => split at honest <;> omega
  next => exact honest.2
  next => omega

theorem Counted.once (counted : call.Counted) : call.publishes + call.discards ≤ 1 := by
  rcases counted with ⟨-, bound⟩ | ⟨-, published, discarded⟩
  · exact bound
  · rw [published, discarded]
    exact call.job.accounts

theorem Honest.undivided (honest : call.Honest) (undivided : call.pc.divided = false) :
    call.slot = .running ∧ call.job = .none ∧ call.publishes = 0 := by
  unfold Honest at honest
  split at honest <;> simp_all [Pc.divided]

theorem Honest.of_undivided (undivided : call.pc.divided = false)
    (fresh : call.slot = .running ∧ call.job = .none ∧ call.publishes = 0) : call.Honest := by
  unfold Honest
  split <;> simp_all [Pc.divided]

theorem Honest.divided (honest : call.Honest) : call.Divided := fun undivided => (honest.undivided undivided).2.1

theorem honest_next (honest : call.Honest) (run : call.next granted fs (thread, a) = some (e, call'))
    (flushes : call.flushFails (thread, a) = false) : call'.Honest := by
  rcases next_cases run with ⟨rfl, rfl, rfl⟩ | ⟨rfl, -, run⟩ | ⟨rfl, -, run⟩
  · -- a crash leaves the answer, and no thread
    have bound := honest.published_le
    unfold crashed Honest
    dsimp only
    cases pc : call.pc with
    | answered answer =>
      rw [Honest, pc] at honest
      exact ⟨honest.1, .inr (.inl rfl)⟩
    | _ => exact ⟨rfl, bound⟩
  · rcases advance_cases run with ⟨plan, spawn, rfl, rfl⟩ | ⟨plan, wait, free, rfl, looks⟩ |
      ⟨plan, expired, rfl, rfl⟩ | ⟨pc', prepares, rfl⟩
    · obtain ⟨slot, -, count⟩ := honest.undivided (by rw [spawn]; rfl)
      exact .inl ⟨slot, rfl, count⟩
    · rw [Honest, wait] at honest
      rcases looks with ⟨result, finished, rfl⟩ | ⟨unfinished, rfl | rfl⟩
      · rcases honest with ⟨running, -⟩ | ⟨result', finished', ended, count⟩
        · rw [running] at finished
          cases finished
        · obtain rfl := Slot.finished.inj (finished.symm.trans finished')
          refine ⟨?_, .inr (.inl ended)⟩
          show call.publishes = _
          rw [count]
          rcases result with operation | published
          · rfl
          · cases published <;> rfl
      · rw [Honest, wait]
        exact honest
      · rcases honest with ⟨-, answers, count⟩ | ⟨result, finished, -⟩
        · have abandonable := Job.abandonable_of_answers answers free
          exact ⟨rfl, abandonable, count.trans (Job.published_of_abandonable abandonable)⟩
        · exact absurd finished (unfinished result)
    · rw [Honest, expired] at honest
      exact ⟨honest.2.2, .inr (.inr honest)⟩
    · obtain ⟨undivided, answered⟩ := prepare_divided prepares
      obtain ⟨slot, job, count⟩ := honest.undivided undivided
      by_cases divided : pc'.divided = true
      · obtain ⟨operation, rfl⟩ := answered divided
        exact ⟨count, .inl job⟩
      · exact .of_undivided (by simpa using divided) ⟨slot, job, count⟩
  · rcases build_cases run with ⟨phase, rfl, rfl⟩ | ⟨job', works, rfl⟩
    · exact honest
    · obtain ⟨some, some'⟩ := work_spawned works
      have flushes : ∀ g temp, call.job = .pointing g (.flushDir temp) → a ≠ .fail := by
        rintro g temp at_ rfl
        simp [flushFails, at_] at flushes
      have counts := work_published works flushes
      have running : call.job ≠ .ended := by
        intro ended
        rw [ended] at works
        cases works
      unfold Honest at honest ⊢
      dsimp only at honest ⊢
      split at honest
      next =>
        rcases honest with ⟨slot, answers, count⟩ | ⟨_, _, ended, -⟩
        · rcases work_answers works answers (by rw [slot]; nofun) with ⟨answers', unfinished⟩ | ⟨result, finish, rfl⟩
          · refine .inl ⟨?_, answers', ?_⟩
            · unfold Job.post
              split
              next result finish => exact absurd finish (unfinished result)
              next => exact slot
            · rcases counts with rfl | counts
              · cases answers'
              · rw [count, counts]
          · refine .inr ⟨result, by rw [finish]; rfl, rfl, ?_⟩
            obtain ⟨rfl, -⟩ := work_ended works
            rw [finish] at count
            exact count
        · exact absurd ended running
      next =>
        obtain ⟨slot, abandonable, count⟩ := honest
        rw [slot] at works
        obtain ⟨abandonable', none⟩ := work_abandonable works abandonable
        refine ⟨?_, abandonable', by rw [count, none]⟩
        unfold Job.post
        split
        next finish =>
          rw [finish] at abandonable
          cases abandonable
        next => exact slot
      next =>
        obtain ⟨answer, none | ended | ⟨slot, abandonable, count⟩⟩ := honest
        · exact absurd none some
        · exact absurd ended running
        · rw [slot] at works
          obtain ⟨abandonable', none⟩ := work_abandonable works abandonable
          rw [none, Nat.add_zero]
          refine ⟨answer, .inr (.inr ⟨?_, abandonable', count⟩)⟩
          unfold Job.post
          split
          next finish =>
            rw [finish] at abandonable
            cases abandonable
          next => exact slot
      next => exact absurd honest.1 running
      next => exact absurd honest.2.1 some

theorem counted_next (honest : call.Honest) (counted : call.Counted)
    (run : call.next granted fs (thread, a) = some (e, call')) (flushes : call.flushFails (thread, a) = false)
    (decides : call.decidesFailure (thread, a) = false) : call'.Counted := by
  rcases next_cases run with ⟨rfl, rfl, rfl⟩ | ⟨rfl, -, run⟩ | ⟨rfl, -, run⟩
  · exact .inl ⟨rfl, counted.once⟩
  · rcases advance_cases run with ⟨plan, spawn, rfl, rfl⟩ | ⟨plan, wait, free, rfl, looks⟩ |
      ⟨plan, expired, rfl, rfl⟩ | ⟨pc', prepares, rfl⟩
    · obtain ⟨-, none, -⟩ := honest.undivided (by rw [spawn]; rfl)
      rcases counted with ⟨ended, -⟩ | ⟨-, published, discarded⟩
      · rw [none] at ended
        cases ended
      · rw [none] at published discarded
        exact .inr ⟨rfl, published, discarded⟩
    · rcases looks with ⟨result, finished, rfl⟩ | ⟨unfinished, rfl | rfl⟩ <;> exact counted
    · exact counted
    · exact counted
  · rcases build_cases run with ⟨phase, rfl, rfl⟩ | ⟨job', works, rfl⟩
    · exact counted
    · have flushes : ∀ g temp, call.job = .pointing g (.flushDir temp) → a ≠ .fail := by
        rintro g temp at_ rfl
        simp [flushFails, at_] at flushes
      have decides : ∀ g operation, call.job = .decide g (.failed operation) → call.slot = .abandoned ∨ a ≠ .next := by
        intro g operation at_
        by_cases slot : call.slot = .abandoned
        · exact .inl slot
        · refine .inr ?_
          rintro rfl
          unfold decidesFailure at decides
          split at decides <;> simp_all
      rcases counted with ⟨ended, -⟩ | ⟨once, published, discarded⟩
      · rw [ended] at works
        cases works
      · obtain ⟨once', discards⟩ := work_discarded works once flushes decides
        by_cases ended : job' = .ended
        · subst ended
          obtain ⟨rfl, discards⟩ := work_ended works
          have := call.job.accounts
          refine .inl ⟨rfl, ?_⟩
          show call.publishes + 0 + (call.discards + call.job.discards) ≤ 1
          omega
        · have publishes := (work_published works flushes).resolve_left ended
          exact .inr ⟨once', by rw [published, publishes], by rw [discarded, discards.resolve_left ended]⟩

end Call

namespace State

variable (s : State)

/-- Whether no directory flush fails after the pointer was moved, and no caller waits for a build that
failed. -/
def Counts (label : Nat × Thread × Action) : Prop :=
  ((s.calls[label.1]?).all fun call => !call.flushFails label.2 && !call.decidesFailure label.2) = true

instance (label : Nat × Thread × Action) : Decidable (s.Counts label) := inferInstanceAs (Decidable (_ = true))

/-- What answers say about publication. -/
structure Truthful : Prop where
  /-- A call has a published answer if it moved the pointer to its generation, and only then. -/
  answered : ∀ call ∈ s.calls, ∀ answer, call.pc = .answered answer →
    (answer.isPublished = true ↔ call.publishes = 1)
  /-- After its answer, a call publishes nothing. -/
  settled : ∀ label t call answer, s.next label = some t → s.calls[label.1]? = some call →
    call.pc = .answered answer →
    ∃ call', t.calls[label.1]? = some call' ∧ call'.pc = .answered answer ∧ call'.publishes = call.publishes
  /-- A build is published or discarded once at most. -/
  once : ∀ call ∈ s.calls, call.publishes + call.discards ≤ 1
  /-- From its start to the end of its publish or discard, a build has the lock for itself. -/
  exclusive : ∀ (i j : Nat) a b, i ≠ j → s.calls[i]? = some a → s.calls[j]? = some b → a.job.locked = true →
    ¬ b.Locked

end State

namespace Call

variable {call call' : Call} {granted : Bool} {fs : Fs} {e : Effect} {label : Thread × Action}

theorem Honest.answered (honest : call.Honest) {answer : Answer} (answered : call.pc = .answered answer) :
    answer.isPublished = true ↔ call.publishes = 1 := by
  rw [Honest, answered] at honest
  rw [honest.1]
  split <;> simp_all

theorem Honest.settled (honest : call.Honest) {answer : Answer} (answered : call.pc = .answered answer)
    (run : call.next granted fs label = some (e, call')) :
    call'.pc = .answered answer ∧ call'.publishes = call.publishes := by
  have divided : call.pc.divided = true := by rw [answered]; rfl
  rcases next_cases run with ⟨-, -, rfl⟩ | ⟨-, -, run⟩ | ⟨-, -, run⟩
  · exact ⟨by rw [crashed, answered], rfl⟩
  · rcases advance_cases run with ⟨_, spawn, -⟩ | ⟨_, wait, -⟩ | ⟨_, expired, -⟩ | ⟨pc', prepares, -⟩
    · rw [answered] at spawn
      cases spawn
    · rw [answered] at wait
      cases wait
    · rw [answered] at expired
      cases expired
    · rw [(prepare_divided prepares).1] at divided
      cases divided
  · rcases build_cases run with ⟨phase, -, rfl⟩ | ⟨job', works, rfl⟩
    · exact ⟨answered, rfl⟩
    · rw [Honest, answered] at honest
      rcases honest.2 with none | ended | ⟨slot, abandonable, -⟩
      · exact absurd none (work_spawned works).1
      · rw [ended] at works
        cases works
      · rw [slot] at works
        refine ⟨answered, ?_⟩
        rw [(work_abandonable works abandonable).2, Nat.add_zero]

end Call

theorem State.counted_next {s t : State} {label : Nat × Thread × Action}
    (sound : s.Exclusive ∧ ∀ call ∈ s.calls, call.Honest ∧ call.Counted) (counts : s.Counts label)
    (next : s.next label = some t) : t.Exclusive ∧ ∀ call ∈ t.calls, call.Honest ∧ call.Counted := by
  refine ⟨exclusive_next sound.1 next, forall_calls_next sound.2 next fun call e call' found run touched => ?_⟩
  obtain ⟨honest, counted⟩ := sound.2 call (List.mem_of_getElem? found)
  have condition : (!call.flushFails label.2 && !call.decidesFailure label.2) = true := by
    simpa [Counts, found] using counts
  obtain ⟨flushes, decides⟩ := Bool.and_eq_true_iff.mp condition
  have flushes : call.flushFails label.2 = false := by simpa using flushes
  have decides : call.decidesFailure label.2 = false := by simpa using decides
  have honest' := Call.honest_next honest run flushes
  have counted' := Call.counted_next honest counted run flushes decides
  exact ⟨honest', counted'⟩

theorem Call.Fresh.honest {call : Call} (fresh : call.Fresh) : call.Honest ∧ call.Counted := by
  obtain ⟨pc, job, slot, publishes, discards, -⟩ := fresh
  exact ⟨.of_undivided (by rw [pc]; rfl) ⟨slot, job, publishes⟩,
    .inr ⟨by rw [job]; rfl, by rw [publishes, job]; rfl, by rw [discards, job]; rfl⟩⟩

theorem State.Exclusive.of_fresh {s : State} (fresh : ∀ call ∈ s.calls, call.Fresh) : s.Exclusive :=
  .of_unlocked fun call mem => by
    obtain ⟨pc, job, -⟩ := fresh call mem
    simp [Call.locks, pc, job, Pc.locked, Job.locked]

/-- **Answers tell the truth about publication** in a run in which no directory flush fails after the
pointer was moved, and no caller waits for a build that failed. -/
theorem answers_truthful {s₀ s : State} {ls : List (Nat × Thread × Action)} (start : index.init s₀)
    (run : index.Run s₀ ls s) (met : index.Meets State.Counts s₀ ls) : s.Truthful := by
  obtain ⟨exclusive, calls⟩ := run.preserves_under (P := fun s => s.Exclusive ∧ ∀ call ∈ s.calls, call.Honest ∧ call.Counted)
    (fun _ _ _ => State.counted_next) met ⟨.of_fresh start.2.2.2, fun call mem => (start.2.2.2 call mem).honest⟩
  constructor
  · intro call mem answer answered
    exact (calls call mem).1.answered answered
  · intro label t call answer next found answered
    obtain ⟨call', e, after, found', steps, rfl⟩ := State.next_eq_some.mp next
    obtain rfl : call = call' := Option.mem_unique found found'
    have settled := (calls call (List.mem_of_getElem? found)).1.settled answered steps
    refine ⟨_, List.getElem?_set_self ?_, settled⟩
    exact (List.getElem?_eq_some_iff.mp found).1
  · intro call mem
    exact (calls call mem).2.once
  · intro i j a b apart ha hb building locked
    exact exclusive.absurd apart ha hb (.inr building) locked

namespace Sample

def ours : Versions := ⟨24, 2⟩

def call (versions : Versions) : Call :=
  { ours := versions, pid := 7, full := false, pc := .idle, job := .none, slot := .running, phase := none
    publishes := 0, discards := 0, touched := false }

def start : State := ⟨∅, [call ours, call ours], none⟩

theorem start_init : index.init start := by
  refine ⟨?_, rfl, rfl, ?_⟩
  · intro name file found
    simp [start] at found
  · intro other mem
    obtain rfl : other = call ours := by simpa [start] using mem
    exact ⟨rfl, rfl, rfl, rfl, rfl, rfl⟩

def steps (k : Nat) (thread : Thread) (n : Nat) : List (Nat × Thread × Action) :=
  List.replicate n (k, thread, .next)

def prepares (k : Nat) (before : Nat) (number : UInt64) (after : Nat) : List (Nat × Thread × Action) :=
  (k, .caller, .start) :: steps k .caller before ++ (k, .caller, .choose number) ::
    (k, .caller, .temp number) :: steps k .caller (4 + after)

def builds (k : Nat) : List (Nat × Thread × Action) :=
  [(k, .builder, .write .database), (k, .builder, .write .closeLock), (k, .builder, .complete), (k, .builder, .next),
    (k, .builder, .next), (k, .builder, .temp 0)] ++ steps k .builder 3

def answered : List (Nat × Thread × Action) :=
  prepares 0 10 1 4 ++ builds 0 ++ steps 0 .builder 3 ++ steps 0 .caller 1 ++ prepares 1 11 2 5 ++
    [(1, .caller, .timeout), (1, .caller, .next), (1, .builder, .cancel)] ++ steps 1 .builder 9

def answeredState : State :=
  (answered.foldlM (fun (s : State) l => if s.Counts l then s.next l else none) start).get (by decide +kernel)

theorem answers_truthful_answered : answeredState.Truthful := by
  obtain ⟨run, met⟩ := TransitionSystem.Run.of_apply_meets (T := index) (C := State.Counts)
    (fun _ _ _ => Iff.rfl) (Option.some_get _).symm
  exact answers_truthful start_init run met

def unflushed : List (Nat × Thread × Action) :=
  prepares 0 10 1 4 ++ builds 0 ++ [(0, .builder, .fail)] ++ steps 0 .builder 10 ++ steps 0 .caller 1

def unflushedState : State := (unflushed.foldlM State.next start).get (by decide +kernel)

/-- The call answers with an error, and has moved the pointer and discarded its generation. -/
theorem unflushed_untrue : index.Run start unflushed unflushedState ∧ ¬ unflushedState.Truthful := by
  refine ⟨.of_apply (fun _ _ _ => id) (Option.some_get _).symm, fun truthful => ?_⟩
  have answer : (unflushedState.calls[0]?).map Call.pc = some (.answered (.error "write code-graph index file")) := by
    decide +kernel
  have counts : (unflushedState.calls[0]?).map Call.publishes = some 1 := by decide +kernel
  obtain ⟨call, found, pc⟩ := Option.map_eq_some_iff.mp answer
  rw [found] at counts
  have published := (truthful.answered call (List.mem_of_getElem? found) _ pc).mpr (Option.some.inj counts)
  cases published

end Sample

end OrbitGraph.CodeIndex
