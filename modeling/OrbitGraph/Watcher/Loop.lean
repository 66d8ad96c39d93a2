import OrbitGraph.Lib.TransitionSystem
import OrbitGraph.Watcher.Events

/-!
The watcher: the callback that forwards events, and the loop that syncs.

Both are cut at every access to the queue and to the `dropped` counter, and the
loop also where it reads the clock and where it calls the sync, so that a run
is any interleaving of the two with the clock. The callback is one thread: it is
not called again between a failed send and the count of it. A change is lost
if the loop comes to rest and has not begun a sync since.
-/

namespace OrbitGraph.Watcher

open Lib

def eventChannelCapacity : Nat := 1024

/-- `IDLE_POLL`, in milliseconds. -/
def idlePoll : Nat := 50

/-- Where the loop is. -/
inductive Point where
  /-- Before it reads `stop`. -/
  | top
  | polling
  /-- It has swapped the counter. -/
  | swapped (droppedEvents : Nat)
  /-- It has scheduled what the counter asked for. -/
  | scheduled
  /-- It has computed how long to wait. -/
  | calling (wait : Nat)
  | waiting (deadline : Nat)
  /-- It has found the queue empty, and not yet looked at the deadline. -/
  | missed (deadline : Nat)
  | received (notice : Notice)
  | timedOut
  /-- It has cleared `sync_due`, and not yet called the sync. -/
  | starting
  | syncing
  | exited
  deriving DecidableEq

structure State where
  queue : List Notice
  /-- An `AtomicU64`. -/
  dropped : Nat
  stop : Bool
  /-- Whether the callback, and with it the sender, is there. -/
  connected : Bool
  /-- The callback has met a full queue, and not yet counted it. -/
  dropping : Bool
  clock : Nat
  syncDue : Option Nat
  point : Point
  deriving DecidableEq

structure Settings where
  watchRoot : Path
  debounce : Nat
  /-- The last instant the clock can represent. -/
  lastInstant : Nat

inductive Label where
  /-- `forward_event`, up to its `try_send`. -/
  | forward (notice : Notice)
  /-- Its `fetch_add`. -/
  | countDropped
  | hangUp
  | requestStop
  | tick (elapsed : Nat)
  /-- A step of the loop. -/
  | advance
  | startSync
  deriving DecidableEq

namespace State

variable (settings : Settings) (s : State)

/-- `schedule`: after the debounce, or at once if the clock cannot represent that. -/
def schedule : Nat :=
  if s.clock + settings.debounce ≤ settings.lastInstant then s.clock + settings.debounce else s.clock

def wait : Nat :=
  match s.syncDue with
  | none => idlePoll
  | some due => min (due - s.clock) idlePoll

/-- `forward_event`: filters, then tries to send. -/
def forward (notice : Notice) : State :=
  if requiresSync settings.watchRoot notice then
    if s.point = .exited then s
    else if s.queue.length < eventChannelCapacity then { s with queue := s.queue ++ [notice] }
    else { s with dropping := true }
  else s

/-- One step of `event_loop`, other than the call of the sync. -/
def advance : Option State :=
  match s.point with
  | .top => some { s with point := if s.stop then .exited else .polling }
  | .polling => some { s with point := .swapped s.dropped, dropped := 0 }
  | .swapped droppedEvents => some { s with
      point := .scheduled
      syncDue := if 0 < droppedEvents then some (s.schedule settings) else s.syncDue }
  | .scheduled => some { s with point := .calling s.wait }
  | .calling wait => some { s with point := .waiting (s.clock + wait) }
  | .waiting deadline =>
    match s.queue with
    | notice :: rest => some { s with point := .received notice, queue := rest }
    | [] => some { s with point := if s.connected then .missed deadline else .exited }
  | .missed deadline =>
    some { s with point := if deadline ≤ s.clock then .timedOut else .waiting deadline }
  | .received notice => some { s with
      point := .top
      syncDue := if requiresSync settings.watchRoot notice then some (s.schedule settings) else s.syncDue }
  | .timedOut =>
    if s.syncDue.any (· ≤ s.clock) then some { s with point := .starting, syncDue := none }
    else some { s with point := .top }
  | .starting => none
  | .syncing => some { s with point := .top }
  | .exited => none

/-- The state after a step, if the step can be taken. -/
def apply : Label → Option State
  | .forward notice => if s.connected ∧ s.dropping = false then some (s.forward settings notice) else none
  | .countDropped =>
    if s.dropping then some { s with dropping := false, dropped := (s.dropped + 1) % 2 ^ 64 } else none
  | .hangUp => if s.dropping = false then some { s with connected := false } else none
  | .requestStop => some { s with stop := true }
  | .tick elapsed => some { s with clock := s.clock + elapsed }
  | .advance => s.advance settings
  | .startSync => if s.point = .starting then some { s with point := .syncing } else none

/-- Before the loop's first step, with what the callback may already have done. -/
def initial (clock : Nat) : State where
  queue := []
  dropped := 0
  stop := false
  connected := true
  dropping := false
  clock := clock
  syncDue := none
  point := .top

end State

def watcher (settings : Settings) : TransitionSystem State Label where
  init s := ∃ clock, s = State.initial clock
  step s l t := s.apply settings l = some t

/-- A relevant event, as it is forwarded or dropped. -/
def Changes (root : Path) : Label → Prop
  | .forward notice => requiresSync root notice = true
  | .countDropped => True
  | _ => False

/-- The loop holds no event in hand, and is not about to sync. -/
def Point.AtRest : Point → Prop
  | .received _ | .starting | .exited => False
  | .swapped droppedEvents => droppedEvents = 0
  | _ => True

/-- Idle: the queue is empty, the counter clear, and no sync due. -/
structure State.Idle (s : State) : Prop where
  queue : s.queue = []
  dropped : s.dropped = 0
  syncDue : s.syncDue = none
  point : s.point.AtRest

/-- The loop has taken an event of a full queue since it last swapped the counter, or the
queue is not empty. -/
def State.Draining (s : State) : Prop :=
  match s.point with
  | .received _ | .exited => True
  | .top | .polling => s.queue ≠ [] ∨ s.syncDue ≠ none
  | _ => s.queue ≠ []

/-- A relevant event, whether there is room for it or not. -/
def forwardsChange (root : Path) : Label → Bool
  | .forward notice => requiresSync root notice
  | _ => false

/-- What a sync may still be begun for: what is in hand, and what is to be taken or scheduled. -/
def Point.held : Point → Nat
  | .received _ | .starting => 1
  | .swapped droppedEvents => droppedEvents
  | _ => 0

def State.credit (s : State) : Nat :=
  s.queue.length + s.dropped + s.dropping.toNat + s.syncDue.isSome.toNat + s.point.held

/-- The loop has a change in hand, and will schedule a sync for it. -/
def Point.Takes (root : Path) : Point → Prop
  | .received notice => requiresSync root notice = true
  | .swapped droppedEvents => 0 < droppedEvents
  | _ => False

/-- As long as the clock can represent the debounce, no sync is due, or called, sooner than that after `since`. -/
structure Waits (settings : Settings) (since : Nat) (s : State) : Prop where
  clock : since ≤ s.clock
  due : ∀ due, s.clock + settings.debounce ≤ settings.lastInstant → s.syncDue = some due → since + settings.debounce ≤ due
  starting : s.clock + settings.debounce ≤ settings.lastInstant → s.point = .starting → since + settings.debounce ≤ s.clock

/-- What holds of the queue and of the counter. A drop that is still to be counted, after
others that are still to be swapped, has met a queue that is not drained yet: so the
counter may wrap and nothing is lost. -/
structure Sound (settings : Settings) (s : State) : Prop where
  queued : ∀ notice ∈ s.queue, requiresSync settings.watchRoot notice = true
  received : ∀ notice, s.point = .received notice → requiresSync settings.watchRoot notice = true
  dropping : s.dropping = true → s.dropped ≠ 0 → s.Draining

section

variable {settings : Settings} {s t : State}

theorem Sound.forward {notice : Notice} (sound : Sound settings s) (free : s.dropping = false) :
    Sound settings (s.forward settings notice) := by
  unfold State.forward
  by_cases relevant : requiresSync settings.watchRoot notice = true
  · rw [if_pos relevant]
    by_cases gone : s.point = .exited
    · rw [if_pos gone]
      exact sound
    · rw [if_neg gone]
      by_cases room : s.queue.length < eventChannelCapacity
      · rw [if_pos room]
        refine ⟨fun other mem => ?_, sound.received, fun dropping => ?_⟩
        · rcases List.mem_append.mp mem with mem | mem
          · exact sound.queued other mem
          · rw [List.mem_singleton.mp mem]
            exact relevant
        · rw [free] at dropping
          cases dropping
      · rw [if_neg room]
        have full : s.queue ≠ [] := by
          intro empty
          rw [empty] at room
          exact room (by decide)
        refine ⟨sound.queued, sound.received, fun _ _ => ?_⟩
        unfold State.Draining
        cases s.point <;> first | trivial | exact full | exact .inl full
  · rw [if_neg relevant]
    exact sound

theorem Sound.advance (sound : Sound settings s) (step : s.advance settings = some t) : Sound settings t := by
  obtain ⟨queued, received, dropping⟩ := sound
  unfold State.Draining at dropping
  unfold State.advance at step
  cases point : s.point with
  | polling =>
    -- the counter is read out: there is nothing to count over
    simp only [point, Option.some.injEq] at step
    subst step
    exact ⟨queued, nofun, fun _ nonzero => absurd rfl nonzero⟩
  | waiting deadline =>
    cases queue : s.queue with
    | nil => grind [State.Draining, Sound]
    | cons notice rest =>
      -- an event that is taken is in hand until the loop has scheduled a sync
      simp only [point, queue, Option.some.injEq] at step
      subst step
      rw [queue, List.forall_mem_cons] at queued
      refine ⟨queued.2, fun other eq => ?_, fun _ _ => trivial⟩
      rw [← Point.received.inj eq]
      exact queued.1
  | received notice =>
    simp only [point, Option.some.injEq, received notice point, if_true] at step
    subst step
    exact ⟨queued, nofun, fun _ _ => .inr (Option.some_ne_none _)⟩
  | _ => grind [State.Draining, Sound]

theorem Sound.step {l : Label} (sound : Sound settings s) (step : s.apply settings l = some t) :
    Sound settings t := by
  cases l with
  | forward notice =>
    obtain ⟨free, eq⟩ := Option.ite_none_right_eq_some.mp step
    obtain rfl := Option.some.inj eq
    exact sound.forward free.2
  | countDropped =>
    obtain ⟨_, eq⟩ := Option.ite_none_right_eq_some.mp step
    obtain rfl := Option.some.inj eq
    exact ⟨sound.queued, sound.received, fun dropping => by cases dropping⟩
  | hangUp =>
    obtain ⟨_, eq⟩ := Option.ite_none_right_eq_some.mp step
    obtain rfl := Option.some.inj eq
    exact ⟨sound.queued, sound.received, sound.dropping⟩
  | requestStop | tick elapsed =>
    obtain rfl := Option.some.inj step
    exact ⟨sound.queued, sound.received, sound.dropping⟩
  | advance => exact sound.advance step
  | startSync =>
    obtain ⟨starting, eq⟩ := Option.ite_none_right_eq_some.mp step
    obtain rfl := Option.some.inj eq
    obtain ⟨queued, received, dropping⟩ := sound
    grind [State.Draining, Sound]

theorem Sound.initial (clock : Nat) : Sound settings (.initial clock) where
  queued _ mem := absurd mem List.not_mem_nil
  received _ eq := nomatch eq
  dropping dropping := nomatch dropping

theorem not_idle_of_change {l : Label} (sound : Sound settings s)
    (change : Changes settings.watchRoot l) (step : s.apply settings l = some t) : ¬ t.Idle := by
  rintro ⟨queue, dropped, due, rest⟩
  cases l with
  | forward notice =>
    obtain ⟨_, eq⟩ := Option.ite_none_right_eq_some.mp step
    obtain rfl := Option.some.inj eq
    have relevant : requiresSync settings.watchRoot notice = true := change
    unfold State.forward at queue rest
    rw [if_pos relevant] at queue rest
    by_cases gone : s.point = .exited
    · rw [if_pos gone, gone] at rest
      exact rest
    · rw [if_neg gone] at queue
      split at queue
      next => simp at queue
      next full => exact full (by rw [show s.queue = [] from queue]; decide)
  | countDropped =>
    obtain ⟨dropping, eq⟩ := Option.ite_none_right_eq_some.mp step
    obtain rfl := Option.some.inj eq
    have dropped : (s.dropped + 1) % 2 ^ 64 = 0 := dropped
    have draining := sound.dropping dropping (by omega)
    unfold State.Draining at draining
    grind [Point.AtRest]
  | hangUp | requestStop | tick _ | advance | startSync => exact change

theorem not_idle_of_advance (sound : Sound settings s) (busy : ¬ s.Idle)
    (step : s.advance settings = some t) : ¬ t.Idle := by
  rintro ⟨queue, dropped, due, rest⟩
  refine busy ?_
  have received := sound.received
  unfold State.advance at step
  cases point : s.point <;> grind [State.Idle, Point.AtRest]

theorem not_idle_of_step {l : Label} (sound : Sound settings s) (busy : ¬ s.Idle)
    (notStart : l ≠ .startSync) (step : s.apply settings l = some t) : ¬ t.Idle := by
  cases l with
  | forward notice =>
    by_cases relevant : requiresSync settings.watchRoot notice = true
    · exact not_idle_of_change (l := .forward notice) sound relevant step
    · obtain ⟨_, eq⟩ := Option.ite_none_right_eq_some.mp step
      obtain rfl := Option.some.inj eq
      rwa [State.forward, if_neg relevant]
  | countDropped => exact not_idle_of_change (l := .countDropped) sound trivial step
  | hangUp =>
    obtain ⟨_, eq⟩ := Option.ite_none_right_eq_some.mp step
    obtain rfl := Option.some.inj eq
    exact fun idle => busy ⟨idle.queue, idle.dropped, idle.syncDue, idle.point⟩
  | requestStop | tick elapsed =>
    obtain rfl := Option.some.inj step
    exact fun idle => busy ⟨idle.queue, idle.dropped, idle.syncDue, idle.point⟩
  | advance => exact not_idle_of_advance sound busy step
  | startSync => exact absurd rfl notStart

/-- The changes of a run that no sync was begun after. -/
def Unsynced (root : Path) (ls : List Label) : Prop :=
  ∃ before l after, ls = before ++ l :: after ∧ Changes root l ∧ .startSync ∉ after

theorem Unsynced.of_snoc {root : Path} {ls : List Label} {l : Label} (unsynced : Unsynced root (ls ++ [l])) :
    Changes root l ∨ (Unsynced root ls ∧ l ≠ .startSync) := by
  obtain ⟨before, change, after, split, changes, notStart⟩ := unsynced
  rcases List.eq_nil_or_concat after with rfl | ⟨rest, last, rfl⟩
  · obtain ⟨_, same⟩ := List.append_inj' (split : ls ++ [l] = before ++ [change]) rfl
    rw [List.singleton_inj.mp same]
    exact .inl changes
  · rw [List.concat_eq_append] at split notStart
    have split : ls ++ [l] = (before ++ change :: rest) ++ [last] := by simp [split]
    obtain ⟨rfl, same⟩ := List.append_inj' split rfl
    obtain rfl := List.singleton_inj.mp same
    simp only [List.mem_append, List.mem_singleton, not_or] at notStart
    exact .inr ⟨⟨before, change, rest, rfl, changes, notStart.1⟩, Ne.symm notStart.2⟩

theorem not_idle_of_unsynced {ls : List Label} (sound : Sound settings s) (run : (watcher settings).Run s ls t) :
    Sound settings t ∧ (Unsynced settings.watchRoot ls → ¬ t.Idle) := by
  induction run with
  | nil =>
    refine ⟨sound, ?_⟩
    rintro ⟨before, l, after, split, _⟩
    simp at split
  | snoc _ step ih =>
    obtain ⟨sound, busy⟩ := ih
    refine ⟨sound.step step, fun unsynced => ?_⟩
    rcases unsynced.of_snoc with change | ⟨unsynced, notStart⟩
    · exact not_idle_of_change sound change step
    · exact not_idle_of_step sound (busy unsynced) notStart step

/-- No change is lost: in every run, and whenever the loop is idle, it has begun a sync
after each relevant event that was forwarded or dropped. -/
theorem no_change_lost {settings : Settings} {start s : State} {ls : List Label}
    (init : (watcher settings).init start) (run : (watcher settings).Run start ls s) (idle : s.Idle)
    {before after : List Label} {l : Label} (split : ls = before ++ l :: after)
    (change : Changes settings.watchRoot l) : .startSync ∈ after := by
  obtain ⟨clock, rfl⟩ := init
  by_contra notStart
  exact (not_idle_of_unsynced (Sound.initial clock) run).2 ⟨before, l, after, split, change, notStart⟩ idle

theorem credit_of_advance (step : s.advance settings = some t) : t.credit ≤ s.credit := by
  unfold State.advance at step
  unfold State.credit
  cases point : s.point <;> cases due : s.syncDue <;> grind [Point.held]

theorem credit_of_step {l : Label} (step : s.apply settings l = some t) :
    [l].count .startSync + t.credit ≤ s.credit + [l].countP (forwardsChange settings.watchRoot) := by
  cases l with
  | advance =>
    have kept := credit_of_advance step
    grind
  | startSync =>
    obtain ⟨starting, eq⟩ := Option.ite_none_right_eq_some.mp step
    obtain rfl := Option.some.inj eq
    grind [State.credit, Point.held]
  | _ =>
    -- the counter may wrap, which only loses credit
    grind [State.apply, State.forward, State.credit, forwardsChange]

theorem credit_of_run {ls : List Label} (run : (watcher settings).Run s ls t) :
    ls.count .startSync + t.credit ≤ s.credit + ls.countP (forwardsChange settings.watchRoot) := by
  induction run with
  | nil => exact Nat.le_of_eq (Nat.add_comm _ _)
  | snoc _ step ih =>
    have last := credit_of_step step
    rw [List.count_append, List.countP_append]
    omega

/-- No sync is needless: in every run there are at most as many syncs as relevant events, so that what a sync reads
never brings on the next one. -/
theorem syncs_le_changes {start : State} {ls : List Label} (init : (watcher settings).init start)
    (run : (watcher settings).Run start ls s) :
    ls.count .startSync ≤ ls.countP (forwardsChange settings.watchRoot) := by
  obtain ⟨clock, rfl⟩ := init
  have spent := credit_of_run run
  have nothing : (State.initial clock).credit = 0 := rfl
  omega

theorem Waits.step {since : Nat} {l : Label} (waits : Waits settings since s) (step : s.apply settings l = some t) :
    Waits settings since t := by
  obtain ⟨clock, due, starting⟩ := waits
  cases l with
  | advance =>
    have step : s.advance settings = some t := step
    unfold State.advance at step
    cases point : s.point <;> cases scheduled : s.syncDue <;> grind [State.schedule, Waits]
  | tick elapsed =>
    obtain rfl := Option.some.inj step
    exact ⟨by dsimp only; omega, by dsimp only; grind, by dsimp only; grind⟩
  | _ => grind [State.apply, State.forward, Waits]

theorem waits_of_takes (takes : s.point.Takes settings.watchRoot) (step : s.advance settings = some t) :
    Waits settings s.clock t := by
  unfold State.advance at step
  cases point : s.point <;> grind [State.schedule, Waits, Point.Takes]

/-- A sync waits until it is quiet: whenever the loop is about to call one, each change that it has taken lies at least
the debounce back, as far as the clock can represent that. -/
theorem sync_waits {taken u : State} {ls : List Label} (takes : s.point.Takes settings.watchRoot)
    (step : s.advance settings = some taken) (run : (watcher settings).Run taken ls u)
    (fits : u.clock + settings.debounce ≤ settings.lastInstant) (about : u.point = .starting) :
    s.clock + settings.debounce ≤ u.clock :=
  (run.preserves (fun _ _ _ => Waits.step) (waits_of_takes takes step)).starting fits about

end

namespace Sample

def settings : Settings where
  watchRoot := [.rootDir, .normal "repo"]
  debounce := 100
  lastInstant := 1000000

def modified : Event where
  kind := .modify
  paths := [[.rootDir, .normal "repo", .normal "lib.rs"]]
  needRescan := false

def afterwards : List Label :=
  List.replicate 7 .advance ++ [.tick 100] ++ List.replicate 8 .advance ++ [.startSync]

def synced : State := { State.initial 100 with point := .syncing }

theorem no_change_lost_modified : .startSync ∈ afterwards :=
  @no_change_lost settings _ synced _ ⟨0, rfl⟩ (.of_apply (fun _ _ _ => id) (by decide +kernel))
    ⟨rfl, rfl, rfl, trivial⟩ [] _ (.forward (.ok modified)) rfl
    (show requiresSync settings.watchRoot (.ok modified) = true by decide +kernel)

theorem syncs_le_changes_modified : (.forward (.ok modified) :: afterwards).count .startSync ≤
    (.forward (.ok modified) :: afterwards).countP (forwardsChange settings.watchRoot) :=
  @syncs_le_changes settings synced _ _ ⟨0, rfl⟩ (.of_apply (fun _ _ _ => id) (by decide +kernel))

theorem sync_waits_modified : 0 + settings.debounce ≤ 100 :=
  @sync_waits settings { State.initial 0 with point := .received (.ok modified) }
    { State.initial 0 with syncDue := some 100 } { State.initial 100 with point := .starting }
    (.tick 100 :: .replicate 8 .advance) (show requiresSync settings.watchRoot (.ok modified) = true by decide +kernel)
    (by decide +kernel) (.of_apply (fun _ _ _ => id) (by decide +kernel)) (by decide) rfl

end Sample

end OrbitGraph.Watcher
