import OrbitGraph.Lib.TransitionSystem
import OrbitGraph.Sync.Scanner

/-!
Coalesced syncs: concurrent callers in one process, the registry of runs in
flight, and the guard that publishes a leader's result.

Callers name a database by its path; two paths may lead to one file, whose lock
then keeps the runs apart. A step is one access to shared state under its
mutex: a lookup or insertion in the registry, a write of a run's slot, a
removal, a follower's look at the slot. A run itself is cut into taking the file
lock, beginning its scan, and returning or panicking. Files are written at any
time. `clock` counts steps and is not part of the program.
-/

namespace OrbitGraph.Coalesce

open Lib Sync

abbrev CallId := Nat

abbrev RunId := Nat

structure SyncReport where
  filesIndexed : Nat
  filesChanged : Nat
  filesRemoved : Nat

/-- The errors a coalesced call may return. -/
inductive GraphError where
  | invalidData (operation reason : Text)
  /-- A wait on `path` outlived its bound; `leader` is the recorded holder. -/
  | timeout (operation path : Text) (leader : CallId)
  | other (operation reason : Text)

abbrev SyncResult := Except GraphError SyncReport

def leaderPanicked : SyncResult :=
  .error (.invalidData "run graph sync"
    "the coalesced sync leader panicked before publishing a result")

def followerTimedOut (path : Text) (leader : CallId) : SyncResult :=
  .error (.timeout "wait for in-flight graph sync" path leader)

/-- When a run's scan began, and how many writes of its worktree's files came
before. -/
structure ScanStart where
  time : Nat
  writes : Nat

/-- A run in flight. `result` is the slot that followers wait on; `mode`, `scan`
and `removed` (when its entry left the registry) only record what happened. -/
structure InFlightSync where
  path : Text
  leader : CallId
  result : Option SyncResult
  mode : SyncMode
  scan : Option ScanStart
  removed : Option Nat

/-- `LeaderGuard::set_result`: the first result stays. -/
def InFlightSync.setResult (run : InFlightSync) (result : SyncResult) : InFlightSync :=
  if run.result.isNone then { run with result := some result } else run

/-- Where a leader is. An outcome is a result, or `none` for a panic. -/
inductive Stage where
  /-- Its run has not taken the file lock. -/
  | waiting
  /-- Its run holds the file lock. -/
  | locked
  /-- Its run has begun the scan, and holds the lock. -/
  | scanned
  /-- Its run is over. -/
  | ran (outcome : Option SyncResult)
  /-- `publish` has written the slot. -/
  | published (result : SyncResult)
  /-- `drop` has written the slot. -/
  | dropping (outcome : Option SyncResult)

inductive Phase where
  /-- Before its look at the registry. -/
  | called
  | leading (run : RunId) (stage : Stage)
  | following (run : RunId)
  | returned (run : RunId) (result : SyncResult)
  /-- The panic has left the call. -/
  | unwound (run : RunId)

/-- One call. `begun` is when it was made, `writes` how many writes of its
worktree's files came before. -/
structure Call where
  path : Text
  mode : SyncMode
  begun : Nat
  writes : Nat
  phase : Phase

/-- Who holds a file's lock: a coalesced run, or someone else (an observed sync,
another process). -/
inductive Holder where
  | run (id : RunId)
  | outside

structure State where
  registry : Text → Option RunId
  runs : RunId → Option InFlightSync
  nextRun : RunId
  calls : CallId → Option Call
  lock : Nat → Option Holder
  /-- How often the files of a database's worktree were written. -/
  writes : Nat → Nat
  clock : Nat

def State.initial : State where
  registry _ := none
  runs _ := none
  nextRun := 0
  calls _ := none
  lock _ := none
  writes _ := 0
  clock := 0

namespace State

variable (s : State)

def setPhase (c : CallId) (call : Call) (phase : Phase) : State :=
  { s with calls := Function.update s.calls c (some { call with phase }), clock := s.clock + 1 }

def setRun (id : RunId) (run : InFlightSync) : State :=
  { s with runs := Function.update s.runs id (some run) }

def setLock (file : Nat) (holder : Option Holder) : State :=
  { s with lock := Function.update s.lock file holder }

end State

inductive Label where
  | call (c : CallId) (path : Text) (mode : SyncMode)
  | register (c : CallId)
  | acquire (c : CallId)
  | scan (c : CallId)
  | finish (c : CallId) (result : SyncResult)
  | panic (c : CallId)
  | publish (c : CallId)
  | dropSet (c : CallId)
  | dropRemove (c : CallId)
  | wake (c : CallId)
  | timeout (c : CallId)
  | write (file : Nat)
  | outsideLock (file : Nat)
  | outsideUnlock (file : Nat)

/-- Whether a run is under way, and whether it holds its file's lock. -/
def Stage.running : Stage → Bool
  | .waiting => true
  | .locked => true
  | .scanned => true
  | _ => false

def Stage.holdsLock : Stage → Bool
  | .locked => true
  | .scanned => true
  | _ => false

/-- The lock after a run of `stage` has ended: its guard is dropped. -/
def State.releaseLock (s : State) (file : Nat) (stage : Stage) : State :=
  { s with
    lock := if stage.holdsLock then Function.update s.lock file none else s.lock }

variable (fileOf : Text → Nat)

/-- The steps of the callers. A database path leads to the file `fileOf path`. -/
inductive Step : State → Label → State → Prop where
  | call {s c path mode} (new : s.calls c = none) :
      Step s (.call c path mode)
        { s with
          calls := Function.update s.calls c
            (some ⟨path, mode, s.clock, s.writes (fileOf path), .called⟩)
          clock := s.clock + 1 }
  | lead {s c call} (hCall : s.calls c = some call) (phase : call.phase = .called)
      (free : s.registry call.path = none) :
      Step s (.register c)
        { (s.setRun s.nextRun ⟨call.path, c, none, call.mode, none, none⟩).setPhase c call
            (.leading s.nextRun .waiting) with
          registry := Function.update s.registry call.path (some s.nextRun)
          nextRun := s.nextRun + 1 }
  | follow {s c call id} (hCall : s.calls c = some call) (phase : call.phase = .called)
      (entry : s.registry call.path = some id) :
      Step s (.register c) (s.setPhase c call (.following id))
  | acquire {s c call id} (hCall : s.calls c = some call)
      (phase : call.phase = .leading id .waiting) (free : s.lock (fileOf call.path) = none) :
      Step s (.acquire c)
        ((s.setLock (fileOf call.path) (some (.run id))).setPhase c call (.leading id .locked))
  | scan {s c call id run} (hCall : s.calls c = some call)
      (phase : call.phase = .leading id .locked) (hRun : s.runs id = some run) :
      Step s (.scan c)
        ((s.setRun id { run with scan := some ⟨s.clock, s.writes (fileOf call.path)⟩ }).setPhase c
          call (.leading id .scanned))
  | succeed {s c call id run start report} (hCall : s.calls c = some call)
      (phase : call.phase = .leading id .scanned) (hRun : s.runs id = some run)
      (hScan : run.scan = some start) :
      Step s (.finish c (.ok report))
        ((s.setLock (fileOf call.path) none).setPhase c call (.leading id (.ran (some (.ok report)))))
  | fail {s c call id stage error} (hCall : s.calls c = some call)
      (phase : call.phase = .leading id stage) (running : stage.running = true) :
      Step s (.finish c (.error error))
        ((s.releaseLock (fileOf call.path) stage).setPhase c call (.leading id (.ran (some (.error error)))))
  | panic {s c call id stage} (hCall : s.calls c = some call)
      (phase : call.phase = .leading id stage) (running : stage.running = true) :
      Step s (.panic c)
        ((s.releaseLock (fileOf call.path) stage).setPhase c call (.leading id (.ran none)))
  | publish {s c call id run result} (hCall : s.calls c = some call)
      (phase : call.phase = .leading id (.ran (some result))) (hRun : s.runs id = some run) :
      Step s (.publish c)
        ((s.setRun id (run.setResult result)).setPhase c call (.leading id (.published result)))
  | dropSet {s c call id run result} (hCall : s.calls c = some call)
      (phase : call.phase = .leading id (.published result)) (hRun : s.runs id = some run) :
      Step s (.dropSet c)
        ((s.setRun id (run.setResult leaderPanicked)).setPhase c call (.leading id (.dropping (some result))))
  | dropSetPanicked {s c call id run} (hCall : s.calls c = some call)
      (phase : call.phase = .leading id (.ran none)) (hRun : s.runs id = some run) :
      Step s (.dropSet c)
        ((s.setRun id (run.setResult leaderPanicked)).setPhase c call (.leading id (.dropping none)))
  | dropRemove {s c call id run outcome} (hCall : s.calls c = some call)
      (phase : call.phase = .leading id (.dropping outcome)) (hRun : s.runs id = some run) :
      Step s (.dropRemove c)
        (if s.registry call.path = some id then
          { (s.setRun id { run with removed := some s.clock }).setPhase c call
              (outcome.elim (.unwound id) (.returned id)) with
            registry := Function.update s.registry call.path none }
        else s.setPhase c call (outcome.elim (.unwound id) (.returned id)))
  | wake {s c call id run result} (hCall : s.calls c = some call)
      (phase : call.phase = .following id) (hRun : s.runs id = some run)
      (ready : run.result = some result) :
      Step s (.wake c) (s.setPhase c call (.returned id result))
  | timeout {s c call id run} (hCall : s.calls c = some call)
      (phase : call.phase = .following id) (hRun : s.runs id = some run)
      (pending : run.result = none) :
      Step s (.timeout c)
        (s.setPhase c call (.returned id (followerTimedOut call.path run.leader)))
  | write {s file} :
      Step s (.write file)
        { s with
          writes := Function.update s.writes file (s.writes file + 1)
          clock := s.clock + 1 }
  | outsideLock {s file} (free : s.lock file = none) :
      Step s (.outsideLock file) { s.setLock file (some .outside) with clock := s.clock + 1 }
  | outsideUnlock {s file} (held : s.lock file = some .outside) :
      Step s (.outsideUnlock file) { s.setLock file none with clock := s.clock + 1 }

/-- Coalesced calls from a process that has made none. -/
def coalesced : TransitionSystem State Label where
  init s := s = State.initial
  step := Step fileOf

end OrbitGraph.Coalesce
