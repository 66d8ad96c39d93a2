import OrbitGraph.Lib.AdvisoryLock
import OrbitGraph.Lib.TransitionSystem

/-!
The locks of one database family, and `clean` removing its files.

A lock is on an open file, not on its name. `clean` removes the lock files with the rest
of the family while it holds their locks, so a process that has opened the sync lock's
file and waits for it can be granted a lock on a file that has no name any more, and a
process that comes while `clean` is still removing makes a new file and locks that.
-/

namespace OrbitGraph.Clean.Exclusion

open Lib

/-! ### Files and processes -/

inductive FamilyFile where
  | database
  | wal
  | shm
  | lock
  | closeLock
  deriving DecidableEq

/-- `graph_db_family_files` -/
def familyFiles : List FamilyFile := [.database, .wal, .shm, .lock, .closeLock]

inductive LockFile where
  | sync
  | close
  deriving DecidableEq

def LockFile.file : LockFile → FamilyFile
  | .sync => .lock
  | .close => .closeLock

/-- What a process has of a lock file: nothing, the file open, or the file open and locked. -/
inductive Descriptor where
  | closed
  | waiting (inode : Nat)
  | locked (inode : Nat)
  deriving DecidableEq

/-- What a process is doing. -/
inductive Activity where
  /-- Syncing, opening or closing the database, or nothing. -/
  | plain
  /-- `existing_graph_db_family_files_if_unlocked`: each lock is let go as soon as it was free. -/
  | planning
  /-- `delete_graph_db_family_if_unlocked`, on the way to its locks. -/
  | cleaning
  /-- Its removal loop, with the files that are still to come. -/
  | removing (rest : List FamilyFile)
  /-- On the way out, with the files that it has not removed. -/
  | leaving (rest : List FamilyFile)
  deriving DecidableEq

structure Process where
  activity : Activity
  sync : Descriptor
  close : Descriptor
  /-- Whether it holds the lock of the directory. -/
  observation : Bool
  deriving DecidableEq

namespace Process

def idle : Process := ⟨.plain, .closed, .closed, false⟩

def descriptor (p : Process) : LockFile → Descriptor
  | .sync => p.sync
  | .close => p.close

def setDescriptor (p : Process) (file : LockFile) (descriptor : Descriptor) : Process :=
  match file with
  | .sync => { p with sync := descriptor }
  | .close => { p with close := descriptor }

end Process

inductive LockTarget where
  | inode (file : LockFile) (inode : Nat)
  | directory
  deriving DecidableEq

def Descriptor.locks (file : LockFile) : Descriptor → List (AdvisoryLock LockTarget)
  | .locked inode => [⟨.inode file inode, .exclusive⟩]
  | _ => []

def Process.locks (p : Process) : List (AdvisoryLock LockTarget) :=
  p.sync.locks .sync ++ p.close.locks .close ++ if p.observation then [⟨.directory, .exclusive⟩] else []

structure State where
  names : FamilyFile → Option Nat
  next : Nat
  processes : List Process

/-! ### Steps -/

inductive Action where
  | plan
  | clean
  /-- `open_state_file` of a lock file. -/
  | open_ (file : LockFile)
  /-- `try_lock` that succeeds. -/
  | lock (file : LockFile)
  /-- The deadline of `wait` has passed, or `clean` found the lock held. -/
  | giveUp (file : LockFile)
  | unlock (file : LockFile)
  /-- `acquire_observation_lock` -/
  | observe
  | unobserve
  /-- `clean` has its locks. -/
  | begin
  | remove
  /-- `clean` returns, early or not. -/
  | leave
  | finish
  | crash
  /-- SQLite makes a file of the database. -/
  | create (file : FamilyFile)
  deriving DecidableEq

namespace Process

variable (p : Process)

/-- Whether a lock file may be opened: sync before the directory, and close under it, but for the plan's probes. -/
def mayOpen : LockFile → Bool
  | .sync =>
    decide (p.sync = .closed) && decide (p.close = .closed) && !p.observation &&
      decide (p.activity ∈ [.plain, .planning, .cleaning])
  | .close =>
    decide (p.close = .closed) &&
      match p.activity with
      | .plain => p.observation
      | .planning => !p.observation
      | .cleaning => p.observation
      | _ => false

/-- Whether a process lets go of a lock: one that cleans only on its way out. -/
def mayRelease : Bool :=
  match p.activity with
  | .plain | .planning | .leaving _ => true
  | _ => false

def mayObserve : Bool :=
  !p.observation && decide (p.close = .closed) && decide (p.activity ∈ [.plain, .planning, .cleaning])

/-- Whether a process that cleans has all its locks. -/
def guarded : Bool :=
  match p.activity, p.sync, p.close with
  | .cleaning, .locked _, .locked _ => p.observation
  | _, _, _ => false

end Process

namespace State

variable (s : State)

/-- Whether the kernel grants a lock. -/
def grants (target : LockTarget) : Prop := AdvisoryLock.Granted Process.locks s.processes ⟨target, .exclusive⟩

instance (target : LockTarget) : Decidable (s.grants target) :=
  inferInstanceAs (Decidable (AdvisoryLock.Granted _ _ _))

def rename (file : FamilyFile) (inode : Option Nat) : State := { s with names := Function.update s.names file inode }

def act (p : Process) : Action → Option (State × Process)
  | .plan => if p = .idle then some (s, { p with activity := .planning }) else none
  | .clean => if p = .idle then some (s, { p with activity := .cleaning }) else none
  | .open_ file =>
    if p.mayOpen file then
      match s.names file.file with
      | some inode => some (s, p.setDescriptor file (.waiting inode))
      | none =>
        if p.activity = .planning then none
        else some ({ s.rename file.file (some s.next) with next := s.next + 1 }, p.setDescriptor file (.waiting s.next))
    else none
  | .lock file =>
    match p.descriptor file with
    | .waiting inode =>
      if s.grants (.inode file inode) then some (s, p.setDescriptor file (.locked inode)) else none
    | _ => none
  | .giveUp file =>
    match p.descriptor file with
    | .waiting _ => some (s, p.setDescriptor file .closed)
    | _ => none
  | .unlock file =>
    match p.descriptor file with
    | .locked _ => if p.mayRelease then some (s, p.setDescriptor file .closed) else none
    | _ => none
  | .observe => if p.mayObserve ∧ s.grants .directory then some (s, { p with observation := true }) else none
  | .unobserve =>
    if p.observation ∧ p.close = .closed ∧ p.mayRelease then some (s, { p with observation := false }) else none
  | .begin => if p.guarded then some (s, { p with activity := .removing familyFiles }) else none
  | .remove =>
    match p.activity with
    | .removing (file :: rest) => some (s.rename file none, { p with activity := .removing rest })
    | _ => none
  | .leave =>
    match p.activity with
    | .cleaning => some (s, { p with activity := .leaving familyFiles })
    | .removing rest => some (s, { p with activity := .leaving rest })
    | _ => none
  | .finish =>
    match p.activity with
    | .leaving _ | .planning => if p.locks = [] then some (s, .idle) else none
    | _ => none
  | .crash => some (s, .idle)
  | .create file =>
    if p.activity = .plain ∧ file ∈ [FamilyFile.database, .wal, .shm] then
      some ({ s.rename file (some s.next) with next := s.next + 1 }, p)
    else none

/-- An action of the process at an index. -/
def apply (l : Nat × Action) : Option State :=
  match s.processes[l.1]? with
  | none => none
  | some p => (s.act p l.2).map fun result => { result.1 with processes := s.processes.set l.1 result.2 }

end State

/-- Any number of processes at one family, from any files. -/
def system : TransitionSystem State (Nat × Action) where
  init s := ∀ p ∈ s.processes, p = .idle
  step s l t := s.apply l = some t

namespace Process

variable (p : Process)

/-- The process has the sync lock; a plan's probe does not count as that. -/
def HoldsSync : Prop := p.activity ≠ .planning ∧ ∃ inode, p.sync = .locked inode

def InSection : Prop := p.activity ≠ .planning ∧ ((∃ inode, p.sync = .locked inode) ∨ ∃ inode, p.close = .locked inode)

/-- The process has removed the sync lock's file. -/
def LockRemoved : Prop :=
  match p.activity with
  | .removing rest | .leaving rest => FamilyFile.lock ∉ rest
  | _ => False

instance : Decidable p.LockRemoved := by
  unfold LockRemoved
  cases p.activity <;> infer_instance

end Process

/-- At most one process has the sync lock. -/
def OneWriter (s : State) : Prop :=
  ∀ (i j : Nat) (p q : Process), i ≠ j → s.processes[i]? = some p → s.processes[j]? = some q →
    ¬(p.HoldsSync ∧ q.HoldsSync)

def RemovesAlone (s : State) : Prop :=
  ∀ (i j : Nat) (p q : Process) (rest : List FamilyFile), i ≠ j → s.processes[i]? = some p → s.processes[j]? = some q →
    p.activity = .removing rest → ¬q.InSection

/-- The file that a process waits for. -/
def Descriptor.waitsFor : Descriptor → Option Nat
  | .waiting inode => some inode
  | _ => none

/-- The sync lock is granted on the file that its name is for, and not while a process that has removed that name still has
its lock. -/
def GrantedByName (s : State) (l : Nat × Action) : Prop :=
  l.2 = .lock .sync → ∀ p ∈ s.processes[l.1]?, p.activity ≠ .planning → ∀ inode ∈ p.sync.waitsFor,
    s.names .lock = some inode ∧ ∀ q ∈ s.processes, ¬(q.LockRemoved ∧ q.sync ≠ .closed)

instance (s : State) (l : Nat × Action) : Decidable (GrantedByName s l) := by
  unfold GrantedByName
  exact instDecidableForall

/-! ### The invariant -/

/-- What the locks of a process are for. -/
structure Process.WellFormed (p : Process) : Prop where
  removing : ∀ rest, p.activity = .removing rest →
    (∃ inode, p.sync = .locked inode) ∧ (∃ inode, p.close = .locked inode) ∧ p.observation = true ∧ rest.Nodup
  closing : p.activity ≠ .planning → p.close ≠ .closed → p.observation = true

structure Invariant (s : State) : Prop where
  exclusive : AdvisoryLock.Exclusive Process.locks s.processes
  wellFormed : ∀ p ∈ s.processes, p.WellFormed
  named : ∀ p ∈ s.processes, p.activity ≠ .planning → ∀ inode, p.sync = .locked inode →
    s.names .lock = some inode ∨ p.LockRemoved
  oneWriter : OneWriter s

namespace Invariant

variable {s t : State} {k : Nat} {p : Process}

variable {inode : Nat}

theorem mem_locks_sync (locked : p.sync = .locked inode) :
    (⟨.inode .sync inode, .exclusive⟩ : AdvisoryLock LockTarget) ∈ p.locks := by
  simp [Process.locks, locked, Descriptor.locks]

theorem mem_locks_directory (observed : p.observation = true) :
    (⟨.directory, .exclusive⟩ : AdvisoryLock LockTarget) ∈ p.locks := by
  simp [Process.locks, observed]

theorem of_init (start : system.init s) : Invariant s where
  exclusive := AdvisoryLock.Exclusive.of_unlocked fun p mem => by
    rw [start p mem]
    rfl
  wellFormed p mem := by
    rw [start p mem]
    refine ⟨fun rest removing => ?_, fun _ ne => absurd rfl ne⟩
    cases removing
  named p mem _ inode locked := by
    rw [start p mem] at locked
    cases locked
  oneWriter i j p q _ hp _ := by
    rw [start p (List.mem_of_getElem? hp)]
    rintro ⟨⟨-, inode, locked⟩, -⟩
    cases locked

variable {names : FamilyFile → Option Nat}

variable {next : Nat}

/-- One process changes, and with it the name of the lock file perhaps: what it holds it held or was granted, and if the lock
file has another name or it is a new writer, then no other process is one. -/
theorem set (inv : Invariant s) (here : s.processes[k]? = some p) (p' : Process)
    (locked : ∀ a ∈ p'.locks, a ∈ p.locks ∨ AdvisoryLock.Granted Process.locks s.processes a) (wellFormed : p'.WellFormed)
    (own : p'.activity ≠ .planning → ∀ inode, p'.sync = .locked inode → names .lock = some inode ∨ p'.LockRemoved)
    (alone : (p'.HoldsSync → p.HoldsSync) ∧ (∀ inode, s.names .lock = some inode → names .lock = some inode) ∨
      ∀ (j : Nat) (q : Process), j ≠ k → s.processes[j]? = some q → ¬q.HoldsSync) :
    Invariant ⟨names, next, s.processes.set k p'⟩ where
  exclusive := inv.exclusive.set here locked
  wellFormed q mem := by
    obtain inside | rfl := List.mem_or_eq_of_mem_set mem
    · exact inv.wellFormed q inside
    · exact wellFormed
  named q mem acts inode held := by
    obtain ⟨j, found⟩ := List.mem_iff_getElem?.mp mem
    by_cases same : k = j
    · subst same
      rw [List.getElem?_set_self (List.getElem?_eq_some_iff.mp here).1] at found
      obtain rfl := Option.some.inj found
      exact own acts inode held
    · rw [List.getElem?_set_ne same] at found
      obtain ⟨-, kept⟩ | alone := alone
      · obtain named | removed := inv.named q (List.mem_of_getElem? found) acts inode held
        · exact .inl (kept inode named)
        · exact .inr removed
      · exact absurd ⟨acts, inode, held⟩ (alone j q (Ne.symm same) found)
  oneWriter i j q r different hq hr := by
    rintro ⟨first, second⟩
    simp only at hq hr
    by_cases isFirst : k = i
    · subst isFirst
      rw [List.getElem?_set_self (List.getElem?_eq_some_iff.mp here).1] at hq
      rw [List.getElem?_set_ne different] at hr
      obtain rfl := Option.some.inj hq
      obtain ⟨before, -⟩ | alone := alone
      · exact inv.oneWriter k j p r different here hr ⟨before first, second⟩
      · exact alone j r (Ne.symm different) hr second
    · rw [List.getElem?_set_ne isFirst] at hq
      by_cases isSecond : k = j
      · subst isSecond
        rw [List.getElem?_set_self (List.getElem?_eq_some_iff.mp here).1] at hr
        obtain rfl := Option.some.inj hr
        obtain ⟨before, -⟩ | alone := alone
        · exact inv.oneWriter i k q p different hq here ⟨first, before second⟩
        · exact alone i q different hq first
      · rw [List.getElem?_set_ne isSecond] at hr
        exact inv.oneWriter i j q r different hq hr ⟨first, second⟩

theorem keep (inv : Invariant s) (here : s.processes[k]? = some p) (p' : Process)
    (locked : ∀ a ∈ p'.locks, a ∈ p.locks) (wellFormed : p'.WellFormed)
    (kept : ∀ inode, s.names .lock = some inode → names .lock = some inode)
    (same : p'.activity ≠ .planning → ∀ inode, p'.sync = .locked inode →
      p.activity ≠ .planning ∧ p.sync = .locked inode ∧ (p.LockRemoved → p'.LockRemoved)) :
    Invariant ⟨names, next, s.processes.set k p'⟩ := by
  refine inv.set here p' (fun a mem => .inl (locked a mem)) wellFormed (fun acts inode held => ?_) (.inl ⟨?_, kept⟩)
  · obtain ⟨acted, held, removed⟩ := same acts inode held
    obtain named | gone := inv.named p (List.mem_of_getElem? here) acted inode held
    · exact .inl (kept inode named)
    · exact .inr (removed gone)
  · rintro ⟨acts, inode, held⟩
    obtain ⟨acted, held, -⟩ := same acts inode held
    exact ⟨acted, inode, held⟩

variable {file : LockFile}

/-- Of a process that goes on as it did, except for the descriptor of one file. -/
theorem setDescriptor (inv : Invariant s) (here : s.processes[k]? = some p) {descriptor : Descriptor}
    (unlocked : ∀ inode, descriptor ≠ .locked inode) (free : ∀ rest, p.activity ≠ .removing rest)
    (closing : file = .close → descriptor ≠ .closed → p.activity ≠ .planning → p.observation = true)
    (kept : ∀ inode, s.names .lock = some inode → names .lock = some inode) :
    Invariant ⟨names, next, s.processes.set k (p.setDescriptor file descriptor)⟩ := by
  have before := inv.wellFormed p (List.mem_of_getElem? here)
  have nothing : ∀ file, descriptor.locks file = [] := by
    intro file
    cases descriptor with
    | closed => rfl
    | waiting inode => rfl
    | locked inode => exact absurd rfl (unlocked inode)
  cases file with
  | sync =>
    refine inv.keep here { p with sync := descriptor } (fun a mem => ?_)
      ⟨fun rest removing => absurd removing (free rest), before.closing⟩ kept
      fun _ inode held => absurd held (unlocked inode)
    simp only [Process.locks, nothing, List.nil_append, List.mem_append] at mem ⊢
    exact mem.imp_left .inr
  | close =>
    refine inv.keep here { p with close := descriptor } (fun a mem => ?_)
      ⟨fun rest removing => absurd removing (free rest), fun acts opened => closing rfl opened acts⟩ kept
      fun acts inode held => ⟨acts, held, id⟩
    simp only [Process.locks, nothing, List.append_nil, List.mem_append] at mem ⊢
    exact mem.imp_left .inl

theorem setActivity (inv : Invariant s) (here : s.processes[k]? = some p) {activity : Activity}
    (free : ∀ rest, activity ≠ .removing rest) (acted : p.activity ≠ .planning)
    (removed : p.LockRemoved → ({ p with activity } : Process).LockRemoved) :
    Invariant { s with processes := s.processes.set k { p with activity } } :=
  have before := inv.wellFormed p (List.mem_of_getElem? here)
  inv.keep here { p with activity } (fun _ mem => mem) ⟨fun rest removing => absurd removing (free rest), fun _ opened =>
    before.closing acted opened⟩ (fun _ named => named) fun _ _ held => ⟨acted, held, removed⟩

theorem setUnlocked (inv : Invariant s) (here : s.processes[k]? = some p) {p' : Process} (sync : p'.sync = .closed)
    (close : p'.close = .closed) (observation : p'.observation = false) (free : ∀ rest, p'.activity ≠ .removing rest) :
    Invariant { s with processes := s.processes.set k p' } := by
  refine inv.keep here p' (fun a mem => ?_) ⟨fun rest removing => absurd removing (free rest), fun _ opened =>
    absurd close opened⟩ (fun _ named => named) fun _ inode held => ?_
  · simp [Process.locks, sync, close, observation, Descriptor.locks] at mem
  · rw [sync] at held
    cases held

/-- A lock file is opened by no process that is removing, and the close lock's under the lock of the directory. -/
theorem mayOpen_spec (may : p.mayOpen file = true) :
    (∀ rest, p.activity ≠ .removing rest) ∧ (file = .close → p.activity ≠ .planning → p.observation = true) := by
  cases activity : p.activity <;> cases file <;> simp_all [Process.mayOpen]

theorem mayRelease_spec (may : p.mayRelease = true) (rest : List FamilyFile) : p.activity ≠ .removing rest := by
  intro removing
  simp [Process.mayRelease, removing] at may

theorem not_removing_of_waiting (wellFormed : p.WellFormed)
    (waiting : p.descriptor file = .waiting inode) (rest : List FamilyFile) : p.activity ≠ .removing rest := by
  intro removing
  obtain ⟨⟨i, sync⟩, ⟨j, close⟩, -⟩ := wellFormed.removing rest removing
  cases file with
  | sync => exact Descriptor.noConfusion (sync.symm.trans waiting)
  | close => exact Descriptor.noConfusion (close.symm.trans waiting)

theorem alone_of_grant (inv : Invariant s) (granted : s.grants (.inode .sync inode))
    (named : s.names .lock = some inode) (released : ∀ q ∈ s.processes, ¬(q.LockRemoved ∧ q.sync ≠ .closed)) {q : Process}
    (mem : q ∈ s.processes) : ¬q.HoldsSync := by
  rintro ⟨acts, other, held⟩
  obtain same | removed := inv.named q mem acts other held
  · obtain rfl := Option.mem_unique named same
    have both := (granted q mem _ (mem_locks_sync held) rfl).1
    cases both
  · exact released q mem ⟨removed, by rw [held]; exact Descriptor.noConfusion⟩

theorem lock (inv : Invariant s) (here : s.processes[k]? = some p)
    (waiting : p.descriptor file = .waiting inode) (granted : s.grants (.inode file inode))
    (met : GrantedByName s (k, .lock file)) :
    Invariant { s with processes := s.processes.set k (p.setDescriptor file (.locked inode)) } := by
  have before := inv.wellFormed p (List.mem_of_getElem? here)
  cases file with
  | sync =>
    have free := not_removing_of_waiting before waiting
    have waiting : p.sync = .waiting inode := waiting
    have byName : p.activity ≠ .planning → s.names .lock = some inode ∧
        ∀ q ∈ s.processes, ¬(q.LockRemoved ∧ q.sync ≠ .closed) := fun acts =>
      met rfl p here acts inode (by rw [waiting]; rfl)
    refine inv.set here { p with sync := .locked inode } (fun a held => ?_)
      ⟨fun rest removing => absurd removing (free rest), before.closing⟩ (fun acts held locked => ?_) ?_
    · simp only [Process.locks, Descriptor.locks, List.mem_append, List.mem_singleton] at held ⊢
      obtain (rfl | held) | held := held
      · exact .inr granted
      · exact .inl (.inl (.inr held))
      · exact .inl (.inr held)
    · obtain rfl := Descriptor.locked.inj locked
      exact .inl (byName acts).1
    · by_cases acts : p.activity = .planning
      · exact .inl ⟨fun holds => absurd acts holds.1, fun _ named => named⟩
      · obtain ⟨named, released⟩ := byName acts
        exact .inr fun _ q _ found => inv.alone_of_grant granted named released (List.mem_of_getElem? found)
  | close =>
    have free := not_removing_of_waiting before waiting
    have waiting : p.close = .waiting inode := waiting
    refine inv.set here { p with close := .locked inode } (fun a held => ?_)
      ⟨fun rest removing => absurd removing (free rest), fun acts _ => before.closing acts (by rw [waiting]; exact Descriptor.noConfusion)⟩
      (fun acts inode held => inv.named p (List.mem_of_getElem? here) acts inode held)
      (.inl ⟨fun holds => holds, fun _ named => named⟩)
    simp only [Process.locks, Descriptor.locks, List.mem_append, List.mem_singleton] at held ⊢
    obtain (held | rfl) | held := held
    · exact .inl (.inl (.inl held))
    · exact .inr granted
    · exact .inl (.inr held)

/-- The lock file's name is removed by the writer, so there is no other. -/
theorem remove (inv : Invariant s) (here : s.processes[k]? = some p) {file : FamilyFile} {rest : List FamilyFile}
    (removing : p.activity = .removing (file :: rest)) :
    Invariant { s.rename file none with processes := s.processes.set k { p with activity := .removing rest } } := by
  have before := inv.wellFormed p (List.mem_of_getElem? here)
  have acts : p.activity ≠ .planning := by
    rw [removing]
    exact Activity.noConfusion
  obtain ⟨held, closing, observed, distinct⟩ := before.removing _ removing
  obtain ⟨once, distinct⟩ := List.nodup_cons.mp distinct
  have wellFormed : ({ p with activity := .removing rest } : Process).WellFormed := by
    refine ⟨fun left eq => ⟨held, closing, observed, ?_⟩, fun _ _ => observed⟩
    obtain rfl := Activity.removing.inj eq
    exact distinct
  by_cases isLock : file = .lock
  · subst isLock
    exact inv.set here { p with activity := .removing rest } (fun a mem => .inl mem) wellFormed
      (fun _ inode locked => .inr once)
      (.inr fun j q different found holds => inv.oneWriter j k q p different found here ⟨holds, acts, held⟩)
  · have kept : ∀ inode, s.names .lock = some inode → (Function.update s.names file none) .lock = some inode := by
      intro inode named
      rw [Function.update_of_ne (Ne.symm isLock)]
      exact named
    refine inv.keep here { p with activity := .removing rest } (fun _ mem => mem) wellFormed kept
      fun _ inode locked => ⟨acts, locked, fun gone => ?_⟩
    simp only [Process.LockRemoved, removing, List.mem_cons, not_or] at gone
    exact gone.2

theorem guarded_spec (guarded : p.guarded = true) :
    p.activity = .cleaning ∧ (∃ inode, p.sync = .locked inode) ∧ (∃ inode, p.close = .locked inode) ∧
      p.observation = true := by
  unfold Process.guarded at guarded
  split at guarded
  next i j cleaning sync close => exact ⟨cleaning, ⟨i, sync⟩, ⟨j, close⟩, guarded⟩
  next => cases guarded

theorem observe (inv : Invariant s) (here : s.processes[k]? = some p) (may : p.mayObserve = true)
    (granted : s.grants .directory) : Invariant { s with processes := s.processes.set k { p with observation := true } } := by
  have before := inv.wellFormed p (List.mem_of_getElem? here)
  have free : ∀ rest, p.activity ≠ .removing rest := by
    intro rest removing
    simp [Process.mayObserve, removing] at may
  refine inv.set here { p with observation := true } (fun a mem => ?_)
    ⟨fun rest removing => absurd removing (free rest), fun _ _ => rfl⟩
    (fun acts inode held => inv.named p (List.mem_of_getElem? here) acts inode held)
    (.inl ⟨fun holds => holds, fun _ named => named⟩)
  simp only [Process.locks, if_true, List.mem_append, List.mem_singleton] at mem ⊢
  obtain held | rfl := mem
  · exact .inl (.inl held)
  · exact .inr granted

theorem step {l : Nat × Action} (inv : Invariant s) (met : GrantedByName s l) (stepped : system.step s l t) :
    Invariant t := by
  obtain ⟨k, a⟩ := l
  change s.apply (k, a) = some t at stepped
  unfold State.apply at stepped
  cases here : s.processes[k]? with
  | none =>
    rw [here] at stepped
    cases stepped
  | some p =>
    rw [here] at stepped
    obtain ⟨⟨u, p'⟩, acted, rfl⟩ := Option.map_eq_some_iff.mp stepped
    clear stepped
    dsimp only at acted ⊢
    have before := inv.wellFormed p (List.mem_of_getElem? here)
    cases a with
    | plan | clean =>
      obtain ⟨rfl, eq⟩ := Option.ite_none_right_eq_some.mp acted
      obtain ⟨rfl, rfl⟩ := Prod.mk.inj (Option.some.inj eq)
      exact inv.setUnlocked here rfl rfl rfl nofun
    | open_ file =>
      obtain ⟨may, opened⟩ := Option.ite_none_right_eq_some.mp acted
      obtain ⟨free, closing⟩ := mayOpen_spec may
      split at opened
      next inode named =>
        obtain ⟨rfl, rfl⟩ := Prod.mk.inj (Option.some.inj opened)
        exact inv.setDescriptor here nofun free (fun isClose _ acts => closing isClose acts)
          fun _ kept => kept
      next unnamed =>
        split at opened
        next => cases opened
        next =>
          obtain ⟨rfl, rfl⟩ := Prod.mk.inj (Option.some.inj opened)
          refine inv.setDescriptor here nofun free
            (fun isClose _ acts => closing isClose acts) fun inode named => ?_
          have other : FamilyFile.lock ≠ file.file := by
            intro same
            rw [← same, named] at unnamed
            cases unnamed
          exact (Function.update_of_ne other _ _).trans named
    | lock file =>
      dsimp only [State.act] at acted
      split at acted
      next inode waiting =>
        obtain ⟨granted, eq⟩ := Option.ite_none_right_eq_some.mp acted
        obtain ⟨rfl, rfl⟩ := Prod.mk.inj (Option.some.inj eq)
        exact inv.lock here waiting granted met
      next => cases acted
    | giveUp file =>
      dsimp only [State.act] at acted
      split at acted
      next inode waiting =>
        obtain ⟨rfl, rfl⟩ := Prod.mk.inj (Option.some.inj acted)
        exact inv.setDescriptor here nofun (not_removing_of_waiting before waiting)
          (fun _ opened => absurd rfl opened) fun _ named => named
      next => cases acted
    | unlock file =>
      dsimp only [State.act] at acted
      split at acted
      next inode locked =>
        obtain ⟨may, eq⟩ := Option.ite_none_right_eq_some.mp acted
        obtain ⟨rfl, rfl⟩ := Prod.mk.inj (Option.some.inj eq)
        exact inv.setDescriptor here nofun (mayRelease_spec may)
          (fun _ opened => absurd rfl opened) fun _ named => named
      next => cases acted
    | observe =>
      obtain ⟨⟨may, granted⟩, eq⟩ := Option.ite_none_right_eq_some.mp acted
      obtain ⟨rfl, rfl⟩ := Prod.mk.inj (Option.some.inj eq)
      exact inv.observe here may granted
    | unobserve =>
      obtain ⟨⟨_, closed, may⟩, eq⟩ := Option.ite_none_right_eq_some.mp acted
      obtain ⟨rfl, rfl⟩ := Prod.mk.inj (Option.some.inj eq)
      refine inv.keep here { p with observation := false } (fun a mem => ?_)
        ⟨fun rest removing => absurd removing (mayRelease_spec may rest), fun _ opened => absurd closed opened⟩
        (fun _ named => named) fun acts _ held => ⟨acts, held, id⟩
      exact List.mem_append_left _ (by simpa [Process.locks] using mem)
    | begin =>
      obtain ⟨guarded, eq⟩ := Option.ite_none_right_eq_some.mp acted
      obtain ⟨rfl, rfl⟩ := Prod.mk.inj (Option.some.inj eq)
      obtain ⟨cleaning, sync, close, observed⟩ := guarded_spec guarded
      refine inv.keep here { p with activity := .removing familyFiles } (fun _ mem => mem) ⟨fun rest eq => ?_,
        fun _ _ => observed⟩ (fun _ named => named) fun _ _ held => ⟨?_, held, fun gone => ?_⟩
      · obtain rfl := Activity.removing.inj eq
        exact ⟨sync, close, observed, by decide⟩
      · rw [cleaning]
        exact Activity.noConfusion
      · simp [Process.LockRemoved, cleaning] at gone
    | remove =>
      dsimp only [State.act] at acted
      split at acted
      next file rest removing =>
        obtain ⟨rfl, rfl⟩ := Prod.mk.inj (Option.some.inj acted)
        exact inv.remove here removing
      next => cases acted
    | leave =>
      dsimp only [State.act] at acted
      split at acted
      next cleaning =>
        obtain ⟨rfl, rfl⟩ := Prod.mk.inj (Option.some.inj acted)
        refine inv.setActivity here nofun ?_ fun gone => ?_
        · rw [cleaning]
          exact Activity.noConfusion
        · simp [Process.LockRemoved, cleaning] at gone
      next rest removing =>
        obtain ⟨rfl, rfl⟩ := Prod.mk.inj (Option.some.inj acted)
        refine inv.setActivity here nofun ?_ fun gone => ?_
        · rw [removing]
          exact Activity.noConfusion
        · simpa [Process.LockRemoved, removing] using gone
      next => cases acted
    | finish =>
      have ended : (u, p') = (s, Process.idle) := by
        dsimp only [State.act] at acted
        split at acted
        next => exact (Option.some.inj (Option.ite_none_right_eq_some.mp acted).2).symm
        next => exact (Option.some.inj (Option.ite_none_right_eq_some.mp acted).2).symm
        next => cases acted
      obtain ⟨rfl, rfl⟩ := Prod.mk.inj ended
      exact inv.setUnlocked here rfl rfl rfl nofun
    | crash =>
      obtain ⟨rfl, rfl⟩ := Prod.mk.inj (Option.some.inj acted)
      exact inv.setUnlocked here rfl rfl rfl nofun
    | create file =>
      obtain ⟨⟨plain, data⟩, eq⟩ := Option.ite_none_right_eq_some.mp acted
      obtain ⟨rfl, rfl⟩ := Prod.mk.inj (Option.some.inj eq)
      refine inv.keep here p (fun _ mem => mem) before (fun inode named => ?_) fun acts _ held => ⟨acts, held, id⟩
      have other : FamilyFile.lock ≠ file := by
        rintro rfl
        simp at data
      exact (Function.update_of_ne other _ _).trans named

/-- A process that removes has the sync lock, and that of the directory, under which the close lock is taken. -/
theorem removesAlone (inv : Invariant s) : RemovesAlone s := by
  intro i j p q rest different hp hq removing
  have guards := inv.wellFormed p (List.mem_of_getElem? hp)
  obtain ⟨sync, close, observed, -⟩ := guards.removing rest removing
  have acts : p.activity ≠ .planning := by
    rw [removing]
    exact Activity.noConfusion
  rintro ⟨acting, writes | ⟨inode, closes⟩⟩
  · exact inv.oneWriter i j p q different hp hq ⟨⟨acts, sync⟩, acting, writes⟩
  · have observes := (inv.wellFormed q (List.mem_of_getElem? hq)).closing acting (by
      rw [closes]
      exact Descriptor.noConfusion)
    exact inv.exclusive.absurd different hp hq (mem_locks_directory observed) (mem_locks_directory observes)

theorem of_run {ls : List (Nat × Action)} (start : system.init s) (run : system.Run s ls t)
    (met : system.Meets GrantedByName s ls) : Invariant t :=
  run.preserves_under (fun _ _ _ inv met step => inv.step met step) met (of_init start)

end Invariant

/-- **One writer per index, also across `clean`**, in every run in which the sync lock is granted only on the file that its
name is for, and not while `clean` has removed that name and still has its lock: then at most one process has the sync lock,
and a file is removed only while no other process is in a section that the sync or the close lock guards. -/
theorem oneWriter_of_granted {s t : State} {ls : List (Nat × Action)} (start : system.init s) (run : system.Run s ls t)
    (met : system.Meets GrantedByName s ls) : OneWriter t ∧ RemovesAlone t :=
  have inv := Invariant.of_run start run met
  ⟨inv.oneWriter, inv.removesAlone⟩

namespace Sample

def start : State where
  names file := some (familyFiles.idxOf file)
  next := 5
  processes := [.idle, .idle, .idle]

theorem init_start : system.init start := by
  intro p mem
  exact List.eq_of_mem_replicate (n := 3) mem

def clean : List (Nat × Action) :=
  [(0, .clean), (0, .open_ .sync), (0, .lock .sync), (0, .observe), (0, .open_ .close), (0, .lock .close), (0, .begin)]

def removes (n : Nat) : List (Nat × Action) := List.replicate n (0, .remove)

def leaves : List (Nat × Action) :=
  [(0, .leave), (0, .unlock .close), (0, .unlock .sync), (0, .unobserve), (0, .finish)]

def writer (inode : Nat) : Process := ⟨.plain, .locked inode, .closed, false⟩

def after (labels : List (Nat × Action)) : Option (List Process) :=
  (labels.foldlM State.apply start).map State.processes

theorem reachable_of_after (labels : List (Nat × Action)) (processes : List Process) (ran : after labels = some processes) :
    ∃ s, system.Reachable s ∧ s.processes = processes := by
  obtain ⟨s, accepted, same⟩ := Option.map_eq_some_iff.mp ran
  exact ⟨s, ⟨start, labels, init_start, .of_apply (fun _ _ _ step => step) accepted⟩, same⟩

end Sample

/-- A process that has the lock file open while `clean` removes it is granted the lock on the removed file, and another the
lock on a new one. A process that comes while `clean` is removing has the sync lock before the last file is gone. -/
theorem two_writers :
    (∃ s, system.Reachable s ∧ ¬OneWriter s) ∧ ∃ s, system.Reachable s ∧ ¬RemovesAlone s := by
  constructor
  · obtain ⟨s, reach, processes⟩ := Sample.reachable_of_after
      (Sample.clean ++ (1, .open_ .sync) :: Sample.removes 5 ++ Sample.leaves ++
        [(1, .lock .sync), (2, .open_ .sync), (2, .lock .sync)])
      [.idle, Sample.writer 3, Sample.writer 5] (by decide +kernel)
    refine ⟨s, reach, fun one => ?_⟩
    unfold OneWriter at one
    rw [processes] at one
    have plain : Activity.plain ≠ .planning := Activity.noConfusion
    exact one 1 2 (Sample.writer 3) (Sample.writer 5) (by decide) rfl rfl ⟨⟨plain, 3, rfl⟩, plain, 5, rfl⟩
  · obtain ⟨s, reach, processes⟩ := Sample.reachable_of_after
      (Sample.clean ++ Sample.removes 4 ++ [(1, .open_ .sync), (1, .lock .sync)])
      [⟨.removing [.closeLock], .locked 3, .locked 4, true⟩, Sample.writer 5, .idle] (by decide +kernel)
    refine ⟨s, reach, fun alone => ?_⟩
    unfold RemovesAlone at alone
    rw [processes] at alone
    exact alone 0 1 _ (Sample.writer 5) [.closeLock] (by decide) rfl rfl rfl ⟨Activity.noConfusion, .inl ⟨5, rfl⟩⟩

/-- A whole `clean`, and a writer after it. -/
theorem oneWriter_of_granted_clean : ∃ t, system.Reachable t ∧ t.processes = [.idle, Sample.writer 5, .idle] ∧
    OneWriter t ∧ RemovesAlone t := by
  obtain ⟨t, accepted, processes⟩ : ∃ t,
      (Sample.clean ++ Sample.removes 5 ++ Sample.leaves ++ [(1, Action.open_ .sync), (1, Action.lock .sync)]).foldlM
        (fun s l => if GrantedByName s l then s.apply l else none) Sample.start = some t ∧
          t.processes = [.idle, Sample.writer 5, .idle] := by
    refine Option.map_eq_some_iff.mp ?_
    decide +kernel
  obtain ⟨run, met⟩ := TransitionSystem.Run.of_apply_meets (T := system) (fun _ _ _ => Iff.rfl) accepted
  exact ⟨t, ⟨Sample.start, _, Sample.init_start, run⟩, processes, oneWriter_of_granted Sample.init_start run met⟩

end OrbitGraph.Clean.Exclusion
