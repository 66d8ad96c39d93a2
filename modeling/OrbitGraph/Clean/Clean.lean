import OrbitGraph.Clean.Families

/-!
`clean`: what the plan reports and what the apply deletes.

`verdict` says, of one directory, what is to become of a family. The plan reads it
off the directory; the apply takes the locks, which creates lock files, and
deletes on the way. Both report the verdicts on the directory they started from,
since no family's files are another's.
-/

namespace OrbitGraph.Clean

open Lib

inductive StateError where
  | io (operation path reason : Text)
  | unsafeStatePath (path reason : Text)

/-- Where the file system may fail. -/
inductive Fault where
  | readDirectory
  | inspect (path : Text)
  | openFile (path : Text)
  | tryLock (path : Text)
  | observation
  | removeFile (path : Text)

/-- What `clean` runs in. -/
structure Surroundings where
  /-- Whether the index directory is there, or why it is refused. -/
  directory : Except StateError Bool
  git : Except Text GitView
  /-- Whether another process holds the directory's observation guard. -/
  observed : Bool
  fault : Fault → Option Text

inductive CleanMode where
  | plan
  | apply
  deriving DecidableEq

structure CleanItem where
  path : Text
  reason : CleanReason
  detail : Option Text

structure CleanReport where
  wouldDelete : List CleanItem
  kept : List CleanItem
  applied : Bool
  deleted : List Text

namespace Surroundings

variable (env : Surroundings)

/-- Fail here if the file system does. -/
def check (fault : Fault) (operation : String) (path : Text) : Except StateError Unit :=
  match env.fault fault with
  | none => .ok ()
  | some reason => .error (.io operation.toList path reason)

def accept (path : Text) (file : StateFile) : Except StateError Unit :=
  match file.refused with
  | none => .ok ()
  | some reason => .error (.unsafeStatePath path reason)

def checkStateFile (d : Directory) (path : Text) : Except StateError Bool := do
  env.check (.inspect path) "inspect state file" path
  match d.lookup path with
  | none => .ok false
  | some file => do
      accept path file
      return true

/-- `open_state_file`, to read. -/
def openToRead (d : Directory) (path : Text) : Except StateError (Option StateFile) := do
  env.check (.openFile path) "open state file" path
  match d.lookup path with
  | none => .ok none
  | some file => do
      accept path file
      return some file

/-- `open_state_file`, to write: creates the file if it is missing. -/
def openToWrite (path : Text) : Command StateError Directory StateFile := do
  Command.query fun _ => env.check (.openFile path) "open state file" path
  Command.transaction none fun d => .ok ((), d.create path)
  let file := fun d : Directory => (d.lookup path).getD Directory.newFile
  Command.query fun d => accept path (file d)
  Command.query fun d => .ok (file d)

/-- `try_lock`: whether the lock was free. -/
def tryLock (operation : String) (path : Text) (file : StateFile) : Except StateError Bool := do
  env.check (.tryLock path) operation path
  return !file.held

def tryObservationLock : Except StateError Bool := do
  env.check .observation "lock graph identity observation" []
  return !env.observed

/-- `remove_file`: whether the file was there. -/
def removeFile (path : Text) : Command StateError Directory Bool := fun d =>
  match env.fault (.removeFile path) with
  | some reason => (.error (.io "delete old graph database file" path reason), d)
  | none => (.ok (d.lookup path).isSome, d.remove path)

/-! ### One family -/

/-- Whether nobody holds a lock, if its file is there. -/
def lockIsFree (d : Directory) (path : Text) : Except StateError Bool := do
  match ← env.openToRead d path with
  | none => return true
  | some file => env.tryLock "lock old graph database" path file

def existingFiles (d : Directory) (family : Text) : Except StateError (List Text) :=
  (graphDbFamilyFiles family).filterM (env.checkStateFile d)

/-- `existing_graph_db_family_files_if_unlocked`. -/
def existingFilesIfUnlocked (family : Text) (d : Directory) : Except StateError (Option (List Text)) := do
  let free ← env.lockIsFree d (lockFile family)
  if free then
    let closeFree ← env.lockIsFree d (closeLockFile family)
    if closeFree then
      let unobserved ← env.tryObservationLock
      if unobserved then
        let existing ← env.existingFiles d family
        .ok (some existing)
      else .ok none
    else .ok none
  else .ok none

def removeFiles (reported : Text → Bool) : List Text → Command StateError Directory (List Text)
  | [] => Command.answer []
  | path :: rest => do
      let removed ← env.removeFile path
      let others ← removeFiles reported rest
      Command.answer (if removed && reported path then path :: others else others)

/-- The deletion, once all locks are held. A lock file that was not there before is not
reported. -/
def removeFamily (family : Text) (lockExisted closeLockExisted : Bool) :
    Command StateError Directory (Option (List Text)) := do
  let deleted ← env.removeFiles
    (fun path => (path ≠ lockFile family || lockExisted) &&
      (path ≠ closeLockFile family || closeLockExisted))
    (graphDbFamilyFiles family)
  Command.answer (some deleted)

/-- The deletion, once the sync lock is held. -/
def removeIfUnobserved (family : Text) (lockExisted closeLockExisted : Bool) :
    Command StateError Directory (Option (List Text)) := do
  let unobserved ← Command.query fun _ => env.tryObservationLock
  if unobserved then
    let closeLock ← env.openToWrite (closeLockFile family)
    let free ← Command.query fun _ =>
      env.tryLock "lock old graph database close" (closeLockFile family) closeLock
    if free then env.removeFamily family lockExisted closeLockExisted else Command.answer none
  else Command.answer none

/-- `delete_graph_db_family_if_unlocked`. -/
def deleteFamilyIfUnlocked (family : Text) : Command StateError Directory (Option (List Text)) := do
  let lockExisted ← Command.query fun d => env.checkStateFile d (lockFile family)
  let closeLockExisted ← Command.query fun d => env.checkStateFile d (closeLockFile family)
  let _ ← Command.query fun d => env.existingFiles d family
  let lock ← env.openToWrite (lockFile family)
  let free ← Command.query fun _ => env.tryLock "lock old graph database" (lockFile family) lock
  if free then env.removeIfUnobserved family lockExisted closeLockExisted else Command.answer none

end Surroundings

/-! ### The whole directory -/

def isActiveGraphDbFamily (path activeDbPath : Text) : Bool :=
  graphDbBasePath path = graphDbBasePath activeDbPath

namespace CleanReport

def empty (mode : CleanMode) : CleanReport where
  wouldDelete := []
  kept := []
  applied := mode = .apply
  deleted := []

def keep (report : CleanReport) (family : Text) (reason : CleanReason) (detail : Option Text) :
    CleanReport :=
  { report with kept := report.kept ++ [{ path := family, reason, detail }] }

/-- Account for the removed files of a family. -/
def delete (report : CleanReport) (mode : CleanMode) (reason : CleanReason) (paths : List Text) :
    CleanReport :=
  { report with
    deleted := if mode = .apply then report.deleted ++ paths else report.deleted
    wouldDelete := report.wouldDelete ++ paths.map fun path => { path, reason, detail := none } }

def pathBle (left right : CleanItem) : Prop := Text.ble left.path right.path = true

instance : DecidableRel pathBle := fun left right =>
  inferInstanceAs (Decidable (Text.ble left.path right.path = true))

/-- The report with its lists in path order. -/
def sorted (report : CleanReport) : CleanReport :=
  { report with
    deleted := report.deleted.insertionSort fun left right => Text.ble left right = true
    wouldDelete := report.wouldDelete.insertionSort pathBle
    kept := report.kept.insertionSort pathBle }

end CleanReport

namespace Surroundings

variable (env : Surroundings)

def families (activeDbPath : Text) (d : Directory) : Except StateError (List Text) := do
  env.check .readDirectory "read graph database directory" []
  let graphFiles := (d.map Prod.fst).filter fun name => (graphDbFileMetadata name).isSome
  let present ← graphFiles.filterM (env.checkStateFile d)
  let others := present.filter fun name => !isActiveGraphDbFamily name activeDbPath
  return ((others.map graphDbBasePath).dedup.insertionSort fun left right => Text.ble left right = true)

def removedFiles (mode : CleanMode) (family : Text) :
    Command StateError Directory (Option (List Text)) :=
  match mode with
  | .apply => env.deleteFamilyIfUnlocked family
  | .plan => Command.query (env.existingFilesIfUnlocked family)

/-- One round of the loop over the families. -/
def cleanFamily (mode : CleanMode) (report : CleanReport) (family : Text) :
    Command StateError Directory CleanReport := do
  let decision ← Command.query fun d => .ok (judgeGraphDbFamily env.git d family)
  match decision with
  | .keep reason detail => Command.answer (report.keep family reason detail)
  | .delete reason => do
      let removed ← env.removedFiles mode family
      match removed with
      | some paths => Command.answer (report.delete mode reason paths)
      | none => Command.answer (report.keep family .locked none)

/-- The loop over the families. -/
def cleanFamilies (mode : CleanMode) : CleanReport → List Text → Command StateError Directory CleanReport
  | report, [] => Command.answer report
  | report, family :: rest => do
      let report ← env.cleanFamily mode report family
      cleanFamilies mode report rest

/-- `clean_old_databases_excluding`. -/
def clean (mode : CleanMode) (activeDbPath : Text) : Command StateError Directory CleanReport := do
  let located ← Command.query fun _ => env.directory
  if located then
    let families ← Command.query (env.families activeDbPath)
    let report ← env.cleanFamilies mode (.empty mode) families
    Command.answer report.sorted
  else Command.answer (.empty mode)

end Surroundings

/-! ### What becomes of one family -/

theorem graphDbFamilyFiles_nodup (family : Text) : (graphDbFamilyFiles family).Nodup := by
  simp [graphDbFamilyFiles, lockFile, closeLockFile, graphDbSidecar]

theorem lockFile_mem (family : Text) : lockFile family ∈ graphDbFamilyFiles family := by
  simp [graphDbFamilyFiles]

theorem closeLockFile_mem (family : Text) : closeLockFile family ∈ graphDbFamilyFiles family := by
  simp [graphDbFamilyFiles]

namespace Surroundings

variable (env : Surroundings)

def heldIn (d : Directory) (path : Text) : Bool := (d.lookup path).any StateFile.held

/-- Nobody holds a guard of the family. -/
def unlocked (d : Directory) (family : Text) : Bool :=
  !env.observed && !heldIn d (lockFile family) && !heldIn d (closeLockFile family)

/-- What a deletion may have done to one name: nothing, or created a lock file, or, with
all guards free, removed a file of the family. -/
def Touched (d t : Directory) (family name : Text) : Prop :=
  t.lookup name = d.lookup name ∨
    (d.lookup name = none ∧ (name = lockFile family ∨ name = closeLockFile family)) ∨
      (env.unlocked d family = true ∧ name ∈ graphDbFamilyFiles family ∧ t.lookup name = none)

variable {env} {d : Directory} {family : Text}

open Command (Triple)

theorem openToWrite_spec (path : Text) : Triple (· = d) (env.openToWrite path)
      (fun file t => t = d.create path ∧ file = (d.lookup path).getD Directory.newFile)
      (fun t => t = d ∨ t = d.create path) := by
  refine .andThen (Q := fun _ t => t = d) (.query (fun _ _ eq _ => eq) fun _ => .inl) fun _ => ?_
  refine .andThen (Q := fun _ t => t = d.create path) (.transaction (fun s u t eq run => ?_)
    fun _ => .inl) fun _ => ?_
  · obtain ⟨_, rfl⟩ := Prod.mk.inj (Except.ok.inj run)
    rw [eq]
  · refine .andThen (Q := fun _ t => t = d.create path) (.query (fun _ _ eq _ => eq) fun _ => .inr)
      fun _ => .query (fun s file eq run => ⟨eq, ?_⟩) fun _ => .inr
    obtain rfl := Except.ok.inj run
    simp [eq, Directory.lookup_create]

theorem removeFiles_spec (reported : Text → Bool) {paths : List Text} (distinct : paths.Nodup) :
    Triple (· = d) (env.removeFiles reported paths)
      (fun deleted t => deleted = paths.filter (fun path => (d.lookup path).isSome && reported path) ∧
          ∀ name, t.lookup name = if name ∈ paths then none else d.lookup name)
      (fun t => ∀ name, t.lookup name = d.lookup name ∨ (name ∈ paths ∧ t.lookup name = none)) := by
  induction paths generalizing d with
  | nil =>
    refine .answer fun s eq => ?_
    simp [eq]
  | cons path rest ih =>
    obtain ⟨fresh, distinct⟩ := List.nodup_cons.mp distinct
    have one : Triple (· = d) (env.removeFile path)
        (fun removed t => removed = (d.lookup path).isSome ∧ t = d.remove path)
        (fun t => t = d) := by
      rintro s rfl
      unfold removeFile
      cases env.fault (.removeFile path) <;> simp
    refine .andThen (one.weakenError fun t eq name => .inl (by rw [eq])) fun removed => ?_
    refine .of_each fun s before => ?_
    obtain ⟨was, rfl⟩ := before
    have before : ∀ name, name ≠ path → (d.remove path).lookup name = d.lookup name := by
      intro name h
      rw [Directory.lookup_remove, if_neg h]
    have gone : (d.remove path).lookup path = none := by
      rw [Directory.lookup_remove, if_pos rfl]
    refine .andThen ((ih distinct).weakenError fun t left name => ?_) fun others =>
      .answer fun t after => ?_
    · by_cases h : name = path
      · subst h
        rcases left name with same | ⟨mem, none⟩
        · exact .inr ⟨List.mem_cons_self, same.trans gone⟩
        · exact absurd mem fresh
      · rcases left name with same | ⟨mem, none⟩
        · exact .inl (same.trans (before name h))
        · exact .inr ⟨List.mem_cons_of_mem _ mem, none⟩
    · obtain ⟨rfl, after⟩ := after
      constructor
      · have same : rest.filter (fun p => ((d.remove path).lookup p).isSome && reported p) =
            rest.filter fun p => (d.lookup p).isSome && reported p := by
          refine List.filter_congr fun p mem => ?_
          rw [before p]
          rintro rfl
          exact fresh mem
        rw [same, List.filter_cons, was]
      · intro name
        rw [after name]
        by_cases h : name = path
        · subst h
          rw [if_neg fresh, gone, if_pos List.mem_cons_self]
        · rw [before name h]
          simp [h]

theorem held_getD (path : Text) : ((d.lookup path).getD Directory.newFile).held = heldIn d path := by
  unfold heldIn
  cases d.lookup path <;> rfl

theorem tryLock_ok {operation : String} {path : Text} {file : StateFile} {free : Bool}
    (run : env.tryLock operation path file = .ok free) : free = !file.held := by
  obtain ⟨_, _, run⟩ := bind_eq_ok.mp run
  exact (Except.ok.inj run).symm

theorem tryObservationLock_ok {free : Bool} (run : env.tryObservationLock = .ok free) : free = !env.observed := by
  obtain ⟨_, _, run⟩ := bind_eq_ok.mp run
  exact (Except.ok.inj run).symm

theorem checkStateFile_ok {path : Text} {there : Bool} (run : env.checkStateFile d path = .ok there) :
    there = (d.lookup path).isSome := by
  obtain ⟨_, _, run⟩ := bind_eq_ok.mp run
  split at run
  next none =>
    rw [none]
    exact (Except.ok.inj run).symm
  next file found =>
    obtain ⟨_, _, run⟩ := bind_eq_ok.mp run
    rw [found]
    exact (Except.ok.inj run).symm

theorem Touched.created {t : Directory} (same : ∀ name, t.lookup name = d.lookup name ∨
      (d.lookup name = none ∧ (name = lockFile family ∨ name = closeLockFile family)))
    (name : Text) : env.Touched d t family name :=
  (same name).imp_right .inl

/-- What the deletion does, with the answer it gives. -/
structure Deletion (env : Surroundings) (d t : Directory) (family : Text) (deleted : List Text) :
    Prop where
  unlocked : env.unlocked d family = true
  listed : deleted = (graphDbFamilyFiles family).filter fun path => (d.lookup path).isSome
  gone : ∀ name, t.lookup name = if name ∈ graphDbFamilyFiles family then none else d.lookup name

theorem removeFamily_spec {s : Directory} (unlocked : env.unlocked d family = true)
    (opened : ∀ name, s.lookup name = if name = lockFile family ∨ name = closeLockFile family then
      some ((d.lookup name).getD Directory.newFile) else d.lookup name) :
    Triple (· = s) (env.removeFamily family (d.lookup (lockFile family)).isSome
        (d.lookup (closeLockFile family)).isSome)
      (fun answer t => ∃ deleted, answer = some deleted ∧ Deletion env d t family deleted)
      (fun t => ∀ name, env.Touched d t family name) := by
  refine .andThen ((removeFiles_spec _ (graphDbFamilyFiles_nodup family)).weakenError
    fun t left name => ?_) fun deleted => .answer fun t after => ?_
  · rcases left name with same | ⟨mem, none⟩
    · rw [opened] at same
      split at same
      next lock =>
        cases found : d.lookup name with
        | none => exact .inr (.inl ⟨found, lock⟩)
        | some file =>
          rw [found] at same
          exact .inl (same.trans found.symm)
      next => exact .inl same
    · exact .inr (.inr ⟨unlocked, mem, none⟩)
  · obtain ⟨rfl, after⟩ := after
    refine ⟨_, rfl, unlocked, List.filter_congr fun path _ => ?_, fun name => ?_⟩
    · rw [opened]
      by_cases lock : path = lockFile family
      · by_cases close : path = closeLockFile family
        · simp [lock, lock ▸ close]
        · simp [lock, lock ▸ close]
      · by_cases close : path = closeLockFile family
        · simp [close, close ▸ lock]
        · simp [lock, close]
    · rw [after name]
      split
      · rfl
      next notMem =>
        rw [opened, if_neg]
        rintro (rfl | rfl)
        · exact notMem (lockFile_mem family)
        · exact notMem (closeLockFile_mem family)

/-- What an answer of the deletion says: a guard was held, and at most lock files were
created; or the family is gone. -/
def Answered (env : Surroundings) (d : Directory) (family : Text) (answer : Option (List Text))
    (t : Directory) : Prop :=
  (answer = none ∧ env.unlocked d family = false ∧ ∀ name, t.lookup name = d.lookup name ∨
      (d.lookup name = none ∧ (name = lockFile family ∨ name = closeLockFile family))) ∨
    ∃ deleted, answer = some deleted ∧ Deletion env d t family deleted

theorem created_lookup (name : Text) : (d.create (lockFile family)).lookup name = d.lookup name ∨
      (d.lookup name = none ∧ (name = lockFile family ∨ name = closeLockFile family)) := by
  rw [Directory.lookup_create]
  split
  next eq =>
    subst eq
    cases d.lookup (lockFile family) with
    | none => exact .inr ⟨rfl, .inl rfl⟩
    | some file => exact .inl rfl
  next => exact .inl rfl

theorem closeLockFile_ne_lockFile (family : Text) : closeLockFile family ≠ lockFile family := by
  simp [lockFile, closeLockFile, graphDbSidecar]

theorem created_both_lookup (name : Text) :
    ((d.create (lockFile family)).create (closeLockFile family)).lookup name =
      if name = lockFile family ∨ name = closeLockFile family then
        some ((d.lookup name).getD Directory.newFile) else d.lookup name := by
  rw [Directory.lookup_create, Directory.lookup_create, Directory.lookup_create,
    if_neg (closeLockFile_ne_lockFile family)]
  by_cases close : name = closeLockFile family
  · subst close
    simp
  · by_cases lock : name = lockFile family
    · subst lock
      simp [close]
    · simp [close, lock]

theorem created_both (name : Text) :
    ((d.create (lockFile family)).create (closeLockFile family)).lookup name = d.lookup name ∨
      (d.lookup name = none ∧ (name = lockFile family ∨ name = closeLockFile family)) := by
  rw [created_both_lookup]
  split
  next lock =>
    cases d.lookup name with
    | none => exact .inr ⟨rfl, lock⟩
    | some file => exact .inl rfl
  next => exact .inl rfl

theorem removeIfUnobserved_spec (free : heldIn d (lockFile family) = false) : Triple (· = d.create (lockFile family))
      (env.removeIfUnobserved family (d.lookup (lockFile family)).isSome (d.lookup (closeLockFile family)).isSome)
      (Answered env d family) (fun t => ∀ name, env.Touched d t family name) := by
  have opened : ∀ t, t = d.create (lockFile family) → ∀ name, env.Touched d t family name := by
    rintro t rfl
    exact Touched.created created_lookup
  refine .andThen (Q := fun unobserved t => t = d.create (lockFile family) ∧ unobserved = !env.observed)
    (.query (fun _ _ eq run => ⟨eq, tryObservationLock_ok run⟩) opened) fun unobserved => ?_
  refine .of_each fun s before => ?_
  obtain ⟨rfl, rfl⟩ := before
  cases observed : env.observed with
  | true =>
    refine .answer fun t eq => .inl ⟨rfl, ?_, ?_⟩
    · simp [unlocked, observed]
    · rw [eq]
      exact created_lookup
  | false =>
    have close : ∀ t, t = d.create (lockFile family) ∨
        t = (d.create (lockFile family)).create (closeLockFile family) →
          ∀ name, env.Touched d t family name := by
      rintro t (rfl | rfl)
      · exact opened _ rfl
      · exact Touched.created created_both
    refine .andThen ((openToWrite_spec _).weakenError close) fun closeLock => ?_
    refine .andThen (Q := fun closeFree t =>
        t = (d.create (lockFile family)).create (closeLockFile family) ∧
          closeFree = !heldIn d (closeLockFile family))
      (.query (fun t closeFree before run => ⟨before.1, ?_⟩) fun t before => close t (.inr before.1))
      fun closeFree => ?_
    · rw [tryLock_ok run, before.2, held_getD]
      simp [heldIn, Directory.lookup_create, closeLockFile_ne_lockFile]
    · refine .of_each fun t before => ?_
      obtain ⟨rfl, rfl⟩ := before
      cases held : heldIn d (closeLockFile family) with
      | true =>
        refine .answer fun t eq => .inl ⟨rfl, ?_, ?_⟩
        · simp [unlocked, held]
        · rw [eq]
          exact created_both
      | false =>
        have unlocked : env.unlocked d family = true := by simp [unlocked, observed, free, held]
        exact (removeFamily_spec unlocked created_both_lookup).weaken (fun _ h => h)
          fun _ _ deleted => .inr deleted

theorem deleteFamilyIfUnlocked_spec : Triple (· = d) (env.deleteFamilyIfUnlocked family) (Answered env d family)
      (fun t => ∀ name, env.Touched d t family name) := by
  have start : ∀ t, t = d → ∀ name, env.Touched d t family name := by
    rintro t rfl name
    exact .inl rfl
  refine .andThen (Q := fun existed t => t = d ∧ existed = (d.lookup (lockFile family)).isSome)
    (.query (fun s existed eq run => ⟨eq, eq ▸ checkStateFile_ok run⟩) start) fun lockExisted => ?_
  refine .andThen (Q := fun existed t => (t = d ∧ lockExisted = (d.lookup (lockFile family)).isSome) ∧
      existed = (d.lookup (closeLockFile family)).isSome)
    (.query (fun s existed before run => ⟨before, before.1 ▸ checkStateFile_ok run⟩)
      fun t before => start t before.1) fun closeLockExisted => ?_
  refine .of_each fun s before => ?_
  obtain ⟨⟨rfl, rfl⟩, rfl⟩ := before
  refine .andThen (Q := fun _ t => t = s) (.query (fun _ _ eq _ => eq) start) fun _ => ?_
  have opened : ∀ t, t = s ∨ t = s.create (lockFile family) → ∀ name, env.Touched s t family name := by
    rintro t (rfl | rfl)
    · exact start _ rfl
    · exact Touched.created created_lookup
  refine .andThen ((openToWrite_spec _).weakenError opened) fun lock => ?_
  refine .andThen (Q := fun free t => t = s.create (lockFile family) ∧
      free = !heldIn s (lockFile family))
    (.query (fun t free before run => ⟨before.1, ?_⟩) fun t before => opened t (.inr before.1))
    fun free => ?_
  · rw [tryLock_ok run, before.2, held_getD]
  · refine .of_each fun t before => ?_
    obtain ⟨rfl, rfl⟩ := before
    cases held : heldIn s (lockFile family) with
    | true =>
      refine .answer fun t eq => .inl ⟨rfl, ?_, ?_⟩
      · simp [unlocked, held]
      · rw [eq]
        exact created_lookup
    | false => exact removeIfUnobserved_spec held

end Surroundings

end OrbitGraph.Clean
