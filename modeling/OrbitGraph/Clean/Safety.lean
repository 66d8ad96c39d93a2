import OrbitGraph.Clean.Verdict

/-!
`clean` deletes only what is proven dead, and the plan says what the apply does.

The last section adds that, where the file system does not fail, the two runs
answer on the same directories: the listing has checked every file that a
deletion looks at.
-/

namespace OrbitGraph.Clean

open Lib

namespace Surroundings

open Command (Triple)

variable {env : Surroundings} {activeDbPath : Text} {d t : Directory} {family name : Text}

/-! ### The families -/

/-- A graph database file that is there, outside the active family. -/
def Listed (activeDbPath : Text) (d : Directory) (name : Text) : Prop :=
  (d.lookup name).isSome = true ∧ (graphDbFileMetadata name).isSome = true ∧
    graphDbBasePath name ≠ graphDbBasePath activeDbPath

def familyNames (activeDbPath : Text) (d : Directory) : List Text :=
  let graphFiles := (d.map Prod.fst).filter fun name => (graphDbFileMetadata name).isSome
  let present := graphFiles.filter fun name => (d.lookup name).isSome
  let others := present.filter fun name => !isActiveGraphDbFamily name activeDbPath
  (others.map graphDbBasePath).dedup.insertionSort fun left right => Text.ble left right = true

theorem families_ok {found : List Text} (run : env.families activeDbPath d = .ok found) :
    found = familyNames activeDbPath d := by
  obtain ⟨_, _, run⟩ := bind_eq_ok.mp run
  obtain ⟨present, checked, run⟩ := bind_eq_ok.mp run
  obtain rfl := filterM_eq_ok (fun _ _ run => checkStateFile_ok run) checked
  exact (Except.ok.inj run).symm

theorem familyNames_nodup : (familyNames activeDbPath d).Nodup :=
  (List.perm_insertionSort _ _).nodup_iff.mpr (List.nodup_dedup _)

theorem mem_familyNames :
    family ∈ familyNames activeDbPath d ↔ ∃ name, Listed activeDbPath d name ∧ graphDbBasePath name = family := by
  simp only [familyNames, List.mem_insertionSort, List.mem_dedup, List.mem_map (f := graphDbBasePath),
    List.mem_filter, Directory.mem_names, isActiveGraphDbFamily, Listed, Bool.not_eq_true',
    decide_eq_false_iff_not]
  constructor
  · rintro ⟨name, ⟨⟨⟨there, graph⟩, _⟩, other⟩, rfl⟩
    exact ⟨name, ⟨there, graph, other⟩, rfl⟩
  · rintro ⟨name, ⟨there, graph, other⟩, rfl⟩
    exact ⟨name, ⟨⟨⟨there, graph⟩, there⟩, other⟩, rfl⟩

theorem isFamily_of_mem (mem : family ∈ familyNames activeDbPath d) : IsFamily family := by
  obtain ⟨name, ⟨_, graph, _⟩, rfl⟩ := mem_familyNames.mp mem
  exact graphDbBasePath_of_metadata graph

/-! ### A run -/

/-- The apply: it was not there to be cleaned, or the verdicts were carried out. -/
theorem clean_apply : Triple (· = d) (env.clean .apply activeDbPath)
      (fun report t => (env.directory = .ok false ∧ report = .empty .apply ∧ t = d) ∨ (env.directory = .ok true ∧
          report = (env.account .apply d (.empty .apply) (familyNames activeDbPath d)).sorted ∧
          Cleaned env d t (familyNames activeDbPath d) ∧ Gone env d t (familyNames activeDbPath d)))
      (fun t => Cleaned env d t (familyNames activeDbPath d)) := by
  have start : ∀ t, t = d → Cleaned env d t (familyNames activeDbPath d) := by
    rintro t rfl
    exact Cleaned.refl _
  refine .andThen (Q := fun located t => t = d ∧ env.directory = .ok located)
    (.query (fun _ _ eq run => ⟨eq, run⟩) start) fun located => .of_each fun s before => ?_
  obtain ⟨rfl, directory⟩ := before
  cases located with
  | false => exact .answer fun t eq => .inl ⟨directory, rfl, eq⟩
  | true =>
    refine .andThen (Q := fun found t => t = s ∧ found = familyNames activeDbPath s)
      (.query (fun t found eq run => ⟨eq, eq ▸ families_ok run⟩) start)
      fun found => .of_each fun t before => ?_
    obtain ⟨rfl, rfl⟩ := before
    refine .andThen (cleanFamilies_apply _ familyNames_nodup fun _ => isFamily_of_mem)
      fun report => .answer fun u after => ?_
    exact .inr ⟨directory, by rw [after.1], after.2⟩

theorem clean_plan : Triple (· = d) (env.clean .plan activeDbPath)
      (fun report t => t = d ∧ ((env.directory = .ok false ∧ report = .empty .plan) ∨ (env.directory = .ok true ∧
          report = (env.account .plan d (.empty .plan) (familyNames activeDbPath d)).sorted))) (· = d) := by
  refine .andThen (Q := fun located t => t = d ∧ env.directory = .ok located)
    (.query (fun _ _ eq run => ⟨eq, run⟩) fun _ eq => eq) fun located => .of_each fun s before => ?_
  obtain ⟨rfl, directory⟩ := before
  cases located with
  | false => exact .answer fun t eq => ⟨eq, .inl ⟨directory, rfl⟩⟩
  | true =>
    refine .andThen (Q := fun found t => t = s ∧ found = familyNames activeDbPath s)
      (.query (fun t found eq run => ⟨eq, eq ▸ families_ok run⟩) fun _ eq => eq)
      fun found => .of_each fun t before => ?_
    obtain ⟨rfl, rfl⟩ := before
    refine .andThen (cleanFamilies_plan _ _) fun report => .answer fun u after => ?_
    exact ⟨after.1, .inr ⟨directory, by rw [after.2]⟩⟩

theorem clean_plan_state : (env.clean .plan activeDbPath d).2 = d := by
  rcases (@clean_plan env activeDbPath d).outcome (s := d) rfl with
    ⟨_, _, same, _⟩ | ⟨_, _, same⟩
  · exact same
  · exact same

theorem clean_apply_cleaned : Cleaned env d (env.clean .apply activeDbPath d).2 (familyNames activeDbPath d) := by
  rcases clean_apply.outcome (s := d) rfl with ⟨report, _, ⟨_, _, same⟩ | ⟨_, _, cleaned, _⟩⟩ | ⟨_, _, cleaned⟩
  · rw [same]
    exact Cleaned.refl _
  · exact cleaned
  · exact cleaned

variable {families : List Text}

theorem Cleaned.removed (cleaned : Cleaned env d t families)
    (there : (d.lookup name).isSome = true) (gone : t.lookup name = none) :
    ∃ family ∈ families, name ∈ graphDbFamilyFiles family ∧ env.Removable d family := by
  rcases cleaned name with same | ⟨family, mem, file, absent | ⟨removable, _⟩⟩
  · rw [← same, gone] at there
    cases there
  · rw [absent] at there
    cases there
  · exact ⟨family, mem, file, removable⟩

theorem mem_account_deleted (cleaned : Cleaned env d t families)
    (gone : Gone env d t families) : name ∈ (env.account .apply d (.empty .apply) families).sorted.deleted ↔
      (d.lookup name).isSome = true ∧ t.lookup name = none := by
  simp only [CleanReport.sorted, List.mem_insertionSort]
  rw [account_deleted _ _ rfl, account_wouldDelete]
  simp only [CleanReport.empty, List.nil_append, List.map_flatMap, List.mem_flatMap, mem_items]
  constructor
  · rintro ⟨family, mem, removable, file, there⟩
    exact ⟨there, gone family mem removable name file⟩
  · rintro ⟨there, absent⟩
    obtain ⟨family, mem, file, removable⟩ := cleaned.removed there absent
    exact ⟨family, mem, removable, file, there⟩

/-! ### Runs without failures of the file system -/

/-- Every graph database file is one that `check_state_file` accepts. -/
def Acceptable (d : Directory) : Prop :=
  ∀ name file, (graphDbFileMetadata name).isSome = true → d.lookup name = some file → file.refused = none

def GraphFamily (family : Text) : Prop :=
  ∀ name ∈ graphDbFamilyFiles family, (graphDbFileMetadata name).isSome = true

theorem graphFamily_of_mem (mem : family ∈ familyNames activeDbPath d) : GraphFamily family := by
  obtain ⟨name, ⟨_, graph, _⟩, rfl⟩ := mem_familyNames.mp mem
  intro other file
  obtain ⟨stem, base⟩ := graphDbBasePath_of_metadata graph
  have self := mem_graphDbFamilyFiles_base graph
  rw [base] at file self
  rw [graphDbFileMetadata_of_mem file, ← graphDbFileMetadata_of_mem self, graph]

theorem Acceptable.create {path : Text} (acceptable : Acceptable d) : Acceptable (d.create path) := by
  intro name file graph found
  rw [Directory.lookup_create] at found
  split at found
  next eq =>
    subst eq
    cases there : d.lookup name with
    | none =>
      rw [there] at found
      obtain rfl := Option.some.inj found
      rfl
    | some old =>
      rw [there] at found
      exact acceptable name file graph (there.trans found)
  next => exact acceptable name file graph found

theorem Acceptable.remove {path : Text} (acceptable : Acceptable d) : Acceptable (d.remove path) := by
  intro name file graph found
  rw [Directory.lookup_remove] at found
  split at found
  · cases found
  · exact acceptable name file graph found

section Unfailing

variable (noFault : ∀ fault, env.fault fault = none)
include noFault

theorem check_ok (fault : Fault) (operation : String) (path : Text) : env.check fault operation path = .ok () := by
  simp [check, noFault]

theorem checkStateFile_answers (acceptable : Acceptable d)
    (graph : (graphDbFileMetadata name).isSome = true) : ∃ there, env.checkStateFile d name = .ok there := by
  unfold checkStateFile
  rw [check_ok noFault]
  cases found : d.lookup name with
  | none => exact ⟨false, by simp [bind, Except.bind]⟩
  | some file =>
    have := acceptable name file graph found
    exact ⟨true, by simp [bind, Except.bind, accept, this, pure, Except.pure]⟩

omit noFault in
theorem refused_of_checkStateFile {there : Bool} {file : StateFile}
    (run : env.checkStateFile d name = .ok there) (found : d.lookup name = some file) : file.refused = none := by
  obtain ⟨_, _, run⟩ := bind_eq_ok.mp run
  rw [found] at run
  obtain ⟨_, accepted, _⟩ := bind_eq_ok.mp run
  unfold accept at accepted
  split at accepted
  next none => exact none
  next => cases accepted

/-- The listing answers exactly if it accepts every graph database file. -/
theorem families_answers : (∃ found, env.families activeDbPath d = .ok found) ↔ Acceptable d := by
  constructor
  · rintro ⟨found, run⟩ name file graph there
    obtain ⟨_, _, run⟩ := bind_eq_ok.mp run
    obtain ⟨present, checked, _⟩ := bind_eq_ok.mp run
    have listed : name ∈ (d.map Prod.fst).filter fun name => (graphDbFileMetadata name).isSome :=
      List.mem_filter.mpr ⟨Directory.mem_names.mpr (by simp [there]), graph⟩
    obtain ⟨_, accepted⟩ := filterM_answers.mp ⟨present, checked⟩ name listed
    exact refused_of_checkStateFile accepted there
  · intro acceptable
    have checked : ∃ present, ((d.map Prod.fst).filter fun name =>
        (graphDbFileMetadata name).isSome).filterM (env.checkStateFile d) = .ok present :=
      filterM_answers.mpr fun name mem =>
        checkStateFile_answers noFault acceptable (List.mem_filter.mp mem).2
    obtain ⟨present, checked⟩ := checked
    refine ⟨familyNames activeDbPath d, bind_eq_ok.mpr ⟨(), check_ok noFault _ _ _, ?_⟩⟩
    refine bind_eq_ok.mpr ⟨present, checked, ?_⟩
    obtain rfl := filterM_eq_ok (fun _ _ run => checkStateFile_ok run) checked
    rfl

theorem tryLock_answers (operation : String) (path : Text) (file : StateFile) :
    env.tryLock operation path file = .ok (!file.held) :=
  bind_eq_ok.mpr ⟨(), check_ok noFault _ _ _, rfl⟩

theorem tryObservationLock_answers : env.tryObservationLock = .ok (!env.observed) :=
  bind_eq_ok.mpr ⟨(), check_ok noFault _ _ _, rfl⟩

theorem existingFiles_answers (acceptable : Acceptable d) (graph : GraphFamily family) :
    ∃ existing, env.existingFiles d family = .ok existing :=
  filterM_answers.mpr fun name mem => checkStateFile_answers noFault acceptable (graph name mem)

theorem lockIsFree_answers (acceptable : Acceptable d) (graph : (graphDbFileMetadata name).isSome = true) :
    env.lockIsFree d name = .ok (!heldIn d name) := by
  unfold lockIsFree openToRead
  rw [check_ok noFault]
  unfold heldIn
  cases found : d.lookup name with
  | none => rfl
  | some file =>
    have := acceptable name file graph found
    simp [bind, Except.bind, accept, this, pure, Except.pure, tryLock_answers noFault]

theorem existingFilesIfUnlocked_answers (acceptable : Acceptable d) (graph : GraphFamily family) :
    ∃ answer, env.existingFilesIfUnlocked family d = .ok answer := by
  obtain ⟨existing, listed⟩ := existingFiles_answers noFault acceptable graph
  unfold existingFilesIfUnlocked
  rw [lockIsFree_answers noFault acceptable (graph _ (lockFile_mem family)),
    lockIsFree_answers noFault acceptable (graph _ (closeLockFile_mem family)),
    tryObservationLock_answers noFault, listed]
  cases heldIn d (lockFile family)
  · cases heldIn d (closeLockFile family)
    · cases env.observed
      · exact ⟨some existing, rfl⟩
      · exact ⟨none, rfl⟩
    · exact ⟨none, rfl⟩
  · exact ⟨none, rfl⟩

theorem openToWrite_answers (graph : (graphDbFileMetadata name).isSome = true) :
    Triple Acceptable (env.openToWrite name) (fun _ => Acceptable) (fun _ => False) := by
  refine .andThen (Q := fun _ => Acceptable)
    (.query_answers fun s acceptable => ⟨(), check_ok noFault _ _ _, acceptable⟩) fun _ => ?_
  refine .andThen (Q := fun _ s => Acceptable s ∧ (s.lookup name).isSome = true)
    (.transaction_answers fun s acceptable => ⟨(), _, rfl, acceptable.create, ?_⟩) fun _ => ?_
  · simp [Directory.lookup_create]
  · refine .andThen (Q := fun _ => Acceptable) (.query_answers fun s before => ⟨(), ?_, before.1⟩)
      fun _ => .query_answers fun s acceptable => ⟨_, rfl, acceptable⟩
    obtain ⟨file, found⟩ := Option.isSome_iff_exists.mp before.2
    simp [found, accept, before.1 name file graph found]

theorem removeFiles_answers (reported : Text → Bool) (paths : List Text) :
    Triple Acceptable (env.removeFiles reported paths) (fun _ => Acceptable) (fun _ => False) := by
  induction paths with
  | nil => exact .answer fun _ acceptable => acceptable
  | cons path rest ih =>
    refine .andThen (Q := fun _ => Acceptable) (fun s acceptable => ?_) fun removed =>
      .andThen ih fun others => .answer fun _ acceptable => acceptable
    simpa [removeFile, noFault] using acceptable.remove

theorem deleteFamilyIfUnlocked_answers (graph : GraphFamily family) :
    Triple Acceptable (env.deleteFamilyIfUnlocked family) (fun _ => Acceptable) (fun _ => False) := by
  have inspected : ∀ name ∈ graphDbFamilyFiles family,
      Triple Acceptable (Command.query fun d => env.checkStateFile d name) (fun _ => Acceptable)
        (fun _ => False) := by
    refine fun name mem => .query_answers fun s acceptable => ?_
    obtain ⟨there, run⟩ := checkStateFile_answers noFault acceptable (graph name mem)
    exact ⟨there, run, acceptable⟩
  refine .andThen (inspected _ (lockFile_mem family)) fun lockExisted => ?_
  refine .andThen (inspected _ (closeLockFile_mem family)) fun closeLockExisted => ?_
  refine .andThen (Q := fun _ => Acceptable) (.query_answers fun s acceptable => ?_) fun _ => ?_
  · obtain ⟨existing, listed⟩ := existingFiles_answers noFault acceptable graph
    exact ⟨existing, listed, acceptable⟩
  · refine .andThen (openToWrite_answers noFault (graph _ (lockFile_mem family))) fun lock => ?_
    refine .andThen (Q := fun _ => Acceptable)
      (.query_answers fun s acceptable => ⟨_, tryLock_answers noFault _ _ _, acceptable⟩) fun free => ?_
    split
    next =>
      refine .andThen (Q := fun _ => Acceptable)
        (.query_answers fun s acceptable => ⟨_, tryObservationLock_answers noFault, acceptable⟩)
        fun unobserved => ?_
      split
      next =>
        refine .andThen (openToWrite_answers noFault (graph _ (closeLockFile_mem family)))
          fun closeLock => ?_
        refine .andThen (Q := fun _ => Acceptable)
          (.query_answers fun s acceptable => ⟨_, tryLock_answers noFault _ _ _, acceptable⟩)
          fun closeFree => ?_
        split
        next =>
          exact .andThen (removeFiles_answers noFault _ _) fun _ => .answer fun _ acceptable => acceptable
        next => exact .answer fun _ acceptable => acceptable
      next => exact .answer fun _ acceptable => acceptable
    next => exact .answer fun _ acceptable => acceptable

theorem cleanFamilies_answers (mode : CleanMode) (report : CleanReport) {families : List Text}
    (graph : ∀ family ∈ families, GraphFamily family) :
    Triple Acceptable (env.cleanFamilies mode report families) (fun _ => Acceptable) (fun _ => False) := by
  induction families generalizing report with
  | nil => exact .answer fun _ acceptable => acceptable
  | cons family rest ih =>
    have removed : Triple Acceptable (env.removedFiles mode family) (fun _ => Acceptable)
        (fun _ => False) := by
      have family := graph family List.mem_cons_self
      cases mode with
      | apply => exact deleteFamilyIfUnlocked_answers noFault family
      | plan =>
        refine .query_answers fun s acceptable => ?_
        obtain ⟨answer, run⟩ := existingFilesIfUnlocked_answers noFault acceptable family
        exact ⟨answer, run, acceptable⟩
    refine .andThen (Q := fun _ => Acceptable) ?_ fun report' =>
      ih report' fun other mem => graph other (List.mem_cons_of_mem _ mem)
    refine .andThen (Q := fun _ => Acceptable)
      (.query_answers fun s acceptable => ⟨_, rfl, acceptable⟩) fun decision => ?_
    cases decision with
    | keep reason detail => exact .answer fun _ acceptable => acceptable
    | delete reason =>
      refine .andThen removed fun answer => ?_
      cases answer with
      | some paths | none => exact .answer fun _ acceptable => acceptable

theorem clean_answers (mode : CleanMode) : (∃ report, (env.clean mode activeDbPath d).1 = .ok report) ↔
      env.directory = .ok false ∨ (env.directory = .ok true ∧ Acceptable d) := by
  cases directory : env.directory with
  | error e => simp [clean, bind, Command.andThen, Command.query, directory]
  | ok located =>
    cases located with
    | false => simp [clean, bind, Command.andThen, Command.query, directory, Command.answer]
    | true =>
      rw [← @families_answers env activeDbPath d noFault]
      cases listing : env.families activeDbPath d with
      | error e => simp [clean, bind, Command.andThen, Command.query, directory, listing]
      | ok found =>
        have acceptable : Acceptable d := (families_answers noFault).mp ⟨found, listing⟩
        have graph : ∀ family ∈ found, GraphFamily family := fun family mem =>
          graphFamily_of_mem (families_ok listing ▸ mem)
        rcases (cleanFamilies_answers noFault mode (.empty mode) graph).outcome acceptable with
          ⟨report, answer, _⟩ | ⟨_, _, impossible⟩
        · have answers : ∃ report, (env.clean mode activeDbPath d).1 = .ok report := by
            cases run : env.cleanFamilies mode (.empty mode) found d with
            | mk result t =>
              rw [run] at answer
              obtain rfl : result = .ok report := answer
              exact ⟨report.sorted, by
                simp [clean, bind, Command.andThen, Command.query, directory, listing, run, Command.answer]⟩
          simp [answers]
        · exact impossible.elim

end Unfailing

/-! ### The result -/

theorem account_kept_mode (families : List Text) : (env.account .plan d (.empty .plan) families).kept =
      (env.account .apply d (.empty .apply) families).kept := by
  suffices h : ∀ planned applied : CleanReport, planned.kept = applied.kept →
      (env.account .plan d planned families).kept = (env.account .apply d applied families).kept from
    h _ _ rfl
  induction families with
  | nil => exact fun _ _ same => same
  | cons family rest ih =>
    intro planned applied same
    rw [account, account, List.foldl_cons, List.foldl_cons]
    refine ih _ _ ?_
    cases env.verdict d family <;> simp [CleanReport.enter, CleanReport.keep, CleanReport.delete, same]

end Surroundings

open Surroundings CleanReport in
/-- `clean` deletes only what is proven dead. Whatever the directory and however the apply
ends: a file that is gone was of a family that is not the active one, is proven dead, and
whose guards nobody held; the files of all other families are untouched, and the plan
touches none. An apply that answers has deleted the families it touched whole and reports
what is gone, and a plan of the same directory that answers lists just that. Where the file
system does not fail, one answers if the other does. -/
theorem clean_sound (env : Surroundings) (activeDbPath : Text) (d : Directory) :
    (∀ name, (d.lookup name).isSome = true → (env.clean .apply activeDbPath d).2.lookup name = none →
      graphDbBasePath name ≠ graphDbBasePath activeDbPath ∧
        name ∈ graphDbFamilyFiles (graphDbBasePath name) ∧ env.Removable d (graphDbBasePath name)) ∧
    (∀ family, IsFamily family → family = graphDbBasePath activeDbPath ∨ ¬ env.Removable d family →
        ∀ name ∈ graphDbFamilyFiles family, (d.lookup name).isSome = true →
          (env.clean .apply activeDbPath d).2.lookup name = d.lookup name) ∧
    (env.clean .plan activeDbPath d).2 = d ∧
    (∀ report, (env.clean .apply activeDbPath d).1 = .ok report → (∀ name, name ∈ report.deleted ↔
        (d.lookup name).isSome = true ∧ (env.clean .apply activeDbPath d).2.lookup name = none) ∧
      (∀ name ∈ report.deleted, ∀ other ∈ graphDbFamilyFiles (graphDbBasePath name),
        (env.clean .apply activeDbPath d).2.lookup other = none) ∧
      ∀ fault planned, (({ env with fault } : Surroundings).clean .plan activeDbPath d).1 = .ok planned →
        report.deleted = planned.wouldDelete.map CleanItem.path ∧
          report.wouldDelete = planned.wouldDelete ∧ report.kept = planned.kept) ∧
    ((∀ fault, env.fault fault = none) → ((∃ report, (env.clean .apply activeDbPath d).1 = .ok report) ↔
        ∃ planned, (env.clean .plan activeDbPath d).1 = .ok planned)) := by
  have cleaned : Cleaned env d (env.clean .apply activeDbPath d).2 (familyNames activeDbPath d) :=
    clean_apply_cleaned
  refine ⟨fun name there gone => ?_, fun family isFamily kept name file there => ?_, ?_,
    fun report run => ?_, fun noFault => ?_⟩
  · obtain ⟨family, mem, file, removable⟩ := cleaned.removed there gone
    have base := (isFamily_of_mem mem).base file
    obtain ⟨listed, ⟨_, _, other⟩, same⟩ := mem_familyNames.mp mem
    rw [base]
    exact ⟨same ▸ other, file, removable⟩
  · rcases cleaned name with same | ⟨other, mem, otherFile, absent | ⟨removable, _⟩⟩
    · exact same
    · rw [absent] at there
      cases there
    · obtain rfl : other = family := by
        rw [← (isFamily_of_mem mem).base otherFile, isFamily.base file]
      obtain ⟨listed, ⟨_, _, notActive⟩, base⟩ := mem_familyNames.mp mem
      rcases kept with active | kept
      · exact absurd (base.trans active) notActive
      · exact absurd removable kept
  · exact clean_plan_state
  · rcases clean_apply.answered rfl run with ⟨directory, rfl, same⟩ | ⟨directory, rfl, cleaned, gone⟩
    · refine ⟨fun name => ?_, fun name mem => absurd mem List.not_mem_nil, fun fault planned answer => ?_⟩
      · rw [same]
        cases d.lookup name <;> simp [CleanReport.empty]
      · obtain ⟨_, ⟨_, rfl⟩ | ⟨located, _⟩⟩ := clean_plan.answered rfl answer
        · exact ⟨rfl, rfl, rfl⟩
        · rw [directory] at located
          cases located
    · refine ⟨fun name => mem_account_deleted cleaned gone, fun name mem other file => ?_,
        fun fault planned answer => ?_⟩
      · obtain ⟨there, absent⟩ := (mem_account_deleted cleaned gone).mp mem
        obtain ⟨family, mem, own, removable⟩ := cleaned.removed there absent
        rw [(isFamily_of_mem mem).base own] at file
        exact gone family mem removable other file
      · obtain ⟨_, ⟨located, _⟩ | ⟨_, rfl⟩⟩ := clean_plan.answered rfl answer
        · rw [directory] at located
          cases located
        · have lists := @account_wouldDelete_mode env d (familyNames activeDbPath d)
          have kept := @account_kept_mode env d (familyNames activeDbPath d)
          refine ⟨?_, ?_, ?_⟩
          · rw [sorted_deleted _ (account_deleted _ _ rfl)]
            exact congrArg (fun items => (items.insertionSort pathBle).map CleanItem.path) lists.symm
          · exact congrArg (fun items => items.insertionSort pathBle) lists.symm
          · exact congrArg (fun items => items.insertionSort pathBle) kept.symm
  · rw [clean_answers noFault, clean_answers noFault]

end OrbitGraph.Clean
