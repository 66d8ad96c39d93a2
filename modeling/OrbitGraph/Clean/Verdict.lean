import OrbitGraph.Clean.Clean

/-!
What a run of `clean` makes of the directory it starts from.

The verdict on a family is a function of the directory alone. The plan reads it;
the apply carries it out, one family after another, and what it does to one
family leaves the verdicts on the others as they were.
-/

namespace OrbitGraph.Clean

open Lib

/-- What is to become of a family. -/
inductive Verdict where
  | keep (reason : CleanReason) (detail : Option Text)
  | delete (reason : CleanReason) (paths : List Text)

namespace Verdict

/-- What the report lists for deletion. -/
def items : Verdict → List CleanItem
  | .keep _ _ => []
  | .delete reason paths => paths.map fun path => { path, reason, detail := none }

end Verdict

def CleanReport.enter (mode : CleanMode) (report : CleanReport) (family : Text) :
    Verdict → CleanReport
  | .keep reason detail => report.keep family reason detail
  | .delete reason paths => report.delete mode reason paths

namespace Surroundings

variable (env : Surroundings)

def presentFiles (d : Directory) (family : Text) : List Text :=
  (graphDbFamilyFiles family).filter fun path => (d.lookup path).isSome

def verdict (d : Directory) (family : Text) : Verdict :=
  match judgeGraphDbFamily env.git d family with
  | .keep reason detail => .keep reason detail
  | .delete reason =>
    if env.unlocked d family then .delete reason (presentFiles d family) else .keep .locked none

def account (mode : CleanMode) (d : Directory) (report : CleanReport) (families : List Text) :
    CleanReport :=
  families.foldl (fun report family => report.enter mode family (env.verdict d family)) report

/-- A family that is proven dead, and whose guards nobody holds. -/
def Removable (d : Directory) (family : Text) : Prop :=
  ProvenDead env.git d family ∧ env.unlocked d family = true

variable {env} {d t : Directory} {family : Text} {mode : CleanMode}

theorem verdict_delete {reason : CleanReason} {paths : List Text}
    (verdict : env.verdict d family = .delete reason paths) :
    env.Removable d family ∧ paths = presentFiles d family := by
  unfold Surroundings.verdict at verdict
  cases judged : judgeGraphDbFamily env.git d family with
  | keep reason detail => simp [judged] at verdict
  | delete reason =>
    simp only [judged] at verdict
    split at verdict
    next unlocked =>
      obtain ⟨rfl, rfl⟩ := Verdict.delete.inj verdict
      exact ⟨⟨judgeGraphDbFamily_delete.mp ⟨_, judged⟩, unlocked⟩, rfl⟩
    next => cases verdict

theorem Removable.verdict (removable : env.Removable d family) :
    ∃ reason, env.verdict d family = .delete reason (presentFiles d family) := by
  obtain ⟨reason, judged⟩ := judgeGraphDbFamily_delete.mpr removable.1
  exact ⟨reason, by simp [Surroundings.verdict, judged, removable.2]⟩

theorem mem_items {path : Text} : path ∈ (env.verdict d family).items.map CleanItem.path ↔
      env.Removable d family ∧ path ∈ graphDbFamilyFiles family ∧ (d.lookup path).isSome = true := by
  constructor
  · intro mem
    cases verdict : env.verdict d family with
    | keep reason detail => simp [verdict, Verdict.items] at mem
    | delete reason paths =>
      obtain ⟨removable, rfl⟩ := verdict_delete verdict
      refine ⟨removable, ?_⟩
      simpa [verdict, Verdict.items, presentFiles] using mem
  · rintro ⟨removable, mem, there⟩
    obtain ⟨reason, verdict⟩ := removable.verdict
    simp [verdict, Verdict.items, presentFiles, mem, there]

theorem account_wouldDelete (report : CleanReport) (families : List Text) :
    (env.account mode d report families).wouldDelete =
      report.wouldDelete ++ families.flatMap fun family => (env.verdict d family).items := by
  induction families generalizing report with
  | nil => simp [account]
  | cons family rest ih =>
    rw [account, List.foldl_cons, ← account, ih, List.flatMap_cons, ← List.append_assoc]
    congr 1
    cases env.verdict d family <;>
      simp [CleanReport.enter, CleanReport.keep, CleanReport.delete, Verdict.items]

theorem account_deleted (report : CleanReport) (families : List Text)
    (same : report.deleted = report.wouldDelete.map CleanItem.path) : (env.account .apply d report families).deleted =
      (env.account .apply d report families).wouldDelete.map CleanItem.path := by
  induction families generalizing report with
  | nil => exact same
  | cons family rest ih =>
    rw [account, List.foldl_cons, ← account]
    refine ih _ ?_
    cases env.verdict d family <;>
      simp [CleanReport.enter, CleanReport.keep, CleanReport.delete, same, Function.comp_def]

theorem account_wouldDelete_mode (families : List Text) : (env.account .plan d (.empty .plan) families).wouldDelete =
      (env.account .apply d (.empty .apply) families).wouldDelete := by
  rw [account_wouldDelete, account_wouldDelete]
  rfl

theorem sorted_deleted (report : CleanReport) (same : report.deleted = report.wouldDelete.map CleanItem.path) :
    report.sorted.deleted = report.sorted.wouldDelete.map CleanItem.path := by
  simp only [CleanReport.sorted, same]
  symm
  apply List.map_insertionSort
  exact fun _ _ _ _ => Iff.rfl

/-! ### What the verdict depends on -/

def SameFiles (d t : Directory) (family : Text) : Prop :=
  ∀ name ∈ graphDbFamilyFiles family, t.lookup name = d.lookup name

/-- A family is named by its database file. -/
def IsFamily (family : Text) : Prop := ∃ stem, family = stem ++ ".db"

theorem IsFamily.base {name : Text} (isFamily : IsFamily family)
    (mem : name ∈ graphDbFamilyFiles family) : graphDbBasePath name = family := by
  obtain ⟨stem, rfl⟩ := isFamily
  exact graphDbBasePath_of_mem mem

theorem mem_graphDbFamilyFiles_self (family : Text) : family ∈ graphDbFamilyFiles family :=
  List.mem_cons_self

section Congruence

variable (isFamily : IsFamily family) (same : SameFiles d t family)
include isFamily same

theorem detachedDbMetaMatches_congr (commitPrefix : Text) :
    detachedDbMetaMatches t family commitPrefix = detachedDbMetaMatches d family commitPrefix := by
  have self := mem_graphDbFamilyFiles_self family
  simp only [detachedDbMetaMatches, isFamily.base self, same family self]

theorem judgeGraphDbFamily_congr : judgeGraphDbFamily env.git t family = judgeGraphDbFamily env.git d family := by
  simp only [judgeGraphDbFamily, detachedDbMetaMatches_congr isFamily same]

omit isFamily in
theorem unlocked_congr : env.unlocked t family = env.unlocked d family := by
  simp only [unlocked, heldIn, same _ (lockFile_mem family), same _ (closeLockFile_mem family)]

omit isFamily in
theorem presentFiles_congr : presentFiles t family = presentFiles d family :=
  List.filter_congr fun name mem => by rw [same name mem]

theorem verdict_congr : env.verdict t family = env.verdict d family := by
  simp only [verdict, judgeGraphDbFamily_congr isFamily same, unlocked_congr same, presentFiles_congr same]

theorem removable_congr : env.Removable t family ↔ env.Removable d family := by
  simp only [Removable, ProvenDead, detachedDbMetaMatches_congr isFamily same, unlocked_congr same]

end Congruence

/-! ### The plan -/

open Command (Triple)

theorem openToRead_ok {path : Text} {file : Option StateFile}
    (run : env.openToRead d path = .ok file) : file = d.lookup path := by
  obtain ⟨_, _, run⟩ := bind_eq_ok.mp run
  split at run
  next none =>
    rw [none]
    exact (Except.ok.inj run).symm
  next file found =>
    obtain ⟨_, _, run⟩ := bind_eq_ok.mp run
    rw [found]
    exact (Except.ok.inj run).symm

theorem lockIsFree_ok {path : Text} {free : Bool} (run : env.lockIsFree d path = .ok free) :
    free = !heldIn d path := by
  obtain ⟨file, opened, run⟩ := bind_eq_ok.mp run
  obtain rfl := openToRead_ok opened
  unfold heldIn
  cases found : d.lookup path with
  | none =>
    rw [found] at run
    exact (Except.ok.inj run).symm
  | some file =>
    rw [found] at run
    exact tryLock_ok run

theorem existingFiles_ok {existing : List Text} (run : env.existingFiles d family = .ok existing) :
    existing = presentFiles d family :=
  filterM_eq_ok (fun _ _ run => checkStateFile_ok run) run

theorem existingFilesIfUnlocked_ok {answer : Option (List Text)}
    (run : env.existingFilesIfUnlocked family d = .ok answer) :
    answer = if env.unlocked d family then some (presentFiles d family) else none := by
  obtain ⟨free, query, run⟩ := bind_eq_ok.mp run
  obtain rfl := lockIsFree_ok query
  cases lock : heldIn d (lockFile family) with
  | true =>
    simp only [lock] at run
    simp [unlocked, lock, (Except.ok.inj run).symm]
  | false =>
    simp only [lock] at run
    obtain ⟨closeFree, query, run⟩ := bind_eq_ok.mp run
    obtain rfl := lockIsFree_ok query
    cases close : heldIn d (closeLockFile family) with
    | true =>
      simp only [close] at run
      simp [unlocked, close, (Except.ok.inj run).symm]
    | false =>
      simp only [close] at run
      obtain ⟨unobserved, query, run⟩ := bind_eq_ok.mp run
      obtain rfl := tryObservationLock_ok query
      cases observed : env.observed with
      | true =>
        simp only [observed] at run
        simp [unlocked, observed, (Except.ok.inj run).symm]
      | false =>
        simp only [observed] at run
        obtain ⟨existing, query, run⟩ := bind_eq_ok.mp run
        obtain rfl := existingFiles_ok query
        simp [unlocked, lock, close, observed, (Except.ok.inj run).symm]

theorem cleanFamily_plan (report : CleanReport) (family : Text) : Triple (· = d) (env.cleanFamily .plan report family)
      (fun report' t => t = d ∧ report' = report.enter .plan family (env.verdict d family)) (· = d) := by
  refine .andThen (Q := fun decision t => t = d ∧ decision = judgeGraphDbFamily env.git d family)
    (.query (fun s decision eq run => ⟨eq, eq ▸ (Except.ok.inj run).symm⟩) fun _ eq => eq)
    fun decision => ?_
  refine .of_each fun s before => ?_
  obtain ⟨rfl, rfl⟩ := before
  cases judged : judgeGraphDbFamily env.git s family with
  | keep reason detail => exact .answer fun t eq => ⟨eq, by simp [verdict, judged, CleanReport.enter]⟩
  | delete reason =>
    refine .andThen (Q := fun answer t => t = s ∧
        answer = if env.unlocked s family then some (presentFiles s family) else none)
      (.query (fun t answer eq run => ⟨eq, eq ▸ existingFilesIfUnlocked_ok run⟩) fun _ eq => eq)
      fun answer => .of_each fun t before => ?_
    obtain ⟨rfl, rfl⟩ := before
    cases unlocked : env.unlocked t family <;>
      exact .answer fun u eq => ⟨eq, by simp [verdict, judged, unlocked, CleanReport.enter]⟩

theorem cleanFamilies_plan (report : CleanReport) (families : List Text) :
    Triple (· = d) (env.cleanFamilies .plan report families)
      (fun report' t => t = d ∧ report' = env.account .plan d report families) (· = d) := by
  induction families generalizing report with
  | nil => exact .answer fun t eq => ⟨eq, rfl⟩
  | cons family rest ih =>
    refine .andThen (cleanFamily_plan report family) fun report' => .of_each fun s before => ?_
    obtain ⟨rfl, rfl⟩ := before
    exact ih _

/-! ### The apply -/

/-- What a run over some families may have done to the directory: a name looks as before,
or belongs to one of the families, and either was not there or was removed with a
family that could be removed. -/
def Cleaned (env : Surroundings) (d t : Directory) (families : List Text) : Prop :=
  ∀ name, t.lookup name = d.lookup name ∨
    ∃ family ∈ families, name ∈ graphDbFamilyFiles family ∧
      (d.lookup name = none ∨ (env.Removable d family ∧ t.lookup name = none))

/-- The families that could be removed are gone whole. -/
def Gone (env : Surroundings) (d t : Directory) (families : List Text) : Prop :=
  ∀ family ∈ families, env.Removable d family → ∀ name ∈ graphDbFamilyFiles family,
    t.lookup name = none

theorem Cleaned.of_touched (dead : ProvenDead env.git d family)
    (touched : ∀ name, env.Touched d t family name) : Cleaned env d t [family] := by
  intro name
  rcases touched name with same | ⟨absent, lock⟩ | ⟨unlocked, mem, gone⟩
  · exact .inl same
  · refine .inr ⟨family, List.mem_singleton_self _, ?_, .inl absent⟩
    rcases lock with rfl | rfl
    · exact lockFile_mem family
    · exact closeLockFile_mem family
  · exact .inr ⟨family, List.mem_singleton_self _, mem, .inr ⟨⟨dead, unlocked⟩, gone⟩⟩

theorem Cleaned.refl (families : List Text) : Cleaned env d d families := fun _ => .inl rfl

/-- One round of the apply carries out the verdict. -/
theorem cleanFamily_apply (report : CleanReport) (family : Text) :
    Triple (· = d) (env.cleanFamily .apply report family)
      (fun report' t => report' = report.enter .apply family (env.verdict d family) ∧
        Cleaned env d t [family] ∧ Gone env d t [family]) (fun t => Cleaned env d t [family]) := by
  refine .andThen (Q := fun decision t => t = d ∧ decision = judgeGraphDbFamily env.git d family)
    (.query (fun s decision eq run => ⟨eq, eq ▸ (Except.ok.inj run).symm⟩)
      fun s eq => eq ▸ Cleaned.refl _) fun decision => ?_
  refine .of_each fun s before => ?_
  obtain ⟨rfl, rfl⟩ := before
  have dead : (∃ reason, judgeGraphDbFamily env.git s family = .delete reason) ↔ _ :=
    judgeGraphDbFamily_delete
  cases judged : judgeGraphDbFamily env.git s family with
  | keep reason detail =>
    refine .answer fun t eq => ⟨by simp [verdict, judged, CleanReport.enter], eq ▸ Cleaned.refl _, ?_⟩
    intro other mem removable
    obtain rfl := List.mem_singleton.mp mem
    obtain ⟨_, deleted⟩ := judgeGraphDbFamily_delete.mpr removable.1
    simp [judged] at deleted
  | delete reason =>
    have dead := dead.mp ⟨reason, judged⟩
    refine .andThen (deleteFamilyIfUnlocked_spec.weakenError fun t => Cleaned.of_touched dead)
      fun answer => .of_each fun t answered => ?_
    rcases answered with ⟨rfl, locked, created⟩ | ⟨deleted, rfl, deletion⟩
    · refine .answer fun u eq => ⟨by simp [verdict, judged, locked, CleanReport.enter], ?_, ?_⟩
      · exact eq ▸ Cleaned.of_touched dead (Touched.created created)
      · intro other mem removable
        obtain rfl := List.mem_singleton.mp mem
        rw [removable.2] at locked
        cases locked
    · have removable : env.Removable s family := ⟨dead, deletion.unlocked⟩
      refine .answer fun u eq => ⟨?_, ?_, ?_⟩
      · simp [verdict, judged, deletion.unlocked, CleanReport.enter, presentFiles, deletion.listed]
      · intro name
        rw [eq, deletion.gone name]
        by_cases mem : name ∈ graphDbFamilyFiles family
        · exact .inr ⟨family, List.mem_singleton_self _, mem, .inr ⟨removable, if_pos mem⟩⟩
        · exact .inl (if_neg mem)
      · intro other mem _ name file
        obtain rfl := List.mem_singleton.mp mem
        rw [eq, deletion.gone name, if_pos file]

variable {families : List Text}

theorem Cleaned.sameFiles (cleaned : Cleaned env d t families)
    (all : ∀ f ∈ families, IsFamily f) (isFamily : IsFamily family) (fresh : family ∉ families) :
    SameFiles d t family := by
  intro name mem
  rcases cleaned name with same | ⟨other, listed, file, _⟩
  · exact same
  · have : other = family := by rw [← (all other listed).base file, isFamily.base mem]
    exact absurd (this ▸ listed) fresh

variable {done : List Text} {u : Directory}

theorem Cleaned.trans (cleaned : Cleaned env d t done)
    (all : ∀ f ∈ done, IsFamily f) (isFamily : IsFamily family) (fresh : family ∉ done)
    (next : Cleaned env t u [family]) : Cleaned env d u (done ++ [family]) := by
  intro name
  have same := cleaned.sameFiles all isFamily fresh
  rcases next name with unchanged | ⟨other, mem, file, outcome⟩
  · rcases cleaned name with before | ⟨other, mem, file, outcome⟩
    · exact .inl (unchanged.trans before)
    · refine .inr ⟨other, List.mem_append_left _ mem, file, outcome.imp_right fun removed => ?_⟩
      exact ⟨removed.1, unchanged.trans removed.2⟩
  · obtain rfl := List.mem_singleton.mp mem
    refine .inr ⟨other, List.mem_append_right _ mem, file, ?_⟩
    rw [← same name file, ← removable_congr isFamily same]
    exact outcome

theorem Gone.trans (cleaned : Cleaned env d t done)
    (gone : Gone env d t done) (all : ∀ f ∈ done, IsFamily f) (isFamily : IsFamily family)
    (fresh : family ∉ done) (next : Cleaned env t u [family]) (nextGone : Gone env t u [family]) :
    Gone env d u (done ++ [family]) := by
  intro other mem removable name file
  have same := cleaned.sameFiles all isFamily fresh
  rcases List.mem_append.mp mem with before | last
  · rcases next name with unchanged | ⟨touched, mem, otherFile, _⟩
    · rw [unchanged]
      exact gone other before removable name file
    · obtain rfl := List.mem_singleton.mp mem
      have : other = touched := by rw [← (all other before).base file, isFamily.base otherFile]
      exact absurd (this ▸ before) fresh
  · obtain rfl := List.mem_singleton.mp last
    exact nextGone other last ((removable_congr isFamily same).mpr removable) name file

/-- The apply carries out the verdicts on the directory it started from. -/
theorem cleanFamilies_apply (report : CleanReport) (distinct : families.Nodup)
    (all : ∀ f ∈ families, IsFamily f) : Triple (· = d) (env.cleanFamilies .apply report families)
      (fun report' t => report' = env.account .apply d report families ∧
        Cleaned env d t families ∧ Gone env d t families) (fun t => Cleaned env d t families) := by
  suffices h : ∀ done rest report, families = done ++ rest →
      Triple (fun t => Cleaned env d t done ∧ Gone env d t done) (env.cleanFamilies .apply report rest)
        (fun report' t => report' = env.account .apply d report rest ∧
          Cleaned env d t families ∧ Gone env d t families)
        (fun t => Cleaned env d t families) by
    refine (h [] families report rfl).weaken ?_ fun _ _ h => h
    rintro s rfl
    exact ⟨Cleaned.refl _, nofun⟩
  intro done rest
  induction rest generalizing done with
  | nil =>
    intro report split
    rw [List.append_nil] at split
    exact .answer fun t before => ⟨rfl, split ▸ before⟩
  | cons family rest ih =>
    intro report split
    have mem : family ∈ families := by simp [split]
    have fresh : family ∉ done := by
      rw [split, List.nodup_append] at distinct
      exact fun mem => distinct.2.2 family mem family List.mem_cons_self rfl
    have others : ∀ f ∈ done, IsFamily f := fun f mem => all f (by simp [split, mem])
    refine .of_each fun s before => ?_
    obtain ⟨cleaned, gone⟩ := before
    have same := cleaned.sameFiles others (all family mem) fresh
    refine .andThen ((cleanFamily_apply report family).weakenError fun t next name => ?_)
      fun report' => ?_
    · refine (cleaned.trans others (all family mem) fresh next name).imp_right ?_
      rintro ⟨other, listed, rest⟩
      refine ⟨other, ?_, rest⟩
      rw [split, List.append_cons]
      exact List.mem_append_left _ listed
    · refine .of_each fun t after => ?_
      obtain ⟨rfl, next, nextGone⟩ := after
      rw [verdict_congr (all family mem) same]
      refine (ih (done ++ [family]) _ (by simp [split])).weaken ?_ fun _ _ h => h
      rintro u rfl
      exact ⟨cleaned.trans others (all family mem) fresh next,
        gone.trans cleaned others (all family mem) fresh next nextGone⟩

end Surroundings

end OrbitGraph.Clean
