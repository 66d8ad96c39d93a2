import Mathlib.Data.Char
import Mathlib.Data.Finset.Sort
import OrbitGraph.History.Git
import OrbitGraph.Lib.Ancestry

/-!
How far a commit is from the target: the commits reachable from the target and not from it.

One pass along first parents finds the distances of a whole chain, for a step to a sole
parent is one commit and only a merge is walked. A revision that the pass did not enter is
walked when its distance is asked for.
-/

namespace OrbitGraph.Recommend

open Lib History

instance : LinearOrder Oid := LinearOrder.lift' Oid.hex fun _ _ => Oid.hex_injective

def unknownDistance (reason : Text) : GraphError :=
  .git "compute commit distance: distance unknown" reason

/-- The fold of `commit_distance` over the steps of a walk. -/
def countSteps (steps : List (Except Text Oid)) (count : Nat) : Except GraphError Nat :=
  steps.foldlM (fun count step => (step.map fun _ => count + 1).mapError unknownDistance) count

theorem countSteps_ok {steps : List (Except Text Oid)} {count d : Nat} (run : countSteps steps count = .ok d) :
    ∃ oids : List Oid, steps = oids.map .ok ∧ d = count + oids.length := by
  induction steps generalizing count with
  | nil => exact ⟨[], rfl, (Except.ok.inj run).symm⟩
  | cons step rest ih =>
    cases step with
    | error reason => cases run
    | ok oid =>
      have run : countSteps rest (count + 1) = .ok d := run
      obtain ⟨oids, rfl, eq⟩ := ih run
      exact ⟨oid :: oids, rfl, by rw [eq, List.length_cons]; omega⟩

theorem countSteps_map (oids : List Oid) (count : Nat) : countSteps (oids.map .ok) count = .ok (count + oids.length) := by
  induction oids generalizing count with
  | nil => rfl
  | cons oid rest ih =>
    have later : countSteps (rest.map .ok) (count + 1) = .ok (count + 1 + rest.length) := ih (count + 1)
    rw [List.length_cons, show count + (rest.length + 1) = count + 1 + rest.length by omega]
    exact later

section

variable [GitObjects]

def ancestry : Ancestry Oid where
  parents oid := (GitObjects.commit oid).parents
  rank := GitObjects.height
  descends := GitObjects.acyclic

/-- The revision walk of the Git library: what `steps push hide` yields one by one. A walk
without errors yields each commit that `push` reaches and `hide` does not, once. -/
structure Revwalk where
  steps : Oid → Oid → Except Text (List (Except Text Oid))
  complete : ∀ {push hide : Oid} {oids : List Oid}, steps push hide = .ok (oids.map .ok) →
    oids.Nodup ∧ ∀ oid, oid ∈ oids ↔ oid ∈ ancestry.ancestors push ∧ oid ∉ ancestry.ancestors hide

abbrev Distances := Oid → Option Nat

variable (walk : Revwalk) (repo : Repository)

def commitDistance (revision descendant : Oid) : Except GraphError Nat :=
  if revision = descendant then .ok 0
  else
    match walk.steps descendant revision with
    | .error reason => .error (unknownDistance reason)
    | .ok steps => countSteps steps 0

/-- The loop of `index_first_parent_distances`, at `current`, which has been loaded. -/
def indexFrom (wanted : Finset Oid) (current : Oid) (distance : Nat) (distances : Distances) :
    Except GraphError Distances :=
  let distances := Function.update distances current (some distance)
  let wanted := wanted.erase current
  if wanted = ∅ then .ok distances
  else
    match _next : firstParent current with
    | none => .ok distances
    | some parent =>
      match repo.findCommit "index first-parent distances: distance unknown" parent with
      | .error e => .error e
      | .ok _ =>
        let step := if (GitObjects.commit current).parents.length = 1 then .ok 1 else commitDistance walk parent current
        match step with
        | .error e => .error e
        | .ok step => indexFrom wanted parent (distance + step) distances
termination_by GitObjects.height current
decreasing_by exact firstParents.descends _next

def indexFirstParentDistances (target : Oid) (wanted : Finset Oid) (distances : Distances) :
    Except GraphError Distances := do
  let _ ← repo.findCommit "index first-parent distances: distance unknown" target
  indexFrom walk repo wanted target 0 distances

/-- `PathLineage::distance`, with the distances it leaves behind. -/
def lineageDistance (target : Oid) (distances : Distances) (revision : Oid) : Except GraphError (Nat × Distances) :=
  match distances revision with
  | some distance => .ok (distance, distances)
  | none =>
    match commitDistance walk revision target with
    | .error e => .error e
    | .ok distance => .ok (distance, Function.update distances revision (some distance))

variable {walk repo} {a b c current target : Oid} {distances distances' : Distances} {d : Nat}

theorem walk_length {push hide : Oid} {oids : List Oid} (whole : walk.steps push hide = .ok (oids.map .ok)) :
    oids.length = ancestry.distance hide push := by
  obtain ⟨nodup, mem⟩ := walk.complete whole
  have same : oids.toFinset = ancestry.ancestors push \ ancestry.ancestors hide := by
    ext oid
    rw [List.mem_toFinset, Finset.mem_sdiff, mem oid]
  rw [Ancestry.distance, ← same, List.toFinset_card_of_nodup nodup]

theorem commitDistance_ok (run : commitDistance walk a b = .ok d) : d = ancestry.distance a b := by
  unfold commitDistance at run
  split at run
  next same => rw [same, Ancestry.distance_self, ← Except.ok.inj run]
  next =>
    split at run
    next => cases run
    next steps whole =>
      obtain ⟨oids, rfl, eq⟩ := countSteps_ok run
      rw [eq, Nat.zero_add, walk_length whole]

theorem commitDistance_eq {oids : List Oid} (whole : walk.steps b a = .ok (oids.map .ok)) :
    commitDistance walk a b = .ok (ancestry.distance a b) := by
  unfold commitDistance
  split
  next same => rw [same, Ancestry.distance_self]
  next =>
    rw [whole, ← walk_length whole]
    exact (countSteps_map oids 0).trans (by rw [Nat.zero_add])

/-! ### The pass -/

theorem mem_ancestors_of_firstParent (chain : FirstParentAncestor a b) : a ∈ ancestry.ancestors b := by
  obtain ⟨commits, path⟩ := chain
  induction path with
  | nil => exact Ancestry.self_mem_ancestors _
  | cons first _ ih => exact Ancestry.mem_ancestors.mpr (.inr ⟨_, List.mem_of_mem_head? first, ih⟩)

theorem step_ok {parent : Oid} {step : Nat} (next : firstParent current = some parent)
    (run : (if (GitObjects.commit current).parents.length = 1 then Except.ok 1 else commitDistance walk parent current) =
      .ok step) : step = ancestry.distance parent current := by
  split at run
  next sole =>
    obtain ⟨only, eq⟩ := List.length_eq_one_iff.mp sole
    have same : only = parent := by
      have head : (GitObjects.commit current).parents.head? = some parent := next
      rw [eq] at head
      exact Option.some.inj head
    have parents : ancestry.parents current = [parent] := by rw [← same, ← eq]; rfl
    rw [Ancestry.distance_sole parents, ← Except.ok.inj run]
  next => exact commitDistance_ok run

variable {wanted : Finset Oid}

theorem indexFrom_step (run : indexFrom walk repo wanted current d distances = .ok distances') :
    (distances' = Function.update distances current (some d) ∧
        (wanted.erase current = ∅ ∨ firstParent current = none)) ∨
      ∃ parent, firstParent current = some parent ∧ wanted.erase current ≠ ∅ ∧
        indexFrom walk repo (wanted.erase current) parent (d + ancestry.distance parent current)
          (Function.update distances current (some d)) = .ok distances' := by
  rw [indexFrom] at run
  dsimp only at run
  split at run
  next none => exact .inl ⟨(Except.ok.inj run).symm, .inl none⟩
  next some =>
    split at run
    next root => exact .inl ⟨(Except.ok.inj run).symm, .inr root⟩
    next parent next =>
      split at run
      next => cases run
      next =>
        split at run
        next => cases run
        next step stepped => exact .inr ⟨parent, next, some, step_ok next stepped ▸ run⟩

/-- The pass enters a stretch of the chain from `current` on, each commit with its distance.
It ends at the root or when all that is wanted is entered, and not before. -/
theorem indexFrom_ok (chain : current ∈ ancestry.ancestors target) (far : d = ancestry.distance current target)
    (run : indexFrom walk repo wanted current d distances = .ok distances') :
    ∃ commits last, firstParents.Path current commits last ∧
      (∀ c ∈ commits ++ [last], distances' c = some (ancestry.distance c target)) ∧
      (∀ c ∉ commits ++ [last], distances' c = distances c) ∧
      (firstParent last = none ∨ ∀ w ∈ wanted, w ∈ commits ++ [last]) ∧
      (commits = [] ∨ ∃ w ∈ wanted, w ∉ commits) := by
  induction height : GitObjects.height current using Nat.strongRecOn generalizing current d wanted distances with
  | _ n ih =>
    rcases indexFrom_step run with ⟨rfl, ended⟩ | ⟨parent, next, more, run⟩
    · refine ⟨[], current, .nil current, fun c mem => ?_, fun c notMem => ?_, ?_, .inl rfl⟩
      · obtain rfl := List.mem_singleton.mp mem
        rw [Function.update_self, far]
      · exact Function.update_of_ne (fun same => notMem (List.mem_singleton.mpr same)) _ _
      · refine ended.symm.imp_right fun none w mem => ?_
        by_contra other
        have left : w ∈ wanted.erase current :=
          Finset.mem_erase.mpr ⟨fun same => other (List.mem_singleton.mpr same), mem⟩
        exact Finset.notMem_empty w (none ▸ left)
    · have isParent : parent ∈ ancestry.ancestors current :=
        Ancestry.parent_mem_ancestors (List.mem_of_mem_head? next)
      have farther : d + ancestry.distance parent current = ancestry.distance parent target := by
        rw [Ancestry.distance_add chain isParent, far]
      obtain ⟨commits, last, path, entered, others, ended, needed⟩ := ih (GitObjects.height parent)
        (height ▸ firstParents.descends next) (Ancestry.ancestors_subset chain isParent) farther run rfl
      have whole : firstParents.Path current (current :: commits) last := .cons next path
      refine ⟨current :: commits, last, whole, fun c mem => ?_, fun c notMem => ?_, ?_, .inr ?_⟩
      · rcases List.mem_cons.mp mem with rfl | later
        · by_cases again : c ∈ commits ++ [last]
          · exact entered c again
          · rw [others c again, Function.update_self, far]
        · exact entered c later
      · obtain ⟨other, notLater⟩ := not_or.mp (mt List.mem_cons.mpr notMem)
        rw [others c notLater, Function.update_of_ne other]
      · refine ended.imp_right fun all w mem => ?_
        by_cases same : w = current
        · exact same ▸ List.mem_cons_self
        · exact List.mem_cons_of_mem _ (all w (Finset.mem_erase.mpr ⟨same, mem⟩))
      · have later : ∃ w ∈ wanted.erase current, w ∉ commits := by
          rcases needed with rfl | found
          · exact (Finset.nonempty_iff_ne_empty.mpr more).imp fun w mem => ⟨mem, List.not_mem_nil⟩
          · exact found
        obtain ⟨w, mem, notLater⟩ := later
        obtain ⟨other, mem⟩ := Finset.mem_erase.mp mem
        exact ⟨w, mem, fun here => (List.mem_cons.mp here).elim other notLater⟩

/-- The distances known are those of the graph. -/
def Known (target : Oid) (distances : Distances) : Prop :=
  ∀ c d, distances c = some d → d = ancestry.distance c target

theorem indexFirstParentDistances_known
    (run : indexFirstParentDistances walk repo target wanted (fun _ => none) = .ok distances) :
    Known target distances := by
  obtain ⟨_, _, run⟩ := bind_eq_ok.mp run
  obtain ⟨commits, last, _, entered, others, _⟩ :=
    indexFrom_ok (Ancestry.self_mem_ancestors target) (Ancestry.distance_self target).symm run
  intro c d found
  by_cases mem : c ∈ commits ++ [last]
  · exact Option.mem_unique found (entered c mem)
  · cases (others c mem).symm.trans found

theorem indexFrom_end (ends : wanted.erase current = ∅ ∨ firstParent current = none) :
    indexFrom walk repo wanted current d distances = .ok (Function.update distances current (some d)) := by
  rw [indexFrom]
  dsimp only
  split
  next => rfl
  next some =>
    split
    next => rfl
    next parent next =>
      rcases ends with none | root
      · exact absurd none some
      · cases root.symm.trans next

theorem indexFrom_next {parent : Oid} {step : Nat} (more : wanted.erase current ≠ ∅)
    (next : firstParent current = some parent) (readable : repo.commitError parent = none)
    (stepped : (if (GitObjects.commit current).parents.length = 1 then Except.ok 1
      else commitDistance walk parent current) = .ok step) :
    indexFrom walk repo wanted current d distances =
      indexFrom walk repo (wanted.erase current) parent (d + step) (Function.update distances current (some d)) := by
  have loaded : ∀ operation, repo.findCommit operation parent = .ok (GitObjects.commit parent) := by
    intro operation
    rw [Repository.findCommit, readable]
  rw [indexFrom]
  dsimp only
  rw [if_neg more]
  split
  next root => cases root.symm.trans next
  next other next' =>
    obtain rfl := Option.mem_unique next next'
    rw [loaded, stepped]

/-- The pass succeeds where Git reads every commit and walks without errors. -/
theorem indexFrom_total (readable : ∀ oid, repo.commitError oid = none)
    (walks : ∀ push hide, ∃ oids : List Oid, walk.steps push hide = .ok (oids.map .ok)) (wanted : Finset Oid)
    (current : Oid) (d : Nat) (distances : Distances) :
    ∃ distances', indexFrom walk repo wanted current d distances = .ok distances' := by
  induction height : GitObjects.height current using Nat.strongRecOn generalizing current d wanted distances with
  | _ n ih =>
    by_cases none : wanted.erase current = ∅
    · exact ⟨_, indexFrom_end (.inl none)⟩
    · cases next : firstParent current with
      | none => exact ⟨_, indexFrom_end (.inr next)⟩
      | some parent =>
        have stepped : ∃ step, (if (GitObjects.commit current).parents.length = 1 then Except.ok 1
            else commitDistance walk parent current) = .ok step := by
          split
          · exact ⟨1, rfl⟩
          · obtain ⟨oids, whole⟩ := walks current parent
            exact ⟨_, commitDistance_eq whole⟩
        obtain ⟨step, stepped⟩ := stepped
        rw [indexFrom_next none next (readable parent) stepped]
        exact ih (GitObjects.height parent) (height ▸ firstParents.descends next) _ _ _ _ rfl

theorem indexFirstParentDistances_total (readable : ∀ oid, repo.commitError oid = none)
    (walks : ∀ push hide, ∃ oids : List Oid, walk.steps push hide = .ok (oids.map .ok)) (wanted : Finset Oid) :
    ∃ distances', indexFirstParentDistances walk repo target wanted distances = .ok distances' := by
  obtain ⟨distances', run⟩ := indexFrom_total readable walks wanted target 0 distances
  refine ⟨distances', ?_⟩
  rw [indexFirstParentDistances, Repository.findCommit, readable target]
  exact run

/-! ### Asking for distances -/

theorem lineageDistance_ok (known : Known target distances)
    (run : lineageDistance walk target distances c = .ok (d, distances')) :
    d = ancestry.distance c target ∧ Known target distances' := by
  unfold lineageDistance at run
  split at run
  next distance entered =>
    obtain ⟨rfl, rfl⟩ := Prod.mk.inj (Except.ok.inj run)
    exact ⟨known c distance entered, known⟩
  next =>
    split at run
    next => cases run
    next distance walked =>
      obtain ⟨rfl, rfl⟩ := Prod.mk.inj (Except.ok.inj run)
      have far := commitDistance_ok walked
      refine ⟨far, fun a e entered => ?_⟩
      by_cases same : a = c
      · rw [same, Function.update_self] at entered
        rw [same, ← far, Option.some.inj entered]
      · rw [Function.update_of_ne same] at entered
        exact known a e entered

theorem lineageDistance_eq (known : Known target distances) (walked : commitDistance walk c target = .ok d) :
    ∃ distances', lineageDistance walk target distances c = .ok (d, distances') := by
  unfold lineageDistance
  split
  next distance entered =>
    refine ⟨distances, ?_⟩
    rw [known c distance entered, commitDistance_ok walked]
  next => exact ⟨_, by rw [walked]⟩

def afterAsking (walk : Revwalk) (target : Oid) (asked : List Oid) (distances : Distances) : Except GraphError Distances :=
  asked.foldlM (fun known revision => (lineageDistance walk target known revision).map Prod.snd) distances

theorem afterAsking_known {asked : List Oid} (known : Known target distances)
    (run : afterAsking walk target asked distances = .ok distances') : Known target distances' := by
  induction asked generalizing distances with
  | nil => exact Except.ok.inj run ▸ known
  | cons revision rest ih =>
    cases answered : lineageDistance walk target distances revision with
    | error e =>
      rw [afterAsking, List.foldlM_cons, answered] at run
      cases run
    | ok answer =>
      rw [afterAsking, List.foldlM_cons, answered] at run
      exact ih (lineageDistance_ok (d := answer.1) known answered).2 run

/-- The pass enters first-parent ancestors of the target only, each with the value that
`commit_distance` computes. A wanted revision is left out exactly if it is none of them, and
another commit of the chain only when all that is wanted is entered. Whatever was asked for
before, `distance` gives every revision the value that `commit_distance` computes. -/
theorem indexFirstParentDistances_exact {wanted : Finset Oid}
    (run : indexFirstParentDistances walk repo target wanted (fun _ => none) = .ok distances) :
    (∀ c d, distances c = some d → FirstParentAncestor c target ∧ d = ancestry.distance c target ∧
      ∀ d', commitDistance walk c target = .ok d' → d' = d) ∧
    (∀ w ∈ wanted, distances w = none ↔ ¬ FirstParentAncestor w target) ∧
    (∀ c, FirstParentAncestor c target → distances c = none → ∀ w ∈ wanted, distances w ≠ none) ∧
    ∀ asked known, afterAsking walk target asked distances = .ok known →
      (∀ c d, commitDistance walk c target = .ok d → ∃ known', lineageDistance walk target known c = .ok (d, known')) ∧
      ∀ c d known', lineageDistance walk target known c = .ok (d, known') → d = ancestry.distance c target := by
  have known := indexFirstParentDistances_known run
  obtain ⟨_, _, run⟩ := bind_eq_ok.mp run
  obtain ⟨commits, last, path, entered, others, ended, _⟩ :=
    indexFrom_ok (Ancestry.self_mem_ancestors target) (Ancestry.distance_self target).symm run
  have mem_iff : ∀ c, c ∈ commits ++ [last] ↔ distances c ≠ none := by
    intro c
    constructor
    · intro mem
      rw [entered c mem]
      exact Option.some_ne_none _
    · intro found
      by_contra notMem
      exact found (others c notMem)
  have onChain : ∀ c ∈ commits ++ [last], FirstParentAncestor c target := fun c mem => path.reaches mem
  have all : ∀ c, FirstParentAncestor c target → distances c = none → ∀ w ∈ wanted, distances w ≠ none := by
    intro c chain missing
    have notMem : c ∉ commits ++ [last] := fun mem => (mem_iff c).mp mem missing
    rcases ended with root | all
    · obtain ⟨_, other⟩ := chain
      exact absurd (path.mem_of_last root other) notMem
    · exact fun w mem => (mem_iff w).mp (all w mem)
  refine ⟨fun c d found => ?_, fun w mem => ⟨fun missing chain => all w chain missing w mem missing, fun off => ?_⟩, all,
    fun asked m run => ?_⟩
  · have mem := (mem_iff c).mpr (by rw [found]; exact Option.some_ne_none d)
    refine ⟨onChain c mem, known c d found, fun d' walked => ?_⟩
    rw [commitDistance_ok walked, known c d found]
  · by_contra found
    exact off (onChain w ((mem_iff w).mpr found))
  · have known := afterAsking_known known run
    exact ⟨fun c d walked => lineageDistance_eq known walked, fun c d m' run => (lineageDistance_ok known run).1⟩

end

namespace Sample

theorem zero_isHex : '0' ∈ hexDigits := by decide
theorem one_isHex : '1' ∈ hexDigits := by decide
theorem two_isHex : '2' ∈ hexDigits := by decide
theorem three_isHex : '3' ∈ hexDigits := by decide

def root : Oid := .ofDigit '0' zero_isHex
def mainline : Oid := .ofDigit '1' one_isHex
def side : Oid := .ofDigit '2' two_isHex
def merged : Oid := .ofDigit '3' three_isHex

def parentsOf (oid : Oid) : List Oid :=
  if oid = merged then [mainline, side] else if oid = mainline ∨ oid = side then [root] else []

def heightOf (oid : Oid) : Nat := if oid = merged then 2 else if oid = mainline ∨ oid = side then 1 else 0

theorem heightOf_parent (oid : Oid) : ∀ parent ∈ parentsOf oid, heightOf parent < heightOf oid := by
  unfold parentsOf
  split_ifs with top middle
  · subst top
    decide
  · rcases middle with rfl | rfl <;> decide
  · exact nofun

@[reducible] def mergeObjects : GitObjects where
  commit oid := { parents := parentsOf oid, message := none, time := 0 }
  treeDiff _ _ := []
  height := heightOf
  acyclic := heightOf_parent

local instance mergeInstance : GitObjects := mergeObjects

def mergeRepository : Repository where
  originUrl := none
  workdir := none
  commitError _ := none
  references _ := .error []
  descendantOf _ _ := .ok false
  diffError _ _ := none

def mergeWalk : Revwalk where
  steps push hide := .ok ((ancestry.ancestors push \ ancestry.ancestors hide).sort.map .ok)
  complete := by
    intro push hide oids same
    have eq : (ancestry.ancestors push \ ancestry.ancestors hide).sort = oids :=
      List.map_injective_iff.mpr (fun _ _ => Except.ok.inj) (Except.ok.inj same)
    subst eq
    exact ⟨Finset.sort_nodup _ _, fun oid => by rw [Finset.mem_sort, Finset.mem_sdiff]⟩

theorem mergeWalk_commitDistance (a b : Oid) : commitDistance mergeWalk a b = .ok (ancestry.distance a b) := by
  have whole : mergeWalk.steps b a = .ok ((ancestry.ancestors b \ ancestry.ancestors a).sort.map .ok) := rfl
  exact commitDistance_eq whole

theorem root_firstParent : FirstParentAncestor root merged :=
  ⟨[merged, mainline], .cons (show firstParent merged = some mainline by decide)
    (.cons (show firstParent mainline = some root by decide) (.nil root))⟩

theorem side_not_firstParent : ¬ FirstParentAncestor side merged := by
  rintro ⟨commits, path⟩
  have whole : firstParents.Path merged [merged, mainline] root :=
    .cons (show firstParent merged = some mainline by decide)
      (.cons (show firstParent mainline = some root by decide) (.nil root))
  have mem := whole.mem_of_last (show firstParent root = none by decide) path
  exact absurd mem (by decide)

def entered : Distances := Function.update (Function.update (fun _ => none) merged (some 0)) mainline (some 2)

theorem merge_step : (if (GitObjects.commit merged).parents.length = 1 then Except.ok 1
    else commitDistance mergeWalk mainline merged) = .ok 2 := by
  have far : ancestry.distance mainline merged = 2 := by decide +kernel
  have merge : (GitObjects.commit merged).parents.length ≠ 1 := by decide
  rw [if_neg merge, mergeWalk_commitDistance, far]

theorem index_mainline :
    indexFirstParentDistances mergeWalk mergeRepository merged {mainline} (fun _ => none) = .ok entered := by
  have next : firstParent merged = some mainline := by decide
  change indexFrom _ _ _ _ _ _ = _
  rw [indexFrom_next (by decide) next rfl merge_step, indexFrom_end (.inl (by decide))]
  rfl

theorem indexFirstParentDistances_exact_mainline : entered mainline = none ↔ ¬ FirstParentAncestor mainline merged :=
  (indexFirstParentDistances_exact index_mainline).2.1 mainline (Finset.mem_singleton_self mainline)

theorem missing_from_pass :
    ∃ distances, indexFirstParentDistances mergeWalk mergeRepository merged {mainline} (fun _ => none) = .ok distances ∧
      FirstParentAncestor root merged ∧ distances root = none ∧ commitDistance mergeWalk root merged = .ok 3 ∧
      ¬ FirstParentAncestor side merged ∧ distances side = none ∧ commitDistance mergeWalk side merged = .ok 2 := by
  refine ⟨entered, index_mainline, root_firstParent, by decide, ?_, side_not_firstParent, by decide, ?_⟩
  · rw [mergeWalk_commitDistance]
    decide +kernel
  · rw [mergeWalk_commitDistance]
    decide +kernel

end Sample

end OrbitGraph.Recommend
