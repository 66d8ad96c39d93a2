import OrbitGraph.Lib.SortedMap
import OrbitGraph.Recommend.Distances

/-!
Where a path that a delivery touched is in the target.

Each delivery recorded what it renamed and deleted. The source merges the steps of the
visible deliveries per landed revision, puts the revisions in the order of their distances,
and follows a path through those that are nearer to the target than its delivery. Whatever
it asked for before, that is what the later revisions do to the path, oldest first.
-/

namespace OrbitGraph.Recommend

open Lib History

/-! ### The data -/

/-- A delivery on the target's ancestry that passed the request's cutoff rule. -/
structure VisibleDelivery where
  deliveryId : Text
  beforeRevision : Oid
  afterRevision : Oid

/-- A step that a delivery recorded: a rename, or without a new path a deletion. -/
structure PathLineageStep where
  deliveryId : Text
  afterRevision : Text
  oldPath : Text
  newPath : Option Text

abbrev Renames := Text → Option (Option Text)

/-- Renames detected by the single memoized gap diff. -/
structure GapRenames where
  renames : Text → Option Text
  exactOnly : Bool
  added : Nat
  deleted : Nat

structure PathLineage where
  target : Oid
  distances : Distances
  /-- Steps per landed revision with its distance, oldest first. -/
  steps : List (Nat × Renames)
  /-- Newest visible delivery revision and its distance from the target. -/
  newest : Option (Oid × Nat)
  unindexedRanges : Nat
  gap : Option GapRenames
  unresolved : Nat

def enterId (ids : Text → Option Oid) (delivery : VisibleDelivery) : Text → Option Oid :=
  Function.update ids delivery.deliveryId (some delivery.afterRevision)

/-- The landed revisions of the visible deliveries by id; of two for one id, the later. -/
def visibleIds (visible : List VisibleDelivery) : Text → Option Oid := visible.foldl enterId fun _ => none

def orInsert (renames : Renames) (step : PathLineageStep) : Renames :=
  if (renames step.oldPath).isSome then renames else Function.update renames step.oldPath (some step.newPath)

/-- Larger distances come first. -/
def Farther (a b : Nat × Renames) : Prop := b.1 ≤ a.1

instance : DecidableRel Farther := fun a b => inferInstanceAs (Decidable (b.1 ≤ a.1))

/-- The loop of `resolve` over the steps. -/
def followSteps (origin : Nat) : List (Nat × Renames) → Text → Option Text
  | [], current => some current
  | (distance, renames) :: rest, current =>
    if origin ≤ distance then followSteps origin rest current
    else
      match renames current with
      | some (some next) => followSteps origin rest next
      | some none => none
      | none => followSteps origin rest current

/-! ### What the deliveries did to a path -/

def recordedAt (visible : List VisibleDelivery) (step : PathLineageStep) : Option Oid :=
  (visibleIds visible step.deliveryId).filter fun after => Oid.fromStr step.afterRevision = some after

def stepsAt (visible : List VisibleDelivery) (steps : List PathLineageStep) (revision : Oid) : Renames := fun path =>
  (steps.find? fun step => recordedAt visible step = some revision ∧ step.oldPath = path).map PathLineageStep.newPath

/-- Follow a path through revisions until one deletes it. -/
def follow (stepsOf : Oid → Renames) : List Oid → Text → Option Text
  | [], current => some current
  | revision :: rest, current =>
    match stepsOf revision current with
    | some (some next) => follow stepsOf rest next
    | some none => none
    | none => follow stepsOf rest current

theorem followSteps_map (origin : Nat) (f : Oid → Nat) (g : Oid → Renames) (revisions : List Oid) (current : Text) :
    followSteps origin (revisions.map fun r => (f r, g r)) current =
      follow g (revisions.filter fun r => f r < origin) current := by
  induction revisions generalizing current with
  | nil => rfl
  | cons r rest ih =>
    rw [List.map_cons, followSteps, List.filter_cons]
    split_ifs with before after after
    · exact absurd (of_decide_eq_true after) (not_lt.mpr before)
    · exact ih current
    · rw [follow]
      cases g r current with
      | none => exact ih current
      | some step =>
        cases step with
        | none => rfl
        | some next => exact ih next
    · exact absurd (decide_eq_true (not_le.mp before)) after

theorem follow_append (f : Oid → Renames) (earlier rest : List Oid) (path : Text) :
    follow f (earlier ++ rest) path = (follow f earlier path).bind (follow f rest) := by
  induction earlier generalizing path with
  | nil => rfl
  | cons r earlier ih =>
    rw [List.cons_append, follow, follow]
    cases f r path with
    | none => exact ih path
    | some step =>
      cases step with
      | none => rfl
      | some next => exact ih next

theorem exists_visible {visible : List VisibleDelivery} {step : PathLineageStep} {r : Oid}
    (counted : recordedAt visible step = some r) : ∃ delivery ∈ visible, delivery.afterRevision = r := by
  have entered : ∀ (rest : List VisibleDelivery) (ids : Text → Option Oid),
      rest.foldl enterId ids step.deliveryId = some r →
      ids step.deliveryId = some r ∨ ∃ delivery ∈ rest, delivery.afterRevision = r := by
    intro rest
    induction rest with
    | nil => exact fun ids found => .inl found
    | cons delivery rest ih =>
      intro ids found
      rcases ih _ found with before | ⟨other, mem, landed⟩
      · rw [enterId] at before
        by_cases same : step.deliveryId = delivery.deliveryId
        · rw [same, Function.update_self] at before
          exact .inr ⟨delivery, List.mem_cons_self, Option.some.inj before⟩
        · rw [Function.update_of_ne same] at before
          exact .inl before
      · exact .inr ⟨other, List.mem_cons_of_mem _ mem, landed⟩
  obtain ⟨shown, _⟩ := Option.filter_eq_some_iff.mp counted
  exact (entered visible _ shown).resolve_left (by simp)

/-! ### Merging the steps -/

theorem stepsAt_append_apply (visible : List VisibleDelivery) (processed : List PathLineageStep) (step : PathLineageStep)
    (r : Oid) (path : Text) :
    stepsAt visible (processed ++ [step]) r path = (stepsAt visible processed r path).or
      (if recordedAt visible step = some r ∧ step.oldPath = path then some step.newPath else none) := by
  rw [stepsAt, List.find?_append, Option.map_or, stepsAt]
  congr 1
  split_ifs with here
  · simp [here]
  · simp only [List.find?_singleton, decide_eq_true_eq, if_neg here, Option.map_none]

/-- A further step counts for its path unless an earlier one does. -/
theorem stepsAt_append (visible : List VisibleDelivery) (processed : List PathLineageStep) (step : PathLineageStep) (r : Oid) :
    stepsAt visible (processed ++ [step]) r =
      if recordedAt visible step = some r then orInsert (stepsAt visible processed r) step
      else stepsAt visible processed r := by
  funext path
  rw [stepsAt_append_apply]
  by_cases here : recordedAt visible step = some r
  · rw [if_pos here, orInsert]
    by_cases same : step.oldPath = path
    · rw [if_pos ⟨here, same⟩, same]
      cases entered : stepsAt visible processed r path with
      | none => rw [if_neg (by simp), Function.update_self, Option.none_or]
      | some => rw [if_pos (by simp), entered, Option.some_or]
    · rw [if_neg fun both => same both.2, Option.or_none]
      split_ifs
      · rfl
      · rw [Function.update_of_ne (Ne.symm same)]
  · rw [if_neg here, if_neg fun both => here both.1, Option.or_none]

structure Merged (visible : List VisibleDelivery) (processed : List PathLineageStep)
    (byRevision : SortedMap Oid Renames) : Prop where
  renames : ∀ r, (byRevision.get? r).getD (fun _ => none) = stepsAt visible processed r
  recorded : ∀ r, (byRevision.get? r).isSome ↔ ∃ step ∈ processed, recordedAt visible step = some r

theorem merged_empty : Merged visible [] SortedMap.empty where
  renames _ := rfl
  recorded r := by simp

section

variable [GitObjects]

/-- What the lineage asks of the Git library. -/
structure LineageGit where
  repo : Repository
  walk : Revwalk
  /-- What `Oid::from_str` says of a text that is none. -/
  oidError : Text → Text
  /-- The renames that `gap_renames` finds from one commit to another. -/
  gapRenames : Oid → Oid → Except GraphError GapRenames

variable (git : LineageGit)

/-! ### Building -/

/-- One round of the loop over the recorded steps. -/
def enterStep (visible : List VisibleDelivery) (byRevision : SortedMap Oid Renames) (step : PathLineageStep) :
    Except GraphError (SortedMap Oid Renames) :=
  match visibleIds visible step.deliveryId with
  | none => .ok byRevision
  | some after =>
    match Oid.fromStr step.afterRevision with
    | none => .error (.git "parse lineage delivery revision" (git.oidError step.afterRevision))
    | some recorded =>
      if recorded ≠ after then .ok byRevision
      else .ok (byRevision.insert after (orInsert ((byRevision.get? after).getD fun _ => none) step))

/-- Each revision's steps with its distance, in the order of the revisions. -/
def withDistances (target : Oid) : List (Oid × Renames) → Distances → Except GraphError (List (Nat × Renames) × Distances)
  | [], distances => .ok ([], distances)
  | (revision, renames) :: rest, distances =>
    match lineageDistance git.walk target distances revision with
    | .error e => .error e
    | .ok (distance, distances) =>
      match withDistances target rest distances with
      | .error e => .error e
      | .ok (ordered, distances) => .ok ((distance, renames) :: ordered, distances)

def newestOf (target : Oid) : List VisibleDelivery → Option (Oid × Nat) → Distances →
    Except GraphError (Option (Oid × Nat) × Distances)
  | [], newest, distances => .ok (newest, distances)
  | delivery :: rest, newest, distances =>
    match lineageDistance git.walk target distances delivery.afterRevision with
    | .error e => .error e
    | .ok (distance, distances) =>
      newestOf target rest
        (if newest.all fun known => distance < known.2 then some (delivery.afterRevision, distance) else newest)
        distances

def landed (visible : List VisibleDelivery) : Finset Oid := (visible.map VisibleDelivery.afterRevision).toFinset

def unlandedBases (visible : List VisibleDelivery) : Finset Oid :=
  (visible.map VisibleDelivery.beforeRevision).toFinset.filter (· ∉ landed visible)

def PathLineage.new (target : Oid) (visible : List VisibleDelivery) (steps : List PathLineageStep) :
    Except GraphError PathLineage := do
  let distances ← indexFirstParentDistances git.walk git.repo target (landed visible) fun _ => none
  let byRevision ← steps.foldlM (enterStep git visible) SortedMap.empty
  let (ordered, distances) ← withDistances git target byRevision.entries distances
  let (newest, distances) ← newestOf git target visible none distances
  return {
    target
    distances
    steps := ordered.insertionSort Farther
    newest
    unindexedRanges := (unlandedBases visible).card - 1
    gap := none
    unresolved := 0 }

/-- The gap diff, when there is a gap, computed at most once. -/
def PathLineage.withGap (lineage : PathLineage) : Except GraphError PathLineage :=
  match lineage.newest with
  | none => .ok lineage
  | some (newest, distance) =>
    if 0 < distance ∧ lineage.gap.isNone then
      match git.gapRenames newest lineage.target with
      | .error e => .error e
      | .ok gap => .ok { lineage with gap := some gap }
    else .ok lineage

def PathLineage.gapTarget (lineage : PathLineage) (files : Finset Text) (current : Text) : Option Text :=
  match lineage.newest with
  | none => none
  | some (_, distance) =>
    if 0 < distance then
      ((lineage.gap.bind fun gap => gap.renames current).filter fun next => next ∈ files)
    else none

/-- `PathLineage::resolve`, for the files of the target tree. -/
def PathLineage.resolve (lineage : PathLineage) (files : Finset Text) (afterRevision : Oid) (path : Text) :
    Except GraphError (Option Text × PathLineage) := do
  let (origin, distances) ← lineageDistance git.walk lineage.target lineage.distances afterRevision
  let lineage := { lineage with distances }
  match followSteps origin lineage.steps path with
  | none => return (none, lineage)
  | some current =>
    if current ∈ files then return (some current, lineage)
    else
      let lineage ← lineage.withGap git
      match lineage.gapTarget files current with
      | some next => return (some next, lineage)
      | none => return (none, { lineage with unresolved := lineage.unresolved + 1 })

/-! ### Later revisions -/

/-- The revisions that record something and are nearer to the target, the farthest first. -/
structure Later (visible : List VisibleDelivery) (steps : List PathLineageStep) (target revision : Oid)
    (later : List Oid) : Prop where
  mem_iff : ∀ r, r ∈ later ↔ (∃ step ∈ steps, recordedAt visible step = some r) ∧
    ancestry.distance r target < ancestry.distance revision target
  nodup : later.Nodup
  oldestFirst : later.Pairwise fun r s => ancestry.distance s target ≤ ancestry.distance r target

/-- A visible delivery at the least distance. -/
structure Nearest (target : Oid) (visible : List VisibleDelivery) (newest : Option (Oid × Nat)) : Prop where
  none_iff : newest = none ↔ visible = []
  landed : ∀ r d, newest = some (r, d) → (∃ delivery ∈ visible, delivery.afterRevision = r) ∧
    d = ancestry.distance r target
  least : ∀ r d, newest = some (r, d) → ∀ delivery ∈ visible, d ≤ ancestry.distance delivery.afterRevision target

/-- The live path that the gap after the newest delivery renamed a path to. -/
def throughGap (target : Oid) (newest : Option (Oid × Nat)) (files : Finset Text) (current : Text) :
    Except GraphError (Option Text) :=
  match newest with
  | none => .ok none
  | some (revision, distance) =>
    if 0 < distance then
      (git.gapRenames revision target).map fun gap => (gap.renames current).filter fun next => next ∈ files
    else .ok none

/-- The live path for a followed one: the path itself, or else what the gap renamed it to. -/
def liveDescendant (target : Oid) (newest : Option (Oid × Nat)) (files : Finset Text) :
    Option Text → Except GraphError (Option Text)
  | none => .ok none
  | some current => if current ∈ files then .ok (some current) else throughGap git target newest files current

variable {git} {target revision : Oid} {visible : List VisibleDelivery} {steps processed : List PathLineageStep}
  {step : PathLineageStep} {byRevision byRevision' : SortedMap Oid Renames} {distances distances' : Distances}
  {lineage lineage' : PathLineage}

theorem enterStep_ok (run : enterStep git visible byRevision step = .ok byRevision') (r : Oid) :
    byRevision'.get? r =
      if recordedAt visible step = some r then some (orInsert ((byRevision.get? r).getD fun _ => none) step)
      else byRevision.get? r := by
  unfold enterStep at run
  unfold recordedAt
  split at run
  next hidden =>
    rw [hidden, Option.filter_none, if_neg (Option.some_ne_none r).symm, Except.ok.inj run]
  next after shown =>
    rw [shown]
    split at run
    next => cases run
    next recorded parsed =>
      rw [parsed]
      split at run
      next differs =>
        have none : (some after).filter (fun after => some recorded = some after) = none := by simp [differs]
        rw [none, if_neg (Option.some_ne_none r).symm, Except.ok.inj run]
      next same =>
        obtain rfl := not_not.mp same
        rw [Option.filter_some, if_pos (decide_eq_true rfl), ← Except.ok.inj run, SortedMap.get?_insert]
        by_cases eq : r = recorded
        · subst eq
          rw [if_pos rfl, if_pos rfl]
        · rw [if_neg eq, if_neg fun other => eq (Option.some.inj other).symm]

theorem Merged.enterStep (merged : Merged visible processed byRevision)
    (run : enterStep git visible byRevision step = .ok byRevision') :
    Merged visible (processed ++ [step]) byRevision' := by
  constructor
  · intro r
    rw [stepsAt_append, enterStep_ok run r]
    split_ifs
    · rw [Option.getD_some, merged.renames r]
    · exact merged.renames r
  · intro r
    have last : (∃ other ∈ processed ++ [step], recordedAt visible other = some r) ↔
        (byRevision.get? r).isSome ∨ recordedAt visible step = some r := by
      rw [merged.recorded r]
      simp [or_and_right, exists_or]
    rw [enterStep_ok run r, last]
    split_ifs with here
    · simp [here]
    · simp [here]

theorem merged_foldlM {rest : List PathLineageStep} (merged : Merged visible processed byRevision)
    (run : rest.foldlM (enterStep git visible) byRevision = .ok byRevision') :
    Merged visible (processed ++ rest) byRevision' := by
  induction rest generalizing processed byRevision with
  | nil =>
    rw [List.append_nil]
    exact Except.ok.inj run ▸ merged
  | cons step rest ih =>
    rw [List.foldlM_cons] at run
    obtain ⟨next, entered, run⟩ := bind_eq_ok.mp run
    have later := ih (merged.enterStep entered) run
    rwa [List.append_assoc] at later

/-! ### The order of the revisions -/

theorem withDistances_ok {entries : List (Oid × Renames)} {ordered : List (Nat × Renames)}
    (known : Known target distances) (run : withDistances git target entries distances = .ok (ordered, distances')) :
    ordered = entries.map (fun e => (ancestry.distance e.1 target, e.2)) ∧ Known target distances' := by
  induction entries generalizing distances ordered with
  | nil =>
    obtain ⟨rfl, rfl⟩ := Prod.mk.inj (Except.ok.inj run)
    exact ⟨rfl, known⟩
  | cons entry rest ih =>
    rw [withDistances] at run
    split at run
    next => cases run
    next distance asked answered =>
      obtain ⟨far, known⟩ := lineageDistance_ok known answered
      split at run
      next => cases run
      next later after more =>
        obtain ⟨rfl, rfl⟩ := Prod.mk.inj (Except.ok.inj run)
        obtain ⟨rfl, known⟩ := ih known more
        exact ⟨by rw [List.map_cons, far], known⟩

theorem newestOf_ok {seen rest : List VisibleDelivery} {newest newest' : Option (Oid × Nat)}
    (known : Known target distances) (nearest : Nearest target seen newest)
    (run : newestOf git target rest newest distances = .ok (newest', distances')) :
    Nearest target (seen ++ rest) newest' ∧ Known target distances' := by
  induction rest generalizing seen newest distances with
  | nil =>
    obtain ⟨rfl, rfl⟩ := Prod.mk.inj (Except.ok.inj run)
    exact ⟨by rwa [List.append_nil], known⟩
  | cons delivery rest ih =>
    rw [newestOf] at run
    split at run
    next => cases run
    next distance asked answered =>
      obtain ⟨rfl, known⟩ := lineageDistance_ok known answered
      have next : Nearest target (seen ++ [delivery]) (if newest.all fun known =>
          ancestry.distance delivery.afterRevision target < known.2
        then some (delivery.afterRevision, ancestry.distance delivery.afterRevision target) else newest) := by
        split_ifs with nearer
        · refine ⟨by simp, fun r d eq => ?_, fun r d eq other mem => ?_⟩
          · obtain ⟨rfl, rfl⟩ := Prod.mk.inj (Option.some.inj eq)
            exact ⟨⟨delivery, by simp, rfl⟩, rfl⟩
          · obtain ⟨rfl, rfl⟩ := Prod.mk.inj (Option.some.inj eq)
            rcases List.mem_append.mp mem with before | here
            · cases newest with
              | none => exact absurd (nearest.none_iff.mp rfl ▸ before) List.not_mem_nil
              | some found =>
                have closer : ancestry.distance delivery.afterRevision target < found.2 := by simpa using nearer
                have bound := nearest.least found.1 found.2 rfl other before
                omega
            · rw [List.mem_singleton.mp here]
        · cases newest with
          | none => simp at nearer
          | some found =>
            have closer : found.2 ≤ ancestry.distance delivery.afterRevision target := by simpa using nearer
            refine ⟨by simp, fun r d eq => ?_, fun r d eq other mem => ?_⟩
            · obtain ⟨⟨other, mem, landed⟩, far⟩ := nearest.landed r d eq
              exact ⟨⟨other, List.mem_append_left _ mem, landed⟩, far⟩
            · rcases List.mem_append.mp mem with before | here
              · exact nearest.least r d eq other before
              · obtain rfl := Option.some.inj eq
                exact List.mem_singleton.mp here ▸ closer
      have result := ih known next run
      rwa [List.append_assoc] at result

/-- The revisions in the order of the source. -/
def byDistance (target : Oid) (revisions : List Oid) : List Oid :=
  revisions.insertionSort fun r s => ancestry.distance s target ≤ ancestry.distance r target

/-! ### The lineage that is built -/

/-- A lineage as it is built and as later calls leave it. -/
structure Built (git : LineageGit) (target : Oid) (visible : List VisibleDelivery) (steps : List PathLineageStep)
    (lineage : PathLineage) : Prop where
  target_eq : lineage.target = target
  known : Known target lineage.distances
  steps_eq : ∃ revisions : List Oid, (∀ r, r ∈ revisions ↔ ∃ step ∈ steps, recordedAt visible step = some r) ∧
    revisions.Nodup ∧ revisions.Pairwise (fun r s => ancestry.distance s target ≤ ancestry.distance r target) ∧
    lineage.steps = revisions.map fun r => (ancestry.distance r target, stepsAt visible steps r)
  nearest : Nearest target visible lineage.newest
  gap_ok : ∀ gap, lineage.gap = some gap →
    ∃ newest distance, lineage.newest = some (newest, distance) ∧ git.gapRenames newest target = .ok gap

theorem insertionSort_entries (merged : Merged visible steps byRevision) :
    (byRevision.entries.map fun e => (ancestry.distance e.1 target, e.2)).insertionSort Farther =
      (byDistance target (byRevision.entries.map Prod.fst)).map fun r =>
        (ancestry.distance r target, stepsAt visible steps r) := by
  have each : ∀ e ∈ byRevision.entries, (ancestry.distance e.1 target, e.2) =
      (ancestry.distance e.1 target, stepsAt visible steps e.1) := by
    intro e mem
    rw [← merged.renames e.1, SortedMap.get?_eq_some.mpr mem, Option.getD_some]
  have moved := List.map_insertionSort (fun r s : Oid => ancestry.distance s target ≤ ancestry.distance r target) Farther
    (fun r => (ancestry.distance r target, stepsAt visible steps r)) (byRevision.entries.map Prod.fst)
    fun _ _ _ _ => Iff.rfl
  rw [byDistance, moved, List.map_map]
  exact congrArg _ (List.map_congr_left each)

theorem new_built (run : PathLineage.new git target visible steps = .ok lineage) :
    Built git target visible steps lineage ∧ lineage.gap = none := by
  obtain ⟨distances, indexed, run⟩ := bind_eq_ok.mp run
  obtain ⟨byRevision, entered, run⟩ := bind_eq_ok.mp run
  obtain ⟨⟨ordered, asked⟩, measured, run⟩ := bind_eq_ok.mp run
  obtain ⟨⟨newest, known⟩, chosen, run⟩ := bind_eq_ok.mp run
  obtain rfl := Except.ok.inj run
  have merged : Merged visible steps byRevision := merged_foldlM merged_empty entered
  obtain ⟨rfl, knownAsked⟩ := withDistances_ok (indexFirstParentDistances_known indexed) measured
  have unseen : Nearest target [] none := ⟨by simp, by simp, by simp⟩
  obtain ⟨nearest, knownNewest⟩ := newestOf_ok knownAsked unseen chosen
  refine ⟨⟨rfl, knownNewest, ⟨byDistance target (byRevision.entries.map Prod.fst), fun r => ?_, ?_, ?_, ?_⟩,
    nearest, by simp⟩, rfl⟩
  · rw [byDistance, List.mem_insertionSort, ← merged.recorded r, Option.isSome_iff_exists]
    simp only [SortedMap.get?_eq_some, List.mem_map, Prod.exists, exists_and_right, exists_eq_right]
  · refine (List.perm_insertionSort _ _).nodup_iff.mpr ?_
    exact List.pairwise_map.mpr (byRevision.sorted.imp fun less => less.ne)
  · have trans : IsTrans Oid fun r s => ancestry.distance s target ≤ ancestry.distance r target :=
      ⟨fun _ _ _ first second => second.trans first⟩
    have total : Std.Total fun r s => ancestry.distance s target ≤ ancestry.distance r target :=
      ⟨fun _ _ => Nat.le_total _ _⟩
    exact List.pairwise_insertionSort _ _
  · exact insertionSort_entries merged

/-! ### Resolving a path -/

variable {files : Finset Text} {origin : Nat} {path : Text} {answer : Option Text}

theorem Built.withGap (built : Built git target visible steps lineage) (run : lineage.withGap git = .ok lineage') :
    Built git target visible steps lineage' ∧ lineage'.newest = lineage.newest := by
  unfold PathLineage.withGap at run
  split at run
  next => exact Except.ok.inj run ▸ ⟨built, rfl⟩
  next newest distance nearest =>
    split at run
    next =>
      split at run
      next => cases run
      next gap found =>
        obtain rfl := Except.ok.inj run
        refine ⟨⟨built.target_eq, built.known, built.steps_eq, built.nearest, fun other eq => ?_⟩, rfl⟩
        obtain rfl := Option.some.inj eq
        exact ⟨newest, distance, nearest, built.target_eq ▸ found⟩
    next => exact Except.ok.inj run ▸ ⟨built, rfl⟩

theorem Built.withDistances (built : Built git target visible steps lineage) (known : Known target distances) :
    Built git target visible steps { lineage with distances } :=
  ⟨built.target_eq, known, built.steps_eq, built.nearest, built.gap_ok⟩

/-- The gap diff is the one from the newest delivery, whether it is computed now or was before. -/
theorem Built.gapTarget (built : Built git target visible steps lineage) (files : Finset Text) (current : Text) :
    (lineage.withGap git).map (fun lineage => lineage.gapTarget files current) =
      throughGap git target lineage.newest files current := by
  unfold PathLineage.withGap throughGap
  cases newest : lineage.newest with
  | none =>
    dsimp only
    rw [Except.map, PathLineage.gapTarget, newest]
  | some found =>
    obtain ⟨revision, distance⟩ := found
    dsimp only
    by_cases far : 0 < distance
    · cases memo : lineage.gap with
      | none =>
        rw [if_pos ⟨far, rfl⟩, if_pos far, built.target_eq]
        cases git.gapRenames revision target with
        | error e => rfl
        | ok gap =>
          dsimp only [Except.map, PathLineage.gapTarget]
          rw [if_pos far, Option.bind_some]
      | some gap =>
        obtain ⟨other, _, same, computed⟩ := built.gap_ok gap memo
        obtain ⟨rfl, rfl⟩ := Prod.mk.inj (Option.mem_unique newest same)
        rw [if_neg fun both => Bool.false_ne_true both.2, if_pos far, computed]
        dsimp only [Except.map]
        rw [PathLineage.gapTarget, newest]
        dsimp only
        rw [if_pos far, memo, Option.bind_some]
    · rw [if_neg fun both => far both.1, if_neg far, Except.map, PathLineage.gapTarget, newest]
      dsimp only
      rw [if_neg far]

theorem Built.resolve_eq (built : Built git target visible steps lineage)
    (asked : lineageDistance git.walk target lineage.distances revision = .ok (origin, distances)) :
    (lineage.resolve git files revision path).map Prod.fst =
      liveDescendant git target lineage.newest files (followSteps origin lineage.steps path) := by
  have now := built.withDistances (lineageDistance_ok built.known asked).2
  obtain rfl := built.target_eq
  unfold PathLineage.resolve
  rw [asked]
  change Except.map _ (match followSteps origin lineage.steps path with | none => _ | some current => _) = _
  cases followed : followSteps origin lineage.steps path with
  | none => rfl
  | some current =>
    dsimp only [liveDescendant]
    split_ifs with live
    · rfl
    · have gap := now.gapTarget files current
      dsimp only at gap
      rw [← gap]
      cases (PathLineage.withGap git { lineage with distances }) with
      | error e => rfl
      | ok later =>
        cases found : later.gapTarget files current with
        | none | some next => simp [Except.map, bind, Except.bind, found, pure, Except.pure]

theorem Built.resolve (built : Built git target visible steps lineage)
    (run : lineage.resolve git files revision path = .ok (answer, lineage')) :
    Built git target visible steps lineage' ∧ lineage'.newest = lineage.newest := by
  obtain rfl := built.target_eq
  obtain ⟨⟨origin, distances⟩, asked, run⟩ := bind_eq_ok.mp run
  have now := built.withDistances (lineageDistance_ok built.known asked).2
  dsimp only at run
  split at run
  next =>
    obtain ⟨_, rfl⟩ := Prod.mk.inj (Except.ok.inj run)
    exact ⟨now, rfl⟩
  next current followed =>
    split at run
    next =>
      obtain ⟨_, rfl⟩ := Prod.mk.inj (Except.ok.inj run)
      exact ⟨now, rfl⟩
    next =>
      obtain ⟨later, computed, run⟩ := bind_eq_ok.mp run
      obtain ⟨kept, newest⟩ := now.withGap computed
      split at run
      next =>
        obtain ⟨_, rfl⟩ := Prod.mk.inj (Except.ok.inj run)
        exact ⟨kept, newest⟩
      next =>
        obtain ⟨_, rfl⟩ := Prod.mk.inj (Except.ok.inj run)
        exact ⟨⟨kept.target_eq, kept.known, kept.steps_eq, kept.nearest, kept.gap_ok⟩, newest⟩

/-- What a request asks of the lineage: a distance, or where a path is. -/
inductive LineageCall where
  | distance (revision : Oid)
  | resolve (revision : Oid) (path : Text)

def LineageCall.run (git : LineageGit) (files : Finset Text) (lineage : PathLineage) :
    LineageCall → Except GraphError PathLineage
  | .distance revision =>
    (lineageDistance git.walk lineage.target lineage.distances revision).map fun asked =>
      { lineage with distances := asked.2 }
  | .resolve revision path => (lineage.resolve git files revision path).map Prod.snd

def afterCalls (git : LineageGit) (files : Finset Text) (calls : List LineageCall) (lineage : PathLineage) :
    Except GraphError PathLineage :=
  calls.foldlM (LineageCall.run git files) lineage

theorem Built.call {call : LineageCall} (built : Built git target visible steps lineage)
    (run : call.run git files lineage = .ok lineage') :
    Built git target visible steps lineage' ∧ lineage'.newest = lineage.newest := by
  cases call with
  | distance revision =>
    rw [LineageCall.run] at run
    cases asked : lineageDistance git.walk lineage.target lineage.distances revision with
    | error e =>
      rw [asked] at run
      cases run
    | ok answer =>
      rw [asked] at run
      obtain rfl := Except.ok.inj run
      have known := built.known
      rw [← built.target_eq] at known
      have later := (lineageDistance_ok (d := answer.1) known asked).2
      exact ⟨built.withDistances (built.target_eq ▸ later), rfl⟩
  | resolve revision path =>
    rw [LineageCall.run] at run
    cases resolved : lineage.resolve git files revision path with
    | error e =>
      rw [resolved] at run
      cases run
    | ok answer =>
      rw [resolved] at run
      obtain rfl := Except.ok.inj run
      have run : lineage.resolve git files revision path = .ok (answer.1, answer.2) := resolved
      exact built.resolve run

theorem Built.calls {calls : List LineageCall} (built : Built git target visible steps lineage)
    (run : afterCalls git files calls lineage = .ok lineage') :
    Built git target visible steps lineage' ∧ lineage'.newest = lineage.newest := by
  induction calls generalizing lineage with
  | nil => exact Except.ok.inj run ▸ ⟨built, rfl⟩
  | cons call rest ih =>
    rw [afterCalls, List.foldlM_cons] at run
    obtain ⟨next, called, run⟩ := bind_eq_ok.mp run
    obtain ⟨kept, newest⟩ := built.call called
    obtain ⟨kept, same⟩ := ih kept run
    exact ⟨kept, same.trans newest⟩

/-! ### On the first-parent chain -/

theorem distance_lt_iff {r s : Oid} (first : FirstParentAncestor r target) (second : FirstParentAncestor s target) :
    ancestry.distance r target < ancestry.distance s target ↔ FirstParentAncestor s r ∧ s ≠ r := by
  obtain ⟨_, toR⟩ := first
  obtain ⟨_, toS⟩ := second
  have below : ∀ {a b : Oid}, FirstParentAncestor a b → FirstParentAncestor b target →
      ancestry.distance a target = ancestry.distance b target + ancestry.distance a b := fun down up =>
    Ancestry.distance_add (mem_ancestors_of_firstParent up) (mem_ancestors_of_firstParent down)
  constructor
  · intro nearer
    have other : s ≠ r := fun same => absurd nearer (same ▸ lt_irrefl _)
    refine ⟨?_, other⟩
    rcases toR.comparable toS with ⟨ds, _, down⟩ | ⟨ds, _, up⟩
    · exact ⟨ds, down⟩
    · have farther := below ⟨ds, up⟩ ⟨_, toS⟩
      omega
  · rintro ⟨down, other⟩
    have farther := below down ⟨_, toR⟩
    have := Ancestry.distance_pos (mem_ancestors_of_firstParent down) other
    omega

theorem Later.onChain {later : List Oid} (is : Later visible steps target revision later)
    (chain : ∀ r, (∃ step ∈ steps, recordedAt visible step = some r) → FirstParentAncestor r target)
    (own : FirstParentAncestor revision target) :
    (∀ r, r ∈ later ↔ (∃ step ∈ steps, recordedAt visible step = some r) ∧
      FirstParentAncestor revision r ∧ revision ≠ r) ∧ later.Pairwise fun r s => FirstParentAncestor r s ∧ r ≠ s := by
  refine ⟨fun r => ?_, ?_⟩
  · rw [is.mem_iff]
    exact and_congr_right fun recorded => distance_lt_iff (chain r recorded) own
  · refine (is.oldestFirst.and is.nodup).imp_of_mem fun {r s} memR memS both => ?_
    have onR := chain r ((is.mem_iff r).mp memR).1
    have onS := chain s ((is.mem_iff s).mp memS).1
    rcases both.1.lt_or_eq with nearer | same
    · exact (distance_lt_iff onS onR).mp nearer
    · -- Two commits of a chain at one distance are one commit.
      exfalso
      obtain ⟨_, toR⟩ := onR
      obtain ⟨_, toS⟩ := onS
      rcases toR.comparable toS with ⟨ds, _, down⟩ | ⟨ds, _, up⟩
      · have nearer := (distance_lt_iff ⟨_, toR⟩ ⟨_, toS⟩).mpr ⟨⟨ds, down⟩, Ne.symm both.2⟩
        omega
      · have nearer := (distance_lt_iff ⟨_, toS⟩ ⟨_, toR⟩).mpr ⟨⟨ds, up⟩, both.2⟩
        omega

/-! ### The answer -/

/-- Whatever was asked before, a path is followed through the steps of the revisions that are
nearer to the target, the farthest first, and a deletion ends it. The path that is left is the
answer if it is live, and else the live path that the gap renamed it to. On the first-parent
chain the nearer revisions are the later ones. -/
theorem resolve_follows (run : PathLineage.new git target visible steps = .ok lineage) (files : Finset Text) :
    ∃ newest, Nearest target visible newest ∧ ∀ calls lineage' revision origin distances path,
      afterCalls git files calls lineage = .ok lineage' →
      lineageDistance git.walk target lineage'.distances revision = .ok (origin, distances) →
      ∃ later, Later visible steps target revision later ∧
        (lineage'.resolve git files revision path).map Prod.fst =
          liveDescendant git target newest files (follow (stepsAt visible steps) later path) ∧
        (∀ earlier r rest current, later = earlier ++ r :: rest →
          follow (stepsAt visible steps) earlier path = some current → stepsAt visible steps r current = some none →
          (lineage'.resolve git files revision path).map Prod.fst = .ok none) ∧
        ((∀ delivery ∈ visible, FirstParentAncestor delivery.afterRevision target) →
          FirstParentAncestor revision target →
          (∀ r, r ∈ later ↔ (∃ step ∈ steps, recordedAt visible step = some r) ∧
            FirstParentAncestor revision r ∧ revision ≠ r) ∧
          later.Pairwise fun r s => FirstParentAncestor r s ∧ r ≠ s) := by
  obtain ⟨built, _⟩ := new_built run
  refine ⟨lineage.newest, built.nearest, fun calls lineage' revision origin distances path called asked => ?_⟩
  obtain ⟨now, newest⟩ := built.calls called
  obtain ⟨revisions, recorded, nodup, ordered, stepsEq⟩ := now.steps_eq
  obtain rfl := (lineageDistance_ok now.known asked).1
  have later : Later visible steps target revision
      (revisions.filter fun r => ancestry.distance r target < ancestry.distance revision target) := by
    refine ⟨fun r => ?_, nodup.filter _, ordered.filter _⟩
    rw [List.mem_filter, recorded r, decide_eq_true_eq]
  have answer : ∀ path, (lineage'.resolve git files revision path).map Prod.fst =
      liveDescendant git target lineage.newest files (follow (stepsAt visible steps)
        (revisions.filter fun r => ancestry.distance r target < ancestry.distance revision target) path) := by
    intro path
    rw [now.resolve_eq asked, stepsEq, newest, followSteps_map]
  refine ⟨_, later, answer path, fun earlier r rest current split followed deleted => ?_, fun chain own => ?_⟩
  · rw [answer path, split, follow_append, followed, Option.bind_some, follow, deleted]
    rfl
  · refine later.onChain (fun r found => ?_) own
    obtain ⟨step, _, counted⟩ := found
    obtain ⟨delivery, mem, landed⟩ := exists_visible counted
    exact landed ▸ chain delivery mem

end

namespace Sample

attribute [local instance] mergeInstance

def mergeGit : LineageGit where
  repo := mergeRepository
  walk := mergeWalk
  oidError _ := []
  gapRenames _ _ := .ok { renames := fun _ => none, exactOnly := false, added := 0, deleted := 0 }

def delivered : List VisibleDelivery := [⟨"D", root, mainline⟩]

def renamed : List PathLineageStep := [⟨"D", mainline.hex, "a", some "b"⟩]

def lineageOf (steps : List (Nat × Renames)) : PathLineage where
  target := merged
  distances := entered
  steps := steps
  newest := some (mainline, 2)
  unindexedRanges := 0
  gap := none
  unresolved := 0

theorem landed_delivered : landed delivered = {mainline} := by decide

theorem new_unrecorded : PathLineage.new mergeGit merged delivered [] = .ok (lineageOf []) := by
  have indexed : indexFirstParentDistances mergeGit.walk mergeGit.repo merged {mainline} (fun _ => none) = .ok entered :=
    index_mainline
  unfold PathLineage.new
  rw [landed_delivered, indexed]
  rfl

def aToB : Renames := orInsert (fun _ => none) ⟨"D", mainline.hex, "a", some "b"⟩

theorem new_renamed : PathLineage.new mergeGit merged delivered renamed = .ok (lineageOf [(2, aToB)]) := by
  have indexed : indexFirstParentDistances mergeGit.walk mergeGit.repo merged {mainline} (fun _ => none) = .ok entered :=
    index_mainline
  unfold PathLineage.new
  rw [landed_delivered, indexed]
  rfl

theorem asked_root : lineageDistance mergeGit.walk merged entered root =
    .ok (3, Function.update entered root (some 3)) := by
  have far : ancestry.distance root merged = 3 := by decide +kernel
  have walked : commitDistance mergeGit.walk root merged = .ok 3 := far ▸ mergeWalk_commitDistance root merged
  unfold lineageDistance
  rw [show entered root = none by decide, walked]

/-- A path of the root revision is where the later delivery renamed it to. -/
theorem resolve_follows_renamed :
    ∃ newest later, Nearest merged delivered newest ∧ Later delivered renamed merged root later ∧
      liveDescendant mergeGit merged newest {"b".toList} (follow (stepsAt delivered renamed) later "a".toList) =
        .ok (some "b") := by
  have resolved : ((lineageOf [(2, aToB)]).resolve mergeGit {"b".toList} root "a".toList).map Prod.fst =
      .ok (some "b") := by
    have asked : lineageDistance mergeGit.walk (lineageOf [(2, aToB)]).target (lineageOf [(2, aToB)]).distances root =
        .ok (3, Function.update entered root (some 3)) := asked_root
    unfold PathLineage.resolve
    rw [asked]
    rfl
  obtain ⟨newest, nearest, answers⟩ := resolve_follows new_renamed {"b".toList}
  obtain ⟨later, is, answer, _⟩ := answers [] _ root 3 _ "a" rfl asked_root
  exact ⟨newest, later, nearest, is, answer.symm.trans resolved⟩

def onSide : List VisibleDelivery := [⟨"D", root, side⟩]

def renamedOnSide : List PathLineageStep := [⟨"D", side.hex, "a", some "b"⟩]

def enteredAll : Distances := Function.update (Function.update entered root (some 3)) side (some 2)

def lineageOnSide : PathLineage where
  target := merged
  distances := enteredAll
  steps := [(2, orInsert (fun _ => none) ⟨"D", side.hex, "a", some "b"⟩)]
  newest := some (side, 2)
  unindexedRanges := 0
  gap := none
  unresolved := 0

theorem new_onSide : PathLineage.new mergeGit merged onSide renamedOnSide = .ok lineageOnSide := by
  have wanted : landed onSide = {side} := by decide
  have indexed : indexFirstParentDistances mergeGit.walk mergeGit.repo merged {side} (fun _ => none) =
      .ok (Function.update entered root (some 3)) := by
    have second : (if (GitObjects.commit mainline).parents.length = 1 then Except.ok 1
        else commitDistance mergeWalk root mainline) = .ok 1 := by
      rw [if_pos (by decide)]
    change indexFrom mergeWalk mergeRepository _ _ _ _ = _
    rw [indexFrom_next (by decide) (show firstParent merged = some mainline by decide) rfl merge_step,
      indexFrom_next (by decide) (show firstParent mainline = some root by decide) rfl second,
      indexFrom_end (.inr (by decide))]
    rfl
  have asked : lineageDistance mergeGit.walk merged (Function.update entered root (some 3)) side =
      .ok (2, enteredAll) := by
    have far : ancestry.distance side merged = 2 := by decide +kernel
    have walked : commitDistance mergeGit.walk side merged = .ok 2 := far ▸ mergeWalk_commitDistance side merged
    unfold lineageDistance
    rw [show Function.update entered root (some 3) side = none by decide, walked]
    rfl
  have entries : ∃ byRevision, renamedOnSide.foldlM (enterStep mergeGit onSide) SortedMap.empty = .ok byRevision ∧
      byRevision.entries = [(side, orInsert (fun _ => none) ⟨"D", side.hex, "a", some "b"⟩)] :=
    ⟨_, rfl, rfl⟩
  obtain ⟨byRevision, merged, eq⟩ := entries
  unfold PathLineage.new
  rw [wanted, indexed]
  dsimp only [bind, Except.bind]
  rw [merged]
  dsimp only
  rw [eq, withDistances, asked]
  rfl

theorem not_composition_on_chain :
    (PathLineage.new mergeGit merged delivered [] = .ok (lineageOf []) ∧
      (∀ later, follow (stepsAt delivered []) later "a".toList = some "a".toList) ∧
      ((lineageOf []).resolve mergeGit ∅ mainline "a".toList).map Prod.fst = .ok none) ∧
    (PathLineage.new mergeGit merged onSide renamedOnSide = .ok lineageOnSide ∧ ¬ FirstParentAncestor side merged ∧
      (lineageOnSide.resolve mergeGit {"a".toList, "b".toList} root "a".toList).map Prod.fst = .ok (some "b".toList)) := by
  refine ⟨⟨new_unrecorded, fun later => ?_, rfl⟩, new_onSide, side_not_firstParent, rfl⟩
  induction later with
  | nil => rfl
  | cons r rest ih => exact ih

end Sample

end OrbitGraph.Recommend
