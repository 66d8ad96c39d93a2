import OrbitGraph.Delivery.Observation

/-!
Verifying a landed delivery against the repository.

A delivery is the range from its recorded base to its recorded head if the landing branch
reaches the head. Otherwise one commit may stand in for it, which the branch reaches,
which builds on the base, and which changes the tree as the range does. Git decides
ancestry and compares trees; what it answers is held against the commit graph.
-/

namespace OrbitGraph.Delivery

open Lib History Relation

/-! ### Trees -/

/-- A file, link or submodule of a tree. -/
structure TreeEntry where
  id : Oid
  mode : Nat
  readable : mode ≠ 0
  deriving DecidableEq

abbrev Tree := List (Text × TreeEntry)

abbrev Side := Oid × Nat

def absent : Side := (⟨List.replicate 40 '0', List.length_replicate, fun c mem => by
  rw [List.eq_of_mem_replicate mem]
  decide⟩, 0)

def TreeEntry.side (entry : TreeEntry) : Side := (entry.id, entry.mode)

/-- What becomes of a path, if it is changed: its entries before and after. -/
def change (old new : Option TreeEntry) : Option (Option TreeEntry × Option TreeEntry) :=
  if old = new then none else some (old, new)

/-- How Git reports a path: an entry that becomes one of another type is deleted and added. -/
def pathDeltas : Option TreeEntry → Option TreeEntry → List (Side × Side)
  | none, none => []
  | none, some new => [(absent, new.side)]
  | some old, none => [(old.side, absent)]
  | some old, some new =>
    if old = new then []
    else if old.mode / 4096 = new.mode / 4096 then [(old.side, new.side)]
    else [(old.side, absent), (absent, new.side)]

theorem TreeEntry.side_injective {entry other : TreeEntry} (same : entry.side = other.side) : entry = other := by
  cases entry
  cases other
  cases same
  rfl

theorem TreeEntry.side_ne_absent (entry : TreeEntry) : entry.side ≠ absent := fun same =>
  entry.readable (congrArg Prod.snd same)

theorem TreeEntry.side_eq_iff (entry other : TreeEntry) : entry.side = other.side ↔ other = entry :=
  ⟨fun eq => (TreeEntry.side_injective eq).symm, fun eq => eq ▸ rfl⟩

section Deltas

variable {old new old' new' : Option TreeEntry}

variable {entry : TreeEntry}

theorem pathDeltas_old :
    (∃ side, (entry.side, side) ∈ pathDeltas old new) ↔ old = some entry ∧ old ≠ new := by
  have same := entry.side_eq_iff
  have present := entry.side_ne_absent
  cases old with
  | none => cases new <;> simp [pathDeltas, present]
  | some o =>
    cases new with
    | none => simp [pathDeltas, same]
    | some n =>
      by_cases eq : o = n
      · simp [pathDeltas, eq]
      · by_cases type : o.mode / 4096 = n.mode / 4096
        · simp [pathDeltas, same, eq, type]
        · simp [pathDeltas, same, eq, type, present]

theorem pathDeltas_new :
    (∃ side, (side, entry.side) ∈ pathDeltas old new) ↔ new = some entry ∧ old ≠ new := by
  have same := entry.side_eq_iff
  have present := entry.side_ne_absent
  cases new with
  | none => cases old <;> simp [pathDeltas, present]
  | some n =>
    cases old with
    | none => simp [pathDeltas, same]
    | some o =>
      by_cases eq : o = n
      · simp [pathDeltas, eq]
      · by_cases type : o.mode / 4096 = n.mode / 4096
        · simp [pathDeltas, same, eq, type]
        · simp [pathDeltas, same, eq, type, present]

theorem pathDeltas_eq_nil : pathDeltas old new = [] ↔ old = new := by
  cases old with
  | none => cases new <;> simp [pathDeltas]
  | some o =>
    cases new with
    | none => simp [pathDeltas]
    | some n =>
      by_cases eq : o = n
      · simp [pathDeltas, eq]
      · by_cases type : o.mode / 4096 = n.mode / 4096
        · simp [pathDeltas, eq, type]
        · simp [pathDeltas, eq, type]

theorem change_of_pathDeltas (same : ∀ delta, delta ∈ pathDeltas old new ↔ delta ∈ pathDeltas old' new') :
    change old new = change old' new' := by
  have changed : old = new ↔ old' = new' := by
    rw [← pathDeltas_eq_nil, ← pathDeltas_eq_nil, List.eq_nil_iff_forall_not_mem, List.eq_nil_iff_forall_not_mem]
    exact forall_congr' fun delta => not_congr (same delta)
  unfold change
  by_cases eq : old = new
  · rw [if_pos eq, if_pos (changed.mp eq)]
  · have ne' : old' ≠ new' := fun eq' => eq (changed.mpr eq')
    rw [if_neg eq, if_neg ne']
    have before : old = old' := by
      refine Option.ext fun entry => ?_
      have both : (∃ side, (entry.side, side) ∈ pathDeltas old new) ↔ ∃ side, (entry.side, side) ∈ pathDeltas old' new' :=
        exists_congr fun side => same _
      rw [pathDeltas_old, pathDeltas_old, and_iff_left eq, and_iff_left ne'] at both
      exact both
    have after : new = new' := by
      refine Option.ext fun entry => ?_
      have both : (∃ side, (side, entry.side) ∈ pathDeltas old new) ↔ ∃ side, (side, entry.side) ∈ pathDeltas old' new' :=
        exists_congr fun side => same _
      rw [pathDeltas_new, pathDeltas_new, and_iff_left eq, and_iff_left ne'] at both
      exact both
    rw [before, after]

end Deltas

structure Commit where
  parents : List Oid
  tree : Tree

def IsParent (commit : Oid → Option Commit) (parent child : Oid) : Prop :=
  ∃ object, commit child = some object ∧ parent ∈ object.parents

/-- The commits of a repository. No commit is its own ancestor, since an id depends on the parents. -/
structure CommitGraph where
  commit : Oid → Option Commit
  acyclic : ∀ oid, ¬TransGen (IsParent commit) oid oid

namespace CommitGraph

variable (graph : CommitGraph)

/-- One commit comes before another. -/
def ProperAncestor (ancestor descendant : Oid) : Prop := TransGen (IsParent graph.commit) ancestor descendant

def entry (oid : Oid) (path : Text) : Option TreeEntry := (graph.commit oid).bind fun object => object.tree.lookup path

/-- What becomes of a path from one commit to another. -/
def changeAt (before after : Oid) (path : Text) : Option (Option TreeEntry × Option TreeEntry) :=
  change (graph.entry before path) (graph.entry after path)

end CommitGraph

/-- A delta of a tree comparison. -/
structure DiffDelta where
  oldPath : Option Text
  newPath : Option Text
  old : Side
  new : Side

def DiffDelta.path (delta : DiffDelta) : Option Text := delta.newPath.or delta.oldPath

structure Repository where
  findCommit : Oid → Except Text Commit
  graphDescendantOf : Oid → Oid → Except Text Bool
  /-- The commit that a revision is resolved to. -/
  revparseCommit : Text → Except Text Oid
  diffTreeToTree : Tree → Tree → Except Text (List DiffDelta)

/-- What Git answers is so: it may fail, but it is not wrong. -/
structure Repository.Faithful (repo : Repository) (graph : CommitGraph) : Prop where
  found : ∀ oid object, repo.findCommit oid = .ok object → graph.commit oid = some object
  descendant : ∀ descendant ancestor answer, repo.graphDescendantOf descendant ancestor = .ok answer →
    (answer = true ↔ graph.ProperAncestor ancestor descendant)
  diff : ∀ old new deltas, repo.diffTreeToTree old new = .ok deltas → ∀ path sides,
    (∃ delta ∈ deltas, delta.path = some path ∧ (delta.old, delta.new) = sides) ↔
      sides ∈ pathDeltas (old.lookup path) (new.lookup path)

/-! ### The range -/

/-- The Git range a landed delivery is imported as, and the check that verified it. -/
structure LandedRange where
  before : Oid
  after : Oid
  verifiedBy : Text

/-- One entry a tree diff changes. -/
structure TreeChange where
  path : Text
  old : Side
  new : Side
  deriving DecidableEq

/-- `trim_start_matches`, at most so many times as the text has characters. -/
def trimStartMatches (pattern : Text) : Nat → Text → Text
  | 0, s => s
  | n + 1, s =>
    match Text.stripPrefix pattern s with
    | some rest => trimStartMatches pattern n rest
    | none => s

namespace Repository

variable (repo : Repository)

/-- Resolve a recorded id to a commit that is there. -/
def commit (sha : Text) (operation : String) : Except GraphError Oid :=
  match Oid.fromStr sha with
  | none => .error (.git operation.toList "unable to parse OID")
  | some oid => do
      let _ ← (repo.findCommit oid).mapError (GraphError.git operation.toList)
      return oid

def descends (descendant ancestor : Oid) : Except GraphError Bool :=
  (repo.graphDescendantOf descendant ancestor).mapError (GraphError.git "verify Orbit commit ancestry")

def landingTip (branch : Text) : Except GraphError Oid :=
  (repo.revparseCommit ("refs/heads/" ++ trimStartMatches "refs/heads/" branch.length branch)).mapError
    (GraphError.git "resolve routed landing branch")

def reaches (tip oid : Oid) : Except GraphError Bool := if oid = tip then .ok true else repo.descends tip oid

/-- Whether a commit is the base or comes after it. -/
def buildsOn (parent base : Oid) : Except GraphError Bool :=
  if parent = base then .ok true else repo.descends parent base

def treeChange (delta : DiffDelta) : Except GraphError TreeChange :=
  match delta.path with
  | some path => .ok ⟨path, delta.old, delta.new⟩
  | none => .error (.invalidData "diff delivery trees" "a changed entry has no path")

def treeChanges (old new : Oid) : Except GraphError (List TreeChange) := do
  let before ← (repo.findCommit old).mapError (GraphError.git "read delivery tree")
  let after ← (repo.findCommit new).mapError (GraphError.git "read delivery tree")
  let deltas ← (repo.diffTreeToTree before.tree after.tree).mapError (GraphError.git "diff delivery trees")
  deltas.mapM treeChange

def samePaths (changes others : List TreeChange) : Bool :=
  changes.all (fun change => others.any fun other => other.path = change.path) &&
    others.all (fun other => changes.any fun change => change.path = other.path)

/-- The part of `verify_landed_range` on a commit that is to stand in for the delivery. -/
def verifySquash (base head tip landedCommit : Oid) : Except GraphError (Except Text LandedRange) := do
  if !(← repo.reaches tip landedCommit) then
    return .error "landed_commit is not reachable from the landing branch"
  let landedObject ← (repo.findCommit landedCommit).mapError (GraphError.git "verify Orbit landed commit")
  match landedObject.parents with
  | [parent] => do
      if !(← repo.buildsOn parent base) then
        return .error "landed_commit does not build on base_sha"
      let delivered ← repo.treeChanges base head
      let squashed ← repo.treeChanges parent landedCommit
      if !samePaths delivered squashed then
        return .error ("landed_commit changes different paths than base_sha..head_sha, so it is not verified as this " ++
          "delivery's squash").toList
      if delivered.map (fun change => (change.path, change.new)) ≠ squashed.map fun change => (change.path, change.new) then
        return .error ("landed_commit leaves different contents or modes than head_sha at the delivered paths, so it is " ++
          "not verified as this delivery's squash").toList
      if delivered ≠ squashed then
        return .error ("landed_commit's parent differs from base_sha at the delivered paths, so its equivalence to " ++
          "base_sha..head_sha cannot be verified").toList
      return .ok ⟨parent, landedCommit, "landed_commit_tree_entries"⟩
  | _ => return .error "landed_commit is a merge that does not reach head_sha"

/-- `verify_landed_range`, in a repository that was opened. -/
def verifyLandedRange (branch : Text) (landed : LandedEvidence) : Except GraphError (Except Text LandedRange) := do
  let base ← repo.commit landed.base "verify Orbit base commit"
  let tip ← repo.landingTip branch
  match landed.head with
  | none => return .error ("the host recorded no head commit (commit.status=already_committed), so the delivered range " ++
      "cannot be verified").toList
  | some head => do
      let head ← repo.commit head "verify Orbit delivery commit"
      if !(← repo.descends head base) then
        return .error "head_sha is not a strict descendant of base_sha"
      if ← repo.reaches tip head then
        return .ok ⟨base, head, "head_reachable"⟩
      match landed.method, landed.landedCommit with
      | .localFastForward, _ =>
        return .error ("the host recorded a local landing, but head_sha is not reachable from the landing " ++
          "branch").toList
      | .pullRequest, none =>
        return .error ("head_sha is not reachable from the landing branch and the host recorded no " ++
          "landed_commit").toList
      | .pullRequest, some landedCommit => do
          let landedCommit ← repo.commit landedCommit "verify Orbit landed commit"
          repo.verifySquash base head tip landedCommit

end Repository

/-! ### What is accepted -/

/-- A range is a delivery that landed: it is on the branch, it builds on the base, and it changes every path as the base and
the head do. -/
structure VerifiedLanding (graph : CommitGraph) (base head tip : Oid) (range : LandedRange) : Prop where
  stored : ∀ oid ∈ [base, head, range.before, range.after], (graph.commit oid).isSome = true
  proper : graph.ProperAncestor range.before range.after
  distinct : range.before ≠ range.after
  reachable : range.after = tip ∨ graph.ProperAncestor range.after tip
  based : base = range.before ∨ graph.ProperAncestor base range.before
  changes : ∀ path, graph.changeAt range.before range.after path = graph.changeAt base head path

theorem CommitGraph.ne_of_properAncestor {graph : CommitGraph} {ancestor descendant : Oid}
    (before : graph.ProperAncestor ancestor descendant) : ancestor ≠ descendant := by
  rintro rfl
  exact graph.acyclic ancestor before

namespace Repository.Faithful

variable {repo : Repository} {graph : CommitGraph} (faithful : repo.Faithful graph) {base head tip oid : Oid}
  {sha : Text} {operation : String}

include faithful

theorem commit_ok (run : repo.commit sha operation = .ok oid) :
    Oid.fromStr sha = some oid ∧ (graph.commit oid).isSome = true := by
  unfold Repository.commit at run
  split at run
  next => cases run
  next found parsed =>
    obtain ⟨object, read, run⟩ := bind_eq_ok.mp run
    obtain rfl := Except.ok.inj run
    rw [faithful.found found object (mapError_eq_ok.mp read)]
    exact ⟨parsed, rfl⟩

theorem descends_ok {descendant ancestor : Oid} {answer : Bool} (run : repo.descends descendant ancestor = .ok answer) :
    answer = true ↔ graph.ProperAncestor ancestor descendant :=
  faithful.descendant descendant ancestor answer (mapError_eq_ok.mp run)

theorem reaches_ok (run : repo.reaches tip oid = .ok true) : oid = tip ∨ graph.ProperAncestor oid tip := by
  unfold Repository.reaches at run
  split at run
  next same => exact .inl same
  next => exact .inr ((faithful.descends_ok run).mp rfl)

theorem buildsOn_ok {parent : Oid} (run : repo.buildsOn parent base = .ok true) :
    base = parent ∨ graph.ProperAncestor base parent := by
  unfold Repository.buildsOn at run
  split at run
  next same => exact .inl same.symm
  next => exact .inr ((faithful.descends_ok run).mp rfl)

variable {changes : List TreeChange}

theorem treeChanges_ok {old new : Oid} (run : repo.treeChanges old new = .ok changes) :
    (graph.commit old).isSome = true ∧ (graph.commit new).isSome = true ∧ ∀ path sides,
      (⟨path, sides.1, sides.2⟩ : TreeChange) ∈ changes ↔ sides ∈ pathDeltas (graph.entry old path) (graph.entry new path) := by
  obtain ⟨before, readOld, run⟩ := bind_eq_ok.mp run
  obtain ⟨after, readNew, run⟩ := bind_eq_ok.mp run
  obtain ⟨deltas, compared, run⟩ := bind_eq_ok.mp run
  have foundOld := faithful.found old before (mapError_eq_ok.mp readOld)
  have foundNew := faithful.found new after (mapError_eq_ok.mp readNew)
  refine ⟨by rw [foundOld]; rfl, by rw [foundNew]; rfl, fun path sides => ?_⟩
  have entries : pathDeltas (graph.entry old path) (graph.entry new path) =
      pathDeltas (before.tree.lookup path) (after.tree.lookup path) := by
    unfold CommitGraph.entry
    rw [foundOld, foundNew, Option.bind_some, Option.bind_some]
  rw [entries, ← faithful.diff before.tree after.tree deltas (mapError_eq_ok.mp compared) path sides, mem_of_mapM run]
  refine exists_congr fun delta => and_congr_right fun _ => ?_
  unfold treeChange
  cases delta.path with
  | none => simp
  | some found =>
    obtain ⟨old, new⟩ := sides
    simp [Prod.ext_iff]

theorem changeAt_of_treeChanges {other otherHead : Oid}
    (one : repo.treeChanges base head = .ok changes) (two : repo.treeChanges other otherHead = .ok changes) (path : Text) :
    graph.changeAt other otherHead path = graph.changeAt base head path :=
  change_of_pathDeltas fun sides =>
    ((faithful.treeChanges_ok two).2.2 path sides).symm.trans ((faithful.treeChanges_ok one).2.2 path sides)

variable {range : LandedRange}

/-- A commit that stands in for the delivery. -/
theorem verifySquash_ok {landedCommit : Oid}
    (run : repo.verifySquash base head tip landedCommit = .ok (.ok range)) : VerifiedLanding graph base head tip range := by
  unfold Repository.verifySquash at run
  obtain ⟨onBranch, reached, run⟩ := bind_eq_ok.mp run
  cases onBranch with
  | false => cases run
  | true =>
    obtain ⟨object, read, run⟩ := bind_eq_ok.mp run
    have found := faithful.found landedCommit object (mapError_eq_ok.mp read)
    split at run
    next parent parents =>
      obtain ⟨builds, based, run⟩ := bind_eq_ok.mp run
      cases builds with
      | false => cases run
      | true =>
        obtain ⟨delivered, diff, run⟩ := bind_eq_ok.mp run
        obtain ⟨squashed, other, run⟩ := bind_eq_ok.mp run
        split at run
        next => cases run
        next =>
          split at run
          next => cases run
          next =>
            split at run
            next => cases run
            next same =>
              obtain rfl := not_not.mp same
              obtain rfl := Except.ok.inj (Except.ok.inj run)
              have child : graph.ProperAncestor parent landedCommit :=
                .single ⟨object, found, by rw [parents]; exact List.mem_singleton.mpr rfl⟩
              have read := faithful.treeChanges_ok diff
              have readOther := faithful.treeChanges_ok other
              refine ⟨?_, child, graph.ne_of_properAncestor child, faithful.reaches_ok reached, ?_,
                faithful.changeAt_of_treeChanges diff other⟩
              · intro oid mem
                simp only [List.mem_cons, List.not_mem_nil, or_false] at mem
                obtain rfl | rfl | rfl | rfl := mem
                · exact read.1
                · exact read.2.1
                · exact readOther.1
                · exact readOther.2.1
              · exact faithful.buildsOn_ok based
    next => cases run

/-- **A verified landing is the delivered change.** -/
theorem verifyLandedRange_ok {branch : Text} {landed : LandedEvidence}
    (run : repo.verifyLandedRange branch landed = .ok (.ok range)) :
    ∃ base head tip, Oid.fromStr landed.base = some base ∧ landed.head.bind Oid.fromStr = some head ∧
      repo.landingTip branch = .ok tip ∧ VerifiedLanding graph base head tip range := by
  obtain ⟨base, readBase, run⟩ := bind_eq_ok.mp run
  obtain ⟨tip, readTip, run⟩ := bind_eq_ok.mp run
  obtain ⟨baseIs, baseStored⟩ := faithful.commit_ok readBase
  split at run
  next => cases run
  next sha recorded =>
    obtain ⟨head, readHead, run⟩ := bind_eq_ok.mp run
    obtain ⟨headIs, headStored⟩ := faithful.commit_ok readHead
    refine ⟨base, head, tip, baseIs, by rw [recorded]; exact headIs, readTip, ?_⟩
    obtain ⟨strict, descends, run⟩ := bind_eq_ok.mp run
    cases strict with
    | false => cases run
    | true =>
      have child := (faithful.descends_ok descends).mp rfl
      obtain ⟨onBranch, reached, run⟩ := bind_eq_ok.mp run
      cases onBranch with
      | true =>
        obtain rfl := Except.ok.inj (Except.ok.inj run)
        refine ⟨?_, child, graph.ne_of_properAncestor child, faithful.reaches_ok reached, .inl rfl, fun _ => rfl⟩
        intro oid mem
        simp only [List.mem_cons, List.not_mem_nil, or_false] at mem
        obtain rfl | rfl | rfl | rfl := mem
        · exact baseStored
        · exact headStored
        · exact baseStored
        · exact headStored
      | false =>
        rw [if_neg Bool.false_ne_true] at run
        split at run
        next => cases run
        next => cases run
        next =>
          obtain ⟨landedCommit, _, run⟩ := bind_eq_ok.mp run
          exact faithful.verifySquash_ok run

end Repository.Faithful

/-- What is accepted of any observation is the delivered change, and what is let through was marked landed and merged by the
host for the requested task and run. -/
theorem landing_verified {repo : Repository} {graph : CommitGraph} (faithful : repo.Faithful graph) :
    (∀ branch landed range, repo.verifyLandedRange branch landed = .ok (.ok range) →
      ∃ base head tip, Oid.fromStr landed.base = some base ∧ landed.head.bind Oid.fromStr = some head ∧
        repo.landingTip branch = .ok tip ∧ VerifiedLanding graph base head tip range) ∧
      ∀ describe value taskId runId observation evidence,
        decodeRunDelivery describe value taskId runId = .ok observation → landedEvidence observation = .ok evidence →
          MarkedLanded value taskId runId ∧ observation.commit.baseSha = some evidence.base ∧
            observation.commit.headSha = evidence.head :=
  ⟨fun _ _ _ run => faithful.verifyLandedRange_ok run, fun _ _ _ _ _ _ decoded landed =>
    have marked := landedEvidence_ok landed
    ⟨markedLanded decoded landed, marked.2.2.1, marked.2.2.2.symm⟩⟩

namespace Sample

def baseId : Oid := Oid.ofDigit 'b' (by decide)

def otherId : Oid := Oid.ofDigit 'c' (by decide)

def headId : Oid := Oid.ofDigit 'd' (by decide)

def squashId : Oid := Oid.ofDigit 'f' (by decide)

def file (path : String) (content : Oid) : Text × TreeEntry := (path.toList, ⟨content, 33188, by decide⟩)

def oldA : Text × TreeEntry := file "a.rs" (Oid.ofDigit '4' (by decide))

def newA : Text × TreeEntry := file "a.rs" (Oid.ofDigit '5' (by decide))

def fileB : Text × TreeEntry := file "b.rs" (Oid.ofDigit '6' (by decide))

def commits : List (Oid × Commit) :=
  [(baseId, ⟨[], [oldA]⟩), (otherId, ⟨[baseId], [oldA, fileB]⟩), (squashId, ⟨[otherId], [newA, fileB]⟩),
    (headId, ⟨[baseId], [newA]⟩)]

def lookup (id : Oid) : Option Commit := commits.lookup id

def rank (id : Oid) : Nat := commits.findIdx fun entry => entry.1 = id

theorem rank_lt {parent child : Oid} (isParent : IsParent lookup parent child) : rank parent < rank child := by
  obtain ⟨object, found, mem⟩ := isParent
  have all : commits.all (fun entry => entry.2.parents.all fun parent => rank parent < rank entry.1) = true := by
    decide +kernel
  obtain ⟨before, after, split, -⟩ := List.lookup_eq_some_iff.mp found
  have stored : (child, object) ∈ commits := split ▸ List.mem_append_right _ List.mem_cons_self
  exact of_decide_eq_true (List.all_eq_true.mp (List.all_eq_true.mp all _ stored) parent mem)

variable {ancestor descendant : Oid}

theorem rank_lt_of_transGen (before : TransGen (IsParent lookup) ancestor descendant) :
    rank ancestor < rank descendant := by
  induction before with
  | single first => exact rank_lt first
  | tail _ last ih => exact Nat.lt_trans ih (rank_lt last)

def graph : CommitGraph := ⟨lookup, fun _ cycle => Nat.lt_irrefl _ (rank_lt_of_transGen cycle)⟩

def diff (old new : Tree) : List DiffDelta :=
  ((old ++ new).map Prod.fst).dedup.flatMap fun path =>
    (pathDeltas (old.lookup path) (new.lookup path)).map fun sides => ⟨some path, some path, sides.1, sides.2⟩

def descendantOf (descendant ancestor : Oid) : Except Text Bool :=
  if (ancestor, descendant) ∈ [(baseId, otherId), (baseId, headId), (baseId, squashId), (otherId, squashId)] then .ok true
  else if rank descendant ≤ rank ancestor then .ok false
  else .error "not asked"

def repository : Repository where
  findCommit id := (lookup id).elim (.error "object not found") .ok
  graphDescendantOf := descendantOf
  revparseCommit name := if name = "refs/heads/main" then .ok squashId else .error "not found"
  diffTreeToTree old new := .ok (diff old new)

theorem mem_diff {old new : Tree} {path : Text} {sides : Side × Side} :
    (∃ delta ∈ diff old new, delta.path = some path ∧ (delta.old, delta.new) = sides) ↔
      sides ∈ pathDeltas (old.lookup path) (new.lookup path) := by
  unfold diff
  constructor
  · rintro ⟨delta, mem, named, rfl⟩
    obtain ⟨other, _, ofOther⟩ := List.mem_flatMap.mp mem
    obtain ⟨sides, inside, rfl⟩ := List.mem_map.mp ofOther
    obtain rfl := Option.some.inj named
    exact inside
  · intro mem
    refine ⟨⟨some path, some path, sides.1, sides.2⟩, List.mem_flatMap.mpr ⟨path, ?_, List.mem_map_of_mem mem⟩, rfl, rfl⟩
    rw [List.mem_dedup, List.map_append, List.mem_append]
    by_contra unlisted
    obtain ⟨notOld, notNew⟩ := not_or.mp unlisted
    have missing : ∀ tree : Tree, path ∉ tree.map Prod.fst → tree.lookup path = none := fun tree absent =>
      List.lookup_eq_none_iff.mpr fun entry inside => bne_iff_ne.mpr fun same =>
        absent (List.mem_map.mpr ⟨entry, inside, same.symm⟩)
    rw [missing old notOld, missing new notNew] at mem
    exact List.not_mem_nil mem

theorem ancestor_of_mem
    (mem : (ancestor, descendant) ∈ [(baseId, otherId), (baseId, headId), (baseId, squashId), (otherId, squashId)]) :
    graph.ProperAncestor ancestor descendant := by
  have bc : IsParent lookup baseId otherId := ⟨_, rfl, List.mem_singleton.mpr rfl⟩
  have cf : IsParent lookup otherId squashId := ⟨_, rfl, List.mem_singleton.mpr rfl⟩
  simp only [List.mem_cons, Prod.mk.injEq, List.not_mem_nil, or_false] at mem
  obtain ⟨rfl, rfl⟩ | ⟨rfl, rfl⟩ | ⟨rfl, rfl⟩ | ⟨rfl, rfl⟩ := mem
  · exact .single bc
  · exact .single ⟨_, rfl, List.mem_singleton.mpr rfl⟩
  · exact .tail (.single bc) cf
  · exact .single cf

theorem faithful : repository.Faithful graph where
  found id object run := by
    change (lookup id).elim (.error "object not found".toList) Except.ok = .ok object at run
    show lookup id = some object
    cases found : lookup id with
    | none =>
      rw [found] at run
      cases run
    | some other =>
      rw [found] at run
      rw [Except.ok.inj run]
  descendant descendant ancestor answer run := by
    change descendantOf descendant ancestor = .ok answer at run
    unfold descendantOf at run
    split at run
    next mem =>
      obtain rfl := Except.ok.inj run
      exact ⟨fun _ => ancestor_of_mem mem, fun _ => rfl⟩
    next =>
      split at run
      next later =>
        obtain rfl := Except.ok.inj run
        exact ⟨nofun, fun before =>
          absurd (rank_lt_of_transGen before) (Nat.not_lt.mpr later)⟩
      next => cases run
  diff old new deltas run path sides := by
    obtain rfl : diff old new = deltas := Except.ok.inj run
    exact mem_diff

def answer : Json :=
  .object [("schema_version", .nat 1), ("workspace_id", .string "w"),
    ("task_id", .string "T-1"), ("run_id", .string "r-1"),
    ("run_state", .string "finished"), ("delivery_status", .string "landed"),
    ("commit", .object [("status", .string "committed"),
      ("base_sha", .string baseId.hex), ("head_sha", .string headId.hex)]),
    ("landing", .object [("status", .string "merged"),
      ("method", .string "pull_request"), ("landed_commit", .string squashId.hex)])]

def evidence : LandedEvidence := ⟨baseId.hex, some headId.hex, some squashId.hex, .pullRequest⟩

end Sample

/-- A squash on a branch that went on. -/
theorem landing_verified_squash :
    (∃ base head tip, Oid.fromStr Sample.evidence.base = some base ∧ Sample.evidence.head.bind Oid.fromStr = some head ∧
      Sample.repository.landingTip "main" = .ok tip ∧ VerifiedLanding Sample.graph base head tip
        ⟨Sample.otherId, Sample.squashId, "landed_commit_tree_entries"⟩) ∧
      MarkedLanded Sample.answer "T-1" "r-1" :=
  have verified := landing_verified Sample.faithful
  ⟨verified.1 "main" Sample.evidence _ (by rfl),
    (verified.2 (fun _ => []) Sample.answer "T-1" "r-1" _ Sample.evidence (by rfl) (by rfl)).1⟩

end OrbitGraph.Delivery
