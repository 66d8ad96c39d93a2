import OrbitGraph.Lib.Descent
import OrbitGraph.History.Validation

/-!
Git as the history index uses it, and the walks along first parents.

An object id stands for one object in every repository and at every time; a
repository at some moment says which of the commits it can read and where its
branches are. The library that reads it is not part of the source: how it
compares trees and decides ancestry is a parameter.
-/

namespace OrbitGraph.History

open Lib

structure Commit where
  parents : List Oid
  message : Option Text
  time : Int

/-- The objects that ids stand for. `treeDiff before after` is what
`extract_tree_diff` makes of the trees of two commits. -/
class GitObjects where
  commit : Oid → Commit
  treeDiff : Oid → Oid → List FileChange
  height : Oid → Nat
  acyclic : ∀ oid, ∀ parent ∈ (commit oid).parents, height parent < height oid

/-- A repository at one moment. `commitError` and `diffError` say what keeps a commit
or the trees of two commits from being read. -/
structure Repository where
  originUrl : Option Text
  workdir : Option Text
  commitError : Oid → Option Text
  references : Text → Except Text Oid
  descendantOf : Oid → Oid → Except Text Bool
  diffError : Oid → Oid → Option GraphError

/-! ### Identity -/

def repositoryIdentityWithoutCredentials (identity : Text) : Text :=
  match Text.splitOnce "://" identity with
  | some (scheme, rest) =>
    let authority := rest.takeWhile fun c => c ∉ ['/', '?', '#']
    let suffix := rest.drop authority.length
    let host := ((Text.rsplitOnce "@" authority).map Prod.snd).getD authority
    scheme ++ "://" ++ host ++ suffix
  | none =>
    match Text.splitOnce "@" identity with
    | some (userinfo, hostPath) =>
      let hasHost := (Text.splitOnce ":" hostPath).any fun (host, _) =>
        host ≠ [] && '/' ∉ host
      if '/' ∉ userinfo ∧ hasHost then hostPath else identity
    | none => identity

namespace Repository

variable (repo : Repository)

/-- `repository_identity`. -/
def identity : Except GraphError Text :=
  match repo.originUrl.filter fun url => !isBlank url with
  | some url => .ok (repositoryIdentityWithoutCredentials url)
  | none =>
    match repo.workdir with
    | some path => .ok path
    | none => .error (.invalidData "resolve history repository identity"
        "bare repositories are unsupported")

def branchTip (branch : Text) : Except GraphError Oid :=
  let referenceName :=
    if Text.startsWith "refs/" branch then branch else "refs/heads/" ++ branch
  match repo.references referenceName with
  | .ok oid => .ok oid
  | .error reason => .error (.invalidData "resolve history landing branch"
      (referenceName ++ ": " ++ reason))

def resolveCommit (revision : Text) : Except GraphError Oid :=
  match Oid.fromStr revision with
  | none => .error (.invalidData "validate immutable Git revision" "invalid object id")
  | some oid =>
    match repo.commitError oid with
    | none => .ok oid
    | some reason => .error (.invalidData "validate immutable Git revision"
        ("commit " ++ revision ++ " is unavailable: " ++ reason))

variable [GitObjects]

/-- `find_commit`, for the operation that asks. -/
def findCommit (operation : Text) (oid : Oid) : Except GraphError Commit :=
  match repo.commitError oid with
  | none => .ok (GitObjects.commit oid)
  | some reason => .error (.git operation reason)

end Repository

section

variable [GitObjects]

def firstParent (oid : Oid) : Option Oid := (GitObjects.commit oid).parents.head?

def firstParents : Descent Oid where
  next := firstParent
  rank := GitObjects.height
  descends := by
    intro oid parent h
    exact GitObjects.acyclic oid parent (List.mem_of_mem_head? h)

/-- The first-parent commits of `tip` that have a parent, from `tip` down. -/
def nonRootCommits (tip : Oid) : List Oid := firstParents.trail tip

/-- `ancestor` is reached from `tip` along first parents. -/
def FirstParentAncestor (ancestor tip : Oid) : Prop := ∃ commits, firstParents.Path tip commits ancestor

end

/-! ### Bounded walks -/

/-- A validated traversal bound. -/
structure HistoryLimit where
  value : Nat
  positive : 0 < value

def defaultHistorySyncLimit : Nat := 1000

def validateHistoryLimit (limit : Option Nat) : Except GraphError HistoryLimit :=
  let limit := limit.getD defaultHistorySyncLimit
  if h : 0 < limit then .ok ⟨limit, h⟩
  else .error (.invalidInput "validate history traversal" "limit"
    "limit must be greater than zero")

structure PendingBatch where
  commits : List Oid
  complete : Bool
  resumeFrom : Option Oid

section

variable [GitObjects] (repo : Repository)

/-- The loop of `pending_batch`, at `current`, which has been loaded; `room` more
commits fit after it. -/
def pendingBatchFrom (cursor : Option Oid) :
    Nat → Oid → List Oid → Except GraphError PendingBatch
  | room, current, commits =>
    if cursor = some current then .ok { commits, complete := true, resumeFrom := none }
    else
      match firstParent current with
      | none =>
        if cursor.isSome then
          .error (.invalidData "validate history cursor"
            "stored cursor is not on the frozen landing-branch first-parent chain")
        else .ok { commits, complete := true, resumeFrom := none }
      | some parent =>
        match repo.findCommit "walk bounded first-parent history" parent with
        | .error e => .error e
        | .ok _ =>
          let commits := commits ++ [current]
          match room with
          | 0 => .ok { commits, complete := false, resumeFrom := some parent }
          | room + 1 => pendingBatchFrom cursor room parent commits

def pendingBatch (cursor : Option Oid) (start : Oid) (limit : HistoryLimit) :
    Except GraphError PendingBatch := do
  if cursor = some start then return { commits := [], complete := true, resumeFrom := none }
  let _ ← repo.findCommit "load history batch frontier" start
  pendingBatchFrom repo cursor (limit.value - 1) start []

/-- The loop of `pending_commits`, at `current`; `room` more commits are allowed. -/
def pendingCommitsFrom (limit : HistoryLimit) (cursor : Option Oid) :
    Nat → Oid → List Oid → Except GraphError (List Oid)
  | room, current, pending =>
    if cursor = some current then .ok pending
    else
      match room with
      | 0 => .error (.invalidData "traverse first-parent history"
          ("history exceeds bounded traversal limit " ++ decimal limit.value ++
            "; increase --limit explicitly"))
      | room + 1 =>
        match firstParent current with
        | none =>
          if cursor.isSome then
            .error (.invalidData "validate history cursor"
              ("stored cursor is not on the landing branch first-parent chain " ++
                "(history diverged or was rebound)").toList)
          else .ok pending
        | some parent =>
          match repo.findCommit "walk first-parent history" parent with
          | .error e => .error e
          | .ok _ => pendingCommitsFrom limit cursor room parent (pending ++ [current])

/-- The commits after `cursor` up to `tip`, the oldest first. -/
def pendingCommits (tip : Oid) (cursor : Option Oid) (limit : HistoryLimit) :
    Except GraphError (List Oid) := do
  if cursor = some tip then return []
  let _ ← repo.findCommit "load history branch tip" tip
  let pending ← pendingCommitsFrom repo limit cursor limit.value tip []
  return pending.reverse

/-- The loop of `is_first_parent_ancestor`. -/
def isFirstParentAncestorFrom (ancestor : Oid) (limit : HistoryLimit) :
    Nat → Oid → Except GraphError Bool
  | 0, _ => .error (.invalidData "validate history bootstrap tip"
      ("branch advanced beyond the bounded validation limit " ++ decimal limit.value))
  | rounds + 1, current =>
    if current = ancestor then .ok true
    else
      match firstParent current with
      | none => .ok false
      | some parent =>
        match repo.findCommit "walk landing first-parent validation" parent with
        | .error e => .error e
        | .ok _ => isFirstParentAncestorFrom ancestor limit rounds parent

def isFirstParentAncestor (ancestor descendant : Oid) (limit : HistoryLimit) :
    Except GraphError Bool := do
  let _ ← repo.findCommit "load landing tip for first-parent validation" descendant
  isFirstParentAncestorFrom repo ancestor limit (limit.value + 1) descendant

end

end OrbitGraph.History
