import OrbitGraph.Clean.Clean
import OrbitGraph.CodeIndex.Names

/-!
The file name of a graph database.

A branch has a name with its hash in it, a detached commit has a name with the first
twelve digits of its id, and an unborn branch has the name `HEAD`. Before branches were
hashed a branch had its sanitized name.
-/

namespace OrbitGraph.DbPath

open Lib Clean
open History (decimal)

/-- `HEAD`, which stands for a detached or unborn branch. -/
def headBranch : Text := "HEAD"

/-- Resolved, worktree-scoped graph database path. -/
structure GraphDbPath where
  path : Text
  branch : Text
  extractorVersion : UInt32

/-! ### The names -/

def sanitizeBranchForFilename (branch : Text) : Text :=
  if branch = [] then "_"
  else
    branch.mapIdx fun index ch =>
      let isDot := ch == '.'
      let isDoubleDot := isDot &&
        ((decide (index > 0) && branch[index - 1]? == some '.') || branch[index + 1]? == some '.')
      let allowed := ch.isAlphanum || ch == '_' || ch == '-' || (decide (index > 0) && isDot && !isDoubleDot)
      if allowed then ch else '_'

/-- `detached_commit_prefix`. The source cuts at a byte; where the first twelve bytes are hexadecimal digits these are the
first twelve characters. -/
def detachedCommitPrefix (commitSha : Text) : Option Text :=
  let start := (Text.trim commitSha).take 12
  if start.length = 12 ∧ start.all isAsciiHexDigit = true then some start else none

section Hashed

-- The hexadecimal digits of a branch's hash.
variable (blake3Hex : Text → Text)

def branchStem (branch : Text) : Text :=
  "branch~" ++ (sanitizeBranchForFilename branch).take 48 ++ '-' :: blake3Hex branch

def graphDbFilenameStem (branch commitSha : Text) : Text :=
  if branch = headBranch then
    match detachedCommitPrefix commitSha with
    | some commitPrefix => "detached-" ++ commitPrefix
    | none => sanitizeBranchForFilename branch
  else branchStem blake3Hex branch

def fileName (stem : Text) (extractorVersion : UInt32) : Text :=
  stem ++ '.' :: decimal extractorVersion.toNat ++ ".db"

def resolveDbPathForCommit (branch commitSha : Text) (extractorVersion : UInt32) : GraphDbPath where
  path := fileName (graphDbFilenameStem blake3Hex branch commitSha) extractorVersion
  branch
  extractorVersion

def legacyDbPath (branch : Text) (extractorVersion : UInt32) : Text :=
  fileName (sanitizeBranchForFilename branch) extractorVersion

end Hashed

section Sanitize

variable {branch : Text} {c : Char}

/-- A character of a sanitized name is one of the branch, or stands for one that is not allowed. -/
theorem mem_sanitize (mem : c ∈ sanitizeBranchForFilename branch) :
    c.isAlphanum = true ∨ c = '_' ∨ c = '-' ∨ c = '.' := by
  unfold sanitizeBranchForFilename at mem
  split at mem
  next => exact .inr (.inl (List.mem_singleton.mp mem))
  next =>
    obtain ⟨index, _, rfl⟩ := List.mem_mapIdx.mp mem
    dsimp only
    split
    next allowed =>
      simp only [Bool.or_eq_true, Bool.and_eq_true, beq_iff_eq] at allowed
      tauto
    next => exact .inr (.inl rfl)

theorem tilde_notMem_sanitize : '~' ∉ sanitizeBranchForFilename branch := by
  intro mem
  obtain alphanumeric | eq | eq | eq := mem_sanitize mem
  · exact absurd alphanumeric (by decide)
  all_goals exact absurd eq (by decide)

theorem eq_of_sanitize (clean : '_' ∉ sanitizeBranchForFilename branch) : sanitizeBranchForFilename branch = branch := by
  unfold sanitizeBranchForFilename at clean ⊢
  split at clean
  next => exact absurd (List.mem_singleton.mpr rfl) clean
  next nonempty =>
    rw [if_neg nonempty]
    refine List.ext_getElem List.length_mapIdx fun index short long => ?_
    have kept : _ ≠ '_' := fun eq => clean (List.mem_mapIdx.mpr ⟨index, long, eq⟩)
    rw [List.getElem_mapIdx]
    dsimp only at kept ⊢
    split at kept
    next allowed => exact if_pos allowed
    next => exact absurd rfl kept

end Sanitize

/-! ### Detached commits -/

variable {commitSha commitPrefix : Text}

theorem detachedCommitPrefix_some (found : detachedCommitPrefix commitSha = some commitPrefix) :
    commitPrefix.length = 12 ∧ commitPrefix.all isAsciiHexDigit = true := by
  unfold detachedCommitPrefix at found
  dsimp only at found
  split at found
  next valid =>
    obtain rfl := Option.some.inj found
    exact valid
  next => cases found

theorem mem_detached {c : Char} (found : detachedCommitPrefix commitSha = some commitPrefix)
    (mem : c ∈ "detached-" ++ commitPrefix) : c ≠ '_' ∧ c ≠ '~' := by
  obtain fixed | digit := List.mem_append.mp mem
  · have all : "detached-".toList.all (fun c => c ≠ '_' ∧ c ≠ '~') = true := by decide
    exact of_decide_eq_true (List.all_eq_true.mp all c fixed)
  · have hex := List.all_eq_true.mp (detachedCommitPrefix_some found).2 c digit
    constructor <;>
      · rintro rfl
        exact absurd hex (by decide)

section Stems

variable {blake3Hex : Text → Text} {branch other commitSha otherSha : Text} {stem stem' : Text} {v v' : UInt32}

theorem fileName_stem (same : fileName stem v = fileName stem' v') : stem = stem' := by
  have digits : ∀ v : UInt32, '.' ∉ decimal v.toNat := fun v mem => absurd (CodeIndex.decimal_isDigit mem) (by decide)
  have split : ∀ (stem : Text) (v : UInt32),
      (Text.stripSuffix ".db" (fileName stem v)).bind (Text.rsplitOnce ['.']) =
        some (stem, decimal v.toNat) := by
    intro stem v
    rw [show Text.stripSuffix ".db" (fileName stem v) = some (stem ++ '.' :: decimal v.toNat) from
      Text.stripSuffix_eq_some.mpr rfl]
    exact Text.rsplitOnce_of_not_mem (digits v) stem
  have both := split stem v
  rw [same, split stem' v'] at both
  exact (congrArg Prod.fst (Option.some.inj both)).symm

theorem branchStem_hash (length : ∀ branch, (blake3Hex branch).length = 64)
    (same : branchStem blake3Hex branch = branchStem blake3Hex other) : blake3Hex branch = blake3Hex other := by
  have ends : ∀ branch : Text, (branchStem blake3Hex branch).reverse.take 64 = (blake3Hex branch).reverse := by
    intro branch
    unfold branchStem
    rw [List.reverse_append, List.reverse_cons, List.append_assoc]
    exact List.take_left' (by rw [List.length_reverse, length])
  exact List.reverse_injective ((ends branch).symm.trans ((congrArg _ (congrArg _ same)).trans (ends other)))

theorem tilde_mem_branchStem : '~' ∈ branchStem blake3Hex branch :=
  List.mem_append_left _ (List.mem_append_left _ (by decide))

theorem tilde_notMem_headStem : '~' ∉ graphDbFilenameStem blake3Hex headBranch commitSha := by
  unfold graphDbFilenameStem
  rw [if_pos rfl]
  cases found : detachedCommitPrefix commitSha with
  | some commitPrefix => exact fun mem => (mem_detached found mem).2 rfl
  | none => exact tilde_notMem_sanitize

theorem headStem_prefix
    (same : graphDbFilenameStem blake3Hex headBranch commitSha = graphDbFilenameStem blake3Hex headBranch otherSha) :
    detachedCommitPrefix commitSha = detachedCommitPrefix otherSha := by
  have unborn : ∀ commitPrefix : Text, "detached-" ++ commitPrefix ≠ sanitizeBranchForFilename headBranch := by
    intro commitPrefix eq
    have first := congrArg (fun s : Text => s.head?) eq
    revert first
    simp [show sanitizeBranchForFilename headBranch = "HEAD" from by decide]
  unfold graphDbFilenameStem at same
  rw [if_pos rfl, if_pos rfl] at same
  cases found : detachedCommitPrefix commitSha with
  | some commitPrefix =>
    cases found' : detachedCommitPrefix otherSha with
    | some otherPrefix =>
      rw [found, found'] at same
      rw [List.append_cancel_left same]
    | none =>
      rw [found, found'] at same
      exact absurd same (unborn commitPrefix)
  | none =>
    cases found' : detachedCommitPrefix otherSha with
    | some otherPrefix =>
      rw [found, found'] at same
      exact absurd same.symm (unborn otherPrefix)
    | none => rfl

theorem sanitize_eq_headStem (named : branch ≠ headBranch)
    (same : sanitizeBranchForFilename branch = graphDbFilenameStem blake3Hex headBranch commitSha) :
    ∃ commitPrefix, detachedCommitPrefix commitSha = some commitPrefix ∧ branch = "detached-" ++ commitPrefix := by
  unfold graphDbFilenameStem at same
  rw [if_pos rfl] at same
  cases found : detachedCommitPrefix commitSha with
  | some commitPrefix =>
    rw [found] at same
    have clean : '_' ∉ sanitizeBranchForFilename branch := same ▸ fun mem => (mem_detached found mem).1 rfl
    exact ⟨commitPrefix, rfl, (eq_of_sanitize clean).symm.trans same⟩
  | none =>
    rw [found] at same
    have same : sanitizeBranchForFilename branch = "HEAD" := same.trans (by decide)
    have clean : '_' ∉ sanitizeBranchForFilename branch := same ▸ (by decide)
    exact absurd ((eq_of_sanitize clean).symm.trans same) named

end Stems

section Family

variable {stem name : Text} {v : UInt32}

theorem graphDbFileMetadata_fileName (mem : name ∈ graphDbFamilyFiles (fileName stem v)) :
    graphDbFileMetadata name = some ⟨v.toNat, detachedPrefix stem⟩ := by
  have digits : '.' ∉ decimal v.toNat := fun mem => absurd (CodeIndex.decimal_isDigit mem) (by decide)
  have stripped : fileSuffixes.findSome? (fun suffix => Text.stripSuffix suffix (fileName stem v)) =
      some (stem ++ '.' :: decimal v.toNat) := by
    have first : Text.stripSuffix ".db" (fileName stem v) = some (stem ++ '.' :: decimal v.toNat) :=
      Text.stripSuffix_eq_some.mpr rfl
    rw [fileSuffixes, List.findSome?_cons, first]
  have parsed : History.parseU32 (decimal v.toNat) = some v.toNat :=
    (CodeIndex.parseUnsigned_decimal v.toNat_lt : CodeIndex.parseUnsigned 32 _ = _)
  have family : graphDbFileMetadata name = graphDbFileMetadata (fileName stem v) :=
    graphDbFileMetadata_of_mem mem
  rw [family]
  unfold graphDbFileMetadata
  rw [stripped, Option.bind_eq_bind, Option.bind_some]
  rw [show Text.rsplitOnce "." (stem ++ '.' :: decimal v.toNat) = some (stem, decimal v.toNat) from
    Text.rsplitOnce_of_not_mem digits stem]
  simp only [Option.bind_eq_bind, Option.bind_some, parsed]

theorem graphDbBasePath_fileName (mem : name ∈ graphDbFamilyFiles (fileName stem v)) :
    graphDbBasePath name = fileName stem v :=
  graphDbBasePath_of_mem mem

theorem isActiveGraphDbFamily_fileName (graph : (graphDbFileMetadata name).isSome = true) :
    isActiveGraphDbFamily name (fileName stem v) = true ↔ name ∈ graphDbFamilyFiles (fileName stem v) := by
  have base : graphDbBasePath (fileName stem v) = fileName stem v := graphDbBasePath_fileName List.mem_cons_self
  unfold isActiveGraphDbFamily
  rw [decide_eq_true_iff, base]
  constructor
  · intro same
    rw [← same]
    exact mem_graphDbFamilyFiles_base graph
  · exact graphDbBasePath_fileName

end Family

end OrbitGraph.DbPath
