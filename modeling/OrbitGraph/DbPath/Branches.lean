import OrbitGraph.DbPath.Names

/-!
Which database a checkout selects.

A checkout has the database that its branch or commit is named by, and a branch that has
none yet may have one from before branches were hashed. Such a file is taken only if it
records the branch; since its name is the sanitized one, it can be the name of another
branch's database or of a commit's, which the record is there to tell.
-/

namespace OrbitGraph.DbPath

open Lib Clean

inductive SelectError where
  | invalidData (operation reason : Text)
  | state (error : StateError)
  | sqlite (operation reason : Text)
  | timeout (operation : Text)

/-- What Git says of the `HEAD` of a worktree: where it is, and for a branch the name, if that is a text. -/
inductive Head where
  | noRepository
  | unopenable (message : Text)
  | unborn
  | unreadable (message : Text)
  | branch (shorthand : Option Text) (target : Option History.Oid)
  | detached (target : Option History.Oid)

structure GitContext where
  branch : Text
  commitSha : Text

namespace GitContext

def withoutGit : GitContext := ⟨headBranch, []⟩

def forWorktree (worktreeRoot : Text) : Head → Except SelectError GitContext
  | .noRepository => .ok withoutGit
  | .unopenable message =>
    .error (.invalidData "open the worktree's Git repository"
      ("cannot open the Git repository at " ++ worktreeRoot ++ ": " ++ message ++
        "; repair it, then retry"))
  | .unborn => .ok withoutGit
  | .unreadable message =>
    .error (.invalidData "read the worktree's HEAD"
      ("cannot read HEAD in " ++ worktreeRoot ++ ": " ++ message ++
        "; repair HEAD (for example with `git checkout <branch>`), then retry"))
  | .branch shorthand target =>
    .ok ⟨(shorthand.filter fun name => name ≠ []).getD headBranch, (target.map History.Oid.hex).getD []⟩
  | .detached target => .ok ⟨headBranch, (target.map History.Oid.hex).getD []⟩

end GitContext

/-! ### The selection -/

/-- `EXTRACTOR_VERSION`, as its type has it. -/
def currentVersion : UInt32 := 24

def checkStateFile (d : Directory) (path : Text) : Except SelectError Bool :=
  match d.lookup path with
  | none => .ok false
  | some file =>
    match file.refused with
    | none => .ok true
    | some reason => .error (.state (.unsafeStatePath path reason))

def checkSidecars (d : Directory) (physicalDb : Text) : Except SelectError Unit :=
  ["-wal", "-shm", ".lock", ".close.lock"].forM fun suffix => do
    discard (checkStateFile d (graphDbSidecar physicalDb suffix))

/-- `existing_physical_db`: whether the database is there. -/
def existingPhysicalDb (d : Directory) (dbPath : Text) : Except SelectError Bool := do
  if ← checkStateFile d dbPath then
    checkSidecars d dbPath
    return true
  return false

/-- The branch in the `meta` table of a database. -/
def storedBranch (d : Directory) (path : Text) : Except SelectError (Option Text) :=
  match (d.lookup path).map StateFile.stored with
  | some (.ok (branch, _)) => .ok branch
  | some (.error message) => .error (.sqlite "read legacy graph branch" message)
  | none => .ok none

def existingLegacyDbPathForBranch (d : Directory) (branch : Text) : Except SelectError (Option GraphDbPath) := do
  let path := legacyDbPath branch currentVersion
  if branch = headBranch then return none
  -- Such a name could never have been created.
  if 255 < Text.byteLen path then return none
  if ← existingPhysicalDb d path then
    let stored ← storedBranch d path
    return if stored = some branch then some ⟨path, branch, currentVersion⟩ else none
  return none

section Select

variable (blake3Hex : Text → Text)

def GitContext.dbPath (git : GitContext) : GraphDbPath :=
  resolveDbPathForCommit blake3Hex git.branch git.commitSha currentVersion

/-- `existing_legacy_db_path`, with what taking the observation lock gives a writer. -/
def existingLegacyDbPath (d : Directory) (git : GitContext) (writer : Bool) (observation : Except SelectError Unit) :
    Except SelectError (Option GraphDbPath) := do
  if ← existingPhysicalDb d (git.dbPath blake3Hex).path then return none
  if writer then observation
  existingLegacyDbPathForBranch d git.branch

/-- `open` and `resolve_worktree_db_path`, up to the path. -/
def resolveWorktreeDbPath (d : Directory) (git : GitContext) (writer : Bool) (observation : Except SelectError Unit) :
    Except SelectError GraphDbPath := do
  let legacy ← existingLegacyDbPath blake3Hex d git writer observation
  return legacy.getD (git.dbPath blake3Hex)

end Select

/-- The last check of `validate_identity`: a database is opened for the branch that it records, and for no other. -/
def recordsBranch (d : Directory) (path expectedBranch : Text) : Bool :=
  match (d.lookup path).map StateFile.stored with
  | some (.ok (branch, _)) => branch = some expectedBranch
  | _ => false

section Selected

variable {blake3Hex : Text → Text} {d : Directory} {git : GitContext} {writer : Bool} {observation : Except SelectError Unit}
  {path : GraphDbPath}

/-- A legacy database is that of a named branch, which it records. -/
theorem existingLegacyDbPathForBranch_some {branch : Text}
    (found : existingLegacyDbPathForBranch d branch = .ok (some path)) :
    branch ≠ headBranch ∧ path = ⟨legacyDbPath branch currentVersion, branch, currentVersion⟩ ∧
      recordsBranch d path.path branch = true := by
  unfold existingLegacyDbPathForBranch at found
  dsimp only at found
  split at found
  next => cases found
  next named =>
    split at found
    next => cases found
    next =>
      obtain ⟨there, checked, found⟩ := bind_eq_ok.mp found
      cases there with
      | false => cases found
      | true =>
        obtain ⟨stored, read, found⟩ := bind_eq_ok.mp found
        have found := Except.ok.inj found
        split at found
        next same =>
          obtain rfl := Option.some.inj found
          refine ⟨named, rfl, ?_⟩
          unfold storedBranch at read
          unfold recordsBranch
          split at read
          next eq =>
            obtain rfl := Except.ok.inj read
            rw [eq]
            exact decide_eq_true same
          next => cases read
          next =>
            cases read
            cases same
        next => cases found

theorem resolveWorktreeDbPath_ok (run : resolveWorktreeDbPath blake3Hex d git writer observation = .ok path) :
    path = git.dbPath blake3Hex ∨
      git.branch ≠ headBranch ∧ path = ⟨legacyDbPath git.branch currentVersion, git.branch, currentVersion⟩ ∧
        recordsBranch d path.path git.branch = true := by
  obtain ⟨legacy, looked, rest⟩ := bind_eq_ok.mp run
  obtain rfl := Except.ok.inj rest
  cases legacy with
  | none => exact .inl rfl
  | some path =>
    obtain ⟨there, checked, looked⟩ := bind_eq_ok.mp looked
    cases there with
    | true => cases looked
    | false =>
      refine .inr (existingLegacyDbPathForBranch_some ?_)
      cases writer with
      | false => exact looked
      | true =>
        obtain ⟨_, locked, looked⟩ := bind_eq_ok.mp looked
        exact looked

end Selected

/-! ### Indexes of different branches -/

/-- The same branch, or commits with the same twelve digits; an unborn branch is no commit. -/
def SameIndex (git git' : GitContext) : Prop :=
  git.branch = git'.branch ∧
    (git.branch = headBranch → detachedCommitPrefix git.commitSha = detachedCommitPrefix git'.commitSha)

/-- A branch that is called what the commit of the other checkout is named by, and has a database from before branches were
hashed. -/
def Imitates (d : Directory) (git git' : GitContext) : Prop :=
  git.branch ≠ headBranch ∧ git'.branch = headBranch ∧
    recordsBranch d (legacyDbPath git.branch currentVersion) git.branch = true ∧
      ∃ commitPrefix, detachedCommitPrefix git'.commitSha = some commitPrefix ∧
        git.branch = "detached-" ++ commitPrefix

/-- What `clean` makes of the names of a database's files. -/
structure FamilyReads (path : GraphDbPath) : Prop where
  database : ∀ file ∈ graphDbFamilyFiles path.path, graphDbBasePath file = path.path
  version : ∀ file ∈ graphDbFamilyFiles path.path,
    (graphDbFileMetadata file).map GraphDbFileMetadata.extractorVersion = some path.extractorVersion.toNat
  active : ∀ name, (graphDbFileMetadata name).isSome = true →
    (isActiveGraphDbFamily name path.path = true ↔ name ∈ graphDbFamilyFiles path.path)

theorem FamilyReads.of_fileName {stem branch : Text} {v : UInt32} : FamilyReads ⟨fileName stem v, branch, v⟩ where
  database _ mem := graphDbBasePath_fileName mem
  version _ mem := by rw [graphDbFileMetadata_fileName mem, Option.map_some]
  active _ graph := isActiveGraphDbFamily_fileName graph

section Separate

variable {blake3Hex : Text → Text} {d : Directory} {git git' : GitContext} {path path' : GraphDbPath}

theorem recordsBranch_unique {name branch other : Text} (one : recordsBranch d name branch = true)
    (two : recordsBranch d name other = true) : branch = other := by
  unfold recordsBranch at one two
  cases stored : (d.lookup name).map StateFile.stored with
  | none =>
    rw [stored] at one
    cases one
  | some read =>
    rw [stored] at one two
    cases read with
    | error message => cases one
    | ok meta_ =>
      obtain ⟨recorded, commit⟩ := meta_
      exact Option.mem_unique (of_decide_eq_true one) (of_decide_eq_true two)

theorem sameIndex_of_dbPath (length : ∀ branch, (blake3Hex branch).length = 64)
    (collisionFree : blake3Hex git.branch = blake3Hex git'.branch → git.branch = git'.branch)
    (same : (git.dbPath blake3Hex).path = (git'.dbPath blake3Hex).path) : SameIndex git git' := by
  have stems := fileName_stem same
  by_cases head : git.branch = headBranch
  · by_cases head' : git'.branch = headBranch
    · rw [head, head'] at stems
      exact ⟨head.trans head'.symm, fun _ => headStem_prefix stems⟩
    · rw [head, graphDbFilenameStem.eq_def blake3Hex git'.branch, if_neg head'] at stems
      exact absurd (stems ▸ tilde_mem_branchStem) tilde_notMem_headStem
  · by_cases head' : git'.branch = headBranch
    · rw [head', graphDbFilenameStem.eq_def blake3Hex git.branch, if_neg head] at stems
      exact absurd (stems ▸ tilde_mem_branchStem) tilde_notMem_headStem
    · rw [graphDbFilenameStem, if_neg head, graphDbFilenameStem, if_neg head'] at stems
      exact ⟨collisionFree (branchStem_hash length stems), fun eq => absurd eq head⟩

theorem imitates_of_legacy (named : git.branch ≠ headBranch)
    (recorded : recordsBranch d (legacyDbPath git.branch currentVersion) git.branch = true)
    (same : legacyDbPath git.branch currentVersion = (git'.dbPath blake3Hex).path) : Imitates d git git' := by
  have stems : sanitizeBranchForFilename git.branch = graphDbFilenameStem blake3Hex git'.branch git'.commitSha :=
    fileName_stem same
  by_cases head : git'.branch = headBranch
  · rw [head] at stems
    exact ⟨named, head, recorded, sanitize_eq_headStem named stems⟩
  · rw [graphDbFilenameStem, if_neg head] at stems
    exact absurd (stems ▸ tilde_mem_branchStem) tilde_notMem_sanitize

end Separate

namespace Sample

def blake3Hex (branch : Text) : Text :=
  if branch = "main" then "e726318bbc3fd75ac8733a7e030cc35b6f44d7ee11a8a845413d4cbf0e06a729"
  else if branch = "feat/foo" then "b82af659d93b309182d106510a2c2f7637647397dc009c8fd197b70226903837"
  else if branch = "detached-0123456789ab" then
    "f2d31915b834ec53f50283dc54eb1cd4498dd333d6bc862560fd8ddb377b7b98"
  else List.replicate 64 '0'

theorem blake3Hex_length (branch : Text) : (blake3Hex branch).length = 64 := by
  unfold blake3Hex
  split
  · rfl
  · split
    · rfl
    · split
      · rfl
      · exact List.length_replicate

def commit : History.Oid where
  hex := "0123456789abcdef0123456789abcdef01234567"
  wellFormed := ⟨rfl, fun c mem => of_decide_eq_true (List.all_eq_true.mp
    (show "0123456789abcdef0123456789abcdef01234567".toList.all (fun c => decide (c ∈ History.hexDigits)) = true by decide)
    c mem)⟩

def recorded (branch : Text) : StateFile := ⟨none, false, .ok (some branch, some commit.hex)⟩

def directory : Directory :=
  [("feat_foo.24.db", recorded "feat/foo"),
    ("detached-0123456789ab.24.db", recorded "detached-0123456789ab")]

def onBranch (name : String) : Head := .branch (some name.toList) (some commit)

def selected (head : Head) : Except SelectError GraphDbPath := do
  resolveWorktreeDbPath blake3Hex directory (← GitContext.forWorktree "/work" head) false (.ok ())

end Sample

end OrbitGraph.DbPath
