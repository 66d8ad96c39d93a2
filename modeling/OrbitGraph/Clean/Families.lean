import OrbitGraph.History.Versions

/-!
Which graph database files `clean` finds, and what it decides about each family.

A family is the database file with its sidecars, and is named by the database
file. Paths are names in the graph directory. Git is what its answers are: a
lookup of an id prefix, the references, and ancestry.
-/

namespace OrbitGraph.Clean

open Lib

def extractorVersion : Nat := 24

/-! ### File names -/

/-- The sidecar suffixes of `graph_db_file_metadata`, after the database's own. -/
def fileSuffixes : List Text :=
  [".db", ".db-wal", ".db-shm", ".db.close.lock", ".db.lock"]

structure GraphDbFileMetadata where
  extractorVersion : Nat
  detachedCommitPrefix : Option Text

def isAsciiHexDigit (c : Char) : Bool :=
  c.isDigit || ('a' ≤ c && c ≤ 'f') || ('A' ≤ c && c ≤ 'F')

/-- The commit prefix in the stem of a detached database's name. -/
def detachedPrefix (stem : Text) : Option Text :=
  (Text.stripPrefix "detached-" stem).bind fun hash =>
    if Text.byteLen hash = 12 ∧ hash.all isAsciiHexDigit = true then some hash else none

def graphDbFileMetadata (fileName : Text) : Option GraphDbFileMetadata := do
  let dbName ← fileSuffixes.findSome? fun suffix => Text.stripSuffix suffix fileName
  let (stem, version) ← Text.rsplitOnce "." dbName
  let extractorVersion ← History.parseU32 version
  some { extractorVersion, detachedCommitPrefix := detachedPrefix stem }

/-- The suffixes that `graph_db_base_path` replaces. -/
def sidecarSuffixes : List Text :=
  [".db-wal", ".db-shm", ".db.lock", ".db.close.lock"]

def graphDbBasePath (fileName : Text) : Text :=
  match sidecarSuffixes.findSome? fun suffix => Text.stripSuffix suffix fileName with
  | some stem => stem ++ ".db"
  | none => fileName

def graphDbSidecar (dbPath : Text) (suffix : String) : Text := dbPath ++ suffix.toList

def lockFile (dbPath : Text) : Text := graphDbSidecar dbPath ".lock"

def closeLockFile (dbPath : Text) : Text := graphDbSidecar dbPath ".close.lock"

def graphDbFamilyFiles (dbPath : Text) : List Text :=
  [dbPath, graphDbSidecar dbPath "-wal", graphDbSidecar dbPath "-shm", lockFile dbPath,
    closeLockFile dbPath]

theorem graphDbBasePath_of_metadata {name : Text} (graph : (graphDbFileMetadata name).isSome = true) :
    ∃ stem, graphDbBasePath name = stem ++ ".db" := by
  unfold graphDbBasePath
  split
  next stem _ => exact ⟨stem, rfl⟩
  next none =>
    obtain ⟨metadata, found⟩ := Option.isSome_iff_exists.mp graph
    obtain ⟨dbName, stripped, _⟩ := Option.bind_eq_some_iff.mp found
    simp only [sidecarSuffixes, List.findSome?_eq_none_iff, List.forall_mem_cons] at none
    simp only [fileSuffixes, List.findSome?_cons, none, List.findSome?_nil] at stripped
    split at stripped
    next stem h => exact ⟨stem, Text.stripSuffix_eq_some.mp h⟩
    next => cases stripped

theorem graphDbBasePath_of_mem {stem file : Text}
    (mem : file ∈ graphDbFamilyFiles (stem ++ ".db")) :
    graphDbBasePath file = stem ++ ".db" := by
  simp only [graphDbFamilyFiles, lockFile, closeLockFile, graphDbSidecar, List.mem_cons,
    List.not_mem_nil, or_false] at mem
  rcases mem with rfl | rfl | rfl | rfl | rfl <;>
    simp [graphDbBasePath, sidecarSuffixes, Text.stripSuffix, Text.stripPrefix]

theorem mem_graphDbFamilyFiles_base {name : Text} (graph : (graphDbFileMetadata name).isSome = true) :
    name ∈ graphDbFamilyFiles (graphDbBasePath name) := by
  simp only [graphDbFamilyFiles, lockFile, closeLockFile, graphDbSidecar]
  unfold graphDbBasePath
  split
  next stem found =>
    obtain ⟨suffix, mem, stripped⟩ := List.exists_of_findSome?_eq_some found
    obtain rfl := Text.stripSuffix_eq_some.mp stripped
    simp only [sidecarSuffixes, List.mem_cons, List.not_mem_nil, or_false] at mem
    rcases mem with rfl | rfl | rfl | rfl <;> simp
  next => exact List.mem_cons_self

theorem graphDbFileMetadata_of_mem {stem file : Text}
    (mem : file ∈ graphDbFamilyFiles (stem ++ ".db")) :
    graphDbFileMetadata file = graphDbFileMetadata (stem ++ ".db") := by
  simp only [graphDbFamilyFiles, lockFile, closeLockFile, graphDbSidecar, List.mem_cons,
    List.not_mem_nil, or_false] at mem
  rcases mem with rfl | rfl | rfl | rfl | rfl <;>
    simp [graphDbFileMetadata, fileSuffixes, Text.stripSuffix, Text.stripPrefix]

/-! ### The directory -/

/-- A file of the graph directory. -/
structure StateFile where
  /-- Why `check_state_file` refuses the file, if it does. -/
  refused : Option Text
  /-- Whether another process holds a lock on the file. -/
  held : Bool
  /-- What reading the branch and the commit from it as a database gives. -/
  stored : Except Text (Option Text × Option Text)

abbrev Directory := List (Text × StateFile)

namespace Directory

def lookup (d : Directory) (name : Text) : Option StateFile :=
  (d.find? fun entry => entry.1 = name).map Prod.snd

def remove (d : Directory) (name : Text) : Directory := d.filter fun entry => entry.1 ≠ name

def newFile : StateFile where
  refused := none
  held := false
  stored := .error "file is not a database"

def create (d : Directory) (name : Text) : Directory :=
  if (d.lookup name).isSome then d else d ++ [(name, newFile)]

variable {d : Directory} {name other : Text}

theorem lookup_remove :
    (d.remove name).lookup other = if other = name then none else d.lookup other := by
  simp only [lookup, remove, find?_filter_ne]
  by_cases h : other = name <;> simp [h]

theorem lookup_create :
    (d.create name).lookup other =
      if other = name then some ((d.lookup name).getD newFile) else d.lookup other := by
  unfold create
  by_cases there : (d.lookup name).isSome = true
  · rw [if_pos there]
    obtain ⟨file, found⟩ := Option.isSome_iff_exists.mp there
    by_cases h : other = name
    · simp [h, found]
    · simp [h]
  · rw [if_neg there]
    have absent : d.lookup name = none := Option.not_isSome_iff_eq_none.mp there
    by_cases h : other = name
    · subst h
      simp only [lookup, Option.map_eq_none_iff] at absent
      simp [lookup, List.find?_append, absent]
    · simp [lookup, List.find?_append, h, Ne.symm h]

theorem mem_names : name ∈ d.map Prod.fst ↔ (d.lookup name).isSome = true := by
  simp only [lookup, Option.isSome_map, List.find?_isSome, List.mem_map, decide_eq_true_eq]

end Directory

/-! ### Git -/

/-- Why Git could not look up a commit. -/
inductive LookupError where
  | notFound
  | other (message : Text)

/-- What a reference peels to: a commit, nothing (a dangling reference, or a tag of
something else), or an error. -/
inductive Peeled where
  | commit (oid : History.Oid)
  | nothing
  | unreadable (message : Text)

structure Reference where
  name : Text
  peeled : Peeled

/-- Whether a reference is one of `refs/`. -/
def Reference.inRefs (reference : Reference) : Bool := Text.startsWith "refs/" reference.name

/-- The answers of a repository. -/
structure GitView where
  findCommitByPrefix : Text → Except LookupError History.Oid
  references : Except Text (List (Except Text Reference))
  descendantOf : History.Oid → History.Oid → Except Text Bool

inductive Reachability where
  | reachable
  | unreachable
  | unknown (detail : Text)

namespace GitView

variable (git : GitView)

def walkReferences (commit : History.Oid) : List (Except Text Reference) → Reachability
  | [] => .unreachable
  | .error message :: _ => .unknown ("read git ref: " ++ message)
  | .ok reference :: rest =>
    if reference.inRefs then
      match reference.peeled with
      | .nothing => walkReferences commit rest
      | .unreadable message =>
        .unknown ("peel git ref " ++ reference.name ++ ": " ++ message)
      | .commit tip =>
        if tip = commit then .reachable
        else
          match git.descendantOf tip commit with
          | .ok true => .reachable
          | .ok false => walkReferences commit rest
          | .error message =>
            .unknown ("check reachability from " ++ reference.name ++ ": " ++
              message)
    else walkReferences commit rest

def detachedCommitReachability (commitPrefix : Text) : Reachability :=
  match git.findCommitByPrefix commitPrefix with
  | .error .notFound => .unreachable
  | .error (.other message) =>
    .unknown ("resolve detached commit " ++ commitPrefix ++ ": " ++ message)
  | .ok commit =>
    match git.references with
    | .error message => .unknown ("list git refs: " ++ message)
    | .ok references => git.walkReferences commit references

/-- A reference that was read, and from which Git says the commit is not reached. -/
def Misses (commit : History.Oid) (reference : Except Text Reference) : Prop :=
  ∃ r, reference = .ok r ∧ (r.inRefs = true → r.peeled = .nothing ∨
      ∃ tip, r.peeled = .commit tip ∧ tip ≠ commit ∧ git.descendantOf tip commit = .ok false)

/-- Git proved the commit gone, or that no reference reaches it. -/
def ProvablyUnreachable (commitPrefix : Text) : Prop :=
  git.findCommitByPrefix commitPrefix = .error .notFound ∨
    ∃ commit references, git.findCommitByPrefix commitPrefix = .ok commit ∧
      git.references = .ok references ∧ ∀ reference ∈ references, git.Misses commit reference

variable {git}

theorem walkReferences_unreachable {commit : History.Oid} {references : List (Except Text Reference)} :
    git.walkReferences commit references = .unreachable ↔ ∀ reference ∈ references, git.Misses commit reference := by
  induction references with
  | nil => simp [walkReferences]
  | cons reference rest ih =>
    rw [List.forall_mem_cons]
    cases reference with
    | error message => simp [walkReferences, Misses]
    | ok r =>
      by_cases inRefs : r.inRefs = true
      · cases hpeeled : r.peeled with
        | nothing => simp [walkReferences, Misses, inRefs, hpeeled, ih]
        | unreadable message => simp [walkReferences, Misses, inRefs, hpeeled]
        | commit tip =>
          by_cases same : tip = commit
          · simp [walkReferences, Misses, inRefs, hpeeled, same]
          · cases hdesc : git.descendantOf tip commit with
            | error message => simp [walkReferences, Misses, inRefs, hpeeled, same, hdesc]
            | ok answer =>
              cases answer <;>
                simp [walkReferences, Misses, inRefs, hpeeled, same, hdesc, ih]
      · simp [walkReferences, Misses, inRefs, ih]

theorem detachedCommitReachability_unreachable {commitPrefix : Text} :
    git.detachedCommitReachability commitPrefix = .unreachable ↔ git.ProvablyUnreachable commitPrefix := by
  unfold detachedCommitReachability ProvablyUnreachable
  cases hfind : git.findCommitByPrefix commitPrefix with
  | error e => cases e <;> simp
  | ok commit =>
    cases hrefs : git.references with
    | error message => simp
    | ok references => simp [walkReferences_unreachable]

end GitView

/-! ### The decision -/

inductive CleanReason where
  | olderExtractorVersion
  | unreachableDetachedCommit
  | newerExtractorVersion
  | current
  | locked
  | unverifiable
  deriving DecidableEq

inductive CleanDecision where
  | delete (reason : CleanReason)
  | keep (reason : CleanReason) (detail : Option Text)

def detachedDbMetaMatches (d : Directory) (path commitPrefix : Text) : Except Text Unit :=
  match d.lookup (graphDbBasePath path) with
  | none => .error "the database file is missing, so its metadata cannot be read".toList
  | some file =>
    match file.stored with
    | .error message => .error ("read detached graph metadata: ".toList ++ message)
    | .ok (branch, commit) =>
      if branch = some "HEAD".toList ∧ commit.any (Text.startsWith commitPrefix) = true then .ok ()
      else
        .error ("stored metadata (branch ".toList ++ branch.getD "absent".toList ++
          ", commit ".toList ++ commit.getD "absent".toList ++
          ") does not match the detached file name".toList)

def judgeGraphDbFamily (git : Except Text GitView) (d : Directory) (path : Text) : CleanDecision :=
  match graphDbFileMetadata path with
  | none => .keep .unverifiable (some "not a graph database file name")
  | some metadata =>
    if metadata.extractorVersion < extractorVersion then .delete .olderExtractorVersion
    else if extractorVersion < metadata.extractorVersion then .keep .newerExtractorVersion none
    else
      match metadata.detachedCommitPrefix with
      | none => .keep .current none
      | some commitPrefix =>
        match detachedDbMetaMatches d path commitPrefix with
        | .error detail => .keep .unverifiable (some detail)
        | .ok () =>
          match git with
          | .error message =>
            .keep .unverifiable
              (some ("no Git repository to check reachability: " ++ message))
          | .ok git =>
            match git.detachedCommitReachability commitPrefix with
            | .unreachable => .delete .unreachableDetachedCommit
            | .reachable => .keep .current none
            | .unknown detail => .keep .unverifiable (some detail)

def ProvenDead (git : Except Text GitView) (d : Directory) (family : Text) : Prop :=
  ∃ metadata, graphDbFileMetadata family = some metadata ∧
    (metadata.extractorVersion < extractorVersion ∨ metadata.extractorVersion = extractorVersion ∧
        ∃ commitPrefix, metadata.detachedCommitPrefix = some commitPrefix ∧
          detachedDbMetaMatches d family commitPrefix = .ok () ∧
          ∃ view, git = .ok view ∧ view.ProvablyUnreachable commitPrefix)

theorem judgeGraphDbFamily_delete {git : Except Text GitView} {d : Directory} {family : Text} :
    (∃ reason, judgeGraphDbFamily git d family = .delete reason) ↔ ProvenDead git d family := by
  unfold judgeGraphDbFamily ProvenDead
  cases hmeta : graphDbFileMetadata family with
  | none => simp
  | some metadata =>
    by_cases older : metadata.extractorVersion < extractorVersion
    · simp [older]
    · by_cases newer : extractorVersion < metadata.extractorVersion
      · have different : metadata.extractorVersion ≠ extractorVersion := by omega
        simp [older, newer, different]
      · have same : metadata.extractorVersion = extractorVersion := by omega
        cases hprefix : metadata.detachedCommitPrefix with
        | none => simp [same, hprefix]
        | some commitPrefix =>
          cases hmatch : detachedDbMetaMatches d family commitPrefix with
          | error detail => simp [same, hprefix, hmatch]
          | ok u =>
            cases git with
            | error message => simp [same, hprefix, hmatch]
            | ok view =>
              have proven : view.detachedCommitReachability commitPrefix = .unreachable ↔
                  view.ProvablyUnreachable commitPrefix :=
                GitView.detachedCommitReachability_unreachable
              cases hreach : view.detachedCommitReachability commitPrefix with
              | unreachable =>
                simp [same, hprefix, hmatch, hreach, proven.mp hreach]
              | reachable | unknown detail =>
                have := mt proven.mpr (by simp [hreach])
                simp [same, hprefix, hmatch, hreach, this]

end OrbitGraph.Clean
