import Mathlib.Data.List.Sort
import OrbitGraph.Lib.Command
import OrbitGraph.Cache.Model
import OrbitGraph.Changes.Source

/-!
The clean of a snapshot cache: what it reads of each entry, what it decides, and what it
removes.

A run is one process over a directory nobody else changes in the meantime, but for entries
that another process takes away after they were listed. What the file system answers about
an entry is a field of the entry.
-/

namespace OrbitGraph.Cache.Retention

open Lib Changes

/-! ### State files -/

abbrev Path := List (List UInt8)

def Path.display (path : Path) : Text := Text.join ['/'] (path.map fromUtf8Lossy)

/-- The owner and the permission bits of `fs::Metadata`. -/
structure Stat where
  uid : Nat
  mode : Nat
  deriving DecidableEq

def sameOwner (left right : Stat) : Bool := left.uid = right.uid

def isOwnerOnly (stat : Stat) : Bool := stat.mode &&& 0o077 = 0

inductive CacheError where
  | io (operation : Text) (path : Path)
  | metadata (operation : Text) (path : Path)
  | unsafeStatePath (path : Path) (reason : Text)

/-- The text of an error that `clean` keeps as a detail. -/
def CacheError.refusal (path : Path) (reason : Text) : Text :=
  "refusing orbit-graph state path " ++ path.display ++ ": " ++ reason

inductive StateFile (α : Type) where
  /-- Nothing, in a directory where a file can be created or not. -/
  | missing (creatable : Bool)
  /-- Nothing: its directory is gone. -/
  | orphaned
  | unreachable
  | symlink
  | directory (readable : Bool)
  | file (stat : Stat) (readable writable : Bool) (content : α)

def symlinkRefused : Text :=
  "it is a symbolic link, and orbit-graph never follows a link in its state path"

def notRegular : Text := "it is not a regular file"

def otherOwner (uid euid : Nat) : Text :=
  "it is owned by uid " ++ (Nat.repr uid).toList ++ ", not by the current user (uid " ++
    (Nat.repr euid).toList ++ [')']

section Open

variable {α : Type} (euid : Nat) (path : Path)

def checkOwner (stat : Stat) : Except CacheError Unit :=
  if stat.uid = euid then .ok () else .error (.unsafeStatePath path (otherOwner stat.uid euid))

/-- `open_state_file` with `StateAccess::Read`. -/
def openToRead : StateFile α → Except CacheError (Option α)
  | .missing _ => .ok none
  | .orphaned => .ok none
  | .unreachable => .error (.io "open state file" path)
  | .symlink => .error (.unsafeStatePath path symlinkRefused)
  | .directory readable =>
    if readable then .error (.unsafeStatePath path notRegular)
    else .error (.io "open state file" path)
  | .file stat readable _ content =>
    if readable then do
      checkOwner euid path stat
      return some content
    else .error (.io "open state file" path)

/-- `open_state_file` with `StateAccess::Write`, and what is at the path then. A directory is not
opened for writing, so it is no refusal here. -/
def openToWrite (created : α) : StateFile α → Except CacheError (α × StateFile α)
  | .missing creatable =>
    if creatable then .ok (created, .file ⟨euid, 0o600⟩ true true created)
    else .error (.io "open state file" path)
  | .orphaned => .error (.io "open state file" path)
  | .unreachable => .error (.io "open state file" path)
  | .symlink => .error (.unsafeStatePath path symlinkRefused)
  | .directory _ => .error (.io "open state file" path)
  | .file stat readable writable content =>
    if readable && writable then do
      checkOwner euid path stat
      return (content, .file { stat with mode := if isOwnerOnly stat then stat.mode else 0o600 } true true content)
    else .error (.io "open state file" path)

/-- Whether `check_state_file` answers `Ok(true)`. -/
def isStateFile : StateFile α → Bool
  | .file stat _ _ _ => stat.uid = euid
  | _ => false

end Open

/-! ### Entries -/

def CACHE_MARKER_FILE : Text := ".orbit-graph-changes-cache"

def STAGING_PREFIX : Text := ".staging-"

def lockFileName : LockFile → Text
  | .building => "building.lock"
  | .inUse => "in_use.lock"

inductive LockState where
  | free
  | held
  | failing
  deriving DecidableEq

/-- `entry.json` with the time it records. -/
structure EntryDocument where
  metadata : EntryMetadata
  publishedAt : Option Nat

/-- What `symlink_metadata` says of an entry when its provenance is asked for. -/
inductive Found where
  | missing
  | unreachable
  | notDirectory
  | directory (stat : Stat)
  deriving DecidableEq

/-- An entry of the cache directory. -/
structure DirEntry where
  name : List UInt8
  /-- Whether the listing calls it a directory. -/
  isDir : Bool
  /-- `entry_size`, or nothing when it fails. -/
  size : Option Nat
  found : Found
  /-- The content is nothing when it is no `entry.json`. -/
  entryJson : StateFile (Option EntryDocument)
  lastUsed : StateFile (List UInt8)
  building : StateFile LockState
  inUse : StateFile LockState
  /-- Whether `remove_dir_all` succeeds. -/
  removable : Bool

namespace DirEntry

variable (e : DirEntry)

/-- The file name as the loop compares it. -/
def text : Text := fromUtf8Lossy e.name

def lock : LockFile → StateFile LockState
  | .building => e.building
  | .inUse => e.inUse

def setLock (file : LockFile) (node : StateFile LockState) : DirEntry :=
  match file with
  | .building => { e with building := node }
  | .inUse => { e with inUse := node }

end DirEntry

/-- The cache directory. No two entries have one name. -/
structure CacheDir where
  dir : Path
  /-- `chosen_state_dir`: whether the directory is there. -/
  located : Except CacheError Bool
  stat : Stat
  marker : StateFile Unit
  /-- What `read_dir` lists, or nothing when it fails. -/
  listing : Option (List DirEntry)
  distinct : ∀ entries, listing = some entries → (entries.map DirEntry.name).Nodup

namespace CacheDir

variable (cache : CacheDir)

def entries : List DirEntry := cache.listing.getD []

def join (name : List UInt8) : Path := cache.dir ++ [name]

/-- A file in the directory of an entry. -/
def within (path : Path) (file : Text) : Path := path ++ [file.flatMap String.utf8EncodeChar]

def lockAt (path : Path) (file : LockFile) : StateFile LockState :=
  match cache.entries.find? fun e => cache.join e.name = path with
  | some e => e.lock file
  | none => .orphaned

/-- What `remove_dir_all` meets at a path. -/
def removableAt (path : Path) : Bool :=
  match cache.entries.find? fun e => cache.join e.name = path with
  | some e => e.removable
  | none => true

def setLock (path : Path) (file : LockFile) (node : StateFile LockState) : CacheDir :=
  let set (e : DirEntry) := if cache.join e.name = path then e.setLock file node else e
  { cache with
    listing := cache.listing.map (·.map set)
    distinct := by
      intro entries eq
      obtain ⟨old, listed, rfl⟩ := Option.map_eq_some_iff.mp eq
      have names : (old.map set).map DirEntry.name = old.map DirEntry.name := by
        rw [List.map_map]
        refine List.map_congr_left fun e _ => ?_
        dsimp only [Function.comp, set]
        split
        · cases file <;> rfl
        · rfl
      rw [names]
      exact cache.distinct old listed }

/-- The directory without what is at a path. -/
def remove (path : Path) : CacheDir :=
  { cache with
    listing := cache.listing.map (·.filter fun e => cache.join e.name ≠ path)
    distinct := by
      intro entries eq
      obtain ⟨old, listed, rfl⟩ := Option.map_eq_some_iff.mp eq
      exact (cache.distinct old listed).sublist (List.filter_sublist.map _) }

end CacheDir

/-! ### What is reported -/

inductive CleanReason where
  | staleKey
  | unreferencedCommit
  | abandonedStaging
  | expired
  | evictedLru
  | current
  | unrecognized
  | building
  | inUse
  | unreadable
  | newerIdentity
  | unknownAge
  | unverifiable
  | noCacheMarker
  | untrusted
  deriving DecidableEq

structure CleanedEntry where
  path : Path
  reason : CleanReason
  sizeBytes : Nat
  detail : Option Text

structure Duration where
  secs : Nat
  nanos : Nat
  nanos_lt : nanos < 1000000000

def Duration.asNanos (duration : Duration) : Nat := duration.secs * 1000000000 + duration.nanos

structure CleanOptions where
  olderThan : Option Duration
  keep : Option Nat
  nowSeconds : Option Nat
  apply : Bool

structure CleanReport where
  cacheDir : Path
  wouldDelete : List CleanedEntry
  kept : List CleanedEntry
  applied : Bool

inductive Liveness where
  | live
  | gone
  | unknown (detail : Text)

/-- What a clean runs in: the binary, its user, the repository and the clock. -/
structure Surroundings where
  ours : Key
  euid : Nat
  isLive : Text → Liveness
  clock : Nat

/-! ### One entry -/

inductive Provenance where
  | missing
  | private'
  | loose
  | foreign
  deriving DecidableEq

/-- Whether `entry.json`, when it is there, is this user's own. -/
def keyIsPrivate (cache : Stat) (path : Path) {α : Type} : StateFile α → Except CacheError Bool
  | .missing _ => .ok true
  | .orphaned => .ok true
  | .unreachable => .error (.io "inspect snapshot cache entry" path)
  | .symlink => .ok false
  | .directory _ => .ok false
  | .file stat _ _ _ => .ok (sameOwner stat cache && isOwnerOnly stat)

def provenance (cache : Stat) (path : Path) (e : DirEntry) : Except CacheError Provenance :=
  match e.found with
  | .missing => .ok .missing
  | .unreachable => .error (.io "inspect snapshot cache entry" path)
  | .notDirectory => .ok .foreign
  | .directory stat =>
    if sameOwner stat cache then do
      let key ← keyIsPrivate cache path e.entryJson
      return if isOwnerOnly stat && key then .private' else .loose
    else .ok .foreign

def readMetadata (euid : Nat) (path : Path) (e : DirEntry) : Except CacheError (Option EntryDocument) := do
  match ← openToRead euid (CacheDir.within path "entry.json") e.entryJson with
  | none => return none
  | some (some document) => return some document
  | some none => .error (.metadata "parse snapshot cache entry" (CacheDir.within path "entry.json"))

/-- `str::parse::<u64>` of digits. -/
def parseU64 (digits : List UInt8) : Option Nat :=
  let n := digits.foldl (fun n b => n * 10 + (b.toNat - 48)) 0
  if n < 2 ^ 64 then some n else none

/-- The digits before a newline that ends the contents. Bytes that are no UTF-8 are no digits. -/
def lastUsedDigits (contents : List UInt8) : Option (List UInt8) :=
  if contents.getLast? = some 10 then some contents.dropLast else none

def readLastUsed (euid : Nat) (path : Path) (e : DirEntry) : Option Nat :=
  match openToRead euid (CacheDir.within path "last_used") e.lastUsed with
  | .ok (some contents) =>
    match lastUsedDigits contents with
    | some digits =>
      if digits = [] || !(digits.all fun b => 48 ≤ b.toNat && b.toNat ≤ 57) then none
      else parseU64 digits
    | none => none
  | _ => none

def isHexDigit (c : Char) : Bool :=
  c.isDigit || ('a'.toNat ≤ c.toNat && c.toNat ≤ 'f'.toNat) || ('A'.toNat ≤ c.toNat && c.toNat ≤ 'F'.toNat)

def isCommitSha (value : Text) : Bool := Text.byteLen value = 40 && value.all isHexDigit

/-- What the loop does with one entry. -/
inductive Verdict where
  | skip
  | keep (entry : CleanedEntry)
  | candidate (entry : CleanedEntry) (lock : LockFile)
  | current (age : Option Nat) (entry : CleanedEntry)

def CleanedEntry.new (path : Path) (reason : CleanReason) (sizeBytes : Nat) : CleanedEntry :=
  ⟨path, reason, sizeBytes, none⟩

section Run

variable (env : Surroundings)

/-- The verdict on an entry whose `entry.json` was read. -/
def judgeKey (path : Path) (size : Nat) (e : DirEntry) (document : EntryDocument) : Verdict :=
  match document.metadata.keyMatch env.ours e.text with
  | .older => .candidate (.new path .staleKey size) .inUse
  | .newer => .keep (.new path .newerIdentity size)
  | .otherCommit => .keep (.new path .unrecognized size)
  | .current =>
    match env.isLive e.text with
    | .gone => .candidate (.new path .unreferencedCommit size) .inUse
    | .unknown detail => .keep { CleanedEntry.new path .unverifiable size with detail := some detail }
    | .live => .current ((readLastUsed env.euid path e).or document.publishedAt) (.new path .current size)

def judgePrivate (path : Path) (size : Nat) (e : DirEntry) : Verdict :=
  match readMetadata env.euid path e with
  | .ok (some document) => judgeKey env path size e document
  | .ok none => .keep (.new path .unreadable size)
  | .error _ => .keep (.new path .unreadable size)

/-- The body of the loop over the listing. -/
def judge (cache : CacheDir) (e : DirEntry) : Except CacheError Verdict :=
  let path := cache.join e.name
  if e.text = CACHE_MARKER_FILE then .ok .skip
  else
    match e.size with
    | none => .error (.io "read snapshot cache entry size" path)
    | some size =>
      if Text.startsWith STAGING_PREFIX e.text && e.isDir then
        .ok (.candidate (.new path .abandonedStaging size) .building)
      else if !isCommitSha e.text || !e.isDir then .ok (.keep (.new path .unrecognized size))
      else do
        match ← provenance cache.stat path e with
        | .private' => return judgePrivate env path size e
        | .missing => return .skip
        | .loose => return .candidate (.new path .untrusted size) .inUse
        | .foreign => return .keep (.new path .untrusted size)

/-! ### The retention policy -/

abbrev Candidate := CleanedEntry × LockFile

namespace Verdict

def toCandidate : Verdict → Option Candidate
  | candidate entry lock => some (entry, lock)
  | _ => none

def toCurrent : Verdict → Option (Option Nat × CleanedEntry)
  | current age entry => some (age, entry)
  | _ => none

def toKept : Verdict → Option CleanedEntry
  | keep entry => some entry
  | _ => none

end Verdict

/-- `candidates`, `current` and `report.kept` after the loop over the listing. -/
structure Sorting where
  candidates : List Candidate
  current : List (Option Nat × CleanedEntry)
  kept : List CleanedEntry

/-- The lists that the loop pushes to. -/
def Sorting.of (verdicts : List Verdict) : Sorting where
  candidates := verdicts.filterMap Verdict.toCandidate
  current := verdicts.filterMap Verdict.toCurrent
  kept := verdicts.filterMap Verdict.toKept

/-- `candidates`, `retained` and `report.kept` in the loop over the current entries. -/
structure Retained where
  candidates : List Candidate
  retained : List (Nat × CleanedEntry)
  kept : List CleanedEntry

/-- One round of the loop over the current entries. -/
def ageStep (limit : Option Nat) (now : Nat) (r : Retained) : Option Nat × CleanedEntry → Retained
  | (none, entry) => { r with kept := r.kept ++ [{ entry with reason := .unknownAge }] }
  | (some lastUsed, entry) =>
    if limit.any fun limit => limit < now - lastUsed then
      { r with candidates := r.candidates ++ [({ entry with reason := .expired }, .inUse)] }
    else { r with retained := r.retained ++ [(lastUsed, entry)] }

/-- The order of `retained.sort_by`: the most recent first, then by path. -/
def recentFirst (left right : Nat × CleanedEntry) : Prop :=
  right.1 < left.1 ∨ (left.1 = right.1 ∧ left.2.path ≤ right.2.path)

instance : DecidableRel recentFirst := fun left right =>
  inferInstanceAs (Decidable (right.1 < left.1 ∨ (left.1 = right.1 ∧ left.2.path ≤ right.2.path)))

/-- The entries beyond the `keep` most recently used become candidates. -/
def evict (keep : Option Nat) (r : Retained) : Retained :=
  match keep with
  | none => r
  | some keep =>
    let sorted := r.retained.insertionSort recentFirst
    { r with
      candidates := r.candidates ++ (sorted.drop keep).map fun pair =>
        ({ pair.2 with reason := .evictedLru }, .inUse)
      retained := sorted.take keep }

/-- What is to be removed and what is kept, before the locks. -/
def retain (options : CleanOptions) (sorting : Sorting) : List Candidate × List CleanedEntry :=
  if options.olderThan.isSome || options.keep.isSome then
    let now := options.nowSeconds.getD env.clock
    let aged := sorting.current.foldl (ageStep (options.olderThan.map Duration.secs) now)
      ⟨sorting.candidates, [], sorting.kept⟩
    let r := evict options.keep aged
    (r.candidates, r.kept ++ r.retained.map Prod.snd)
  else (sorting.candidates, sorting.kept ++ sorting.current.map Prod.snd)

/-! ### The locks -/

inductive Mode where
  | plan
  | apply
  deriving DecidableEq

def lockIsHeld (path : Path) (file : LockFile) (node : StateFile LockState) : Except CacheError Bool := do
  let lockPath := CacheDir.within path (lockFileName file)
  match ← openToRead env.euid lockPath node with
  | none => return false
  | some .free => return false
  | some .held => return true
  | some .failing => .error (.io "check snapshot cache lock" lockPath)

/-- `open_lock` with `Create::Yes`, and what is at the path then: nothing when the directory of
the lock is gone. -/
def openLock (path : Path) (file : LockFile) (node : StateFile LockState) :
    Except CacheError (Option (LockState × StateFile LockState)) :=
  match node with
  | .orphaned => .ok none
  | node => do
      let opened ← openToWrite env.euid (CacheDir.within path (lockFileName file)) LockState.free node
      return some opened

def removeDirAllWithin (path : Path) : Command CacheError CacheDir Unit := fun cache =>
  if cache.dir <+: path ∧ path ≠ cache.dir then
    if cache.removableAt path then (.ok (), cache.remove path)
    else (.error (.io "remove snapshot cache entry" path), cache)
  else (.error (.io "remove snapshot cache entry" path), cache)

def removeIfUnlocked (path : Path) (file : LockFile) : Command CacheError CacheDir Bool := fun cache =>
  match openLock env path file (cache.lockAt path file) with
  | .error e => (.error e, cache)
  | .ok none => (.ok true, cache.remove path)
  | .ok (some (lock, node)) =>
    let cache := cache.setLock path file node
    match lock with
    | .held => (.ok false, cache)
    | .failing => (.error (.io "lock snapshot cache entry" path), cache)
    | .free =>
      match removeDirAllWithin path cache with
      | (.ok _, cache) => (.ok true, cache)
      | (.error e, cache) => (.error e, cache)

/-- Whether a candidate is busy. -/
def isBusy (mode : Mode) (path : Path) (file : LockFile) : Command CacheError CacheDir Bool := fun cache =>
  match mode with
  | .plan => (lockIsHeld env path file (cache.lockAt path file), cache)
  | .apply =>
    match removeIfUnlocked env path file cache with
    | (.ok removed, cache) => (.ok !removed, cache)
    | (.error e, cache) => (.error e, cache)

def busyReason : LockFile → CleanReason
  | .building => .building
  | .inUse => .inUse

/-- The loop over the candidates. -/
def settle (mode : Mode) : List Candidate → CleanReport → Command CacheError CacheDir CleanReport
  | [], report => Command.answer report
  | (entry, file) :: rest, report => fun cache =>
    match isBusy env mode entry.path file cache with
    | (.error (.unsafeStatePath path reason), cache) =>
      settle mode rest
        { report with
          kept := report.kept ++
            [{ entry with reason := .untrusted, detail := some (CacheError.refusal path reason) }] } cache
    | (.error e, cache) => (.error e, cache)
    | (.ok true, cache) =>
      settle mode rest { report with kept := report.kept ++ [{ entry with reason := busyReason file }] } cache
    | (.ok false, cache) => settle mode rest { report with wouldDelete := report.wouldDelete ++ [entry] } cache

/-! ### The whole directory -/

def byPath (left right : CleanedEntry) : Prop := left.path ≤ right.path

instance : DecidableRel byPath := fun left right => inferInstanceAs (Decidable (left.path ≤ right.path))

/-- The report with its lists in path order. -/
def CleanReport.sorted (report : CleanReport) : CleanReport :=
  { report with
    wouldDelete := report.wouldDelete.insertionSort byPath
    kept := report.kept.insertionSort byPath }

def modeOf (options : CleanOptions) : Mode := if options.apply then .apply else .plan

/-- The clean of a directory that has the marker. -/
def cleanEntries (options : CleanOptions) : Command CacheError CacheDir CleanReport := fun cache =>
  match cache.listing with
  | none => (.error (.io "read snapshot cache directory" cache.dir), cache)
  | some entries =>
    match entries.mapM (judge env cache) with
    | .error e => (.error e, cache)
    | .ok verdicts =>
      let (candidates, kept) := retain env options (.of verdicts)
      match settle env (modeOf options) candidates ⟨cache.dir, [], kept, options.apply⟩ cache with
      | (.error e, cache) => (.error e, cache)
      | (.ok report, cache) => (.ok report.sorted, cache)

def cleanWithOptions (options : CleanOptions) : Command CacheError CacheDir CleanReport := fun cache =>
  match cache.located with
  | .error e => (.error e, cache)
  | .ok false => (.ok ⟨cache.dir, [], [], options.apply⟩, cache)
  | .ok true =>
    if isStateFile env.euid cache.marker then cleanEntries env options cache
    else (.ok ⟨cache.dir, [], [.new cache.dir .noCacheMarker 0], options.apply⟩, cache)

end Run

end OrbitGraph.Cache.Retention
