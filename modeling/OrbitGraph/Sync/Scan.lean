import OrbitGraph.Sync.Scanner

/-!
The loop of the scan, and what becomes of each indexed path.

The loop takes the row of a file it reads out of the rows it has, and calls what is left at
the end deleted. A file that is larger than the cap when it is listed keeps its row among
these; one that is larger only when it is read does not.
-/

namespace OrbitGraph.Sync

open Lib

/-! ### The loop -/

/-- `Walk`: what a worktree walk found. -/
structure Walk where
  files : List DiskFile
  unreadable : List Unreadable
  nodup : (files.map DiskFile.path).Nodup

/-- Where the loop is: the rows not met yet, the paths met, the diff, and the modification times it has written. -/
structure ScanState where
  rows : List FileRow
  seen : List Text
  diff : Diff
  touched : List (Text × Nat)

namespace ScanState

def start (idx : Index) : ScanState := ⟨idx.files, [], ⟨[], [], [], [], [], []⟩, []⟩

def skipOversize (s : ScanState) (path : Text) : ScanState :=
  { s with diff := { s.diff with oversize := s.diff.oversize ++ [path] } }

def removeRow (s : ScanState) (path : Text) : ScanState :=
  { s with rows := s.rows.filter fun row => row.path ≠ path }

def see (s : ScanState) (path : Text) : ScanState := { s with seen := path :: s.seen }

def unchanged (s : ScanState) (path : Text) : ScanState :=
  { s with diff := { s.diff with unchanged := s.diff.unchanged ++ [path] } }

def modified (s : ScanState) (path : Text) : ScanState :=
  { s with diff := { s.diff with modified := s.diff.modified ++ [path] } }

def new (s : ScanState) (path : Text) : ScanState :=
  { s with diff := { s.diff with new := s.diff.new ++ [path] } }

def failed (s : ScanState) (failure : SyncFailure) : ScanState :=
  { s with diff := { s.diff with failed := s.diff.failed ++ [failure] } }

/-- `touch_mtime` -/
def touch (s : ScanState) (path : Text) (mtimeNs : Nat) : ScanState :=
  { s with touched := s.touched ++ [(path, mtimeNs)] }

end ScanState

section Loop

variable (tools : Tools) (mode : SyncMode) (ignored : List FsPath)

/-- The body of the loop of `scan`. -/
def scanFile (s : ScanState) (file : DiskFile) : ScanState :=
  if pathComponents file.path ∈ ignored then s
  else if maxFileBytes < file.byteLen then s.skipOversize file.path
  else
    let existing := s.rows.find? fun row => row.path = file.path
    let s := s.removeRow file.path
    if mode == .auto && existing.any fun row => sameMetadata row file then
      (s.see file.path).unchanged file.path
    else
      match readCapped file.content with
      | .ok none => s.skipOversize file.path
      | .error error => (s.failed (readFailure file.path error)).see file.path
      | .ok (some bytes) =>
        let s := s.see file.path
        match existing with
        | none => s.new file.path
        | some row =>
          if mode == .auto && tools.hasher.hash bytes == row.contentHash then
            (s.touch file.path file.mtimeNs).unchanged file.path
          else s.modified file.path

def sortDiff (diff : Diff) : Diff where
  unchanged := sortPaths diff.unchanged
  modified := sortPaths diff.modified
  new := sortPaths diff.new
  deleted := sortPaths diff.deleted
  oversize := sortPaths diff.oversize
  failed := sortFailures diff.failed

def ScanState.leftOver (s : ScanState) (unreadable : List Unreadable) : List Text :=
  (s.rows.map FileRow.path).filter fun path =>
    path ∉ s.seen ∧ !unreadable.any fun entry => entry.path.isPrefixOf (pathComponents path)

/-- `scan`: the diff, and the modification times it writes. -/
def scan (walk : Walk) (idx : Index) : Diff × List (Text × Nat) :=
  let diskFiles := walk.files.insertionSort fun a b => pathLe a.path b.path = true
  let unreadable := walk.unreadable.filter fun entry => entry.path ∉ ignored
  let s := diskFiles.foldl (scanFile tools mode ignored) (.start idx)
  (sortDiff { s.diff with
      deleted := s.leftOver unreadable
      failed := s.diff.failed ++ unreadable.map Unreadable.failure },
    s.touched)

/-- What a sync sees of a walk: what Git does not ignore. -/
def Walk.worktree (walk : Walk) (packages : PackageFiles) : Worktree where
  files := walk.files.filter fun file => pathComponents file.path ∉ ignored
  unreadable := walk.unreadable.filter fun entry => entry.path ∉ ignored
  packages
  nodup := walk.nodup.sublist ((List.filter_sublist).map _)

end Loop

section Progress

variable {tools : Tools} {mode : SyncMode} {ignored : List FsPath} {idx : Index} {s : ScanState} {file : DiskFile}

def FileStatus.failure (file : DiskFile) : FileStatus → Option SyncFailure
  | .failed error => some (readFailure file.path error)
  | _ => none

namespace ScanState

def record (s : ScanState) (file : DiskFile) : FileStatus → ScanState
  | .oversize => s.skipOversize file.path
  | .unchanged => ((s.removeRow file.path).see file.path).unchanged file.path
  | .touched => (((s.removeRow file.path).see file.path).touch file.path file.mtimeNs).unchanged file.path
  | .failed error => ((s.removeRow file.path).failed (readFailure file.path error)).see file.path
  | .grown => (s.removeRow file.path).skipOversize file.path
  | .new => ((s.removeRow file.path).see file.path).new file.path
  | .modified => ((s.removeRow file.path).see file.path).modified file.path

/-! What a status adds to each part of the state. -/

variable (s : ScanState) (file : DiskFile) (status : FileStatus)

theorem record_rows : (s.record file status).rows =
    if status ≠ .oversize then s.rows.filter fun row => row.path ≠ file.path else s.rows := by
  cases status <;> simp [record, skipOversize, removeRow, see, unchanged, touch, failed, new, modified]

theorem record_seen {path : Text} (mem : path ∈ (s.record file status).seen) :
    path ∈ s.seen ∨ (status ≠ .oversize ∧ path = file.path) := by
  cases status <;>
    simp [record, skipOversize, removeRow, see, unchanged, touch, failed, new, modified] at mem ⊢ <;> tauto

theorem record_unchanged : (s.record file status).diff.unchanged =
    s.diff.unchanged ++ if status == .unchanged || status == .touched then [file.path] else [] := by
  cases status <;> simp [record, skipOversize, removeRow, see, unchanged, touch, failed, new, modified]

theorem record_modified : (s.record file status).diff.modified =
    s.diff.modified ++ if status == .modified then [file.path] else [] := by
  cases status <;> simp [record, skipOversize, removeRow, see, unchanged, touch, failed, new, modified]

theorem record_new : (s.record file status).diff.new =
    s.diff.new ++ if status == .new then [file.path] else [] := by
  cases status <;> simp [record, skipOversize, removeRow, see, unchanged, touch, failed, new, modified]

theorem record_oversize : (s.record file status).diff.oversize =
    s.diff.oversize ++ if status == .oversize || status == .grown then [file.path] else [] := by
  cases status <;> simp [record, skipOversize, removeRow, see, unchanged, touch, failed, new, modified]

theorem record_touched : (s.record file status).touched =
    s.touched ++ if status == .touched then [(file.path, file.mtimeNs)] else [] := by
  cases status <;> simp [record, skipOversize, removeRow, see, unchanged, touch, failed, new, modified]

theorem record_failed : (s.record file status).diff.failed = s.diff.failed ++ (status.failure file).toList := by
  cases status <;>
    simp [record, skipOversize, removeRow, see, unchanged, touch, failed, new, modified, FileStatus.failure]

end ScanState

theorem scanFile_ignored (git : pathComponents file.path ∈ ignored) : scanFile tools mode ignored s file = s :=
  if_pos git

theorem scanFile_eq_record (git : pathComponents file.path ∉ ignored) : scanFile tools mode ignored s file =
      s.record file (fileStatus tools mode (s.rows.find? fun row => row.path = file.path) file) := by
  unfold scanFile fileStatus
  rw [if_neg git]
  split
  next => rfl
  next =>
    dsimp only
    split
    next => rfl
    next =>
      cases readCapped file.content with
      | error error => rfl
      | ok read =>
        cases read with
        | none => rfl
        | some bytes =>
          cases s.rows.find? fun row => row.path = file.path with
          | none => rfl
          | some row =>
            dsimp only
            split
            next => rfl
            next => rfl

def withStatus (tools : Tools) (mode : SyncMode) (ignored : List FsPath) (idx : Index) (p : FileStatus → Bool)
    (files : List DiskFile) : List DiskFile :=
  files.filter fun file => pathComponents file.path ∉ ignored ∧ p (statusOf tools mode idx file)

theorem withStatus_concat (p : FileStatus → Bool) (files : List DiskFile) (file : DiskFile) :
    withStatus tools mode ignored idx p (files ++ [file]) = withStatus tools mode ignored idx p files ++
      if pathComponents file.path ∉ ignored ∧ p (statusOf tools mode idx file) then [file] else [] := by
  unfold withStatus
  rw [List.filter_append]
  by_cases here : pathComponents file.path ∉ ignored ∧ p (statusOf tools mode idx file)
  · rw [if_pos here, List.filter_singleton, decide_eq_true here]
    rfl
  · rw [if_neg here, List.filter_singleton, decide_eq_false here]
    rfl

/-- What the loop has done after some files. -/
structure Progress (tools : Tools) (mode : SyncMode) (ignored : List FsPath) (idx : Index) (done : List DiskFile)
    (s : ScanState) : Prop where
  rows : s.rows = idx.files.filter fun row =>
    row.path ∉ (withStatus tools mode ignored idx (· ≠ .oversize) done).map DiskFile.path
  seen : ∀ path ∈ s.seen, path ∈ (withStatus tools mode ignored idx (· ≠ .oversize) done).map DiskFile.path
  unchanged : s.diff.unchanged =
    (withStatus tools mode ignored idx (fun s => s == .unchanged || s == .touched) done).map DiskFile.path
  modified : s.diff.modified = (withStatus tools mode ignored idx (· == .modified) done).map DiskFile.path
  new : s.diff.new = (withStatus tools mode ignored idx (· == .new) done).map DiskFile.path
  oversize : s.diff.oversize =
    (withStatus tools mode ignored idx (fun s => s == .oversize || s == .grown) done).map DiskFile.path
  touched : s.touched = (withStatus tools mode ignored idx (· == .touched) done).map fun file => (file.path, file.mtimeNs)
  failed : s.diff.failed = (withStatus tools mode ignored idx (fun _ => true) done).filterMap fun file =>
    (statusOf tools mode idx file).failure file

theorem progress_start : Progress tools mode ignored idx [] (.start idx) :=
  ⟨(List.filter_eq_self.mpr fun _ _ => rfl).symm, nofun, rfl, rfl, rfl, rfl, rfl, rfl⟩

variable {done : List DiskFile}

theorem Progress.find_row (progress : Progress tools mode ignored idx done s)
    (fresh : file.path ∉ done.map DiskFile.path) :
    (s.rows.find? fun row => row.path = file.path) = idx.fileRow file.path := by
  rw [progress.rows, Index.fileRow, List.find?_filter]
  congr 1
  funext row
  by_cases same : row.path = file.path
  · have unmet : row.path ∉ (withStatus tools mode ignored idx (· ≠ .oversize) done).map DiskFile.path := by
      rw [same]
      exact fun mem => fresh ((List.filter_sublist.map _).subset mem)
    rw [decide_eq_true unmet, decide_eq_true same]
    rfl
  · rw [decide_eq_false same]
    exact decide_eq_false fun both => Bool.false_ne_true both.2

theorem Progress.step (progress : Progress tools mode ignored idx done s)
    (fresh : file.path ∉ done.map DiskFile.path) :
    Progress tools mode ignored idx (done ++ [file]) (scanFile tools mode ignored s file) := by
  by_cases git : pathComponents file.path ∈ ignored
  · have same : ∀ p, withStatus tools mode ignored idx p (done ++ [file]) = withStatus tools mode ignored idx p done := by
      intro p
      rw [withStatus_concat, if_neg (fun both => both.1 git), List.append_nil]
    rw [scanFile_ignored git]
    refine ⟨?_, ?_, ?_, ?_, ?_, ?_, ?_, ?_⟩
    all_goals try rw [same]
    · exact progress.rows
    · exact progress.seen
    · exact progress.unchanged
    · exact progress.modified
    · exact progress.new
    · exact progress.oversize
    · exact progress.touched
    · exact progress.failed
  · have status : fileStatus tools mode (s.rows.find? fun row => row.path = file.path) file = statusOf tools mode idx file := by
      rw [progress.find_row fresh]
      rfl
    have one : ∀ p : FileStatus → Bool, withStatus tools mode ignored idx p (done ++ [file]) =
        withStatus tools mode ignored idx p done ++ if p (statusOf tools mode idx file) then [file] else [] := by
      intro p
      rw [withStatus_concat]
      simp only [git, not_false_eq_true, true_and]
    rw [scanFile_eq_record git, status]
    refine ⟨?_, ?_, ?_, ?_, ?_, ?_, ?_, ?_⟩
    · rw [one, ScanState.record_rows, progress.rows]
      by_cases small : statusOf tools mode idx file ≠ .oversize
      · rw [if_pos small, if_pos (decide_eq_true small), List.filter_filter]
        refine List.filter_congr fun row _ => ?_
        simp only [List.map_append, List.map_singleton, List.mem_append, List.mem_singleton, not_or, ne_eq,
          Bool.decide_and, Bool.and_comm]
      · rw [if_neg small, if_neg (by simpa using small), List.append_nil]
    · intro path mem
      rw [one]
      rcases ScanState.record_seen s file _ mem with earlier | ⟨small, rfl⟩
      · rw [List.map_append]
        exact List.mem_append_left _ (progress.seen path earlier)
      · rw [if_pos (decide_eq_true small), List.map_append]
        exact List.mem_append_right _ (List.mem_singleton_self _)
    · rw [one, List.map_append, ← progress.unchanged, ScanState.record_unchanged]
      split <;> rfl
    · rw [one, List.map_append, ← progress.modified, ScanState.record_modified]
      split <;> rfl
    · rw [one, List.map_append, ← progress.new, ScanState.record_new]
      split <;> rfl
    · rw [one, List.map_append, ← progress.oversize, ScanState.record_oversize]
      split <;> rfl
    · rw [one, List.map_append, ← progress.touched, ScanState.record_touched]
      split <;> rfl
    · rw [one, List.filterMap_append, ← progress.failed, ScanState.record_failed, if_pos rfl]
      cases failed : (statusOf tools mode idx file).failure file <;> simp [failed]

theorem Progress.leftOver (progress : Progress tools mode ignored idx done s) (unreadable : List Unreadable) :
    s.leftOver unreadable = (idx.files.map FileRow.path).filter fun path =>
      path ∉ (withStatus tools mode ignored idx (· ≠ .oversize) done).map DiskFile.path ∧
        !unreadable.any fun entry => entry.path.isPrefixOf (pathComponents path) := by
  unfold ScanState.leftOver
  rw [progress.rows, List.filter_map, List.filter_map, List.filter_filter]
  refine congrArg _ (List.filter_congr fun row _ => ?_)
  by_cases met : row.path ∈ (withStatus tools mode ignored idx (· ≠ .oversize) done).map DiskFile.path
  · simp only [Function.comp_apply, met, not_true_eq_false, decide_false, Bool.and_false, false_and]
  · have unseen : row.path ∉ s.seen := mt (progress.seen row.path) met
    simp only [Function.comp_apply, met, unseen, not_false_eq_true, decide_true, Bool.and_true, true_and]

theorem progress_all {files : List DiskFile} (distinct : (files.map DiskFile.path).Nodup) :
    Progress tools mode ignored idx files (files.foldl (scanFile tools mode ignored) (.start idx)) := by
  have walk : ∀ (rest done : List DiskFile) (s : ScanState), ((done ++ rest).map DiskFile.path).Nodup →
      Progress tools mode ignored idx done s →
      Progress tools mode ignored idx (done ++ rest) (rest.foldl (scanFile tools mode ignored) s) := by
    intro rest
    induction rest with
    | nil =>
      intro done s _ progress
      rw [List.append_nil]
      exact progress
    | cons file rest ih =>
      intro done s distinct progress
      rw [List.append_cons] at distinct ⊢
      refine ih (done ++ [file]) _ distinct (progress.step ?_)
      rw [List.map_append, List.map_append, List.nodup_append, List.nodup_append] at distinct
      exact fun mem => distinct.1.2.2 _ mem _ (by simp) rfl
  exact walk files [] _ distinct progress_start

end Progress

section Scanned

variable {tools : Tools} {mode : SyncMode} {ignored : List FsPath} {walk : Walk} {idx : Index}

def Walk.sorted (walk : Walk) : List DiskFile := walk.files.insertionSort fun a b => pathLe a.path b.path = true

theorem Walk.sorted_perm (walk : Walk) : walk.sorted.Perm walk.files := List.perm_insertionSort _ _

theorem scan_progress : Progress tools mode ignored idx walk.sorted
    (walk.sorted.foldl (scanFile tools mode ignored) (.start idx)) :=
  progress_all ((walk.sorted_perm.map _).nodup_iff.mpr walk.nodup)

theorem scan_unchanged : (scan tools mode ignored walk idx).1.unchanged = sortPaths
    ((withStatus tools mode ignored idx (fun s => s == .unchanged || s == .touched) walk.sorted).map DiskFile.path) :=
  congrArg sortPaths scan_progress.unchanged

theorem scan_modified : (scan tools mode ignored walk idx).1.modified = sortPaths
    ((withStatus tools mode ignored idx (· == .modified) walk.sorted).map DiskFile.path) :=
  congrArg sortPaths scan_progress.modified

theorem scan_new : (scan tools mode ignored walk idx).1.new = sortPaths
    ((withStatus tools mode ignored idx (· == .new) walk.sorted).map DiskFile.path) :=
  congrArg sortPaths scan_progress.new

theorem scan_oversize : (scan tools mode ignored walk idx).1.oversize = sortPaths
    ((withStatus tools mode ignored idx (fun s => s == .oversize || s == .grown) walk.sorted).map DiskFile.path) :=
  congrArg sortPaths scan_progress.oversize

theorem scan_touched : (scan tools mode ignored walk idx).2 =
    (withStatus tools mode ignored idx (· == .touched) walk.sorted).map fun file => (file.path, file.mtimeNs) :=
  scan_progress.touched

/-- Whether a path is at or under one the walk could not read, of those Git does not ignore. -/
def Walk.hides (walk : Walk) (ignored : List FsPath) (path : Text) : Bool :=
  (walk.unreadable.filter fun entry => entry.path ∉ ignored).any fun entry => entry.path.isPrefixOf (pathComponents path)

theorem scan_deleted : (scan tools mode ignored walk idx).1.deleted = sortPaths
    ((idx.files.map FileRow.path).filter fun path =>
      path ∉ (withStatus tools mode ignored idx (· ≠ .oversize) walk.sorted).map DiskFile.path ∧
        !walk.hides ignored path) :=
  congrArg sortPaths (scan_progress.leftOver _)

variable {existing : Option FileRow}

theorem fileStatus_eq_oversize {file : DiskFile} :
    fileStatus tools mode existing file = .oversize ↔ maxFileBytes < file.byteLen := by
  fun_cases fileStatus tools mode existing file <;> simp_all

theorem withStatus_worktree (packages : PackageFiles) (p : FileStatus → Bool) :
    ((withStatus tools mode ignored idx p walk.sorted).map DiskFile.path).Perm
      (((walk.worktree ignored packages).files.filter fun file => p (statusOf tools mode idx file)).map DiskFile.path) := by
  refine ((walk.sorted_perm.filter _).map DiskFile.path).trans (List.Perm.of_eq ?_)
  unfold Walk.worktree
  rw [List.filter_filter]
  congr 2
  funext file
  rw [Bool.decide_and, Bool.and_comm, Bool.decide_eq_true]

theorem pathsWith_worktree (packages : PackageFiles) (p : FileStatus → Bool) :
    (sortPaths ((withStatus tools mode ignored idx p walk.sorted).map DiskFile.path)).Perm
      (pathsWith tools mode (walk.worktree ignored packages) idx p) :=
  (sortPaths_perm _).trans ((withStatus_worktree packages p).trans (sortPaths_perm _).symm)

/-- A list of the diff holds the same paths as that of the diff a sync is modelled with. -/
theorem scan_perm_scanDiff (packages : PackageFiles) :
    (scan tools mode ignored walk idx).1.unchanged.Perm (scanDiff tools mode (walk.worktree ignored packages) idx).unchanged ∧
    (scan tools mode ignored walk idx).1.modified.Perm (scanDiff tools mode (walk.worktree ignored packages) idx).modified ∧
    (scan tools mode ignored walk idx).1.new.Perm (scanDiff tools mode (walk.worktree ignored packages) idx).new ∧
    (scan tools mode ignored walk idx).1.oversize.Perm (scanDiff tools mode (walk.worktree ignored packages) idx).oversize ∧
    (scan tools mode ignored walk idx).1.deleted.Perm (scanDiff tools mode (walk.worktree ignored packages) idx).deleted := by
  rw [scan_unchanged, scan_modified, scan_new, scan_oversize, scan_deleted]
  refine ⟨pathsWith_worktree packages _, pathsWith_worktree packages _, pathsWith_worktree packages _,
    pathsWith_worktree packages _, List.Perm.of_eq (congrArg sortPaths (List.filter_congr fun path _ => ?_))⟩
  have met : path ∈ (withStatus tools mode ignored idx (· ≠ .oversize) walk.sorted).map DiskFile.path ↔
      listed (walk.worktree ignored packages) path = true := by
    rw [(withStatus_worktree packages _).mem_iff, listed, List.any_eq_true, List.mem_map]
    constructor
    · rintro ⟨file, mem, own⟩
      obtain ⟨inside, small⟩ := List.mem_filter.mp mem
      have small := mt fileStatus_eq_oversize.mpr (of_decide_eq_true small)
      refine ⟨file, inside, ?_⟩
      rw [own, beq_self_eq_true, Bool.true_and]
      exact decide_eq_true (not_lt.mp small)
    · rintro ⟨file, inside, holds⟩
      rw [Bool.and_eq_true] at holds
      refine ⟨file, List.mem_filter.mpr ⟨inside, decide_eq_true fun large => ?_⟩, eq_of_beq holds.1⟩
      exact absurd (fileStatus_eq_oversize.mp large) (not_lt.mpr (of_decide_eq_true holds.2))
  have hidden : walk.hides ignored path = underUnreadable (walk.worktree ignored packages) path := rfl
  rw [hidden]
  by_cases here : listed (walk.worktree ignored packages) path = true
  · rw [here]
    exact decide_eq_false fun both => both.1 (met.mpr here)
  · rw [Bool.eq_false_iff.mpr here, Bool.not_false, Bool.true_and, Bool.eq_iff_iff, decide_eq_true_iff]
    exact and_iff_right (mt met.mp here)

/-! ### The class of an indexed path -/

structure OnDisk (walk : Walk) (ignored : List FsPath) (path : Text) (file : DiskFile) : Prop where
  mem : file ∈ walk.files
  path : file.path = path
  kept : pathComponents file.path ∉ ignored

theorem OnDisk.unique {path : Text} {file other : DiskFile} (here : OnDisk walk ignored path file)
    (there : OnDisk walk ignored path other) : other = file :=
  List.inj_on_of_nodup_map walk.nodup there.mem here.mem (there.path.trans here.path.symm)

variable {p : FileStatus → Bool}

theorem mem_withStatus {path : Text} : path ∈ (withStatus tools mode ignored idx p walk.sorted).map DiskFile.path ↔
      ∃ file, OnDisk walk ignored path file ∧ p (statusOf tools mode idx file) = true := by
  unfold withStatus
  rw [List.mem_map]
  constructor
  · rintro ⟨file, mem, own⟩
    obtain ⟨inside, holds⟩ := List.mem_filter.mp mem
    obtain ⟨kept, fits⟩ := of_decide_eq_true holds
    exact ⟨file, ⟨walk.sorted_perm.mem_iff.mp inside, own, kept⟩, fits⟩
  · rintro ⟨file, here, fits⟩
    exact ⟨file, List.mem_filter.mpr ⟨walk.sorted_perm.mem_iff.mpr here.mem, decide_eq_true ⟨here.kept, fits⟩⟩, here.path⟩

theorem OnDisk.mem_withStatus {path : Text} {file : DiskFile} (here : OnDisk walk ignored path file) :
    path ∈ (withStatus tools mode ignored idx p walk.sorted).map DiskFile.path ↔
      p (statusOf tools mode idx file) = true := by
  rw [Sync.mem_withStatus]
  constructor
  · rintro ⟨other, there, fits⟩
    exact here.unique there ▸ fits
  · exact fun fits => ⟨file, here, fits⟩

theorem not_mem_withStatus {path : Text} (absent : ¬ ∃ file, OnDisk walk ignored path file) :
    path ∉ (withStatus tools mode ignored idx p walk.sorted).map DiskFile.path := by
  rw [Sync.mem_withStatus]
  rintro ⟨file, here, -⟩
  exact absent ⟨file, here⟩

/-- What can become of an indexed path. -/
inductive RowClass where
  | unchanged
  | touched
  | changed
  | deleted
  | unreadable
  deriving DecidableEq

variable (tools mode ignored walk idx) in
/-- Whether a path is in a class. It is kept as unreadable if its file could not be read, or if no file of it was
listed within the cap and it is at or under a path the walk could not read. -/
def RowClass.Holds (path : Text) : RowClass → Prop
  | unchanged => path ∈ (scan tools mode ignored walk idx).1.unchanged ∧
      path ∉ (scan tools mode ignored walk idx).2.map Prod.fst
  | touched => path ∈ (scan tools mode ignored walk idx).1.unchanged ∧
      path ∈ (scan tools mode ignored walk idx).2.map Prod.fst
  | changed => path ∈ (scan tools mode ignored walk idx).1.modified
  | deleted => path ∈ (scan tools mode ignored walk idx).1.deleted
  | unreadable => (∃ file error, OnDisk walk ignored path file ∧ statusOf tools mode idx file = .failed error) ∨
      (walk.hides ignored path = true ∧ ∀ file, OnDisk walk ignored path file → maxFileBytes < file.byteLen)

def rowClass (status : Option FileStatus) (hidden : Bool) : Option RowClass :=
  match status with
  | none | some .oversize => some (if hidden then .unreadable else .deleted)
  | some .unchanged => some .unchanged
  | some .touched => some .touched
  | some .modified => some .changed
  | some (.failed _) => some .unreadable
  | some .grown | some .new => none

theorem mem_deleted {path : Text} : path ∈ (scan tools mode ignored walk idx).1.deleted ↔
    path ∈ idx.files.map FileRow.path ∧ (∀ file, OnDisk walk ignored path file → maxFileBytes < file.byteLen) ∧
      walk.hides ignored path = false := by
  rw [scan_deleted, mem_sortPaths, List.mem_filter, decide_eq_true_iff, Sync.mem_withStatus, Bool.not_eq_true']
  refine and_congr_right fun _ => and_congr_left fun _ => ?_
  simp only [not_exists, not_and, decide_eq_true_eq, not_not, statusOf, fileStatus_eq_oversize, ne_eq]

theorem mem_touched {path : Text} : path ∈ (scan tools mode ignored walk idx).2.map Prod.fst ↔
    path ∈ (withStatus tools mode ignored idx (· == .touched) walk.sorted).map DiskFile.path := by
  rw [scan_touched, List.map_map]
  rfl

theorem RowClass.holds_iff_of_absent {path : Text} (indexed : path ∈ idx.files.map FileRow.path)
    (absent : ¬ ∃ file, OnDisk walk ignored path file) (c : RowClass) :
    c.Holds tools mode ignored walk idx path ↔ rowClass none (walk.hides ignored path) = some c := by
  have none : ∀ p, path ∉ (withStatus tools mode ignored idx p walk.sorted).map DiskFile.path :=
    fun p => not_mem_withStatus absent
  have nowhere : ∀ file, ¬ OnDisk walk ignored path file := fun file here => absent ⟨file, here⟩
  cases c
  all_goals
    simp only [Holds, scan_unchanged, scan_modified, mem_sortPaths, mem_touched, none, mem_deleted, nowhere, indexed,
      false_and, exists_false, false_implies, implies_true, true_and]
    cases walk.hides ignored path <;> simp [rowClass]

theorem fileStatus_eq_new {file : DiskFile}
    (status : fileStatus tools mode existing file = .new) : existing = none := by
  revert status
  fun_cases fileStatus tools mode existing file <;> simp

/-- Whether a file is over the cap when it is read, though not when it was listed. -/
def Grows (mode : SyncMode) (row : FileRow) (file : DiskFile) : Prop :=
  file.byteLen ≤ maxFileBytes ∧ ¬ (mode = .auto ∧ sameMetadata row file = true) ∧
    ∃ bytes, file.content = .ok bytes ∧ maxFileBytes < bytes.length

theorem fileStatus_eq_grown {row : FileRow} {file : DiskFile} :
    fileStatus tools mode (some row) file = .grown ↔ Grows mode row file := by
  unfold fileStatus Grows
  by_cases large : maxFileBytes < file.byteLen
  · rw [if_pos large]
    exact iff_of_false (by simp) fun grows => absurd grows.1 (not_le.mpr large)
  rw [if_neg large]
  by_cases same : mode = .auto ∧ sameMetadata row file = true
  · rw [if_pos (by simp [same])]
    exact iff_of_false (by simp) fun grows => grows.2.1 same
  rw [if_neg (by simpa using same)]
  simp only [not_lt.mp large, same, not_false_eq_true, true_and]
  cases read : file.content with
  | error error => exact iff_of_false (by simp [readCapped, Except.map]) (by simp)
  | ok bytes =>
    by_cases long : maxFileBytes < bytes.length
    · exact iff_of_true (by simp [readCapped, Except.map, long]) ⟨bytes, rfl, long⟩
    · refine iff_of_false ?_ ?_
      · simp only [readCapped, Except.map, long, if_false]
        split <;> simp
      · rintro ⟨other, eq, grown⟩
        exact long (Except.ok.inj eq ▸ grown)

theorem mem_indexed {path : Text} : path ∈ idx.files.map FileRow.path ↔ ∃ row, idx.fileRow path = some row := by
  rw [← Option.isSome_iff_exists, Index.fileRow, List.find?_isSome, List.mem_map]
  simp only [decide_eq_true_eq]

theorem statusOf_ne_new {file : DiskFile} (indexed : file.path ∈ idx.files.map FileRow.path) :
    statusOf tools mode idx file ≠ .new := by
  intro status
  obtain ⟨row, known⟩ := mem_indexed.mp indexed
  exact Option.some_ne_none row (known.symm.trans (fileStatus_eq_new status))

theorem RowClass.holds_iff_of_onDisk {path : Text} {file : DiskFile} (indexed : path ∈ idx.files.map FileRow.path)
    (here : OnDisk walk ignored path file) (c : RowClass) : c.Holds tools mode ignored walk idx path ↔
      rowClass (some (statusOf tools mode idx file)) (walk.hides ignored path) = some c := by
  have only : (∀ other, OnDisk walk ignored path other → maxFileBytes < other.byteLen) ↔
      statusOf tools mode idx file = .oversize := by
    rw [statusOf, fileStatus_eq_oversize]
    exact ⟨fun all => all file here, fun large other there => here.unique there ▸ large⟩
  have failed : (∃ other error, OnDisk walk ignored path other ∧ statusOf tools mode idx other = .failed error) ↔
      ∃ error, statusOf tools mode idx file = .failed error := by
    constructor
    · rintro ⟨other, error, there, status⟩
      exact ⟨error, here.unique there ▸ status⟩
    · rintro ⟨error, status⟩
      exact ⟨file, error, here, status⟩
  cases c
  all_goals
    simp only [Holds, scan_unchanged, scan_modified, mem_sortPaths, mem_touched, here.mem_withStatus, mem_deleted, only,
      failed, indexed, true_and]
    cases statusOf tools mode idx file <;> cases walk.hides ignored path <;> simp [rowClass]

/-! ### The partition -/

variable (tools mode ignored walk idx) in
/-- What a scan promises of its lists. -/
structure Partitioned : Prop where
  one : ∀ path ∈ idx.files.map FileRow.path, ∃! c : RowClass, c.Holds tools mode ignored walk idx path
  newApart : ∀ path ∈ (scan tools mode ignored walk idx).1.new, path ∉ idx.files.map FileRow.path
  deleted : ∀ path, path ∈ (scan tools mode ignored walk idx).1.deleted ↔ path ∈ idx.files.map FileRow.path ∧
    ((∀ file, ¬ OnDisk walk ignored path file) ∨ path ∈ (scan tools mode ignored walk idx).1.oversize) ∧
      walk.hides ignored path = false
  oversizeGone : ∀ path ∈ (scan tools mode ignored walk idx).1.oversize, path ∈ idx.files.map FileRow.path →
    walk.hides ignored path = false → path ∈ (scan tools mode ignored walk idx).1.deleted

theorem Partitioned.not_grows (partition : Partitioned tools mode ignored walk idx) {file : DiskFile} (mem : file ∈ walk.files)
    (kept : pathComponents file.path ∉ ignored) {row : FileRow} (indexed : idx.fileRow file.path = some row) :
    ¬ Grows mode row file := by
  intro grows
  have here : OnDisk walk ignored file.path file := ⟨mem, rfl, kept⟩
  have known := mem_indexed.mpr ⟨row, indexed⟩
  have grown : statusOf tools mode idx file = .grown := by
    rw [statusOf, indexed]
    exact fileStatus_eq_grown.mpr grows
  obtain ⟨c, holds, -⟩ := partition.one file.path known
  rw [RowClass.holds_iff_of_onDisk known here, grown] at holds
  cases holds

/-- **The scan partitions the indexed paths if, and only if, no indexed file grows past the cap between the walk and the
read.** -/
theorem scan_partitioned_iff :
    Partitioned tools mode ignored walk idx ↔
      ∀ file ∈ walk.files, pathComponents file.path ∉ ignored → ∀ row, idx.fileRow file.path = some row →
        ¬ Grows mode row file := by
  constructor
  · intro partition file mem kept row indexed
    exact partition.not_grows mem kept indexed
  · intro never
    have notGrown : ∀ path file, path ∈ idx.files.map FileRow.path → OnDisk walk ignored path file →
        statusOf tools mode idx file ≠ .grown := by
      intro path file indexed here grown
      obtain ⟨row, known⟩ := mem_indexed.mp indexed
      have known : idx.fileRow file.path = some row := here.path ▸ known
      rw [statusOf, known] at grown
      exact never file here.mem here.kept row known (fileStatus_eq_grown.mp grown)
    have deleted : ∀ path, path ∈ (scan tools mode ignored walk idx).1.deleted ↔ path ∈ idx.files.map FileRow.path ∧
        ((∀ file, ¬ OnDisk walk ignored path file) ∨ path ∈ (scan tools mode ignored walk idx).1.oversize) ∧
          walk.hides ignored path = false := by
      intro path
      rw [mem_deleted, scan_oversize, mem_sortPaths, mem_withStatus]
      refine and_congr_right fun indexed => and_congr_left fun _ => ?_
      constructor
      · intro large
        by_cases present : ∃ file, OnDisk walk ignored path file
        · obtain ⟨file, here⟩ := present
          have status : statusOf tools mode idx file = .oversize := fileStatus_eq_oversize.mpr (large file here)
          exact .inr ⟨file, here, by rw [status]; rfl⟩
        · exact .inl fun file here => present ⟨file, here⟩
      · rintro (absent | ⟨file, here, status⟩) other there
        · exact absurd there (absent other)
        · obtain rfl := here.unique there
          rw [Bool.or_eq_true, beq_iff_eq, beq_iff_eq] at status
          rcases status with oversize | grown
          · exact fileStatus_eq_oversize.mp oversize
          · exact absurd grown (notGrown path other indexed here)
    refine ⟨?_, ?_, deleted, fun path large indexed shown => (deleted path).mpr ⟨indexed, .inr large, shown⟩⟩
    · intro path indexed
      obtain ⟨c, classified⟩ : ∃ c, ∀ other, RowClass.Holds tools mode ignored walk idx path other ↔ some c = some other := by
        by_cases present : ∃ file, OnDisk walk ignored path file
        · obtain ⟨file, here⟩ := present
          obtain ⟨c, eq⟩ : ∃ c, rowClass (some (statusOf tools mode idx file)) (walk.hides ignored path) = some c := by
            cases status : statusOf tools mode idx file
            case new => exact absurd status (statusOf_ne_new (here.path ▸ indexed))
            case grown => exact absurd status (notGrown path file indexed here)
            all_goals exact ⟨_, rfl⟩
          exact ⟨c, fun other => eq ▸ RowClass.holds_iff_of_onDisk indexed here other⟩
        · exact ⟨_, fun other => RowClass.holds_iff_of_absent indexed present other⟩
      refine ⟨c, (classified c).mpr rfl, fun other holds => ?_⟩
      exact (Option.some.inj ((classified other).mp holds)).symm
    · intro path new indexed
      rw [scan_new, mem_sortPaths, mem_withStatus] at new
      obtain ⟨file, here, status⟩ := new
      exact statusOf_ne_new (here.path ▸ indexed) (eq_of_beq status)

end Scanned

namespace Sample

def noTools : Tools := ⟨.tagged, ⟨fun _ => none, fun _ _ => .ok ⟨[], [], []⟩⟩⟩

def grownWalk : Walk where
  files := [⟨['a'], 2, 1, .ok (List.replicate (maxFileBytes + 1) 0)⟩]
  unreadable := []
  nodup := List.nodup_singleton _

def indexedFile : Index := { Index.empty with files := [⟨['a'], [1], 1, [], 1⟩] }

/-- Its row is in no class: it stays, and the file is listed as too large. -/
theorem grown_unclassified : ¬ Partitioned noTools .auto [] grownWalk indexedFile := by
  intro partition
  refine partition.not_grows List.mem_cons_self List.not_mem_nil rfl ⟨?_, ?_, _, rfl, ?_⟩
  · show 1 ≤ maxFileBytes
    decide
  · rintro ⟨-, same⟩
    exact absurd same (by decide)
  · rw [List.length_replicate]
    exact Nat.lt_succ_self _

end Sample

end OrbitGraph.Sync
