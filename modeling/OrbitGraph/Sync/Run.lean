import OrbitGraph.Lib.TransitionSystem
import OrbitGraph.Sync.Pass2

/-!
One synchronization: the scan, pass 1 and pass 2, and where it may stop.

A worktree does not change while one sync reads it; it may change in any way
between two. A sync may stop in its scan, with some rows touched, or after it,
with some of pass 1's transactions committed; pass 2 commits all at once or not
at all.
-/

namespace OrbitGraph.Sync

open Lib

variable [CharTables] (tools : Tools)

def manifestChanged (diff : Diff) : Bool :=
  (diff.modified ++ diff.new ++ diff.deleted).any fun path =>
    (pathComponents path).getLast? == some "Cargo.toml".toList

/-- `definitions_before_pass1`. -/
def definitionsBeforePass1 (idx : Index) (diff : Diff) : Definitions :=
  Definitions.load idx (diff.modified ++ diff.deleted)

/-- What pass 2 re-resolves, decided before pass 1 writes. -/
def reresolveFor (mode : SyncMode) (diff : Diff) (idx : Index) : Reresolve :=
  if idx.syncPending || mode == .full || manifestChanged diff then .all
  else .dependents (definitionsBeforePass1 idx diff)

/-- Whether there is nothing to write. -/
def upToDate (diff : Diff) (idx : Index) : Bool := !diff.hasChanges && !idx.syncPending

/-- `write`, run to its end. -/
def write (w : Worktree) (mode : SyncMode) (diff : Diff) (idx : Index) : Index :=
  if upToDate diff idx then idx
  else
    Pass2.run w.packages (Pass1.refs tools w diff) (reresolveFor mode diff idx)
      (Pass1.run tools w diff idx)

def sync (mode : SyncMode) (w : Worktree) (idx : Index) : Index :=
  write tools w mode (scanDiff tools mode w idx) (scanned tools mode w idx)

/-- A scan that stops has stamped the rows of the files it reached. -/
def stoppedScan (mode : SyncMode) (w : Worktree) (reached : List Text) (idx : Index) : Index :=
  { idx with
    files := idx.files.map fun row =>
      if row.path ∈ reached then touchedRow tools mode w idx row else row }

/-- A sync that stops after `committed` transactions of pass 1, or after all of
them but before pass 2 commits. -/
def interruptedSync (mode : SyncMode) (w : Worktree) (committed : Nat) (idx : Index) : Index :=
  let diff := scanDiff tools mode w idx
  let idx := scanned tools mode w idx
  if upToDate diff idx then idx
  else Pass1.runTransactions ((Pass1.transactions tools w diff).take committed) idx

end OrbitGraph.Sync
