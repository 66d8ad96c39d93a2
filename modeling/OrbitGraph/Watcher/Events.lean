import OrbitGraph.Lib.Text

/-!
File events, and which of them may have changed what a sync would index.

A path is the list of its components. Of an event's attributes only the rescan
flag is read, of its kind only whether it is an access and of what sort.
-/

namespace OrbitGraph.Watcher

open Lib

inductive Component where
  | rootDir
  | curDir
  | parentDir
  | normal (name : Text)
  deriving DecidableEq

abbrev Path := List Component

inductive AccessMode where
  | any
  | execute
  | read
  | write
  | other
  deriving DecidableEq

inductive AccessKind where
  | any
  | read
  | open_ (mode : AccessMode)
  | close (mode : AccessMode)
  | other
  deriving DecidableEq

inductive EventKind where
  | any
  | access (kind : AccessKind)
  | create
  | modify
  | remove
  | other
  deriving DecidableEq

structure Event where
  kind : EventKind
  paths : List Path
  needRescan : Bool
  deriving DecidableEq

abbrev Notice := Except Text Event

def ignoredTopLevelDirs : List Text :=
  [".git", ".orbit-graph", ".orbit", "build", "dist", "node_modules", "target", "venv", ".venv",
    "__pycache__"].map String.toList

/-- `path.strip_prefix(root)`, or the path itself. -/
def relativeTo (root path : Path) : Path :=
  if root.isPrefixOf path then path.drop root.length else path

def pathRequiresSync (root path : Path) : Bool :=
  match relativeTo root path with
  | .normal name :: _ => !ignoredTopLevelDirs.contains name
  | _ => true

def EventKind.readsOnly : EventKind → Bool
  | .access kind => kind ≠ .close .write
  | _ => false

def eventRequiresSync (root : Path) (event : Event) : Bool :=
  if event.needRescan then true
  else if event.kind.readsOnly then false
  else event.paths.isEmpty || event.paths.any (pathRequiresSync root)

/-- Whether a notice schedules a sync; an error of the backend always does. -/
def requiresSync (root : Path) : Notice → Bool
  | .ok event => eventRequiresSync root event
  | .error _ => true

end OrbitGraph.Watcher
