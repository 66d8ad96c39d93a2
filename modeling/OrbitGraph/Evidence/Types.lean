import OrbitGraph.Changes.Filters
import OrbitGraph.Sync.Index

/-!
What evidence is made of: edges between endpoints, each of them a stored reference or
relation, and paths of edges from an affected symbol to the queried one.
-/

namespace OrbitGraph.Evidence

open Lib Changes

abbrev RefConfidence := Sync.Confidence

inductive RefKind where
  | call
  | type
  | use
  | traitBound
  | impl
  | extends
  | implements
  deriving DecidableEq

inductive EvidenceError where
  | selector (reason : Text)
  | query (operation : Text) (side : SnapshotSide) (reason : Text)
  deriving DecidableEq

inductive EvidenceDirection where
  | inbound
  | outbound
  deriving DecidableEq

def EvidenceDirection.label : EvidenceDirection → Text
  | .inbound => "inbound"
  | .outbound => "outbound"

/-- The kinds of evidence, strongest first. -/
inductive EvidenceCategory where
  | resolvedCall
  | observedReference
  | importRelationship
  | heuristicMatch
  | runtimeInvocation
  deriving DecidableEq, Ord

/-- The category of an edge follows from the kind of its reference and from how it was resolved. -/
def categorize (kind : RefKind) (confidence : RefConfidence) : EvidenceCategory :=
  if confidence = .fuzzyName then .heuristicMatch
  else
    match kind with
    | .call => if confidence = .exact ∨ confidence = .importResolved then .resolvedCall else .observedReference
    | .use => .importRelationship
    | _ => .observedReference

def confidenceLabel : RefConfidence → Text
  | .exact => "exact"
  | .importResolved => "import_resolved"
  | .sameModule => "same_module"
  | .fuzzyName => "fuzzy_name"

def kindLabel : RefKind → Text
  | .call => "call"
  | .type => "type"
  | .use => "use"
  | .traitBound => "trait_bound"
  | .impl => "impl"
  | .extends => "extends"
  | .implements => "implements"

/-- What the core `impact` query says of a node. -/
inductive ImpactOrigin where
  | symbol
  | file
  deriving DecidableEq

def originLabel : ImpactOrigin → Text
  | .symbol => "symbol"
  | .file => "file"

structure EvidenceSource where
  file : Text
  line : Option Nat
  deriving DecidableEq, Ord

/-- An edge. `fromLabel` and `toLabel` are its `from` and `to`. -/
structure EvidenceEdge where
  fromLabel : Text
  fromSelector : Text
  fromOrigin : Text
  toLabel : Text
  toSelector : Text
  relationship : Text
  category : EvidenceCategory
  confidence : Text
  snapshot : Text
  commitSha : Text
  source : EvidenceSource
  note : Option Text
  deriving DecidableEq

structure EndpointRef where
  selector : Text
  snapshot : Text
  label : Text
  origin : Text
  deriving DecidableEq

/-- A path. `fromNode` and `toNode` are its `from` and `to`. -/
structure EvidencePath where
  pathId : Text
  fromNode : EndpointRef
  toNode : EndpointRef
  distance : Nat
  category : EvidenceCategory
  truncated : Bool
  truncatedBy : Option Text
  edges : List EvidenceEdge
  deriving DecidableEq

structure BoundHit where
  bound : Text
  value : Nat

def DEFAULT_IMPACT_DEPTH : Nat := 3

def EVIDENCE_DEPTH : Nat := DEFAULT_IMPACT_DEPTH

def MAX_EVIDENCE_DEPTH : Nat := 10

/-- The bounds of one query. -/
structure EvidenceBounds where
  depth : Nat
  nodeCap : Nat
  timeBudgetMs : Nat

def EvidenceBounds.effectiveDepth (bounds : EvidenceBounds) : Nat :=
  min (if bounds.depth = 0 then EVIDENCE_DEPTH else bounds.depth) MAX_EVIDENCE_DEPTH

def EvidenceBounds.effectiveNodeCap (bounds : EvidenceBounds) : Nat := max bounds.nodeCap 1

inductive CandidateSource where
  | callPath
  | importRelationship
  | namingHeuristic
  | runtimeInvocation
  deriving DecidableEq, Ord

/-- A query, of one side. -/
structure EvidenceQuery where
  minConfidence : RefConfidence
  bounds : EvidenceBounds
  filters : FilterSet
  changes : Option ChangedSymbols
  direction : EvidenceDirection

structure UnresolvedCallee where
  name : Text
  line : Nat
  reason : Text

/-- What the core `impact` query said of the whole node set. -/
structure ImpactSummary where
  direction : Text
  visitedNodes : Nat
  truncated : Bool
  fallbackNote : Option Text

structure EvidenceReport where
  target : EndpointRef
  commitSha : Text
  resolved : Bool
  resolvedQualified : Option Text
  impact : ImpactSummary
  paths : List EvidencePath
  skippedLowConfidence : Nat
  cyclesPruned : Nat
  truncated : Bool
  truncatedBy : Option Text
  boundsHit : List BoundHit
  filteredOut : List FilteredOut
  changeStatus : Option Text
  evidenceSides : List Text
  noPathReasons : List Text
  unresolvedCallees : List UnresolvedCallee

structure EntryPoint where
  node : EndpointRef
  rule : Text
  ruleDescription : Text
  rules : List Text
  distance : Nat
  category : EvidenceCategory
  path : EvidencePath
  note : Option Text

structure EntryPointReport where
  target : EndpointRef
  commitSha : Text
  entryPoints : List EntryPoint
  truncated : Bool
  truncatedBy : Option Text
  boundsHit : List BoundHit
  filteredOut : List FilteredOut
  noEntryPointReasons : List Text

structure CandidateTest where
  test : EndpointRef
  source : CandidateSource
  label : Text
  category : EvidenceCategory
  pathId : Option Text
  changedSymbols : List Text
  truncated : Bool
  note : Option Text

structure CandidateTests where
  target : EndpointRef
  commitSha : Text
  candidates : List CandidateTest
  unsupportedScope : List OutOfScopeEntry
  truncated : Bool

end OrbitGraph.Evidence
