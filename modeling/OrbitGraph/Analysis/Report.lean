import OrbitGraph.Evidence.Types

/-!
The exported report: the changed symbols that the filters keep, and the evidence for those
that the selection and the limits let through.

Every changed symbol is listed. A symbol that a limit stops is noted as unanalysed, by its
primary selector. Locations are references, without excerpts, so rendering notes no truncation.
-/

namespace OrbitGraph.Analysis

open Lib Changes Evidence

/-! ### The selection -/

structure SelectionEntry where
  requested : Text
  base : Option Text
  head : Option Text

/-- The requested selectors, resolved on each side. -/
structure ResolvedSelection where
  entries : List SelectionEntry
  base : Std.TreeSet Text
  head : Std.TreeSet Text

namespace ResolvedSelection

/-- Nothing is requested, which selects everything. -/
def all : ResolvedSelection := ⟨[], ∅, ∅⟩

/-- A request that resolves on neither side is still one. -/
def add (selection : ResolvedSelection) (entry : SelectionEntry) : ResolvedSelection where
  entries := selection.entries ++ [entry]
  base := entry.base.elim selection.base fun selector => selection.base.insert selector
  head := entry.head.elim selection.head fun selector => selection.head.insert selector

/-- `resolve`, with what the index of each side finds for a symbol selector. -/
def resolve (canonical : SnapshotSide → Selector → Except EvidenceError (Option Text)) (requested : List Text) :
    Except EvidenceError ResolvedSelection :=
  requested.foldlM (fun resolved text =>
    match Selector.parse text with
    | .error error => .error (.selector error.reason)
    | .ok (.symbol path symbol kind) => do
        let base ← canonical .base (.symbol path symbol kind)
        let head ← canonical .head (.symbol path symbol kind)
        .ok (resolved.add ⟨text, base, head⟩)
    | .ok _ => .error (.selector ("expected a symbol selector, got `" ++ text ++ "`"))) .all

def selects (selection : ResolvedSelection) (base head : Option Text) : Bool :=
  selection.entries.isEmpty || base.any (fun selector => selector ∈ selection.base) ||
    head.any fun selector => selector ∈ selection.head

def selectsSymbol (selection : ResolvedSelection) (symbol : ChangedSymbol) : Bool :=
  selection.selects (symbol.base.map SymbolRef.selector) (symbol.head.map SymbolRef.selector)

def unmatched (selection : ResolvedSelection) (symbols : List ChangedSymbol) : List Text :=
  let base := symbols.filterMap fun symbol => symbol.base.map SymbolRef.selector
  let head := symbols.filterMap fun symbol => symbol.head.map SymbolRef.selector
  (selection.entries.filter fun entry =>
    !entry.base.any (fun selector => selector ∈ base) && !entry.head.any fun selector => selector ∈ head).map
      SelectionEntry.requested

end ResolvedSelection

/-! ### The limits -/

inductive UnanalysedReason where
  | maxSymbols
  | timeBudget
  deriving DecidableEq

def UnanalysedReason.bound : UnanalysedReason → Text
  | .maxSymbols => "max_symbols"
  | .timeBudget => "time_budget_ms"

theorem UnanalysedReason.bound_injective : Function.Injective UnanalysedReason.bound := by
  rintro (_ | _) (_ | _) same
  · rfl
  · exact absurd same (by decide)
  · exact absurd same (by decide)
  · rfl

/-- The deadline of a call, and what the clock shows of it when the symbol at a position is reached. -/
structure ReportDeadline where
  budgetMs : Nat
  passed : Nat → Bool
  remainingMs : Nat → SnapshotSide → Nat

structure ReportLimits where
  skipOutbound : Bool
  maxSymbols : Option Nat
  deadline : Option ReportDeadline

/-- Why the selected symbol at a position is not analysed, if it is not. -/
def ReportLimits.stop (limits : ReportLimits) (position : Nat) : Option UnanalysedReason :=
  if limits.maxSymbols.any fun max => max ≤ position then some .maxSymbols
  else if limits.deadline.any fun deadline => deadline.passed position then some .timeBudget
  else none

def ReportLimits.value (limits : ReportLimits) : UnanalysedReason → Nat
  | .maxSymbols => limits.maxSymbols.getD 0
  | .timeBudget => (limits.deadline.map ReportDeadline.budgetMs).getD 0

/-! ### The report -/

structure ReportOptions where
  filters : FilterSet
  minConfidence : RefConfidence
  bounds : EvidenceBounds
  generatedAt : Text

inductive ReportError where
  | changes (error : ChangesError)
  | evidence (error : EvidenceError)

structure TruncationFlag where
  what : Text
  bound : Text
  value : Nat
  deriving DecidableEq, Ord

structure UnresolvedArea where
  selector : Text
  snapshot : Text
  kind : Text
  reasons : List Text

structure ReportEntryPoint where
  queried : EndpointRef
  entryPoint : EntryPoint

structure ReportCandidateTest where
  queried : EndpointRef
  candidate : CandidateTest

structure WorkingTreeView where
  notice : Option Text
  truncated : Bool

structure ExportedReport where
  generatedAt : Text
  workingTree : WorkingTreeView
  changedSymbols : ChangedSymbols
  filteredOut : List FilteredOut
  evidencePaths : List EvidencePath
  outboundPaths : List EvidencePath
  entryPoints : List ReportEntryPoint
  candidateTests : List ReportCandidateTest
  candidateTestsTruncated : Bool
  unresolved : List UnresolvedArea
  truncated : List TruncationFlag

structure BoundedReport where
  report : ExportedReport
  unanalysed : List (Text × UnanalysedReason)

/-- The queries of one side. -/
structure Collector where
  evidence : Text → EvidenceQuery → Except EvidenceError EvidenceReport
  entryPoints : Text → EvidenceQuery → Except EvidenceError EntryPointReport
  candidateTests : Text → EvidenceQuery → List OutOfScopeEntry → Except EvidenceError CandidateTests

abbrev Collectors := Nat → SnapshotSide → Except EvidenceError Collector

/-- What is gathered so far. -/
structure Gathered where
  truncation : Std.TreeSet TruncationFlag
  evidencePaths : List EvidencePath
  outboundPaths : List EvidencePath
  entryPoints : List ReportEntryPoint
  candidates : List ReportCandidateTest
  unresolved : List UnresolvedArea
  candidateTestsTruncated : Bool
  unanalysed : List (Text × UnanalysedReason)

namespace Gathered

def empty : Gathered := ⟨∅, [], [], [], [], [], false, []⟩

variable (gathered : Gathered)

def noteTruncation (what bound : Text) (value : Nat) : Gathered :=
  { gathered with truncation := gathered.truncation.insert ⟨what, bound, value⟩ }

def noteHits (kind selector sideLabel : Text) (hits : List BoundHit) : Gathered :=
  hits.foldl (fun gathered hit =>
    gathered.noteTruncation (kind ++ ":" ++ selector ++ "@" ++ sideLabel) hit.bound hit.value) gathered

/-- A query without a result, and its reasons. -/
def noteUnresolved (kind selector sideLabel : Text) (reasons : List Text) : Gathered :=
  if reasons = [] then gathered
  else { gathered with unresolved := gathered.unresolved ++ [⟨selector, sideLabel, kind, reasons⟩] }

def leave (limits : ReportLimits) (symbol : ChangedSymbol) (reason : UnanalysedReason) : Gathered :=
  let gathered := gathered.noteTruncation "changed_symbols" reason.bound (limits.value reason)
  { gathered with unanalysed := gathered.unanalysed ++ [(symbol.primarySelector, reason)] }

/-- The callees of one side of a symbol, unless they are skipped. -/
def analyseOutbound (limits : ReportLimits) (collector : Collector) (side : SnapshotSide) (selector : Text)
    (query : EvidenceQuery) : Except EvidenceError Gathered :=
  if limits.skipOutbound then .ok gathered
  else do
    let outbound ← collector.evidence selector { query with direction := .outbound }
    let gathered := (gathered.noteHits "outbound_evidence" selector side.label outbound.boundsHit).noteUnresolved
      "outbound_evidence" selector side.label outbound.noPathReasons
    .ok { gathered with outboundPaths := gathered.outboundPaths ++ outbound.paths }

def analyseSide (options : ReportOptions) (limits : ReportLimits) (changed : ChangedSymbols)
    (collectors : Collectors) (position : Nat) (side : SnapshotSide) (selector : Text) :
    Except EvidenceError Gathered := do
  let bounds := limits.deadline.elim options.bounds fun deadline =>
    { options.bounds with timeBudgetMs := min options.bounds.timeBudgetMs (max (deadline.remainingMs position side) 1) }
  let query : EvidenceQuery := ⟨options.minConfidence, bounds, options.filters, some changed, .inbound⟩
  let collector ← collectors position side
  let evidence ← collector.evidence selector query
  let gathered := (gathered.noteHits "evidence" selector side.label evidence.boundsHit).noteUnresolved
    "evidence" selector side.label evidence.noPathReasons
  let gathered := { gathered with evidencePaths := gathered.evidencePaths ++ evidence.paths }
  let gathered ← gathered.analyseOutbound limits collector side selector query
  let entries ← collector.entryPoints selector query
  let gathered := (gathered.noteHits "entry_points" selector side.label entries.boundsHit).noteUnresolved
    "entry_points" selector side.label entries.noEntryPointReasons
  let tests ← collector.candidateTests selector query changed.outOfScope
  .ok { gathered with
    entryPoints := gathered.entryPoints ++ entries.entryPoints.map fun entryPoint => ⟨entries.target, entryPoint⟩
    candidates := gathered.candidates ++ tests.candidates.map fun candidate => ⟨entries.target, candidate⟩
    candidateTestsTruncated := gathered.candidateTestsTruncated || tests.truncated }

def sideFromLabel (label : Text) : Option SnapshotSide :=
  if label = SnapshotSide.base.label then some .base
  else if label = SnapshotSide.head.label then some .head
  else none

/-- The evidence for the sides of a symbol. An uncertain group has none. -/
def analyse (options : ReportOptions) (limits : ReportLimits) (changed : ChangedSymbols) (collectors : Collectors)
    (position : Nat) (symbol : ChangedSymbol) : Except EvidenceError Gathered :=
  symbol.supportingSnapshots.foldlM (fun gathered label =>
    match sideFromLabel label with
    | none => .ok gathered
    | some side =>
      match (match side with
        | .base => symbol.base
        | .head => symbol.head) with
      | none => .ok gathered
      | some reference => gathered.analyseSide options limits changed collectors position side reference.selector) gathered

/-- The selected symbol at a position is left, or analysed. -/
def visit (options : ReportOptions) (limits : ReportLimits) (changed : ChangedSymbols) (collectors : Collectors)
    (gathered : Gathered) (visited : ChangedSymbol × Nat) : Except EvidenceError Gathered :=
  match limits.stop visited.2 with
  | some reason => .ok (gathered.leave limits visited.1 reason)
  | none => gathered.analyse options limits changed collectors visited.2 visited.1

end Gathered

/-- `build_report_with_selection` -/
def buildReport (comparison : Comparison) (workingTree : WorkingTreeView) (collectors : Collectors)
    (options : ReportOptions) (limits : ReportLimits) (selection : ResolvedSelection) :
    Except ReportError BoundedReport := do
  let changed ← (ChangedSymbols.compute comparison).mapError .changes
  let (changedForReport, filteredOut) := changed.filtered options.filters
  let selected := changedForReport.symbols.filter selection.selectsSymbol
  let start :=
    if workingTree.truncated then
      Gathered.empty.noteTruncation "working_tree" "dirty_entry_cap" DIRTY_ENTRY_CAP
    else .empty
  let gathered ← (selected.zipIdx.foldlM (Gathered.visit options limits changed collectors) start).mapError .evidence
  .ok
    { report :=
        { generatedAt := options.generatedAt
          workingTree
          changedSymbols := changedForReport
          filteredOut
          evidencePaths := gathered.evidencePaths
          outboundPaths := gathered.outboundPaths
          entryPoints := gathered.entryPoints
          candidateTests := gathered.candidates.mergeSort fun left right =>
            (((compare left.queried.selector right.queried.selector).then
              (compare left.candidate.source right.candidate.source)).then
                (compare left.candidate.test.selector right.candidate.test.selector)).isLE
          candidateTestsTruncated := gathered.candidateTestsTruncated
          unresolved := gathered.unresolved.mergeSort fun left right =>
            (((compare left.selector right.selector).then (compare left.snapshot right.snapshot)).then
              (compare left.kind right.kind)).isLE
          truncated := gathered.truncation.toList }
      unanalysed := gathered.unanalysed }
where
  DIRTY_ENTRY_CAP : Nat := 200

end OrbitGraph.Analysis
