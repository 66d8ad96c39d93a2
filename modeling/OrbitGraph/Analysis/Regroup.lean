import OrbitGraph.Analysis.Report

/-!
The report, regrouped by changed symbol: for each of them its callers, its entry points and
its candidate tests, or why it was not analysed.

The symbols that a limit stopped come back by the text of their primary selector.
-/

namespace OrbitGraph.Analysis

open Lib Changes Evidence

attribute [local instance] lexOrd

/-! ### The document -/

structure ChangesBounds where
  depth : Nat
  nodeCap : Nat
  queryBudgetMs : Nat
  maxSymbols : Nat
  maxCallers : Nat
  maxEntryPoints : Nat
  maxTests : Nat
  budgetMs : Option Nat

structure ChangesQuery where
  selection : List Text
  minConfidence : Text
  bounds : ChangesBounds

structure ChangesSummary where
  changedSymbols : Nat
  analysedSymbols : Nat
  notAnalysedSymbols : Nat
  notSelectedSymbols : Nat
  callers : Nat
  entryPoints : Nat
  candidateTests : Nat
  outOfScopePaths : Nat

structure AffectedCaller where
  caller : EndpointRef
  snapshots : List Text
  distance : Nat
  source : Text
  category : EvidenceCategory
  confidence : Text
  evidence : EvidencePath

structure AffectedEntryPoint where
  entryPoint : EndpointRef
  rule : Text
  rules : List Text
  snapshots : List Text
  distance : Nat
  source : Text
  category : EvidenceCategory
  confidence : Text
  evidence : EvidencePath
  note : Option Text

structure LabelledTest where
  test : EndpointRef
  snapshots : List Text
  source : CandidateSource
  category : EvidenceCategory
  confidence : Text
  evidence : Option EvidencePath
  truncated : Bool
  note : Option Text

structure SymbolAnalysis where
  selector : Text
  status : ChangeStatus
  pairing : Pairing
  pairingEvidence : PairingEvidence
  base : Option SymbolRef
  head : Option SymbolRef
  fileChange : FileChangeKind
  uncertainCandidates : List UncertainCandidate
  note : Option Text
  callers : List AffectedCaller
  callersFound : Nat
  entryPoints : List AffectedEntryPoint
  entryPointsFound : Nat
  candidateTests : List LabelledTest
  candidateTestsFound : Nat

structure NotAnalysed where
  selector : Text
  status : ChangeStatus
  reason : Text

structure TestSelection where
  test : EndpointRef
  source : CandidateSource
  category : EvidenceCategory
  confidence : Text
  changedSymbols : List Text

structure Incomplete where
  phase : Text
  bound : Text
  value : Nat
  message : Text

structure ChangesDocument where
  generatedAt : Text
  complete : Bool
  incomplete : Option Incomplete
  query : ChangesQuery
  summary : ChangesSummary
  symbols : List SymbolAnalysis
  notAnalysed : List NotAnalysed
  tests : List TestSelection
  unmatchedSelection : List Text
  unresolved : List UnresolvedArea
  outOfScope : List OutOfScopeEntry
  filteredOut : List FilteredOut
  truncated : Bool
  truncation : List TruncationFlag
  notices : List Text

def confidenceRank (label : Text) : Nat :=
  if label = "exact" then 0
  else if label = "import_resolved" then 1
  else if label = "same_module" then 2
  else if label = "fuzzy_name" then 3
  else 4

def weakestConfidence (path : EvidencePath) : Text :=
  let labels := path.edges.map EvidenceEdge.confidence
  (labels.foldl (fun weakest label =>
    match weakest with
    | none => some label
    | some known => if confidenceRank known ≤ confidenceRank label then some label else some known) none).getD
      "exact"

def pathSource (path : EvidencePath) : Text :=
  if path.edges = [] then "changed_symbol"
  else if path.edges.all fun edge => edge.relationship = "call" then "call_path"
  else if path.edges.any fun edge => edge.relationship = "use" then "import_relationship"
  else "reference_path"

/-! ### Lists of one symbol -/

def mergeSnapshot (snapshots : List Text) (snapshot : Text) : List Text :=
  if snapshot ∈ snapshots then snapshots
  else (snapshots ++ [snapshot]).mergeSort fun a b => (compare a b).isLE

/-- What is collected by selector, strongest first. -/
structure Collected (α κ : Type) where
  selector : α → Text
  snapshots : α → List Text
  withSnapshots : α → List Text → α
  key : α → κ

/-- The strongest of each selector, with the snapshots of all, cut at a cap. -/
def Collected.collect {α κ : Type} [Ord κ] (kind : Collected α κ) (candidates : List (α × Text)) (cap : Nat) :
    List α × Nat :=
  let bySelector : Std.TreeMap Text α := candidates.foldl (fun known (candidate, snapshot) =>
    known.alter (kind.selector candidate) fun
      | none => some candidate
      | some existing =>
        let snapshots := mergeSnapshot (kind.snapshots existing) snapshot
        let kept := if (compare (kind.key candidate) (kind.key existing)).isLT then candidate else existing
        some (kind.withSnapshots kept snapshots)) ∅
  let found := bySelector.values.mergeSort fun a b => (compare (kind.key a) (kind.key b)).isLE
  (found.take cap, found.length)

def callerKey (caller : AffectedCaller) : EvidenceCategory × Nat × Nat × Bool × Text :=
  (caller.category, caller.distance, confidenceRank caller.confidence,
    decide (caller.evidence.toNode.snapshot ≠ SnapshotSide.head.label), caller.caller.selector)

def collectCallers (report : ExportedReport) (queried : EndpointRef → Bool) (cap : Nat) : List AffectedCaller × Nat :=
  Collected.collect ⟨fun caller => caller.caller.selector, AffectedCaller.snapshots,
      fun caller snapshots => { caller with snapshots }, callerKey⟩
    ((report.evidencePaths.filter fun path => queried path.toNode).map fun path =>
      ({ caller := path.fromNode
         snapshots := [path.toNode.snapshot]
         distance := path.distance
         source := pathSource path
         category := path.category
         confidence := weakestConfidence path
         evidence := path }, path.toNode.snapshot)) cap

def entryKey (entry : AffectedEntryPoint) : Nat × EvidenceCategory × Nat × Bool × Text :=
  (entry.distance, entry.category, confidenceRank entry.confidence,
    decide (entry.evidence.toNode.snapshot ≠ SnapshotSide.head.label), entry.entryPoint.selector)

def collectEntryPoints (report : ExportedReport) (queried : EndpointRef → Bool) (cap : Nat) :
    List AffectedEntryPoint × Nat :=
  Collected.collect ⟨fun entry => entry.entryPoint.selector, AffectedEntryPoint.snapshots,
      fun entry snapshots => { entry with snapshots }, entryKey⟩
    ((report.entryPoints.filter fun entry => queried entry.queried).map fun ⟨queried, entry⟩ =>
      ({ entryPoint := entry.node
         rule := entry.rule
         rules := entry.rules
         snapshots := [queried.snapshot]
         distance := entry.distance
         source := pathSource entry.path
         category := entry.category
         confidence := weakestConfidence entry.path
         evidence := entry.path
         note := entry.note }, queried.snapshot)) cap

def testKey (test : LabelledTest) : CandidateSource × EvidenceCategory × Nat × Text :=
  (test.source, test.category, confidenceRank test.confidence, test.test.selector)

def collectTests (report : ExportedReport) (queried : EndpointRef → Bool) (cap : Nat) : List LabelledTest × Nat :=
  Collected.collect ⟨fun test => test.test.selector, LabelledTest.snapshots,
      fun test snapshots => { test with snapshots }, testKey⟩
    ((report.candidateTests.filter fun candidate => queried candidate.queried).map fun ⟨queried, candidate⟩ =>
      let evidence := candidate.pathId.bind fun pathId =>
        report.evidencePaths.find? fun path => path.pathId = pathId ∧ path.toNode.selector = queried.selector ∧
          path.toNode.snapshot = queried.snapshot
      ({ test := candidate.test
         snapshots := [queried.snapshot]
         source := candidate.source
         category := candidate.category
         confidence := evidence.elim
           (if candidate.source = .importRelationship then "file_import" else "name_only") weakestConfidence
         evidence
         truncated := candidate.truncated
         note := candidate.note }, queried.snapshot)) cap

def selectionKey (test : TestSelection) : CandidateSource × EvidenceCategory × Nat :=
  (test.source, test.category, confidenceRank test.confidence)

def testSelection (symbols : List SymbolAnalysis) : List TestSelection :=
  let offered := symbols.flatMap fun symbol => symbol.candidateTests.map fun test => (symbol.selector, test)
  let byTest : Std.TreeMap Text TestSelection := offered.foldl (fun known (selector, test) =>
    known.alter test.test.selector fun
      | none => some ⟨test.test, test.source, test.category, test.confidence, [selector]⟩
      | some existing =>
        let changedSymbols :=
          if selector ∈ existing.changedSymbols then existing.changedSymbols
          else existing.changedSymbols ++ [selector]
        if (compare (test.source, test.category, confidenceRank test.confidence) (selectionKey existing)).isLT then
          some ⟨existing.test, test.source, test.category, test.confidence, changedSymbols⟩
        else some { existing with changedSymbols }) ∅
  byTest.values.mergeSort fun a b =>
    ((compare (selectionKey a) (selectionKey b)).then (compare a.test.selector b.test.selector)).isLE

/-! ### Regrouping -/

def analyseSymbol (report : ExportedReport) (bounds : ChangesBounds) (symbol : ChangedSymbol) :
    SymbolAnalysis × List TruncationFlag :=
  let primary := symbol.primarySelector
  let occurrences := (symbol.base.toList ++ symbol.head.toList).map fun symbol => (symbol.selector, symbol.snapshot)
  let queried := fun endpoint : EndpointRef => decide ((endpoint.selector, endpoint.snapshot) ∈ occurrences)
  let (callers, callersFound) := collectCallers report queried bounds.maxCallers
  let (entryPoints, entryPointsFound) := collectEntryPoints report queried bounds.maxEntryPoints
  let (candidateTests, candidateTestsFound) := collectTests report queried bounds.maxTests
  let flag := fun (what bound : Text) (found kept cap : Nat) =>
    if kept < found then [⟨what ++ ":" ++ primary, bound, cap⟩] else ([] : List TruncationFlag)
  ({ selector := primary
     status := symbol.status
     pairing := symbol.pairing
     pairingEvidence := symbol.pairingEvidence
     base := symbol.base
     head := symbol.head
     fileChange := symbol.fileChange
     uncertainCandidates := symbol.uncertainCandidates
     note := symbol.note
     callers
     callersFound
     entryPoints
     entryPointsFound
     candidateTests
     candidateTestsFound },
    flag "callers" "max_callers" callersFound callers.length bounds.maxCallers ++
    flag "entry_points" "max_entry_points" entryPointsFound entryPoints.length bounds.maxEntryPoints ++
    flag "candidate_tests" "max_tests" candidateTestsFound candidateTests.length bounds.maxTests)

/-- The reasons, by primary selector. The last of a selector stays. -/
def unanalysedReasons (unanalysed : List (Text × UnanalysedReason)) : Std.TreeMap Text UnanalysedReason :=
  unanalysed.foldl (fun reasons (selector, reason) => reasons.insert selector reason) ∅

/-- What the changed symbols become. -/
structure Regrouped where
  symbols : List SymbolAnalysis
  notAnalysed : List NotAnalysed
  notSelected : Nat
  truncation : List TruncationFlag

def regroupSymbol (report : ExportedReport) (reasons : Std.TreeMap Text UnanalysedReason)
    (selection : ResolvedSelection) (bounds : ChangesBounds) (so : Regrouped) (symbol : ChangedSymbol) : Regrouped :=
  if !selection.selectsSymbol symbol then { so with notSelected := so.notSelected + 1 }
  else
    match reasons[symbol.primarySelector]? with
    | some reason =>
      { so with notAnalysed := so.notAnalysed ++ [⟨symbol.primarySelector, symbol.status, reason.bound⟩] }
    | none =>
      let (analysis, flags) := analyseSymbol report bounds symbol
      { so with symbols := so.symbols ++ [analysis], truncation := so.truncation ++ flags }

def regroup (report : ExportedReport) (unanalysed : List (Text × UnanalysedReason)) (selection : ResolvedSelection)
    (query : ChangesQuery) : ChangesDocument :=
  let bounds := query.bounds
  let so := report.changedSymbols.symbols.foldl (regroupSymbol report (unanalysedReasons unanalysed) selection bounds)
    ⟨[], [], 0, report.truncated⟩
  let tests := testSelection so.symbols
  let truncation := so.truncation ++
    if report.candidateTestsTruncated then [⟨"candidate_tests", "traversal", bounds.nodeCap⟩] else []
  let truncation := (truncation.mergeSort fun a b => (compare a b).isLE).destutter (· ≠ ·)
  let incomplete :=
    if unanalysed.any fun entry => entry.2 = .timeBudget then
      some
        { phase := "analysis"
          bound := "budget_ms"
          value := bounds.budgetMs.getD 0
          message := ("the budget ran out before every selected changed symbol was analysed; the " ++
            "rest are listed in not_analysed. Retry with a larger budget_ms, or select " ++
            "them with symbols").toList }
    else none
  { generatedAt := report.generatedAt
    complete := incomplete.isNone
    incomplete
    query
    summary :=
      { changedSymbols := report.changedSymbols.symbols.length
        analysedSymbols := so.symbols.length
        notAnalysedSymbols := so.notAnalysed.length
        notSelectedSymbols := so.notSelected
        callers := (so.symbols.map fun symbol => symbol.callers.length).sum
        entryPoints := (so.symbols.map fun symbol => symbol.entryPoints.length).sum
        candidateTests := tests.length
        outOfScopePaths := report.changedSymbols.outOfScope.length }
    symbols := so.symbols
    notAnalysed := so.notAnalysed
    tests
    unmatchedSelection := selection.unmatched report.changedSymbols.symbols
    unresolved := report.unresolved
    outOfScope := report.changedSymbols.outOfScope
    filteredOut := report.filteredOut
    truncated := !truncation.isEmpty
    truncation
    notices := report.workingTree.notice.toList }

end OrbitGraph.Analysis
