import OrbitGraph.Evidence.Attribution
import OrbitGraph.Evidence.Presentation
import OrbitGraph.Lib.Chains
import OrbitGraph.Query.Callees

/-!
The paths of evidence for one symbol.

Both directions search breadth first from the queried symbol: inbound along the references and
relations to a symbol, outbound along its calls. What the core queries answer is a parameter. An
edge that does not lead back to the chain before it is reported with that chain, as a path.
-/

namespace OrbitGraph.Evidence

open Lib Changes Query

/-! ### The source -/

structure RefEntry where
  file : Text
  line : Nat
  kind : RefKind
  confidence : RefConfidence

def RefEntry.place (entry : RefEntry) : Text × Nat × Text := (entry.file, entry.line, kindLabel entry.kind)

/-- A structural relation. `fromSymbol` is its `from`. -/
structure RelationEntry where
  fromSymbol : Text
  kind : RefKind
  file : Text
  line : Nat
  confidence : RefConfidence

structure RefFallback where
  refs : List RefEntry
  note : Text

/-- The `qualified` of a result is that of its target. -/
structure RefResult where
  qualified : Option Text
  refs : List RefEntry
  relations : List RelationEntry
  skippedLowConfidence : Nat
  fallback : Option RefFallback

/-- The nodes of `touched` are given by their names and origins. -/
structure ImpactResult where
  touched : List (Text × ImpactOrigin)
  truncated : Bool
  visitedNodes : Nat
  fallbackNote : Option Text

/-- What the core answers for the snapshot of one side. -/
structure SnapshotQueries where
  graph : SnapshotGraph
  side : SnapshotSide
  commitSha : Text
  /-- The files of the overview, with their symbols. -/
  overview : List (Text × List IndexedSymbol)
  refs : Selector → RefConfidence → Except Text RefResult
  callees : Selector → Except Text (List CalleeEdge)
  /-- The qualified name of what `show` finds. -/
  resolve : Selector → Except Text (Option (Option Text))
  impact : Selector → Nat → RefConfidence → EvidenceDirection → Except Text ImpactResult
  excluded : Nat

def parseSelector (selector : Text) : Except EvidenceError Selector :=
  (Selector.parse selector).mapError fun error => .selector error.reason

def endpointLabel : Selector → Text
  | .symbol path symbol _ => path ++ '#' :: symbol
  | other => other.display

def confidenceAtLeast (confidence floor : RefConfidence) : Bool := rank confidence ≤ rank floor

def shouldSurfaceFuzzyHeuristics (floor : RefConfidence) : Bool := floor = .importResolved ∨ floor = .sameModule

def FUZZY_HEURISTIC_NOTE : Text :=
  ("This edge resolved only at the `fuzzy_name` confidence floor — a name-only match that may " ++
    "be a different symbol sharing the name — and is shown even though the query's confidence " ++
    "floor would otherwise exclude it, so a receiver of unknown type does not silently hide a " ++
    "genuine call.").toList

/-- The node of an edge that the search comes from. -/
def EvidenceDirection.near : EvidenceDirection → EvidenceEdge → Text
  | .inbound => EvidenceEdge.toSelector
  | .outbound => EvidenceEdge.fromSelector

def EvidenceDirection.far : EvidenceDirection → EvidenceEdge → Text
  | .inbound => EvidenceEdge.fromSelector
  | .outbound => EvidenceEdge.toSelector

/-- The end of a path that the search found. -/
def EvidenceDirection.reached : EvidenceDirection → EvidencePath → EndpointRef
  | .inbound => EvidencePath.fromNode
  | .outbound => EvidencePath.toNode

def EvidenceDirection.asked : EvidenceDirection → EvidencePath → EndpointRef
  | .inbound => EvidencePath.toNode
  | .outbound => EvidencePath.fromNode

/-- What the query about a node says beside its edges. -/
structure NodeAnswer where
  qualified : Option Text
  skippedLowConfidence : Nat
  unresolved : List UnresolvedCallee

namespace SnapshotQueries

variable (q : SnapshotQueries) (minConfidence : RefConfidence)

/-- `EvidenceCollector::attribute`, which reads a file once and answers from what it has read. -/
def attributeSite (file : Text) (line : Nat) : Except EvidenceError Attribution :=
  (readFileIndex q.graph q.side file).map fun index => lineAttribution index file line

def failed {α : Type} (operation : String) (answer : Except Text α) : Except EvidenceError α :=
  answer.mapError (.query operation.toList q.side)

def edge (fromLabel fromSelector : Text) (origin : ImpactOrigin) (toLabel toSelector : Text) (kind : RefKind)
    (confidence : RefConfidence) (file : Text) (line : Nat) (note : Option Text) : EvidenceEdge where
  fromLabel := fromLabel
  fromSelector := fromSelector
  fromOrigin := originLabel origin
  toLabel := toLabel
  toSelector := toSelector
  relationship := kindLabel kind
  category := categorize kind confidence
  confidence := confidenceLabel confidence
  snapshot := q.side.label
  commitSha := q.commitSha
  source := ⟨file, some line⟩
  note := note

section Inbound

variable (origins : Text → Option ImpactOrigin) (toSelector toLabel : Text)

def refEdge (note : Option Text) (entry : RefEntry) : Except EvidenceError EvidenceEdge :=
  (q.attributeSite entry.file entry.line).map fun site =>
    let origin := match site.qualified with
      | some qualified => (origins qualified).getD .symbol
      | none => .file
    q.edge site.label site.selector origin toLabel toSelector entry.kind entry.confidence entry.file entry.line note

def relationEdge (relation : RelationEntry) : EvidenceEdge :=
  q.edge relation.fromSymbol ("module:" ++ relation.fromSymbol) ((origins relation.fromSymbol).getD .symbol)
    toLabel toSelector relation.kind relation.confidence relation.file relation.line none

/-- An edge that is known by a name only. -/
def heuristicEdge (note : Text) (entry : RefEntry) : Except EvidenceError EvidenceEdge :=
  (q.refEdge origins toSelector toLabel (some note) entry).map fun edge => { edge with category := .heuristicMatch }

/-- The `fuzzy_name` references at places that are not reported yet. -/
def unseen (seen : List (Text × Nat × Text)) : List RefEntry → List RefEntry
  | [] => []
  | entry :: rest =>
    if entry.confidence ≠ .fuzzyName ∨ entry.place ∈ seen then unseen seen rest
    else entry :: unseen (entry.place :: seen) rest

def fuzzyRefs (parsed : Selector) (reported : List RefEntry) : Except EvidenceError (List RefEntry) :=
  if shouldSurfaceFuzzyHeuristics minConfidence then
    (q.failed "query inbound fuzzy-name references" (q.refs parsed .fuzzyName)).map fun fuzzy =>
      unseen (reported.map RefEntry.place) fuzzy.refs
  else .ok []

def inboundEdges : Except EvidenceError (List EvidenceEdge × NodeAnswer) := do
  let parsed ← parseSelector toSelector
  let result ← q.failed "query inbound references" (q.refs parsed minConfidence)
  let refs ← result.refs.mapM (q.refEdge origins toSelector toLabel none)
  let named := (result.fallback.map RefFallback.refs).getD []
  let fallback ← named.mapM (q.heuristicEdge origins toSelector toLabel ((result.fallback.map RefFallback.note).getD []))
  let more ← q.fuzzyRefs minConfidence parsed (result.refs ++ named)
  let fuzzy ← more.mapM (q.heuristicEdge origins toSelector toLabel FUZZY_HEURISTIC_NOTE)
  let edges := refs ++ result.relations.map (q.relationEdge origins toSelector toLabel) ++ fallback ++ fuzzy
  return (edges.mergeSort fun a b => ((compare a.category b.category).then
      ((compare a.source b.source).then (compare a.relationship b.relationship))).isLE,
    ⟨result.qualified, result.skippedLowConfidence, []⟩)

end Inbound

section Outbound

/-- Where the overview has a qualified name, the last of several. -/
def qualifiedIndex (qualified : Text) : Option (Text × IndexedSymbol) :=
  (q.overview.flatMap fun (path, symbols) => symbols.map fun symbol => (path, symbol)).reverse.find? fun entry =>
    entry.2.qualified = qualified

/-- What becomes of a call: an edge, a callee that is not resolved, or nothing below the floor. -/
def outboundCall (nodeSelector nodeLabel nodeFile : Text) (callee : CalleeEdge) : Option (EvidenceEdge ⊕ UnresolvedCallee) :=
  match callee.targetQualified with
  | none => some (.inr ⟨callee.targetName, callee.line, ("`" ++ callee.targetName ++
      "` did not resolve to an indexed symbol in the " ++ q.side.label ++ (" snapshot; a common " ++
      "cause is a call into an external crate or dependency, a dynamically dispatched call, or a name the " ++
      "extractor could not bind.").toList)⟩)
  | some qualified =>
    let strong := confidenceAtLeast callee.confidence minConfidence
    if !strong && !(callee.confidence = .fuzzyName && shouldSurfaceFuzzyHeuristics minConfidence) then none
    else
      match q.qualifiedIndex qualified with
      | none => some (.inr ⟨callee.targetName, callee.line, "`" ++ callee.targetName ++ "` resolved to `" ++
          qualified ++ "`, which this snapshot's symbol index does not carry."⟩)
      | some (path, symbol) => some (.inl (q.edge nodeLabel nodeSelector .symbol (path ++ '#' :: symbol.name)
          ("symbol:" ++ path ++ '#' :: symbol.name ++ ':' :: symbol.kind) .call callee.confidence nodeFile
          callee.line (if strong then none else some FUZZY_HEURISTIC_NOTE)))

def outboundEdges (nodeSelector : Text) : Except EvidenceError (List EvidenceEdge × NodeAnswer) := do
  let parsed ← parseSelector nodeSelector
  let callees ← q.failed "query outbound callees" (q.callees parsed)
  let calls := callees.map (q.outboundCall minConfidence nodeSelector (endpointLabel parsed) parsed.path)
  return ((calls.filterMap fun call => call.bind Sum.getLeft?).mergeSort fun a b =>
      ((compare a.category b.category).then
        ((compare a.source.line b.source.line).then (compare a.toLabel b.toLabel))).isLE,
    ⟨none, calls.countP Option.isNone, calls.filterMap fun call => call.bind Sum.getRight?⟩)

end Outbound

/-- What the loop of either direction searches. A node is a selector with its label. -/
def search (origins : Text → Option ImpactOrigin) (query : EvidenceQuery) (selector label : Text) :
    ChainSearch Text (Text × Text) EvidenceEdge NodeAnswer EvidenceError where
  key := Prod.fst
  far := query.direction.far
  node edge := match query.direction with
    | .inbound => if edge.fromOrigin = originLabel .symbol then some (edge.fromSelector, edge.fromLabel) else none
    | .outbound => some (edge.toSelector, edge.toLabel)
  next node := match query.direction with
    | .inbound => q.inboundEdges query.minConfidence origins node.1 node.2
    | .outbound => q.outboundEdges query.minConfidence node.1
  origin := (selector, label)
  cap := query.bounds.effectiveNodeCap
  depth := query.bounds.effectiveDepth

end SnapshotQueries

/-- The category of the weakest edge. -/
def weakest (edges : List EvidenceEdge) : EvidenceCategory :=
  ((edges.map EvidenceEdge.category).foldl (keepBetter fun a b => compare b a = .lt) none).getD .heuristicMatch

/-- A path from its chain. An inbound chain is listed from the end that the search found. -/
def pathOf (direction : EvidenceDirection) (target : EndpointRef) (chain : List EvidenceEdge) : EvidencePath :=
  let found := match direction, chain with
    | _, [] => target
    | .inbound, edge :: _ => ⟨edge.fromSelector, target.snapshot, edge.fromLabel, edge.fromOrigin⟩
    | .outbound, edge :: _ => ⟨edge.toSelector, target.snapshot, edge.toLabel, originLabel .symbol⟩
  { pathId := []
    fromNode := match direction with
      | .inbound => found
      | .outbound => target
    toNode := match direction with
      | .inbound => target
      | .outbound => found
    distance := chain.length
    category := weakest chain
    truncated := false
    truncatedBy := none
    edges := match direction with
      | .inbound => chain
      | .outbound => chain.reverse }

/-- The strongest evidence first, then the shortest chain. -/
def pathLe : EvidenceDirection → EvidencePath → EvidencePath → Bool
  | .inbound, a, b => ((compare a.category b.category).then ((compare a.distance b.distance).then
      ((compare (a.edges.head?.map EvidenceEdge.source) (b.edges.head?.map EvidenceEdge.source)).then
        (compare a.fromNode.selector b.fromNode.selector)))).isLE
  | .outbound, a, b => ((compare a.category b.category).then ((compare a.distance b.distance).then
      (compare a.toNode.selector b.toNode.selector))).isLE

def boundsHit (bounds : EvidenceBounds) (stop : ChainsEnd) (deep : Bool) : List BoundHit :=
  (if stop = .late then [⟨"time_budget", bounds.timeBudgetMs⟩] else []) ++
    (if stop = .capped then [⟨"impact_node_cap", bounds.effectiveNodeCap⟩] else []) ++
    if deep then [⟨"depth", bounds.effectiveDepth⟩] else []

def STANDING_NO_PATH_REASONS : List Text := [
  ("The index is syntax-driven: dynamic dispatch, reflection, runtime imports, and calls written " ++
    "inside macro invocations produce no edge.").toList,
  "Generated and macro-expanded code is indexed as written, not as expanded."]

namespace SnapshotQueries

variable (q : SnapshotQueries)

/-- `no_path_reasons_for` -/
def noPathReasons (direction : EvidenceDirection) (resolved : Bool) (skipped : Nat) (floor : RefConfidence)
    (hits : List BoundHit) : List Text :=
  let noun := match direction with
    | .inbound => "inbound reference".toList
    | .outbound => "outbound call".toList
  (if resolved then [] else ["The selector did not resolve to an indexed symbol in the ".toList ++ q.side.label ++
      " snapshot, so no ".toList ++ noun ++ " could be attributed to it.".toList]) ++
    (if skipped = 0 then [] else [History.decimal skipped ++ " candidate reference(s) were excluded by the `".toList ++
      confidenceLabel floor ++ "` confidence floor.".toList]) ++
    (if q.excluded = 0 then [] else [History.decimal q.excluded ++
      " tree entr(ies) were excluded from this snapshot and contribute no evidence.".toList]) ++
    (hits.map fun hit => "The traversal stopped at the `".toList ++ hit.bound ++ "` bound (".toList ++
      History.decimal hit.value ++ "), so this result is not a complete set of inbound paths.".toList) ++
    STANDING_NO_PATH_REASONS

/-- The status of the queried symbol and the sides with evidence for it. -/
def sideContext (selector : Text) (changes : Option ChangedSymbols) : Option Text × List Text :=
  match changes.bind fun changes => (changes.entriesFor selector).head? with
  | none => (none, [q.side.label])
  | some entry => (some entry.status.label, entry.supportingSnapshots)

def targetOf (selector : Text) (parsed : Selector) : EndpointRef :=
  ⟨selector, q.side.label, endpointLabel parsed, originLabel (match parsed with
    | .symbol .. => .symbol
    | _ => .file)⟩

/-- The end of either direction, after its search. -/
def report (query : EvidenceQuery) (target : EndpointRef) (impact : ImpactResult) (shown : Option (Option Text))
    (s : Chains Text (Text × Text) EvidenceEdge NodeAnswer) (stop : ChainsEnd) : EvidenceReport :=
  let paths := (s.found.map (pathOf query.direction target)).mergeSort (pathLe query.direction)
  let skipped := (s.answers.head?.map NodeAnswer.skippedLowConfidence).getD 0
  let qualified := match query.direction with
    | .inbound => s.answers.head?.bind NodeAnswer.qualified
    | .outbound => shown.bind id
  let resolved := match query.direction with
    | .inbound => qualified.isSome
    | .outbound => shown.isSome
  let kept := applyFilters paths query (FilterLog.recordCount [] .confidence skipped)
  let hits := boundsHit query.bounds stop s.deep
  { target, commitSha := q.commitSha, resolved, resolvedQualified := qualified
    impact := ⟨query.direction.label, impact.visitedNodes, impact.truncated, impact.fallbackNote⟩
    paths := kept.1.zipIdx.map fun (path, index) => { path with pathId := "p-" ++ History.decimal (index + 1) }
    skippedLowConfidence := skipped
    cyclesPruned := s.cycles
    truncated := !hits.isEmpty
    truncatedBy := hits.head?.map BoundHit.bound
    boundsHit := hits
    filteredOut := kept.2.intoFilteredOut
    changeStatus := (q.sideContext target.selector query.changes).1
    evidenceSides := (q.sideContext target.selector query.changes).2
    noPathReasons := if kept.1.isEmpty then q.noPathReasons query.direction resolved skipped query.minConfidence hits else []
    unresolvedCallees := (s.answers.flatMap NodeAnswer.unresolved).mergeSort fun a b =>
      ((compare a.name b.name).then (compare a.line b.line)).isLE }

/-- What is asked before the search. -/
def opening (selector : Text) (query : EvidenceQuery) :
    Except EvidenceError (Selector × Option (Option Text) × ImpactResult) := do
  let parsed ← parseSelector selector
  let shown ← match query.direction with
    | .inbound => pure none
    | .outbound => q.failed "resolve outbound query target" (q.resolve parsed)
  let impact ← q.failed (match query.direction with
    | .inbound => "query inbound impact"
    | .outbound => "query outbound impact")
    (q.impact parsed query.bounds.effectiveDepth query.minConfidence query.direction)
  return (parsed, shown, impact)

def originsOf (impact : ImpactResult) (qualified : Text) : Option ImpactOrigin :=
  (impact.touched.reverse.find? fun entry => entry.1 = qualified).map Prod.snd

/-- `inbound_evidence` and `outbound_evidence`. `late` says after how many nodes the time budget is used up. -/
def evidence (late : Nat → Bool) (selector : Text) (query : EvidenceQuery) : Option (Except EvidenceError EvidenceReport) :=
  match q.opening selector query with
  | .error error => some (.error error)
  | .ok (parsed, shown, impact) =>
    (searchChains (q.search (originsOf impact) query selector (endpointLabel parsed)) late).map fun answer =>
      answer.map fun (s, stop) => q.report query (q.targetOf selector parsed) impact shown s stop

/-! ### The edges of a node -/

variable {q} {origins : Text → Option ImpactOrigin} {floor : RefConfidence} {query : EvidenceQuery}
  {selector label toSelector : Text}

def relabel (label : Text) (edge : EvidenceEdge) : EvidenceEdge := { edge with toLabel := label }

theorem mapM_relabel {α : Type} {f g : α → Except EvidenceError EvidenceEdge} {label : Text}
    (same : ∀ a, g a = (f a).map (relabel label)) (xs : List α) : xs.mapM g = (xs.mapM f).map (List.map (relabel label)) := by
  induction xs with
  | nil => rfl
  | cons x xs ih =>
    rw [List.mapM_cons, List.mapM_cons, ih, same]
    cases f x with
    | error => rfl
    | ok => cases xs.mapM f <;> rfl

theorem bind_of_map {α β : Type} {x : Except EvidenceError α} {g : α → α} {k k' : α → Except EvidenceError β} {h : β → β}
    (same : ∀ a, k' (g a) = (k a).map h) : (x.map g >>= k') = (x >>= k).map h := by
  cases x with
  | error => rfl
  | ok a => exact same a

theorem bind_of_same {α β : Type} (x : Except EvidenceError α) {k k' : α → Except EvidenceError β} {h : β → β}
    (same : ∀ a, k' a = (k a).map h) : (x >>= k') = (x >>= k).map h := by
  cases x with
  | error => rfl
  | ok a => exact same a

/-- The label of a node is only written into its edges. -/
theorem inboundEdges_relabel (label label' : Text) : q.inboundEdges floor origins toSelector label' =
    (q.inboundEdges floor origins toSelector label).map fun answer => (answer.1.map (relabel label'), answer.2) := by
  have ref : ∀ note entry, q.refEdge origins toSelector label' note entry =
      (q.refEdge origins toSelector label note entry).map (relabel label') := fun note entry => by
    unfold refEdge
    cases q.attributeSite entry.file entry.line <;> rfl
  have heuristic : ∀ note entry, q.heuristicEdge origins toSelector label' note entry =
      (q.heuristicEdge origins toSelector label note entry).map (relabel label') := fun note entry => by
    unfold heuristicEdge
    rw [ref]
    cases q.refEdge origins toSelector label (some note) entry <;> rfl
  unfold inboundEdges
  simp only [mapM_relabel (ref none), mapM_relabel (heuristic _)]
  refine bind_of_same _ fun parsed => bind_of_same _ fun result => bind_of_map fun refs => bind_of_map fun fallback =>
    bind_of_same _ fun more => bind_of_map fun fuzzy => congrArg Except.ok (Prod.ext ?_ rfl)
  have relations : result.relations.map (q.relationEdge origins toSelector label') =
      (result.relations.map (q.relationEdge origins toSelector label)).map (relabel label') := by
    rw [List.map_map]
    rfl
  rw [relations, ← List.map_append, ← List.map_append, ← List.map_append]
  dsimp only
  rw [List.map_mergeSort]
  exact fun _ _ _ _ => rfl

theorem search_keyed : (q.search origins query selector label).Keyed where
  key_node e n leads := by
    cases way : query.direction with
    | inbound =>
      simp only [search, way] at leads ⊢
      obtain rfl := Option.some.inj (Option.ite_none_right_eq_some.mp leads).2
      rfl
    | outbound =>
      simp only [search, way] at leads ⊢
      obtain rfl := Option.some.inj leads
      rfl
  alike n m same e links := by
    obtain ⟨sel, l⟩ := n
    obtain ⟨sel', l'⟩ := m
    obtain rfl : sel = sel' := same
    obtain ⟨edges, answer, asked, mem⟩ := links
    cases way : query.direction with
    | inbound =>
      simp only [search, way] at asked
      refine ⟨relabel l' e, ⟨edges.map (relabel l'), answer, ?_, List.mem_map_of_mem mem⟩, ?_, ?_⟩
      · simp only [search, way]
        rw [inboundEdges_relabel l, asked]
        rfl
      · simp only [search, way, relabel, EvidenceDirection.far]
      · simp only [search, way, relabel, apply_ite Option.isSome]
    | outbound =>
      simp only [search, way] at asked ⊢
      exact ⟨e, ⟨edges, answer, asked, mem⟩, rfl, rfl⟩

variable {entry : RefEntry}

theorem toSelector_of_refEdge {note : Option Text} {e : EvidenceEdge}
    (run : q.refEdge origins toSelector label note entry = .ok e) : e.toSelector = toSelector := by
  obtain ⟨_, _, rfl⟩ := map_eq_ok.mp run
  rfl

theorem toSelector_of_heuristicEdge {note : Text} {e : EvidenceEdge}
    (run : q.heuristicEdge origins toSelector label note entry = .ok e) : e.toSelector = toSelector := by
  obtain ⟨_, read, rfl⟩ := map_eq_ok.mp run
  have near := toSelector_of_refEdge read
  exact near

/-- The near end of an edge is the node whose edges were asked for. -/
theorem near_of_links {n : Text × Text} {e : EvidenceEdge} (links : (q.search origins query selector label).Links n e) :
    query.direction.near e = n.1 := by
  obtain ⟨edges, answer, asked, mem⟩ := links
  cases way : query.direction with
  | inbound =>
    simp only [search, way, inboundEdges, bind_eq_ok] at asked
    obtain ⟨_, _, result, _, refs, refsRun, fallback, fallbackRun, more, _, fuzzy, fuzzyRun, same⟩ := asked
    obtain ⟨rfl, _⟩ := Prod.mk.inj (Except.ok.inj same)
    rw [List.mem_mergeSort, List.mem_append, List.mem_append, List.mem_append] at mem
    rcases mem with ((mem | mem) | mem) | mem
    · obtain ⟨_, _, run⟩ := (mem_of_mapM refsRun).mp mem
      exact toSelector_of_refEdge run
    · obtain ⟨_, _, rfl⟩ := List.mem_map.mp mem
      rfl
    · obtain ⟨_, _, run⟩ := (mem_of_mapM fallbackRun).mp mem
      exact toSelector_of_heuristicEdge run
    · obtain ⟨_, _, run⟩ := (mem_of_mapM fuzzyRun).mp mem
      exact toSelector_of_heuristicEdge run
  | outbound =>
    simp only [search, way, outboundEdges, bind_eq_ok] at asked
    obtain ⟨parsed, _, callees, _, same⟩ := asked
    obtain ⟨rfl, _⟩ := Prod.mk.inj (Except.ok.inj same)
    rw [List.mem_mergeSort] at mem
    obtain ⟨call, listed, left⟩ := List.mem_filterMap.mp mem
    obtain ⟨callee, _, rfl⟩ := List.mem_map.mp listed
    obtain ⟨edge, read, found⟩ := Option.bind_eq_some_iff.mp left
    obtain rfl := Sum.getLeft?_eq_some_iff.mp found
    unfold outboundCall at read
    cases target : callee.targetQualified with
    | none =>
      rw [target] at read
      cases Option.some.inj read
    | some qualified =>
      rw [target] at read
      obtain ⟨_, read⟩ := Option.ite_none_left_eq_some.mp read
      cases known : q.qualifiedIndex qualified with
      | none =>
        rw [known] at read
        cases Option.some.inj read
      | some address =>
        rw [known] at read
        obtain rfl := Sum.inl.inj (Option.some.inj read)
        rfl

/-! ### What is reported -/

variable {late : Nat → Bool} {report : EvidenceReport} {target : EndpointRef} {impact : ImpactResult}
  {shown : Option (Option Text)} {s : Chains Text (Text × Text) EvidenceEdge NodeAnswer} {stop : ChainsEnd}
  {p : EvidencePath} {parsed : Selector}

theorem evidence_spec (late : Nat → Bool) (opened : q.opening selector query = .ok (parsed, shown, impact)) :
    ∃ answer, Ended (q.search (originsOf impact) query selector (endpointLabel parsed)) answer ∧
      q.evidence late selector query = some (answer.map fun (s, stop) =>
        q.report query (q.targetOf selector parsed) impact shown s stop) := by
  have deep : 0 < query.bounds.effectiveDepth := by
    unfold EvidenceBounds.effectiveDepth EVIDENCE_DEPTH DEFAULT_IMPACT_DEPTH MAX_EVIDENCE_DEPTH
    split_ifs <;> omega
  obtain ⟨answer, ends, holds⟩ := searchChains_spec search_keyed late (Nat.lt_of_lt_of_le Nat.one_pos (le_max_right _ _)) deep
  refine ⟨answer, holds, ?_⟩
  unfold evidence
  rw [opened]
  dsimp only
  rw [ends]
  rfl

theorem evidence_ok (run : q.evidence late selector query = some (.ok report)) : ∃ parsed shown impact s stop,
    q.opening selector query = .ok (parsed, shown, impact) ∧
    Ended (q.search (originsOf impact) query selector (endpointLabel parsed)) (.ok (s, stop)) ∧
    report = q.report query (q.targetOf selector parsed) impact shown s stop := by
  cases opened : q.opening selector query with
  | error error =>
    unfold evidence at run
    rw [opened] at run
    cases run
  | ok opening =>
    obtain ⟨parsed, shown, impact⟩ := opening
    obtain ⟨answer, holds, same⟩ := evidence_spec late opened
    obtain ⟨⟨s, stop⟩, rfl, rfl⟩ := map_eq_ok.mp (Option.mem_unique same run)
    exact ⟨parsed, shown, impact, s, stop, rfl, holds, rfl⟩

theorem mem_paths (mem : p ∈ (q.report query target impact shown s stop).paths) :
    ∃ chain ∈ s.found, ∃ pathId, p = { pathOf query.direction target chain with pathId } := by
  obtain ⟨⟨path, index⟩, listed, rfl⟩ := List.mem_map.mp mem
  have kept := List.fst_mem_of_mem_zipIdx listed
  have sorted : path ∈ (s.found.map (pathOf query.direction target)).mergeSort (pathLe query.direction) := by
    cases free : query.filters.isEmpty with
    | true =>
      rw [applyFilters, if_pos free] at kept
      exact kept
    | false =>
      rw [applyFilters_keeps _ free] at kept
      exact (List.mem_filter.mp kept).1
  obtain ⟨chain, found, rfl⟩ := List.mem_map.mp (List.mem_mergeSort.mp sorted)
  exact ⟨chain, found, _, rfl⟩

variable {chain : List EvidenceEdge}

variable (q target impact shown stop) in
theorem exists_path (free : query.filters.isEmpty = true) (found : chain ∈ s.found) :
    ∃ p ∈ (q.report query target impact shown s stop).paths,
      ∃ pathId, p = { pathOf query.direction target chain with pathId } := by
  have listed : pathOf query.direction target chain ∈
      (s.found.map (pathOf query.direction target)).mergeSort (pathLe query.direction) :=
    List.mem_mergeSort.mpr (List.mem_map_of_mem found)
  obtain ⟨index, place⟩ := List.mem_iff_getElem?.mp listed
  refine ⟨_, List.mem_map.mpr ⟨(_, index), List.mem_zipIdx_iff_getElem?.mpr ?_, rfl⟩, _, rfl⟩
  rw [applyFilters, if_pos free]
  exact place

/-- A chain leads from link to link, from the queried symbol on. -/
theorem near_of_chained (chained : Chained (q.search origins query selector label) chain) :
    chain.IsChain (fun later e => query.direction.near later = query.direction.far e) ∧
      (∀ e ∈ chain.getLast?, query.direction.near e = selector) ∧
      ∀ e ∈ chain, ∃ n, (q.search origins query selector label).Links n e := by
  induction chained with
  | nil => exact ⟨.nil, nofun, nofun⟩
  | @cons e n path _ leads links ih =>
    obtain ⟨linked, last, genuine⟩ := ih
    have near := near_of_links links
    have genuine := List.forall_mem_cons.mpr ⟨⟨n, links⟩, genuine⟩
    cases path with
    | nil =>
      obtain rfl : n = (selector, label) := leads
      exact ⟨.singleton _, fun e' only => Option.some.inj only ▸ near, genuine⟩
    | cons e' path =>
      have far := search_keyed.key_node e' n leads
      exact ⟨.cons_cons (near.trans far) linked, last, genuine⟩

theorem weakest_spec {edges : List EvidenceEdge} (some : edges ≠ []) :
    ∃ e ∈ edges, e.category = weakest edges ∧ ∀ e' ∈ edges, (compare e'.category e.category).isLE = true := by
  have negTrans : ∀ a b c : EvidenceCategory, ¬ compare b a = .lt → ¬ compare c b = .lt → ¬ compare c a = .lt := by
    rintro ⟨⟩ ⟨⟩ ⟨⟩ <;> decide
  have asymm : ∀ a b : EvidenceCategory, compare b a = .lt → ¬ compare a b = .lt := by
    rintro ⟨⟩ ⟨⟩ <;> decide
  have least : ∀ a b : EvidenceCategory, ¬ compare a b = .lt → (compare b a).isLE = true := by
    rintro ⟨⟩ ⟨⟩ <;> decide
  unfold weakest
  rcases foldl_keepBetter negTrans asymm (edges.map EvidenceEdge.category) with ⟨none, _⟩ | ⟨w, mem, best, bound⟩
  · exact absurd (List.map_eq_nil_iff.mp none) some
  · obtain ⟨e, listed, rfl⟩ := List.mem_map.mp mem
    rw [best]
    exact ⟨e, listed, rfl, fun e' mem' => least _ _ (bound _ (List.mem_map_of_mem mem'))⟩

variable (q query selector) in
/-- What a path of a result is: edges that the core reported, linked from end to end, one of which is the queried symbol. -/
structure PathSound (impact : ImpactResult) (label : Text) (p : EvidencePath) : Prop where
  linked : p.edges ≠ [] ∧ p.edges.IsChain fun a b => a.toSelector = b.fromSelector
  first : ∀ e ∈ p.edges.head?, e.fromSelector = p.fromNode.selector
  last : ∀ e ∈ p.edges.getLast?, e.toSelector = p.toNode.selector
  queried : (query.direction.asked p).selector = selector
  distance : p.distance = p.edges.length ∧ p.distance ≤ query.bounds.effectiveDepth
  genuine : ∀ e ∈ p.edges, ∃ n, (q.search (originsOf impact) query selector label).Links n e
  weakest : ∃ e ∈ p.edges, e.category = p.category ∧ ∀ e' ∈ p.edges, (compare e'.category e.category).isLE = true

/-- **Every path of a result is sound.** -/
theorem paths_sound (run : q.evidence late selector query = some (.ok report)) :
    ∃ parsed shown impact, q.opening selector query = .ok (parsed, shown, impact) ∧
      ∀ p ∈ report.paths, PathSound q query selector impact (endpointLabel parsed) p := by
  obtain ⟨parsed, shown, impact, s, stop, opened, ⟨⟨queue, searching, _⟩, _⟩, rfl⟩ := evidence_ok run
  refine ⟨parsed, shown, impact, opened, fun p mem => ?_⟩
  obtain ⟨chain, found, pathId, rfl⟩ := mem_paths mem
  obtain ⟨nonempty, proper⟩ := searching.found chain found
  obtain ⟨linked, queried, genuine⟩ := near_of_chained proper.chained
  obtain ⟨e, path, rfl⟩ := List.exists_cons_of_ne_nil nonempty
  cases way : query.direction with
  | inbound =>
    rw [way] at linked queried
    exact ⟨⟨nonempty, linked⟩, fun _ first => Option.some.inj first ▸ rfl, queried, by rw [way]; rfl, ⟨rfl, proper.short⟩,
      genuine, weakest_spec nonempty⟩
  | outbound =>
    rw [way] at linked queried
    refine ⟨⟨List.reverse_ne_nil_iff.mpr nonempty, List.isChain_reverse.mpr (linked.imp fun _ _ => Eq.symm)⟩,
      fun e' first => ?_, fun e' last => ?_, by rw [way]; rfl, ⟨(List.length_reverse).symm, proper.short⟩,
      fun e' mem => genuine e' (List.mem_reverse.mp mem), ?_⟩
    · exact queried e' (List.head?_reverse ▸ first)
    · have last : e' ∈ (e :: path).reverse.getLast? := last
      rw [List.getLast?_reverse] at last
      exact Option.some.inj last ▸ rfl
    · obtain ⟨w, mem, same, bound⟩ := weakest_spec nonempty
      exact ⟨w, List.mem_reverse.mpr mem, same, fun e' mem' => bound e' (List.mem_reverse.mp mem')⟩

variable (query) in
/-- The selectors that a path goes through. -/
def pathNodes (p : EvidencePath) : List Text :=
  match query.direction with
  | .inbound => p.edges.map EvidenceEdge.fromSelector ++ [p.toNode.selector]
  | .outbound => p.fromNode.selector :: p.edges.map EvidenceEdge.toSelector

/-- **No path goes through a selector twice**, whatever cycles the calls have. -/
theorem paths_simple (run : q.evidence late selector query = some (.ok report)) :
    ∀ p ∈ report.paths, (pathNodes query p).Nodup := by
  obtain ⟨parsed, shown, impact, s, stop, opened, ⟨⟨queue, searching, _⟩, _⟩, rfl⟩ := evidence_ok run
  intro p mem
  obtain ⟨chain, found, pathId, rfl⟩ := mem_paths mem
  obtain ⟨nonempty, proper⟩ := searching.found chain found
  have simple := proper.simple
  obtain ⟨e, path, rfl⟩ := List.exists_cons_of_ne_nil nonempty
  cases way : query.direction with
  | inbound =>
    simp only [search, way] at simple
    simp only [pathNodes, way]
    exact simple
  | outbound =>
    simp only [search, way] at simple
    simp only [pathNodes, way]
    refine List.nodup_reverse.mp ?_
    rw [List.reverse_cons, ← List.map_reverse]
    change (((e :: path).reverse.reverse.map EvidenceEdge.toSelector) ++ [selector]).Nodup
    rw [List.reverse_reverse]
    exact simple

variable {bounds : EvidenceBounds}

theorem mem_boundsHit {deep : Bool} {hit : BoundHit} : hit ∈ boundsHit bounds stop deep ↔
    (stop = .late ∧ hit = ⟨"time_budget", bounds.timeBudgetMs⟩) ∨
      (stop = .capped ∧ hit = ⟨"impact_node_cap", bounds.effectiveNodeCap⟩) ∨
      (deep = true ∧ hit = ⟨"depth", bounds.effectiveDepth⟩) := by
  simp only [boundsHit, List.mem_append, List.mem_ite_nil_right, List.mem_singleton, or_assoc]

theorem finished_of_boundsHit {deep : Bool} {short : Prop}
    (only : ∀ hit ∈ boundsHit bounds stop deep, hit.bound = "depth" ∧ short) :
    stop = .finished ∧ (deep = true → short) := by
  refine ⟨?_, fun hit => (only _ (mem_boundsHit.mpr (.inr (.inr ⟨hit, rfl⟩)))).2⟩
  cases stop with
  | finished => rfl
  | late => exact absurd (only _ (mem_boundsHit.mpr (.inl ⟨rfl, rfl⟩))).1 (by simp)
  | capped => exact absurd (only _ (mem_boundsHit.mpr (.inr (.inl ⟨rfl, rfl⟩)))).1 (by simp)

theorem stop_of_boundsHit {deep : Bool} {hit : BoundHit} (mem : hit ∈ boundsHit bounds stop deep) :
    (hit.bound = "impact_node_cap" → stop = .capped) ∧ (hit.bound = "depth" → deep = true) := by
  obtain ⟨_, rfl⟩ | ⟨capped, rfl⟩ | ⟨deep, rfl⟩ := mem_boundsHit.mp mem
  · exact ⟨fun same => absurd same (by simp), fun same => absurd same (by simp)⟩
  · exact ⟨fun _ => capped, fun same => absurd same (by simp)⟩
  · exact ⟨fun same => absurd same (by simp), fun _ => deep⟩

variable (q query target impact shown s stop) in
theorem length_paths : (q.report query target impact shown s stop).paths.length ≤ s.found.length ∧
    (query.filters.isEmpty = true → (q.report query target impact shown s stop).paths.length = s.found.length) := by
  have all : ((s.found.map (pathOf query.direction target)).mergeSort (pathLe query.direction)).length = s.found.length := by
    rw [List.length_mergeSort, List.length_map]
  simp only [SnapshotQueries.report, List.length_map, List.length_zipIdx]
  cases free : query.filters.isEmpty with
  | true =>
    rw [applyFilters, if_pos free, all]
    exact ⟨le_rfl, fun _ => rfl⟩
  | false =>
    rw [applyFilters_keeps _ free]
    exact ⟨(List.length_filter_le _ _).trans_eq all, nofun⟩

theorem reached_pathOf (way : EvidenceDirection) (target : EndpointRef) (e : EvidenceEdge) (path : List EvidenceEdge)
    (pathId : Text) : (way.reached { pathOf way target (e :: path) with pathId }).selector = way.far e := by
  cases way <;> rfl

/-- **Nothing near is missed**: without filters, and if neither the cap nor the time budget was hit, there is for every
chain of edges a path to its end that is not longer; where the depth was hit, for every chain within the depth. -/
theorem paths_shortest (run : q.evidence late selector query = some (.ok report)) (free : query.filters.isEmpty = true) :
    ∃ parsed shown impact, q.opening selector query = .ok (parsed, shown, impact) ∧
      ∀ e path, Chained (q.search (originsOf impact) query selector (endpointLabel parsed)) (e :: path) →
        (∀ hit ∈ report.boundsHit, hit.bound = "depth" ∧ path.length < query.bounds.effectiveDepth) →
        query.direction.far e = selector ∨ ∃ p ∈ report.paths,
          (query.direction.reached p).selector = query.direction.far e ∧ p.distance ≤ path.length + 1 := by
  obtain ⟨parsed, shown, impact, s, stop, opened, ⟨⟨queue, searching, drained⟩, _⟩, rfl⟩ := evidence_ok run
  refine ⟨parsed, shown, impact, opened, fun e path chained only => ?_⟩
  obtain ⟨finished, within⟩ := finished_of_boundsHit only
  obtain rfl := drained finished
  have near : path.length < query.bounds.effectiveDepth ∨ s.deep = false := by
    cases deep : s.deep with
    | false => exact .inr rfl
    | true => exact .inl (within deep)
  refine (searching.shortest search_keyed chained near).imp_right fun ⟨e', path', found, far, short⟩ => ?_
  obtain ⟨p, mem, pathId, rfl⟩ := exists_path q (q.targetOf selector parsed) impact shown stop free found
  exact ⟨_, mem, (reached_pathOf _ _ _ _ _).trans far, Nat.succ_le_succ short⟩

/-- How a report is bounded; without filters, a bound that it names was reached. -/
structure Bounded (query : EvidenceQuery) (report : EvidenceReport) : Prop where
  few : report.paths.length ≤ query.bounds.effectiveNodeCap
  capped : query.filters.isEmpty = true → ∀ hit ∈ report.boundsHit, hit.bound = "impact_node_cap" →
    report.paths.length = query.bounds.effectiveNodeCap
  deep : query.filters.isEmpty = true → ∀ hit ∈ report.boundsHit, hit.bound = "depth" →
    ∃ p ∈ report.paths, p.distance = query.bounds.effectiveDepth

variable (q late selector query) in
/-- **A query ends**, whatever cycles the calls have, with a bounded report or with the error of one query: one of those
before the search, or one about a node that a chain leads to. -/
theorem evidence_ends : ∃ answer, q.evidence late selector query = some answer ∧
    match answer with
    | .ok report => Bounded query report
    | .error error => q.opening selector query = .error error ∨ ∃ parsed shown impact,
        q.opening selector query = .ok (parsed, shown, impact) ∧ ∃ path node,
          Chained (q.search (originsOf impact) query selector (endpointLabel parsed)) path ∧
          (q.search (originsOf impact) query selector (endpointLabel parsed)).Leads path node ∧
          (q.search (originsOf impact) query selector (endpointLabel parsed)).next node = .error error := by
  cases opened : q.opening selector query with
  | error error =>
    refine ⟨.error error, ?_, .inl rfl⟩
    rw [evidence, opened]
  | ok opening =>
    obtain ⟨parsed, shown, impact⟩ := opening
    obtain ⟨answer, ends, run⟩ := evidence_spec late opened
    refine ⟨_, run, ?_⟩
    cases answer with
    | error error => exact .inr ⟨parsed, shown, impact, rfl, ends⟩
    | ok reached =>
      obtain ⟨s, stop⟩ := reached
      obtain ⟨⟨queue, searching, _⟩, full⟩ := ends
      obtain ⟨few, all⟩ := length_paths q query (q.targetOf selector parsed) impact shown s stop
      refine ⟨few.trans searching.few, fun free hit mem bound => ?_, fun free hit mem bound => ?_⟩
      · exact (all free).trans (le_antisymm searching.few (full ((stop_of_boundsHit mem).1 bound)))
      · obtain ⟨e, path, found, _, far⟩ := searching.deep ((stop_of_boundsHit mem).2 bound)
        obtain ⟨p, mem, pathId, rfl⟩ := exists_path q (q.targetOf selector parsed) impact shown stop free found
        exact ⟨_, mem, le_antisymm (searching.found _ found).2.short far⟩

end SnapshotQueries

namespace Sample

def pingPong : SnapshotQueries where
  graph := oneLineGraph
  side := .head
  commitSha := []
  overview :=
    [("a.rs".toList, ["ping", "pong", "pang"].map fun name => ⟨name.toList, "function".toList, name.toList⟩)]
  refs _ _ := .error []
  callees
    | .symbol _ symbol _ =>
      let other := if symbol = "ping".toList then "pong".toList
        else if symbol = "pong".toList then "pang".toList else "ping".toList
      .ok [⟨other, some other, .exact, 1⟩]
    | _ => .error []
  resolve _ := .ok none
  impact _ _ _ _ := .ok ⟨[], false, 0, none⟩
  excluded := 0

def ping : Text := "symbol:a.rs#ping:function"

def calls : EvidenceQuery := ⟨.importResolved, ⟨0, 9, 0⟩, .none, none, .outbound⟩

def pingParsed : Selector := .symbol "a.rs" "ping" "function"

def noImpact : ImpactResult := ⟨[], false, 0, none⟩

/-- The search finds `pong`, then `pang`, and prunes the way back to `ping`. -/
theorem pingPong_calls : ∃ report, pingPong.evidence (fun _ => false) ping calls = some (.ok report) ∧
    (∃ p ∈ report.paths, p.edges.length = 2) ∧ report.cyclesPruned = 1 ∧ report.boundsHit = [] := by
  have opened : pingPong.opening ping calls = .ok (pingParsed, none, noImpact) := by rfl
  have searched : ((searchChains (pingPong.search (SnapshotQueries.originsOf noImpact) calls ping (endpointLabel pingParsed))
      (fun _ => false)).bind Except.toOption).any (fun (s, stop) => (s.found.any fun chain => chain.length = 2) ∧
        s.cycles = 1 ∧ boundsHit calls.bounds stop s.deep = []) = true := by
    decide +kernel
  obtain ⟨⟨s, stop⟩, reached, holds⟩ := (Option.any_eq_true _ _).mp searched
  obtain ⟨answer, ends, ok⟩ := Option.bind_eq_some_iff.mp reached
  obtain ⟨two, cycles, hits⟩ := of_decide_eq_true holds
  obtain ⟨chain, found, long⟩ := List.any_eq_true.mp two
  refine ⟨pingPong.report calls (pingPong.targetOf ping pingParsed) noImpact none s stop, ?_, ?_, cycles, hits⟩
  · cases answer with
    | error => cases ok
    | ok answer =>
      obtain rfl := Option.some.inj ok
      simp only [SnapshotQueries.evidence, opened, ends]
      rfl
  · have free : calls.filters.isEmpty = true := rfl
    obtain ⟨p, mem, pathId, rfl⟩ := SnapshotQueries.exists_path pingPong (pingPong.targetOf ping pingParsed) noImpact
      none stop free found
    exact ⟨_, mem, List.length_reverse.trans (of_decide_eq_true long)⟩

theorem paths_sound_pingPong : ∃ report : EvidenceReport, (∃ p ∈ report.paths, p.edges.length = 2) ∧ ∃ parsed shown impact,
    pingPong.opening ping calls = .ok (parsed, shown, impact) ∧
      ∀ p ∈ report.paths, SnapshotQueries.PathSound pingPong calls ping impact (endpointLabel parsed) p := by
  obtain ⟨report, run, one, _⟩ := pingPong_calls
  exact ⟨report, one, SnapshotQueries.paths_sound run⟩

theorem paths_simple_pingPong : ∃ report : EvidenceReport,
    ((∃ p ∈ report.paths, p.edges.length = 2) ∧ report.cyclesPruned = 1) ∧
    ∀ p ∈ report.paths, (SnapshotQueries.pathNodes calls p).Nodup := by
  obtain ⟨report, run, one, cycle, _⟩ := pingPong_calls
  exact ⟨report, ⟨one, cycle⟩, SnapshotQueries.paths_simple run⟩

theorem paths_shortest_pingPong : ∃ report : EvidenceReport, report.boundsHit = [] ∧ ∃ parsed shown impact,
    pingPong.opening ping calls = .ok (parsed, shown, impact) ∧
      ∀ e path, Chained (pingPong.search (SnapshotQueries.originsOf impact) calls ping (endpointLabel parsed)) (e :: path) →
        calls.direction.far e = ping ∨ ∃ p ∈ report.paths,
          (calls.direction.reached p).selector = calls.direction.far e ∧ p.distance ≤ path.length + 1 := by
  obtain ⟨report, run, _, _, complete⟩ := pingPong_calls
  obtain ⟨parsed, shown, impact, opened, shortest⟩ := SnapshotQueries.paths_shortest run rfl
  refine ⟨report, complete, parsed, shown, impact, opened, fun e path chained => shortest e path chained ?_⟩
  rw [complete]
  exact fun _ none => absurd none List.not_mem_nil

end Sample

end OrbitGraph.Evidence
