import Mathlib.Data.List.ReduceOption
import OrbitGraph.Lib.Breadth
import OrbitGraph.Query.Trace
import OrbitGraph.Sync.Equivalence
import OrbitGraph.Sync.Store

/-!
The blast radius of a symbol.

`impact` searches breadth first from the symbol of a selector, over stored references and
relations at or above a confidence floor. A node is a symbol, a file for a reference outside
all symbols, or a name that no row has; only symbols are expanded. What it lists is exact up
to the cap, and a larger depth lists more nodes after the same ones. A depth of 0 stands for
`DEFAULT_IMPACT_DEPTH`.

Where a row is in its file is a parameter.
-/

namespace OrbitGraph.Query

open Lib Sync Evidence Changes

/-- The tables that `impact` reads. -/
structure ImpactIndex extends IndexState where
  relations : List RelationRow
  commands : List CommandRow

inductive ImpactDirection where
  | inbound
  | outbound
  | both
  deriving DecidableEq

def impactNodeCap : Nat := 200

/-- `RefConfidence::from_db` -/
def confidenceFromDb (value : Text) : Except QueryError RefConfidence :=
  if value = "exact" then .ok .exact
  else if value = "import_resolved" then .ok .importResolved
  else if value = "same_module" then .ok .sameModule
  else if value = "fuzzy_name" then .ok .fuzzyName
  else .error (.invalidData "decode stored graph ref confidence"
    ("unknown stored confidence " ++ ['\x60'] ++ value ++ ['\x60']))

def confidenceVisibleAtFloor (confidence : Text) (minConfidence : RefConfidence) : Except QueryError Bool :=
  (confidenceFromDb confidence).map fun confidence => visibleAtFloor confidence minConfidence

def symbolSelector (filePath qualified kind : Text) : Text := (Selector.symbol filePath qualified kind).display

/-! ### Neighbors -/

structure RawNeighborRow where
  qualifiedName : Option Text
  symbolId : Option Nat
  kind : Text
  confidence : Text
  origin : ImpactOrigin
  siteOffset : Option Nat

/-- `ImpactNeighbor` with what an entry shows of it. -/
structure ImpactEdge extends ImpactNeighbor where
  edgeKind : RefKind
  siteOffset : Option Nat

/-- One row of `rows_to_neighbors`; a row below the floor or without a name is skipped. -/
def rowToNeighbor (minConfidence : RefConfidence) (row : RawNeighborRow) : Except QueryError (Option ImpactEdge) := do
  if (← confidenceVisibleAtFloor row.confidence minConfidence) = false then return none
  match row.qualifiedName with
  | none => return none
  | some qualifiedName =>
    let edgeKind ← refKindFromDb row.kind
    return some ⟨⟨qualifiedName, row.symbolId, row.origin⟩, edgeKind, row.siteOffset⟩

def rowsToNeighbors (minConfidence : RefConfidence) (rows : List RawNeighborRow) : Except QueryError (List ImpactEdge) :=
  (rows.mapM (rowToNeighbor minConfidence)).map List.reduceOption

/-- `ORDER BY r.from_file, r.from_span_start, r.id` -/
def siteLe (a b : RefRow) : Bool :=
  if a.fromFile = b.fromFile then a.raw.spanStart ≤ b.raw.spanStart else Text.ble a.fromFile b.fromFile

/-- `ORDER BY (s.span_end - s.span_start), s.id` -/
def innerLe (a b : SymbolRow) : Bool :=
  let width := fun row : SymbolRow => (row.spanEnd : Int) - row.spanStart
  if width a = width b then a.id ≤ b.id else width a ≤ width b

section

variable (g : ImpactIndex)

/-- The innermost symbol around a reference. -/
def enclosingSymbol (r : RefRow) : Option SymbolRow :=
  ((g.index.symbols.filter fun s => s.filePath = r.fromFile ∧ s.spanStart ≤ r.raw.spanStart ∧
    r.raw.spanEnd ≤ s.spanEnd).insertionSort fun a b => innerLe a b = true).head?

/-- A reference, attributed to the symbol around it or else to its file. -/
def sourceRow (r : RefRow) : RawNeighborRow where
  qualifiedName := some (((enclosingSymbol g r).map SymbolRow.qualified).getD r.fromFile)
  symbolId := (enclosingSymbol g r).map SymbolRow.id
  kind := r.raw.kind
  confidence := confidenceLabel r.confidence
  origin := if (enclosingSymbol g r).isSome then .symbol else .file
  siteOffset := some r.raw.spanStart

/-- Whether a reference is to a symbol; on the lowest floor also by its name. -/
def inboundWhere (symbol : SymbolRow) (minConfidence : RefConfidence) (r : RefRow) : Bool :=
  inboundTargetMatch g.index (some symbol.id) symbol.qualified r ∨
    (minConfidence = .fuzzyName ∧ fuzzyMatch symbol.name r ∧ r.raw.kind ≠ runtimeInvocation)

/-- `inbound_ref_neighbors` -/
def inboundNeighbors (symbol : SymbolRow) (minConfidence : RefConfidence) : Except QueryError (List ImpactEdge) :=
  rowsToNeighbors minConfidence
    (((g.index.refs.filter (inboundWhere g symbol minConfidence)).insertionSort fun a b => siteLe a b = true).map
      (sourceRow g))

/-- One edge of `outbound_call_neighbors`. -/
def outboundEdge (minConfidence : RefConfidence) (edge : RefRow) : Except QueryError (Option ImpactEdge) := do
  if (← confidenceVisibleAtFloor (confidenceLabel edge.confidence) minConfidence) = false then return none
  return (outboundNeighbor edge).map fun neighbor => ⟨neighbor, .call, none⟩

def outboundCallNeighbors (symbol : SymbolRow) (minConfidence : RefConfidence) : Except QueryError (List ImpactEdge) :=
  ((edgesForSymbol g.index symbol).mapM (outboundEdge minConfidence)).map List.reduceOption

/-- `ORDER BY def_file, def_span_start, id` -/
def definitionLe (a b : RelationRow) : Bool :=
  if a.defFile = b.defFile then
    if a.raw.defSpanStart = b.raw.defSpanStart then a.id ≤ b.id else a.raw.defSpanStart ≤ b.raw.defSpanStart
  else Text.ble a.defFile b.defFile

/-- `relation_rows`: the rows with a name on one side, as neighbors on the other side. -/
def relationRows (here there : RawRelation → Text) (qualified : Text) (minConfidence : RefConfidence) :
    Except QueryError (List ImpactEdge) :=
  rowsToNeighbors minConfidence
    (((g.relations.filter fun row => here row.raw = qualified).insertionSort fun a b => definitionLe a b = true).map
      fun row => ⟨some (there row.raw), none, row.raw.kind, row.raw.confidence, .symbol, none⟩)

def relationNeighbors (qualified : Text) (minConfidence : RefConfidence) : ImpactDirection → Except QueryError (List ImpactEdge)
  | .inbound => relationRows g RawRelation.toQualified RawRelation.fromQualified qualified minConfidence
  | .outbound => relationRows g RawRelation.fromQualified RawRelation.toQualified qualified minConfidence
  | .both => do
      let inbound ← relationRows g RawRelation.toQualified RawRelation.fromQualified qualified minConfidence
      let outbound ← relationRows g RawRelation.fromQualified RawRelation.toQualified qualified minConfidence
      return inbound ++ outbound

def refNeighbors (symbol : SymbolRow) (minConfidence : RefConfidence) : ImpactDirection → Except QueryError (List ImpactEdge)
  | .inbound => inboundNeighbors g symbol minConfidence
  | .outbound => outboundCallNeighbors g symbol minConfidence
  | .both => do
      let inbound ← inboundNeighbors g symbol minConfidence
      let outbound ← outboundCallNeighbors g symbol minConfidence
      return inbound ++ outbound

def neighbors (symbol : SymbolRow) (minConfidence : RefConfidence) (direction : ImpactDirection) :
    Except QueryError (List ImpactEdge) := do
  let refs ← refNeighbors g symbol minConfidence direction
  let relations ← relationNeighbors g symbol.qualified minConfidence direction
  return refs ++ relations

/-! ### The traversal -/

inductive NodeKey where
  | symbol (id : Nat)
  | file (path : Text)
  | unresolved (name : Text)
  deriving DecidableEq

def nodeKey (neighbor : ImpactNeighbor) : Option SymbolRow → NodeKey
  | some symbol => .symbol symbol.id
  | none =>
    match neighbor.origin with
    | .file => .file neighbor.qualifiedName
    | .symbol => .unresolved neighbor.qualifiedName

/-- Where an impacted node lives. -/
structure NodeLocation where
  selector : Option Text
  file : Option Text
  line : Option Nat

structure ImpactEntry where
  qualifiedName : Text
  origin : ImpactOrigin
  distance : Nat
  edgeKind : RefKind
  selector : Option Text
  file : Option Text
  line : Option Nat

structure ImpactTraversal where
  touched : List ImpactEntry
  truncated : Bool

/-- A neighbor as the search sees it: its node, and the row it resolves to for the next round. -/
def neighborHit (edge : ImpactEdge) : Hit NodeKey (ImpactEdge × Option SymbolRow) SymbolRow where
  key := nodeKey edge.toImpactNeighbor (resolveNeighborSymbol g.index edge.toImpactNeighbor)
  item := (edge, resolveNeighborSymbol g.index edge.toImpactNeighbor)
  seed := resolveNeighborSymbol g.index edge.toImpactNeighbor

variable (lineFor : Text → Nat → Option Nat)

def locate (neighbor : ImpactEdge) (resolved : Option SymbolRow) : NodeLocation :=
  match neighbor.origin with
  | .file =>
    ⟨some ("file:" ++ neighbor.qualifiedName), some neighbor.qualifiedName,
      neighbor.siteOffset.bind (lineFor neighbor.qualifiedName)⟩
  | .symbol =>
    match resolved with
    | none => ⟨none, none, none⟩
    | some symbol =>
      ⟨some (symbolSelector symbol.filePath symbol.qualified symbol.kind), some symbol.filePath,
        lineFor symbol.filePath symbol.spanStart⟩

def impactEntry (node : Touched NodeKey (ImpactEdge × Option SymbolRow)) : ImpactEntry :=
  let location := locate lineFor node.item.1 node.item.2
  { qualifiedName := node.item.1.qualifiedName
    origin := node.item.1.origin
    distance := node.distance
    edgeKind := node.item.1.edgeKind
    selector := location.selector
    file := location.file
    line := location.line }

/-- The loop of `traverse`. -/
def search (origin : SymbolRow) (maxDepth : Nat) (minConfidence : RefConfidence) (direction : ImpactDirection) :
    Option (Except QueryError (BreadthState NodeKey (ImpactEdge × Option SymbolRow) SymbolRow × Bool)) :=
  breadthFirst impactNodeCap maxDepth
    (fun symbol => (neighbors g symbol minConfidence direction).map (List.map (neighborHit g))) (.symbol origin.id) origin

/-- `none` if the loop did not end. -/
def traverse (origin : SymbolRow) (maxDepth : Nat) (minConfidence : RefConfidence) (direction : ImpactDirection) :
    Option (Except QueryError ImpactTraversal) :=
  (search g origin maxDepth minConfidence direction).map fun answer =>
    answer.map fun (s, truncated) => ⟨s.touched.map (impactEntry lineFor), truncated⟩

/-! ### The query -/

/-- `ORDER BY CASE WHEN qualified = ?2 THEN 0 WHEN name = ?2 THEN 1 ELSE 2 END, id` -/
def namedLe (name : Text) (a b : SymbolRow) : Bool :=
  let rankOf := fun row : SymbolRow => if row.qualified = name then 0 else if row.name = name then 1 else 2
  if rankOf a = rankOf b then a.id ≤ b.id else rankOf a ≤ rankOf b

def firstNamed (name : Text) (condition : SymbolRow → Bool) : Option SymbolRow :=
  ((g.index.symbols.filter fun row => condition row ∧ (row.name = name ∨ row.qualified = name)).insertionSort
    fun a b => namedLe name a b = true).head?

def resolveSymbolSelector (path symbol kind : Text) : Option SymbolRow :=
  if Text.trim kind = [] then firstNamed g symbol fun row => row.filePath = path
  else firstNamed g symbol fun row => row.filePath = path ∧ row.kind = kind

def resolveModuleSelector (qualified : Text) : Option SymbolRow :=
  firstNamed g qualified fun row => row.kind = "module"

/-- `resolve_command_selector`; a handler is joined to its row. -/
def resolveCommandSelector (name : Text) : Option SymbolRow := resolveCommandHandler g.index g.commands name

def resolveSelector : Selector → Option SymbolRow
  | .symbol path symbol kind => resolveSymbolSelector g path symbol kind
  | .module qualified => resolveModuleSelector g qualified
  | .command name => resolveCommandSelector g name
  | .file _ => none
  | .dir _ => none

structure ImpactFallback where
  confidence : RefConfidence
  touched : List ImpactEntry
  truncated : Bool
  visitedNodes : Nat
  note : Text

structure ImpactResult where
  direction : ImpactDirection
  touched : List ImpactEntry
  truncated : Bool
  total : Option Nat
  visitedNodes : Nat
  fallbackUsed : Bool
  fallback : Option ImpactFallback

/-- `empty_result` -/
def ImpactResult.empty (direction : ImpactDirection) : ImpactResult where
  direction := direction
  touched := []
  truncated := false
  total := some 0
  visitedNodes := 0
  fallbackUsed := false
  fallback := none

def fallbackNote (minConfidence : RefConfidence) (found : Nat) : Text :=
  "No impacted symbols resolved at the " ++ ['\x60'] ++ confidenceLabel minConfidence ++ ['\x60'] ++
    " confidence floor; showing " ++ History.decimal found ++ " match(es) found at the " ++ ['\x60'] ++
    "fuzzy_name" ++ ['\x60'] ++ (" fallback floor. These are name-only matches and may include unrelated " ++
      "symbols sharing the name; check each entry before acting.").toList

def maybeFuzzyFallback (origin : SymbolRow) (maxDepth : Nat) (minConfidence : RefConfidence) (touched : List ImpactEntry)
    (direction : ImpactDirection) : Option (Except QueryError (Option ImpactFallback)) :=
  if touched ≠ [] ∨ minConfidence = .fuzzyName then some (.ok none)
  else
    (traverse g lineFor origin maxDepth .fuzzyName direction).map fun answer =>
      answer.map fun fallback =>
        if fallback.touched = [] then none
        else some {
          confidence := .fuzzyName
          touched := fallback.touched
          truncated := fallback.truncated
          visitedNodes := fallback.touched.length
          note := fallbackNote minConfidence fallback.touched.length }

def maxImpactDepth (depth : Nat) : Nat := if depth = 0 then DEFAULT_IMPACT_DEPTH else depth

def impactResult (direction : ImpactDirection) (traversal : ImpactTraversal) (fallback : Option ImpactFallback) :
    ImpactResult where
  direction := direction
  touched := traversal.touched
  truncated := traversal.truncated
  total := if traversal.truncated then none else some traversal.touched.length
  visitedNodes := traversal.touched.length
  fallbackUsed := fallback.isSome
  fallback := fallback

/-- `impact::run`; `none` if a loop did not end. -/
def impact (selector : Selector) (depth : Nat) (minConfidence : RefConfidence) (direction : ImpactDirection) :
    Option (Except QueryError ImpactResult) :=
  match resolveSelector g selector with
  | none => some (.ok (.empty direction))
  | some origin =>
    (traverse g lineFor origin (maxImpactDepth depth) minConfidence direction).bind fun
      | .error e => some (.error e)
      | .ok traversal =>
        (maybeFuzzyFallback g lineFor origin (maxImpactDepth depth) minConfidence traversal.touched direction).map
          fun answer => answer.map (impactResult direction traversal)

end

section Edges

variable {g : ImpactIndex} {minConfidence : RefConfidence} {direction : ImpactDirection} {symbol : SymbolRow}
  {edges : List ImpactEdge} {l : NodeKey}

/-- The node of the place that a reference is made in. -/
def sourceNode (g : ImpactIndex) (r : RefRow) : NodeKey :=
  match enclosingSymbol g r with
  | some symbol => .symbol symbol.id
  | none => .file r.fromFile

def namedNode (g : ImpactIndex) (qualified : Text) (hint : Option Nat) : NodeKey :=
  match resolveHinted g.index qualified hint with
  | some symbol => .symbol symbol.id
  | none => .unresolved qualified

/-- The edges at or above a floor, in a direction. -/
inductive Adjacent (g : ImpactIndex) (minConfidence : RefConfidence) (direction : ImpactDirection) : NodeKey → NodeKey → Prop where
  | reference {symbol : SymbolRow} {r : RefRow} : direction ≠ .outbound → symbol ∈ g.index.symbols → r ∈ g.index.refs →
      visibleAtFloor r.confidence minConfidence = true → inboundWhere g symbol minConfidence r = true →
      Adjacent g minConfidence direction (.symbol symbol.id) (sourceNode g r)
  | call {symbol : SymbolRow} {r : RefRow} {qualified : Text} : direction ≠ .inbound → symbol ∈ g.index.symbols →
      r ∈ edgesForSymbol g.index symbol → visibleAtFloor r.confidence minConfidence = true →
      r.targetQualified = some qualified →
      Adjacent g minConfidence direction (.symbol symbol.id) (namedNode g qualified r.targetSymbolHint)
  | relatedFrom {symbol : SymbolRow} {row : RelationRow} {confidence : RefConfidence} : direction ≠ .outbound →
      symbol ∈ g.index.symbols → row ∈ g.relations → confidenceFromDb row.raw.confidence = .ok confidence →
      visibleAtFloor confidence minConfidence = true → row.raw.toQualified = symbol.qualified →
      Adjacent g minConfidence direction (.symbol symbol.id) (namedNode g row.raw.fromQualified none)
  | relatedTo {symbol : SymbolRow} {row : RelationRow} {confidence : RefConfidence} : direction ≠ .inbound →
      symbol ∈ g.index.symbols → row ∈ g.relations → confidenceFromDb row.raw.confidence = .ok confidence →
      visibleAtFloor confidence minConfidence = true → row.raw.fromQualified = symbol.qualified →
      Adjacent g minConfidence direction (.symbol symbol.id) (namedNode g row.raw.toQualified none)

theorem visibleAtFloor_mono {confidence floor floor' : RefConfidence} (weaker : rank floor ≤ rank floor')
    (visible : visibleAtFloor confidence floor = true) : visibleAtFloor confidence floor' = true :=
  decide_eq_true ((of_decide_eq_true visible).trans weaker)

theorem eq_fuzzyName_of_rank {floor : RefConfidence} (weaker : rank .fuzzyName ≤ rank floor) : floor = .fuzzyName := by
  cases floor with
  | fuzzyName => rfl
  | exact | importResolved | sameModule => exact absurd weaker (by decide)

theorem Adjacent.mono {floor floor' : RefConfidence} (weaker : rank floor ≤ rank floor') (k l : NodeKey)
    (adjacent : Adjacent g floor direction k l) : Adjacent g floor' direction k l := by
  cases adjacent with
  | reference inbound mem inside visible fits =>
    refine .reference inbound mem inside (visibleAtFloor_mono weaker visible) ?_
    rw [inboundWhere, decide_eq_true_iff] at fits ⊢
    refine fits.imp_right fun ⟨lowest, named⟩ => ⟨?_, named⟩
    rw [lowest] at weaker
    exact eq_fuzzyName_of_rank weaker
  | call outbound mem inside visible named => exact .call outbound mem inside (visibleAtFloor_mono weaker visible) named
  | relatedFrom inbound mem inside stored visible named =>
    exact .relatedFrom inbound mem inside stored (visibleAtFloor_mono weaker visible) named
  | relatedTo outbound mem inside stored visible named =>
    exact .relatedTo outbound mem inside stored (visibleAtFloor_mono weaker visible) named

@[simp] theorem confidenceFromDb_label (confidence : RefConfidence) :
    confidenceFromDb (confidenceLabel confidence) = .ok confidence := by
  cases confidence <;> decide

def edgeNode (g : ImpactIndex) (neighbor : ImpactNeighbor) : NodeKey :=
  nodeKey neighbor (resolveNeighborSymbol g.index neighbor)

/-- Whether one of the neighbors resolves to a node. -/
def LeadTo (g : ImpactIndex) (edges : List ImpactEdge) (l : NodeKey) : Prop :=
  ∃ edge ∈ edges, edgeNode g edge.toImpactNeighbor = l

theorem leadTo_append {edges edges' : List ImpactEdge} : LeadTo g (edges ++ edges') l ↔ LeadTo g edges l ∨ LeadTo g edges' l := by
  unfold LeadTo
  simp only [List.mem_append, or_and_right, exists_or]

theorem rowToNeighbor_eq_ok {row : RawNeighborRow} {found : Option ImpactEdge}
    (run : rowToNeighbor minConfidence row = .ok found) : ∃ confidence, confidenceFromDb row.confidence = .ok confidence ∧
      found.map ImpactEdge.toImpactNeighbor = if visibleAtFloor confidence minConfidence then
        row.qualifiedName.map fun qualified => ⟨qualified, row.symbolId, row.origin⟩ else none := by
  obtain ⟨visible, stored, run⟩ := bind_eq_ok.mp run
  obtain ⟨confidence, read, rfl⟩ := map_eq_ok.mp stored
  refine ⟨confidence, read, ?_⟩
  split at run
  next hidden =>
    obtain rfl := Except.ok.inj run
    rw [hidden]
    rfl
  next shown =>
    rw [if_pos (Bool.eq_true_of_not_eq_false shown)]
    cases named : row.qualifiedName with
    | none =>
      rw [named] at run
      obtain rfl := Except.ok.inj run
      rfl
    | some qualified =>
      rw [named] at run
      obtain ⟨kind, _, run⟩ := bind_eq_ok.mp run
      obtain rfl := Except.ok.inj run
      rfl

theorem leadTo_rows {rows : List RawNeighborRow} (run : rowsToNeighbors minConfidence rows = .ok edges) :
    LeadTo g edges l ↔ ∃ row ∈ rows, ∃ confidence qualified, confidenceFromDb row.confidence = .ok confidence ∧
      visibleAtFloor confidence minConfidence = true ∧ row.qualifiedName = some qualified ∧
      edgeNode g ⟨qualified, row.symbolId, row.origin⟩ = l := by
  obtain ⟨found, all, rfl⟩ := map_eq_ok.mp run
  constructor
  · rintro ⟨edge, mem, rfl⟩
    obtain ⟨row, inside, own⟩ := (mem_of_mapM all).mp (List.reduceOption_mem_iff.mp mem)
    obtain ⟨confidence, read, eq⟩ := rowToNeighbor_eq_ok own
    split_ifs at eq with visible
    · obtain ⟨qualified, named, same⟩ := Option.map_eq_some_iff.mp eq.symm
      exact ⟨row, inside, confidence, qualified, read, visible, named, by rw [same]⟩
    · cases eq
  · rintro ⟨row, inside, confidence, qualified, read, visible, named, rfl⟩
    obtain ⟨answer, mem, own⟩ := ok_of_mapM all inside
    obtain ⟨_, read', eq⟩ := rowToNeighbor_eq_ok own
    obtain rfl := Except.ok.inj (read.symm.trans read')
    rw [if_pos visible, named] at eq
    obtain ⟨edge, rfl, same⟩ := Option.map_eq_some_iff.mp eq
    exact ⟨edge, List.reduceOption_mem_iff.mpr mem, by rw [same]⟩

theorem enclosingSymbol_mem {r : RefRow} (found : enclosingSymbol g r = some symbol) : symbol ∈ g.index.symbols :=
  (List.mem_filter.mp ((List.mem_insertionSort _).mp (List.mem_of_mem_head? found))).1

variable {qualified : Text}

theorem resolveHinted_mem {idx : Index} {hint : Option Nat} {row : SymbolRow}
    (found : resolveHinted idx qualified hint = some row) : row ∈ idx.symbols ∧ row.qualified = qualified := by
  unfold resolveHinted at found
  cases hint with
  | none => exact resolveSymbolByQualified_eq_some found
  | some id =>
    rcases Option.or_eq_some_iff.mp found with hinted | ⟨_, first⟩
    · have same := List.find?_some hinted
      rw [decide_eq_true_iff] at same
      exact ⟨List.mem_of_find?_eq_some hinted, same.2⟩
    · exact resolveSymbolByQualified_eq_some first

theorem edgeNode_named (qualified : Text) (hint : Option Nat) :
    edgeNode g ⟨qualified, hint, .symbol⟩ = namedNode g qualified hint := by
  have symbolic : ¬ ImpactOrigin.symbol = ImpactOrigin.file := by decide
  unfold edgeNode namedNode resolveNeighborSymbol
  rw [if_neg symbolic]
  cases resolveHinted g.index qualified hint <;> rfl

theorem resolveHinted_of_mem (mem : symbol ∈ g.index.symbols) :
    resolveHinted g.index symbol.qualified (some symbol.id) = some symbol := by
  obtain ⟨other, here⟩ : ∃ other, (g.index.symbols.find? fun other =>
      other.id = symbol.id ∧ other.qualified = symbol.qualified) = some other :=
    Option.isSome_iff_exists.mp (List.find?_isSome.mpr ⟨symbol, mem, by simp⟩)
  have same := List.find?_some here
  rw [decide_eq_true_iff] at same
  obtain rfl := List.inj_on_of_nodup_map g.distinct (List.mem_of_find?_eq_some here) mem same.1
  exact congrArg (Option.or · _) here

theorem edgeNode_source {r : RefRow} (named : (sourceRow g r).qualifiedName = some qualified) :
    edgeNode g ⟨qualified, (sourceRow g r).symbolId, (sourceRow g r).origin⟩ = sourceNode g r := by
  unfold sourceRow at named ⊢
  unfold sourceNode
  cases enclosed : enclosingSymbol g r with
  | none =>
    rw [enclosed] at named
    obtain rfl := Option.some.inj named
    rfl
  | some row =>
    rw [enclosed] at named
    obtain rfl := Option.some.inj named
    refine (edgeNode_named _ _).trans ?_
    unfold namedNode
    rw [Option.map_some, Option.map_some, Option.getD_some, resolveHinted_of_mem (enclosingSymbol_mem enclosed)]

theorem leadTo_inbound (run : inboundNeighbors g symbol minConfidence = .ok edges) :
    LeadTo g edges l ↔ ∃ r ∈ g.index.refs, visibleAtFloor r.confidence minConfidence = true ∧
      inboundWhere g symbol minConfidence r = true ∧ sourceNode g r = l := by
  rw [leadTo_rows run]
  constructor
  · rintro ⟨row, mem, confidence, qualified, read, visible, named, rfl⟩
    obtain ⟨r, inside, rfl⟩ := List.mem_map.mp mem
    obtain ⟨stored, fits⟩ := List.mem_filter.mp ((List.mem_insertionSort _).mp inside)
    obtain rfl := Except.ok.inj ((confidenceFromDb_label r.confidence).symm.trans read)
    exact ⟨r, stored, visible, fits, (edgeNode_source named).symm⟩
  · rintro ⟨r, stored, visible, fits, rfl⟩
    refine ⟨sourceRow g r, List.mem_map_of_mem ((List.mem_insertionSort _).mpr (List.mem_filter.mpr ⟨stored, fits⟩)),
      r.confidence, _, confidenceFromDb_label _, visible, rfl, edgeNode_source rfl⟩

theorem leadTo_outbound (run : outboundCallNeighbors g symbol minConfidence = .ok edges) :
    LeadTo g edges l ↔ ∃ r ∈ edgesForSymbol g.index symbol, visibleAtFloor r.confidence minConfidence = true ∧
      ∃ qualified, r.targetQualified = some qualified ∧ namedNode g qualified r.targetSymbolHint = l := by
  obtain ⟨found, all, rfl⟩ := map_eq_ok.mp run
  have each : ∀ r, outboundEdge minConfidence r = .ok (if visibleAtFloor r.confidence minConfidence then
      (outboundNeighbor r).map fun neighbor => ⟨neighbor, .call, none⟩ else none) := by
    intro r
    unfold outboundEdge confidenceVisibleAtFloor
    rw [confidenceFromDb_label]
    cases visible : visibleAtFloor r.confidence minConfidence <;> simp [Except.map, bind, Except.bind, visible, pure, Except.pure]
  constructor
  · rintro ⟨edge, mem, rfl⟩
    obtain ⟨r, inside, own⟩ := (mem_of_mapM all).mp (List.reduceOption_mem_iff.mp mem)
    have eq := Except.ok.inj ((each r).symm.trans own)
    split_ifs at eq with visible
    obtain ⟨neighbor, named, rfl⟩ := Option.map_eq_some_iff.mp eq
    obtain ⟨qualified, target, rfl⟩ := Option.map_eq_some_iff.mp named
    exact ⟨r, inside, visible, qualified, target, (edgeNode_named _ _).symm⟩
  · rintro ⟨r, inside, visible, qualified, target, rfl⟩
    refine ⟨⟨⟨qualified, r.targetSymbolHint, .symbol⟩, .call, none⟩, List.reduceOption_mem_iff.mpr ?_, edgeNode_named _ _⟩
    rw [mem_of_mapM all]
    refine ⟨r, inside, ?_⟩
    rw [each, if_pos visible, outboundNeighbor, target]
    rfl

theorem leadTo_relations {here there : RawRelation → Text}
    (run : relationRows g here there qualified minConfidence = .ok edges) :
    LeadTo g edges l ↔ ∃ row ∈ g.relations, here row.raw = qualified ∧ ∃ confidence,
      confidenceFromDb row.raw.confidence = .ok confidence ∧ visibleAtFloor confidence minConfidence = true ∧
        namedNode g (there row.raw) none = l := by
  rw [leadTo_rows run]
  constructor
  · rintro ⟨_, mem, confidence, _, read, visible, named, rfl⟩
    obtain ⟨row, inside, rfl⟩ := List.mem_map.mp mem
    obtain ⟨stored, own⟩ := List.mem_filter.mp ((List.mem_insertionSort _).mp inside)
    obtain rfl := Option.some.inj named
    exact ⟨row, stored, of_decide_eq_true own, confidence, read, visible, (edgeNode_named _ _).symm⟩
  · rintro ⟨row, stored, own, confidence, read, visible, rfl⟩
    exact ⟨_, List.mem_map_of_mem ((List.mem_insertionSort _).mpr (List.mem_filter.mpr ⟨stored, decide_eq_true own⟩)),
      confidence, there row.raw, read, visible, rfl, edgeNode_named _ _⟩

theorem leadTo_joined {left right : Except QueryError (List ImpactEdge)}
    (run : (do let one ← left; let other ← right; return one ++ other) = .ok edges) :
    ∃ one other, left = .ok one ∧ right = .ok other ∧ ∀ l, LeadTo g edges l ↔ LeadTo g one l ∨ LeadTo g other l := by
  obtain ⟨one, first, run⟩ := bind_eq_ok.mp run
  obtain ⟨other, second, run⟩ := bind_eq_ok.mp run
  obtain rfl := Except.ok.inj run
  exact ⟨one, other, first, second, fun _ => leadTo_append⟩

theorem leadTo_refNeighbors (run : refNeighbors g symbol minConfidence direction = .ok edges) : LeadTo g edges l ↔
      (direction ≠ .outbound ∧ ∃ r ∈ g.index.refs, visibleAtFloor r.confidence minConfidence = true ∧
        inboundWhere g symbol minConfidence r = true ∧ sourceNode g r = l) ∨
      (direction ≠ .inbound ∧ ∃ r ∈ edgesForSymbol g.index symbol, visibleAtFloor r.confidence minConfidence = true ∧
        ∃ qualified, r.targetQualified = some qualified ∧ namedNode g qualified r.targetSymbolHint = l) := by
  cases direction with
  | inbound =>
    rw [leadTo_inbound run]
    simp
  | outbound =>
    rw [leadTo_outbound run]
    simp
  | both =>
    obtain ⟨one, other, first, second, split⟩ := leadTo_joined run
    rw [split, leadTo_inbound first, leadTo_outbound second]
    simp

theorem leadTo_relationNeighbors (run : relationNeighbors g qualified minConfidence direction = .ok edges) :
    LeadTo g edges l ↔ (direction ≠ .outbound ∧ ∃ row ∈ g.relations, row.raw.toQualified = qualified ∧ ∃ confidence,
        confidenceFromDb row.raw.confidence = .ok confidence ∧ visibleAtFloor confidence minConfidence = true ∧
          namedNode g row.raw.fromQualified none = l) ∨
      (direction ≠ .inbound ∧ ∃ row ∈ g.relations, row.raw.fromQualified = qualified ∧ ∃ confidence,
        confidenceFromDb row.raw.confidence = .ok confidence ∧ visibleAtFloor confidence minConfidence = true ∧
          namedNode g row.raw.toQualified none = l) := by
  cases direction with
  | inbound | outbound =>
    rw [leadTo_relations run]
    simp
  | both =>
    obtain ⟨one, other, first, second, split⟩ := leadTo_joined run
    rw [split, leadTo_relations first, leadTo_relations second]
    simp

theorem leadTo_neighbors (mem : symbol ∈ g.index.symbols) (run : neighbors g symbol minConfidence direction = .ok edges) :
    LeadTo g edges l ↔ Adjacent g minConfidence direction (.symbol symbol.id) l := by
  obtain ⟨refs, relations, near, far, split⟩ := leadTo_joined run
  rw [split, leadTo_refNeighbors near, leadTo_relationNeighbors far]
  constructor
  · rintro ((⟨inbound, r, inside, visible, fits, rfl⟩ | ⟨outbound, r, inside, visible, qualified, target, rfl⟩) |
      ⟨inbound, row, inside, own, confidence, read, visible, rfl⟩ | ⟨outbound, row, inside, own, confidence, read, visible, rfl⟩)
    · exact .reference inbound mem inside visible fits
    · exact .call outbound mem inside visible target
    · exact .relatedFrom inbound mem inside read visible own
    · exact .relatedTo outbound mem inside read visible own
  · generalize here : NodeKey.symbol symbol.id = k
    have one : ∀ {other : SymbolRow}, other ∈ g.index.symbols → NodeKey.symbol symbol.id = .symbol other.id → other = symbol :=
      fun inside same => List.inj_on_of_nodup_map g.distinct inside mem (NodeKey.symbol.inj same).symm
    intro adjacent
    cases adjacent with
    | reference inbound inside stored visible fits =>
      obtain rfl := one inside here
      exact .inl (.inl ⟨inbound, _, stored, visible, fits, rfl⟩)
    | call outbound inside stored visible target =>
      obtain rfl := one inside here
      exact .inl (.inr ⟨outbound, _, stored, visible, _, target, rfl⟩)
    | relatedFrom inbound inside stored read visible own =>
      obtain rfl := one inside here
      exact .inr (.inl ⟨inbound, _, stored, own, _, read, visible, rfl⟩)
    | relatedTo outbound inside stored read visible own =>
      obtain rfl := one inside here
      exact .inr (.inr ⟨outbound, _, stored, own, _, read, visible, rfl⟩)

def nodeRow (g : ImpactIndex) : NodeKey → Option SymbolRow
  | .symbol id => g.index.symbolById id
  | .file _ => none
  | .unresolved _ => none

theorem nodeRow_eq (mem : symbol ∈ g.index.symbols) : nodeRow g (.symbol symbol.id) = some symbol :=
  Index.symbolById_eq g.distinct mem

theorem nodeRow_eq_some {k : NodeKey} (found : nodeRow g k = some symbol) :
    symbol ∈ g.index.symbols ∧ k = .symbol symbol.id := by
  cases k with
  | symbol id =>
    have same := List.find?_some found
    exact ⟨List.mem_of_find?_eq_some found, congrArg NodeKey.symbol (of_decide_eq_true same).symm⟩
  | file path => cases found
  | unresolved name => cases found

theorem nodeRow_nodeKey {neighbor : ImpactNeighbor} :
    nodeRow g (edgeNode g neighbor) = resolveNeighborSymbol g.index neighbor := by
  unfold edgeNode
  cases resolved : resolveNeighborSymbol g.index neighbor with
  | some row =>
    refine nodeRow_eq ?_
    unfold resolveNeighborSymbol at resolved
    split_ifs at resolved
    exact (resolveHinted_mem resolved).1
  | none =>
    unfold nodeKey
    cases neighbor.origin <;> rfl

theorem explores (g : ImpactIndex) (minConfidence : RefConfidence) (direction : ImpactDirection) :
    Explores (fun symbol => (neighbors g symbol minConfidence direction).map (List.map (neighborHit g))) (nodeRow g)
      (Adjacent g minConfidence direction) where
  seed_eq := by
    intro k symbol hits found run h mem
    obtain ⟨edges, _, rfl⟩ := map_eq_ok.mp run
    obtain ⟨edge, _, rfl⟩ := List.mem_map.mp mem
    exact nodeRow_nodeKey.symm
  step_iff := by
    intro k symbol hits found run l
    obtain ⟨edges, near, rfl⟩ := map_eq_ok.mp run
    obtain ⟨inside, rfl⟩ := nodeRow_eq_some found
    rw [← leadTo_neighbors inside near]
    constructor
    · rintro ⟨edge, mem, rfl⟩
      exact ⟨neighborHit g edge, List.mem_map_of_mem mem, rfl⟩
    · rintro ⟨_, mem, rfl⟩
      obtain ⟨edge, inside, rfl⟩ := List.mem_map.mp mem
      exact ⟨edge, inside, rfl⟩
  seeded := by
    intro k l adjacent
    cases adjacent with
    | reference _ mem _ _ _ | call _ mem _ _ _ | relatedFrom _ mem _ _ _ _ | relatedTo _ mem _ _ _ _ => exact ⟨_, nodeRow_eq mem⟩

end Edges

section Listed

variable {g : ImpactIndex} {lineFor : Text → Nat → Option Nat} {minConfidence : RefConfidence} {direction : ImpactDirection}
  {origin : SymbolRow} {depth maxDepth : Nat}

def Shows (g : ImpactIndex) (lineFor : Text → Nat → Option Nat) (entry : ImpactEntry) : NodeKey → Prop
  | .symbol id => ∃ row ∈ g.index.symbols, row.id = id ∧ entry.origin = .symbol ∧ entry.qualifiedName = row.qualified ∧
      entry.selector = some (symbolSelector row.filePath row.qualified row.kind) ∧ entry.file = some row.filePath ∧
      entry.line = lineFor row.filePath row.spanStart
  | .file path => entry.origin = .file ∧ entry.qualifiedName = path ∧ entry.selector = some ("file:" ++ path) ∧
      entry.file = some path
  | .unresolved name => entry.origin = .symbol ∧ entry.qualifiedName = name ∧ entry.selector = none ∧ entry.file = none ∧
      entry.line = none

/-- What is known of the entries of a result and their nodes, where `step` are the edges. -/
structure Lists (g : ImpactIndex) (lineFor : Text → Nat → Option Nat) (step : NodeKey → NodeKey → Prop) (origin : NodeKey)
    (maxDepth : Nat) (nodes : List NodeKey) (result : ImpactResult) : Prop where
  shown : List.Forall₂ (fun node entry => Shows g lineFor entry node) nodes result.touched
  shortest : List.Forall₂ (fun node entry => Walk step origin entry.distance node ∧
    ∀ m, Walk step origin m node → entry.distance ≤ m) nodes result.touched
  nodup : nodes.Nodup
  within : ∀ node ∈ nodes, Within step origin maxDepth node
  whole : result.truncated = false → ∀ node, Within step origin maxDepth node → node ∈ nodes
  truncated_iff : result.truncated = true ↔
    ∃ more : List NodeKey, more.Nodup ∧ more.length = impactNodeCap + 1 ∧ ∀ node ∈ more, Within step origin maxDepth node
  full : result.truncated = true → result.touched.length = impactNodeCap
  counted : result.visitedNodes = result.touched.length ∧
    result.total = if result.truncated then none else some result.touched.length

theorem shows_entry {t : Touched NodeKey (ImpactEdge × Option SymbolRow)} (key : t.key = edgeNode g t.item.1.toImpactNeighbor)
    (resolved : t.item.2 = resolveNeighborSymbol g.index t.item.1.toImpactNeighbor) :
    Shows g lineFor (impactEntry lineFor t) t.key := by
  obtain ⟨k, n, ⟨⟨⟨qualified, hint, place⟩, kind, site⟩, row⟩⟩ := t
  dsimp only at key resolved
  subst key
  unfold edgeNode
  rw [← resolved]
  cases place with
  | file =>
    unfold resolveNeighborSymbol at resolved
    rw [if_pos rfl] at resolved
    subst resolved
    exact ⟨rfl, rfl, rfl, rfl⟩
  | symbol =>
    have symbolic : ¬ ImpactOrigin.symbol = ImpactOrigin.file := by decide
    unfold resolveNeighborSymbol at resolved
    rw [if_neg symbolic] at resolved
    cases row with
    | none => exact ⟨rfl, rfl, rfl, rfl, rfl⟩
    | some row =>
      obtain ⟨mem, named⟩ := resolveHinted_mem resolved.symm
      exact ⟨row, mem, rfl, rfl, named.symm, rfl, rfl, rfl⟩

def searchedNodes (g : ImpactIndex) (origin : SymbolRow) (maxDepth : Nat) (minConfidence : RefConfidence)
    (direction : ImpactDirection) : List NodeKey :=
  match search g origin maxDepth minConfidence direction with
  | some (.ok (s, _)) => s.keys
  | _ => []

theorem searchedNodes_eq {s : BreadthState NodeKey (ImpactEdge × Option SymbolRow) SymbolRow} {truncated : Bool}
    (run : search g origin maxDepth minConfidence direction = some (.ok (s, truncated))) :
    searchedNodes g origin maxDepth minConfidence direction = s.keys := by
  unfold searchedNodes
  rw [run]

theorem search_ends (mem : origin ∈ g.index.symbols) (maxDepth : Nat) (minConfidence : RefConfidence) (direction : ImpactDirection) :
    ∃ answer, search g origin maxDepth minConfidence direction = some answer ∧ ∀ s truncated, answer = .ok (s, truncated) →
      Searched (Adjacent g minConfidence direction) (.symbol origin.id) impactNodeCap maxDepth s truncated :=
  breadthFirst_spec (explores g minConfidence direction) (nodeRow_eq mem)

theorem traverse_ends (lineFor : Text → Nat → Option Nat) (mem : origin ∈ g.index.symbols) (maxDepth : Nat) (minConfidence : RefConfidence)
    (direction : ImpactDirection) : ∃ answer, traverse g lineFor origin maxDepth minConfidence direction = some answer := by
  obtain ⟨answer, run, -⟩ := search_ends mem maxDepth minConfidence direction
  unfold traverse
  rw [run]
  exact ⟨_, rfl⟩

variable {selector : Selector}

theorem impact_eq_ok {result : ImpactResult} (found : resolveSelector g selector = some origin)
    (run : impact g lineFor selector depth minConfidence direction = some (.ok result)) :
    ∃ s, search g origin (maxImpactDepth depth) minConfidence direction = some (.ok (s, result.truncated)) ∧
      result.touched = s.touched.map (impactEntry lineFor) ∧ result.visitedNodes = result.touched.length ∧
        result.total = if result.truncated then none else some result.touched.length := by
  unfold impact at run
  rw [found] at run
  obtain ⟨traversed, traversal, run⟩ := Option.bind_eq_some_iff.mp run
  obtain ⟨answer, searched, rfl⟩ := Option.map_eq_some_iff.mp traversal
  cases answer with
  | error e => cases run
  | ok last =>
    obtain ⟨s, truncated⟩ := last
    obtain ⟨answer, _, run⟩ := Option.map_eq_some_iff.mp run
    obtain ⟨fallback, _, rfl⟩ := map_eq_ok.mp run
    exact ⟨s, searched, rfl, rfl, rfl⟩

theorem impact_ends (lineFor : Text → Nat → Option Nat) (found : resolveSelector g selector = some origin) (mem : origin ∈ g.index.symbols)
    (depth : Nat) : ∃ answer, impact g lineFor selector depth minConfidence direction = some answer := by
  unfold impact
  rw [found]
  obtain ⟨answer, run⟩ := traverse_ends lineFor mem (maxImpactDepth depth) minConfidence direction
  dsimp only
  rw [run, Option.bind_some]
  cases answer with
  | error e => exact ⟨_, rfl⟩
  | ok traversal =>
    dsimp only
    unfold maybeFuzzyFallback
    split_ifs
    · exact ⟨_, rfl⟩
    · obtain ⟨later, run⟩ := traverse_ends lineFor mem (maxImpactDepth depth) .fuzzyName direction
      rw [run]
      exact ⟨_, rfl⟩

theorem firstNamed_mem {name : Text} {condition : SymbolRow → Bool} {row : SymbolRow}
    (found : firstNamed g name condition = some row) : row ∈ g.index.symbols :=
  (List.mem_filter.mp ((List.mem_insertionSort _).mp (List.mem_of_mem_head? found))).1

theorem resolveSelector_mem (found : resolveSelector g selector = some origin) : origin ∈ g.index.symbols := by
  cases selector with
  | dir path => cases found
  | file path => cases found
  | symbol path name kind =>
    change resolveSymbolSelector g path name kind = some origin at found
    unfold resolveSymbolSelector at found
    split_ifs at found
    · exact firstNamed_mem found
    · exact firstNamed_mem found
  | module qualified => exact firstNamed_mem found
  | command name =>
    obtain ⟨row, _, own⟩ := Option.bind_eq_some_iff.mp found
    obtain ⟨id, _, handler⟩ := Option.bind_eq_some_iff.mp own
    exact List.mem_of_find?_eq_some handler

theorem lists_searched {result : ImpactResult} (found : resolveSelector g selector = some origin)
    (run : impact g lineFor selector depth minConfidence direction = some (.ok result)) :
    Lists g lineFor (Adjacent g minConfidence direction) (.symbol origin.id) (maxImpactDepth depth)
      (searchedNodes g origin (maxImpactDepth depth) minConfidence direction) result := by
  obtain ⟨s, searching, touched, visited, total⟩ := impact_eq_ok found run
  obtain ⟨answer, ran, spec⟩ := search_ends (resolveSelector_mem found) (maxImpactDepth depth) minConfidence direction
  obtain rfl := Option.mem_unique ran searching
  have searched := spec s result.truncated rfl
  -- A node is entered with the neighbor it was hit by.
  have items : ∀ t ∈ s.touched, t.key = edgeNode g t.item.1.toImpactNeighbor ∧
      t.item.2 = resolveNeighborSymbol g.index t.item.1.toImpactNeighbor := by
    refine breadthFirst_items (Q := fun key item => key = edgeNode g item.1.toImpactNeighbor ∧
      item.2 = resolveNeighborSymbol g.index item.1.toImpactNeighbor) (fun symbol hits near h mem => ?_) searching
    obtain ⟨edges, _, rfl⟩ := map_eq_ok.mp near
    obtain ⟨edge, _, rfl⟩ := List.mem_map.mp mem
    exact ⟨rfl, rfl⟩
  rw [searchedNodes_eq searching]
  have listed : ∀ R : NodeKey → ImpactEntry → Prop, (∀ t ∈ s.touched, R t.key (impactEntry lineFor t)) →
      List.Forall₂ R s.keys result.touched := by
    intro R each
    rw [touched, BreadthState.keys, List.forall₂_map_left_iff, List.forall₂_map_right_iff, List.forall₂_same]
    exact each
  constructor
  · exact listed _ fun t mem => shows_entry (items t mem).1 (items t mem).2
  · exact listed _ fun t mem => ⟨(searched.distance_least mem).1, (searched.distance_least mem).2.2⟩
  · exact (List.nodup_cons.mp searched.nodup).2
  · exact fun node mem => searched.within_of_mem mem
  · exact fun whole node near => (searched.mem_iff whole node).mpr near
  · exact searched.cut_iff
  · intro cut
    rw [touched, List.length_map]
    exact (searched.more cut).1
  · exact ⟨visited, total⟩

/-- Two depths list the same nodes first. -/
theorem impact_deeper {depth' : Nat} {result deeper : ImpactResult} (found : resolveSelector g selector = some origin)
    (run : impact g lineFor selector depth minConfidence direction = some (.ok result))
    (run' : impact g lineFor selector depth' minConfidence direction = some (.ok deeper))
    (larger : maxImpactDepth depth ≤ maxImpactDepth depth') :
    result.touched <+: deeper.touched ∧ searchedNodes g origin (maxImpactDepth depth) minConfidence direction <+:
      searchedNodes g origin (maxImpactDepth depth') minConfidence direction := by
  obtain ⟨s, searching, touched, -, -⟩ := impact_eq_ok found run
  obtain ⟨s', searching', touched', -, -⟩ := impact_eq_ok found run'
  have positive : 0 < maxImpactDepth depth := by
    unfold maxImpactDepth DEFAULT_IMPACT_DEPTH
    split_ifs <;> omega
  have first := breadthFirst_deeper (explores g minConfidence direction) (nodeRow_eq (resolveSelector_mem found)) positive
    larger searching searching'
  rw [searchedNodes_eq searching, searchedNodes_eq searching', touched, touched']
  exact ⟨first.map _, first.map _⟩

/-- **Impact is exact.** The query ends. Its entries stand for distinct nodes within the depth of the symbol it is asked
for, over the edges at or above the floor, other than that symbol, each with its shortest distance: all of these nodes if
the result is not truncated, and `impactNodeCap` of them if it is, which is when there are more. A larger depth lists
the same entries first, where 0 counts as the default. A weaker floor lists the nodes too unless it is truncated. -/
theorem impact_exact (g : ImpactIndex) (lineFor : Text → Nat → Option Nat) (selector : Selector) (origin : SymbolRow)
    (direction : ImpactDirection) (found : resolveSelector g selector = some origin) :
    ∃ nodes : Nat → RefConfidence → List NodeKey, ∀ depth minConfidence,
      ∃ answer, impact g lineFor selector depth minConfidence direction = some answer ∧ ∀ result, answer = .ok result →
        Lists g lineFor (Adjacent g minConfidence direction) (.symbol origin.id) (maxImpactDepth depth)
          (nodes depth minConfidence) result ∧
        (∀ depth' deeper, impact g lineFor selector depth' minConfidence direction = some (.ok deeper) →
          maxImpactDepth depth ≤ maxImpactDepth depth' →
            result.touched <+: deeper.touched ∧ nodes depth minConfidence <+: nodes depth' minConfidence) ∧
        ∀ floor weaker, impact g lineFor selector depth floor direction = some (.ok weaker) →
          rank minConfidence ≤ rank floor → weaker.truncated = false → nodes depth minConfidence ⊆ nodes depth floor := by
  refine ⟨fun depth minConfidence => searchedNodes g origin (maxImpactDepth depth) minConfidence direction,
    fun depth minConfidence => ?_⟩
  obtain ⟨answer, run⟩ := impact_ends lineFor found (resolveSelector_mem found) depth
  refine ⟨answer, run, ?_⟩
  rintro result rfl
  have lists := lists_searched found run
  refine ⟨lists, fun depth' deeper run' larger => impact_deeper found run run' larger,
    fun floor weaker run' weak whole node mem => ?_⟩
  obtain ⟨other, m, bound, walk⟩ := lists.within node mem
  exact (lists_searched found run').whole whole node ⟨other, m, bound, walk.mono (Adjacent.mono weak)⟩

end Listed

namespace Sample

def fn (id : Nat) (name : Char) (spanStart spanEnd : Nat) : SymbolRow :=
  ⟨id, ['m'], [name], [name], "function", spanStart, spanEnd⟩

def callAt (file : Text) (spanStart : Nat) (name : Char) (confidence : RefConfidence) : RefRow :=
  ⟨file, ⟨spanStart, spanStart + 1, [name], none, "call", none, false⟩,
    if confidence = .fuzzyName then none else some [name], none, confidence⟩

def chain : ImpactIndex where
  index := { Index.empty with
    symbols := [fn 1 'a' 0 9, fn 2 'b' 10 19, fn 3 'c' 20 29]
    refs := [callAt ['m'] 5 'a' .exact, callAt ['m'] 15 'a' .exact, callAt ['m'] 25 'b' .exact] }
  distinct := by decide
  relations := []
  commands := []

def crowd : ImpactIndex where
  index := { Index.empty with
    symbols := [fn 1 'a' 0 9]
    refs := (List.range 201).map fun i => callAt [Char.ofNat (256 + i)] 0 'a' (if i < 200 then .fuzzyName else .exact) }
  distinct := by decide
  relations := []
  commands := []

def asked : Selector := .symbol ['m'] ['a'] "function"

def listed (g : ImpactIndex) (depth : Nat) (minConfidence : RefConfidence) : List Text :=
  match impact g (fun _ _ => none) asked depth minConfidence .inbound with
  | some (.ok result) => result.touched.map ImpactEntry.qualifiedName
  | _ => []

def caller (i : Nat) : NodeKey := .file [Char.ofNat (256 + i)]

theorem caller_inj {i j : Nat} (first : i < 201) (second : j < 201) (same : caller i = caller j) : i = j := by
  have code : ∀ n < 201, (Char.ofNat (256 + n)).toNat = 256 + n := by
    intro n bound
    have valid : (256 + n).isValidChar := .inl (by omega)
    rw [Char.ofNat, dif_pos valid]
    rfl
  have chars := congrArg Char.toNat (List.cons.inj (NodeKey.file.inj same)).1
  rw [code i first, code j second] at chars
  omega

theorem crowd_nodes (minConfidence : RefConfidence) (is : List Nat)
    (near : (neighbors crowd (fn 1 'a' 0 9) minConfidence .inbound).map (List.map fun edge => edgeNode crowd edge.toImpactNeighbor) =
      .ok (is.map caller)) (distinct : is.Nodup) (few : ∀ i ∈ is, i < 201) :
    searchedNodes crowd (fn 1 'a' 0 9) 1 minConfidence .inbound = (is.take impactNodeCap).map caller := by
  obtain ⟨edges, found, keys⟩ := map_eq_ok.mp near
  have hits : (edges.map (neighborHit crowd)).map Hit.key = is.map caller := by
    rw [List.map_map]
    exact keys
  have nodup : (is.map caller).Nodup := distinct.map_on fun i first j second => caller_inj (few i first) (few j second)
  have expanded : (neighbors crowd (fn 1 'a' 0 9) minConfidence .inbound).map (List.map (neighborHit crowd)) =
      .ok (edges.map (neighborHit crowd)) := by
    rw [found]
    rfl
  have distinct : (NodeKey.symbol 1 :: (edges.map (neighborHit crowd)).map Hit.key).Nodup := by
    refine List.nodup_cons.mpr ⟨fun mem => ?_, hits ▸ nodup⟩
    rw [hits] at mem
    obtain ⟨i, _, same⟩ := List.mem_map.mp mem
    cases same
  obtain ⟨s, cut, run, entered⟩ := breadthFirst_one (fun symbol =>
    (neighbors crowd symbol minConfidence .inbound).map (List.map (neighborHit crowd))) expanded distinct
  rw [searchedNodes_eq run, entered, hits, List.map_take]

theorem impact_not_monotone :
    ¬ (∀ depth depth', depth ≤ depth' → listed chain depth .exact ⊆ listed chain depth' .exact) ∧
      ¬ (∀ floor floor', rank floor ≤ rank floor' → searchedNodes crowd (fn 1 'a' 0 9) 1 floor .inbound ⊆
        searchedNodes crowd (fn 1 'a' 0 9) 1 floor' .inbound) ∧
        ¬ (Adjacent chain .exact .inbound (.symbol 1) (.symbol 1) → ['a'] ∈ listed chain 1 .exact) := by
  refine ⟨fun deeper => ?_, fun weaker => ?_, fun loops => ?_⟩
  · have kept := deeper 0 1 (by decide) (show ['c'] ∈ listed chain 0 .exact by decide +kernel)
    exact absurd kept (by decide +kernel)
  · have strong := crowd_nodes .exact [200] (by decide +kernel) (by simp) (by simp)
    have weak := crowd_nodes .fuzzyName (List.range 201) (by decide +kernel) List.nodup_range (by simp)
    have kept := weaker .exact .fuzzyName (by decide)
    rw [strong, weak, impactNodeCap, List.take_range] at kept
    obtain ⟨i, below, same⟩ := List.mem_map.mp (kept (List.mem_singleton_self _))
    have bound := List.mem_range.mp below
    have last := caller_inj (by omega) (by omega) same
    omega
  · refine absurd (loops ?_) (by decide +kernel)
    have own : fn 1 'a' 0 9 ∈ chain.index.symbols := by decide
    have call : callAt ['m'] 5 'a' .exact ∈ chain.index.refs := by decide
    exact .reference (by decide) own call (by decide) (by decide)

theorem impact_exact_chain :
    ∃ nodes : Nat → RefConfidence → List NodeKey, ∀ depth minConfidence,
      ∃ answer, impact chain (fun _ _ => none) asked depth minConfidence .inbound = some answer ∧
        ∀ result, answer = .ok result →
          Lists chain (fun _ _ => none) (Adjacent chain minConfidence .inbound) (.symbol 1) (maxImpactDepth depth)
            (nodes depth minConfidence) result := by
  obtain ⟨nodes, exact⟩ := impact_exact chain (fun _ _ => none) asked (fn 1 'a' 0 9) .inbound (by decide)
  refine ⟨nodes, fun depth minConfidence => ?_⟩
  obtain ⟨answer, run, lists⟩ := exact depth minConfidence
  exact ⟨answer, run, fun result eq => (lists result eq).1⟩

end Sample

end OrbitGraph.Query
