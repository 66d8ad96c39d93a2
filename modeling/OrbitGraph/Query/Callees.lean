import OrbitGraph.Query.Trace

/-!
The calls of a symbol.

`callees` lists the calls inside a symbol's span at a confidence floor. It can leave out
those that were not resolved and whose name no indexed symbol has that could be called;
these are counted.
-/

namespace OrbitGraph.Query

open Lib Sync Evidence

structure CalleeOpts where
  confidence : RefConfidence
  kind : Option RefKind
  hideUnresolved : Bool

structure CalleeEdge where
  targetName : Text
  targetQualified : Option Text
  confidence : RefConfidence
  line : Nat
  deriving DecidableEq

structure CalleeReport where
  callees : List CalleeEdge
  hiddenUnresolved : Nat
  deriving DecidableEq

def callableKinds : List Text := ["function", "method", "class", "struct"]

def hasIndexedDefinition (idx : Index) (name : Text) : Bool :=
  idx.symbols.any fun symbol => symbol.name = name ∧ symbol.kind ∈ callableKinds

section Report

variable (idx : Index) (opts : CalleeOpts)

/-- Whether a call is left out. -/
def isHidden (edge : RefRow) : Bool :=
  opts.hideUnresolved && edge.targetQualified.isNone && !hasIndexedDefinition idx edge.raw.targetName

/-- The calls that are found. -/
def visibleEdges (symbol : SymbolRow) : List RefRow :=
  (edgesForSymbol idx symbol).filter fun edge => visibleAtFloor edge.confidence opts.confidence

/-- `callees::run`, for the symbol that the selector names; `lineFor` is the line of a call in its source. -/
def calleesReport (lineFor : RefRow → Nat) (symbol : Option SymbolRow) : CalleeReport :=
  if opts.kind.any fun kind => kind ≠ .call then ⟨[], 0⟩
  else
    match symbol with
    | none => ⟨[], 0⟩
    | some symbol =>
      ⟨((visibleEdges idx opts symbol).filter fun edge => !isHidden idx opts edge).map fun edge =>
          ⟨edge.raw.targetName, edge.targetQualified, edge.confidence, lineFor edge⟩,
        ((visibleEdges idx opts symbol).filter (isHidden idx opts)).length⟩

end Report

end OrbitGraph.Query
