import OrbitGraph.Lib.Arena
import OrbitGraph.Lib.Masking
import OrbitGraph.Lib.Text

/-!
Syntax trees as the extractors see them.

A tree-sitter node has a kind, the bytes it stands for and its children; a child may have a
name among its siblings, and is named or only a token of the grammar. The children of a
node stand one behind the other inside it.
-/

namespace OrbitGraph.Extract

open Lib

/-- What a node of a syntax tree says of itself. -/
structure NodeInfo where
  kind : Text
  startByte : Nat
  endByte : Nat
  /-- Whether the grammar names it; the others are tokens. -/
  named : Bool
  /-- The field of its parent that it is. -/
  field : Option Text

def NodeInfo.range (info : NodeInfo) : Range := (info.startByte, info.endByte)

abbrev Node := Rose NodeInfo

namespace Node

/-- What the node says of itself. -/
def info : Node → NodeInfo
  | .node info _ => info

def children : Node → List Node
  | .node _ children => children

def kind (node : Node) : Text := node.info.kind

def startByte (node : Node) : Nat := node.info.startByte

def endByte (node : Node) : Nat := node.info.endByte

def Contains (node : Node) (i : Nat) : Prop := node.startByte ≤ i ∧ i < node.endByte

def namedChildren (node : Node) : List Node := node.children.filter fun child => child.info.named

def childByFieldName (name : Text) (node : Node) : Option Node :=
  node.children.find? fun child => child.info.field == some name

end Node

/-- The nodes of a tree are inside one another, and the children of a node do not overlap. -/
inductive WellPlaced : Node → Prop where
  | node {info : NodeInfo} {children : List Node} :
      info.startByte ≤ info.endByte →
      (∀ child ∈ children, info.startByte ≤ child.startByte ∧ child.endByte ≤ info.endByte) →
      children.Pairwise (fun left right => left.endByte ≤ right.startByte) →
      (∀ child ∈ children, WellPlaced child) → WellPlaced (.node info children)

/-- The nodes that a walk from a node comes to, if it looks into the children that `looks` says. -/
inductive Reaches (looks : NodeInfo → NodeInfo → Prop) : Node → Node → Prop where
  | self (node : Node) : Reaches looks node node
  | child {info : NodeInfo} {children : List Node} {child node : Node} :
      child ∈ children → looks info child.info → Reaches looks child node → Reaches looks (.node info children) node

variable {looks : NodeInfo → NodeInfo → Prop} {root node : Node}

theorem Reaches.inside (reaches : Reaches looks root node) (placed : WellPlaced root) :
    root.startByte ≤ node.startByte ∧ node.endByte ≤ root.endByte := by
  induction reaches with
  | self => exact ⟨Nat.le_refl _, Nat.le_refl _⟩
  | child mem _ _ ih =>
    cases placed with
    | node _ inside _ below =>
      obtain ⟨left, right⟩ := inside _ mem
      obtain ⟨left', right'⟩ := ih (below _ mem)
      exact ⟨Nat.le_trans left left', Nat.le_trans right' right⟩

theorem Reaches.contains {i : Nat} (reaches : Reaches looks root node) (placed : WellPlaced root)
    (contains : node.Contains i) : root.Contains i := by
  obtain ⟨left, right⟩ := reaches.inside placed
  exact ⟨Nat.le_trans left contains.1, Nat.lt_of_lt_of_le contains.2 right⟩

end OrbitGraph.Extract
