import OrbitGraph.Extract.SyntaxTree

/-!
The bytes of a scope that are not code, for scans that look for calls in the text.

Comments and character literals are not code, and neither are string literals outside their
holes. The ranges are collected in one walk of the tree, in which a hole is taken out of
what was collected before it, and are then merged. A byte is in one of them just if the
innermost of the marked nodes around it, among those that the walk comes to, is not a hole.
-/

namespace OrbitGraph.Extract

open Lib

/-- The kinds of nodes whose text is not code, of literals that have holes, and of the holes. -/
structure NonCodeKinds where
  opaqueKinds : List Text
  withHoles : List Text
  holes : List Text

/-- Takes a range out of others. -/
def punch (excluded : List Range) (start stop : Nat) : List Range :=
  if start ≥ stop then excluded
  else excluded.flatMap fun range =>
    if range.2 ≤ start ∨ range.1 ≥ stop then [range]
    else (if range.1 < start then [(range.1, start)] else []) ++ (if stop < range.2 then [(stop, range.2)] else [])

section Collect

variable (nonCode : NonCodeKinds)

mutual

def collectNonCode : Node → List Range → List Range
  | .node info children, excluded =>
    if info.kind ∈ nonCode.opaqueKinds then excluded ++ [info.range]
    else if info.kind ∈ nonCode.withHoles then collectHoles children (excluded ++ [info.range])
    else collectChildren children excluded

def collectHoles : List Node → List Range → List Range
  | [], excluded => excluded
  | child :: rest, excluded =>
    if child.kind ∈ nonCode.holes then
      collectHoles rest (collectNonCode child (punch excluded child.startByte child.endByte))
    else collectHoles rest excluded

def collectChildren : List Node → List Range → List Range
  | [], excluded => excluded
  | child :: rest, excluded => collectChildren rest (collectNonCode child excluded)

end

end Collect

/-- The order of `sort_unstable`. -/
def RangeLe (left right : Range) : Prop := left.1 < right.1 ∨ (left.1 = right.1 ∧ left.2 ≤ right.2)

instance : DecidableRel RangeLe := fun left right =>
  inferInstanceAs (Decidable (left.1 < right.1 ∨ (left.1 = right.1 ∧ left.2 ≤ right.2)))

def mergeInto (last : Range) : List Range → List Range
  | [] => [last]
  | range :: rest => if range.1 ≤ last.2 then mergeInto (last.1, max last.2 range.2) rest else last :: mergeInto range rest

def mergeSorted : List Range → List Range
  | [] => []
  | first :: rest => mergeInto first rest

def mergeRanges (ranges : List Range) : List Range :=
  mergeSorted ((ranges.filter fun range => range.1 < range.2).insertionSort RangeLe)

def nonCodeRanges (nonCode : NonCodeKinds) (scope : Node) : List Range := mergeRanges (collectNonCode nonCode scope [])

/-- Bisection between two indices; nothing where an index is outside the ranges. -/
def bisect (ranges : List Range) (index : Nat) : Nat → Nat → Nat → Option (Option Nat)
  | 0, low, high => if low < high then none else some none
  | fuel + 1, low, high =>
    if low < high then do
      let mid := low + (high - low) / 2
      let range ← ranges[mid]?
      if index < range.1 then bisect ranges index fuel low mid
      else if index ≥ range.2 then bisect ranges index fuel (mid + 1) high
      else some (some range.2)
    else some none

def excludedEnd (ranges : List Range) (index : Nat) : Option (Option Nat) :=
  bisect ranges index ranges.length 0 ranges.length

/-! ### What is not code -/

inductive Mark where
  | opaqueNode
  | literal
  | hole
  deriving DecidableEq

namespace NonCodeKinds

variable (nonCode : NonCodeKinds)

def mark (info : NodeInfo) : Option Mark :=
  if info.kind ∈ nonCode.opaqueKinds then some .opaqueNode
  else if info.kind ∈ nonCode.withHoles then some .literal
  else if info.kind ∈ nonCode.holes then some .hole
  else none

/-- The children that the walk looks into: none of an opaque node, the holes of a literal, and all of the others. -/
def LooksInto (parent child : NodeInfo) : Prop :=
  match nonCode.mark parent with
  | some .opaqueNode => False
  | some .literal => child.kind ∈ nonCode.holes
  | _ => True

variable (looks : NodeInfo → NodeInfo → Prop)

/-- The innermost marked node around a byte, of those that a walk comes to. -/
structure Innermost (root : Node) (i : Nat) (node : Node) : Prop where
  reached : Reaches looks root node
  contains : node.Contains i
  marked : nonCode.mark node.info ≠ none
  /-- Below it is no other. -/
  least : ∀ child ∈ node.children, looks node.info child.info → ∀ below, Reaches looks child below →
    below.Contains i → nonCode.mark below.info = none

def NonCode (root : Node) (i : Nat) : Prop :=
  ∃ node, nonCode.Innermost looks root i node ∧ nonCode.mark node.info ≠ some .hole

end NonCodeKinds

/-! ### Collecting -/

variable {excluded : List Range} {i : Nat}

theorem covered_append (left right : List Range) : covered (left ++ right) i = (covered left i || covered right i) :=
  List.any_append

theorem covered_singleton (range : Range) : covered [range] i = range.covers i := Bool.or_false _

/-- What is punched out is no longer covered, and nothing else changes. -/
theorem covered_punch (excluded : List Range) (start stop : Nat) :
    covered (punch excluded start stop) i = true ↔ covered excluded i = true ∧ ¬ (start ≤ i ∧ i < stop) := by
  rw [punch]
  split
  case isTrue empty => exact ⟨fun h => ⟨h, by omega⟩, And.left⟩
  case isFalse =>
    rw [covered_eq_true, covered_eq_true]
    constructor
    · rintro ⟨piece, mem, left, right⟩
      obtain ⟨range, there, piece_mem⟩ := List.mem_flatMap.mp mem
      have : (range.1 ≤ i ∧ i < range.2) ∧ ¬ (start ≤ i ∧ i < stop) := by
        split at piece_mem
        · obtain rfl := List.mem_singleton.mp piece_mem
          omega
        · rcases List.mem_append.mp piece_mem with front | back
          · split at front
            · obtain rfl := List.mem_singleton.mp front
              dsimp only at left right
              omega
            · cases front
          · split at back
            · obtain rfl := List.mem_singleton.mp back
              dsimp only at left right
              omega
            · cases back
      exact ⟨⟨range, there, this.1⟩, this.2⟩
    · rintro ⟨⟨range, there, left, right⟩, outside⟩
      by_cases apart : range.2 ≤ start ∨ range.1 ≥ stop
      · refine ⟨range, List.mem_flatMap.mpr ⟨range, there, ?_⟩, left, right⟩
        rw [if_pos apart]
        exact List.mem_singleton_self _
      · rcases Nat.lt_or_ge i start with before | behind
        · refine ⟨(range.1, start), List.mem_flatMap.mpr ⟨range, there, ?_⟩, left, before⟩
          rw [if_neg apart, if_pos (by omega)]
          exact List.mem_append_left _ (List.mem_singleton_self _)
        · refine ⟨(stop, range.2), List.mem_flatMap.mpr ⟨range, there, ?_⟩, by dsimp only; omega, right⟩
          rw [if_neg apart, if_pos (show stop < range.2 by omega)]
          exact List.mem_append_right _ (List.mem_singleton_self _)

theorem covers_range {node : Node} : node.info.range.covers i = true ↔ node.Contains i := Range.covers_eq_true

section Walk

variable {nonCode : NonCodeKinds}

namespace NonCodeKinds

variable {looks : NodeInfo → NodeInfo → Prop} {info : NodeInfo} {children : List Node}

theorem nonCode_node : nonCode.NonCode looks (.node info children) i ↔
    (∃ child ∈ children, looks info child.info ∧ nonCode.NonCode looks child i) ∨
      (Node.Contains (.node info children) i ∧ nonCode.mark info ≠ none ∧ nonCode.mark info ≠ some .hole ∧
        ∀ child ∈ children, looks info child.info → ∀ below, Reaches looks child below → below.Contains i →
          nonCode.mark below.info = none) := by
  constructor
  · rintro ⟨node, inner, notHole⟩
    cases inner.reached with
    | self => exact .inr ⟨inner.contains, inner.marked, notHole, inner.least⟩
    | child mem look reaches => exact .inl ⟨_, mem, look, node, { inner with reached := reaches }, notHole⟩
  · rintro (⟨child, mem, look, node, inner, notHole⟩ | ⟨contains, marked, notHole, least⟩)
    · exact ⟨node, { inner with reached := .child mem look inner.reached }, notHole⟩
    · exact ⟨_, ⟨.self _, contains, marked, least⟩, notHole⟩

theorem NonCode.contains {node : Node} (nonCode' : nonCode.NonCode looks node i) (placed : WellPlaced node) :
    node.Contains i := by
  obtain ⟨_, inner, -⟩ := nonCode'
  exact inner.reached.contains placed inner.contains

theorem mark_of_opaque (isOpaque : info.kind ∈ nonCode.opaqueKinds) : nonCode.mark info = some .opaqueNode :=
  if_pos isOpaque

theorem mark_of_literal (notOpaque : info.kind ∉ nonCode.opaqueKinds) (literal : info.kind ∈ nonCode.withHoles) :
    nonCode.mark info = some .literal := by
  rw [mark, if_neg notOpaque, if_pos literal]

theorem mark_of_hole (hole : info.kind ∈ nonCode.holes) : nonCode.mark info ≠ none := by
  rw [mark]
  split_ifs <;> exact Option.some_ne_none _

theorem mark_of_code (notOpaque : info.kind ∉ nonCode.opaqueKinds) (notLiteral : info.kind ∉ nonCode.withHoles) :
    nonCode.mark info = none ∨ nonCode.mark info = some .hole := by
  rw [mark, if_neg notOpaque, if_neg notLiteral]
  split_ifs
  · exact .inr rfl
  · exact .inl rfl

theorem nonCode_opaque (isOpaque : info.kind ∈ nonCode.opaqueKinds) :
    nonCode.NonCode nonCode.LooksInto (.node info children) i ↔ Node.Contains (.node info children) i := by
  have marked := mark_of_opaque isOpaque
  have looks : ∀ child, ¬ nonCode.LooksInto info child := fun child look => by
    rw [LooksInto, marked] at look
    exact look
  rw [nonCode_node, marked]
  constructor
  · rintro (⟨child, -, look, -⟩ | ⟨contains, -⟩)
    · exact absurd look (looks _)
    · exact contains
  · intro contains
    exact .inr ⟨contains, Option.some_ne_none _, by decide, fun child _ look => absurd look (looks _)⟩

theorem nonCode_literal (notOpaque : info.kind ∉ nonCode.opaqueKinds) (literal : info.kind ∈ nonCode.withHoles)
    (placed : ∀ child ∈ children, WellPlaced child) : nonCode.NonCode nonCode.LooksInto (.node info children) i ↔
      (∃ child ∈ children, child.kind ∈ nonCode.holes ∧ nonCode.NonCode nonCode.LooksInto child i) ∨
        (Node.Contains (.node info children) i ∧ ∀ child ∈ children, child.kind ∈ nonCode.holes → ¬ child.Contains i) := by
  have marked := mark_of_literal notOpaque literal
  have looks : ∀ child, nonCode.LooksInto info child ↔ child.kind ∈ nonCode.holes := fun child => by
    rw [LooksInto, marked]
  rw [nonCode_node, marked]
  simp only [looks]
  constructor
  · rintro (left | ⟨contains, -, -, least⟩)
    · exact .inl left
    · exact .inr ⟨contains, fun child mem hole within =>
        absurd (least child mem hole child (.self child) within) (mark_of_hole hole)⟩
  · rintro (left | ⟨contains, outside⟩)
    · exact .inl left
    · exact .inr ⟨contains, Option.some_ne_none _, by decide, fun child mem hole below reaches within =>
        absurd (reaches.contains (placed child mem) within) (outside child mem hole)⟩

theorem nonCode_code (notOpaque : info.kind ∉ nonCode.opaqueKinds) (notLiteral : info.kind ∉ nonCode.withHoles) :
    nonCode.NonCode nonCode.LooksInto (.node info children) i ↔
      ∃ child ∈ children, nonCode.NonCode nonCode.LooksInto child i := by
  have marked := mark_of_code notOpaque notLiteral
  have looks : ∀ child, nonCode.LooksInto info child := fun child => by
    rw [LooksInto]
    rcases marked with marked | marked <;> rw [marked] <;> trivial
  rw [nonCode_node]
  constructor
  · rintro (⟨child, mem, -, within⟩ | ⟨-, some, notHole, -⟩)
    · exact ⟨child, mem, within⟩
    · rcases marked with marked | marked
      · exact absurd marked some
      · exact absurd marked notHole
  · rintro ⟨child, mem, within⟩
    exact .inl ⟨child, mem, looks _, within⟩

end NonCodeKinds

theorem Node.Contains.apart {left right : Node} (order : left.endByte ≤ right.startByte) (contains : left.Contains i) :
    ¬ right.Contains i := fun also => absurd (Nat.lt_of_lt_of_le contains.2 order) (Nat.not_lt_of_ge also.1)

variable (nonCode)

mutual

theorem covered_collectNonCode : ∀ (node : Node) (excluded : List Range) (_ : WellPlaced node)
    (_ : ∀ i, node.Contains i → covered excluded i = false) (i : Nat),
    covered (collectNonCode nonCode node excluded) i = true ↔
      covered excluded i = true ∨ nonCode.NonCode nonCode.LooksInto node i
  | .node info children, excluded, placed, clear, i => by
    cases placed with
    | node le inside apart below =>
      have own : info.range.covers i = true ↔ Node.Contains (.node info children) i :=
        @covers_range i (.node info children)
      rw [collectNonCode]
      split_ifs with isOpaque literal
      · rw [covered_append, covered_singleton, Bool.or_eq_true, own, NonCodeKinds.nonCode_opaque isOpaque]
      · rw [covered_collectHoles children _ below apart i, NonCodeKinds.nonCode_literal isOpaque literal below,
          covered_append, covered_singleton, Bool.or_eq_true, own]
        constructor
        · rintro (⟨before | here, outside⟩ | hole)
          · exact .inl before
          · exact .inr (.inr ⟨here, outside⟩)
          · exact .inr (.inl hole)
        · rintro (before | hole | ⟨here, outside⟩)
          · refine .inl ⟨.inl before, fun child mem _ contains => ?_⟩
            obtain ⟨left, right⟩ := inside child mem
            rw [clear i ⟨Nat.le_trans left contains.1, Nat.lt_of_lt_of_le contains.2 right⟩] at before
            cases before
          · exact .inr hole
          · exact .inl ⟨.inr here, outside⟩
      · rw [covered_collectChildren children excluded below apart (fun child mem i contains => by
          obtain ⟨left, right⟩ := inside child mem
          exact clear i ⟨Nat.le_trans left contains.1, Nat.lt_of_lt_of_le contains.2 right⟩) i,
          NonCodeKinds.nonCode_code isOpaque literal]

theorem covered_collectHoles : ∀ (children : List Node) (excluded : List Range)
    (_ : ∀ child ∈ children, WellPlaced child)
    (_ : children.Pairwise fun left right => left.endByte ≤ right.startByte) (i : Nat),
    covered (collectHoles nonCode children excluded) i = true ↔
      (covered excluded i = true ∧ ∀ child ∈ children, child.kind ∈ nonCode.holes → ¬ child.Contains i) ∨
        ∃ child ∈ children, child.kind ∈ nonCode.holes ∧ nonCode.NonCode nonCode.LooksInto child i
  | [], excluded, _, _, i => by simp [collectHoles]
  | child :: rest, excluded, placed, apart, i => by
    obtain ⟨behind, apart⟩ := List.pairwise_cons.mp apart
    obtain ⟨placed, later⟩ := List.forall_mem_cons.mp placed
    rw [collectHoles, List.forall_mem_cons, List.exists_mem_cons_iff]
    split_ifs with hole
    · have clear : ∀ i, child.Contains i → covered (punch excluded child.startByte child.endByte) i = false := by
        intro i contains
        rw [Bool.eq_false_iff, Ne, covered_punch]
        exact fun both => both.2 contains
      rw [covered_collectHoles rest _ later apart i, covered_collectNonCode child _ placed clear i, covered_punch]
      constructor
      · rintro (⟨⟨before, outside⟩ | here, others⟩ | there)
        · exact .inl ⟨before, fun _ => outside, others⟩
        · exact .inr (.inl ⟨hole, here⟩)
        · exact .inr (.inr there)
      · rintro (⟨before, outside, others⟩ | ⟨-, here⟩ | there)
        · exact .inl ⟨.inl ⟨before, outside hole⟩, others⟩
        · exact .inl ⟨.inr here, fun other mem _ => (here.contains placed).apart (behind other mem)⟩
        · exact .inr there
    · rw [covered_collectHoles rest _ later apart i]
      constructor
      · rintro (⟨before, others⟩ | there)
        · exact .inl ⟨before, fun holds => absurd holds hole, others⟩
        · exact .inr (.inr there)
      · rintro (⟨before, -, others⟩ | ⟨holds, -⟩ | there)
        · exact .inl ⟨before, others⟩
        · exact absurd holds hole
        · exact .inr there

theorem covered_collectChildren : ∀ (children : List Node) (excluded : List Range)
    (_ : ∀ child ∈ children, WellPlaced child)
    (_ : children.Pairwise fun left right => left.endByte ≤ right.startByte)
    (_ : ∀ child ∈ children, ∀ i, child.Contains i → covered excluded i = false) (i : Nat),
    covered (collectChildren nonCode children excluded) i = true ↔
      covered excluded i = true ∨ ∃ child ∈ children, nonCode.NonCode nonCode.LooksInto child i
  | [], excluded, _, _, _, i => by simp [collectChildren]
  | child :: rest, excluded, placed, apart, clear, i => by
    obtain ⟨behind, apart⟩ := List.pairwise_cons.mp apart
    obtain ⟨placed, later⟩ := List.forall_mem_cons.mp placed
    obtain ⟨clear, clearLater⟩ := List.forall_mem_cons.mp clear
    have first := covered_collectNonCode child excluded placed clear
    have clearLater : ∀ other ∈ rest, ∀ i, other.Contains i → covered (collectNonCode nonCode child excluded) i = false := by
      intro other mem i contains
      rw [Bool.eq_false_iff, Ne, first i]
      rintro (before | here)
      · rw [clearLater other mem i contains] at before
        cases before
      · exact (here.contains placed).apart (behind other mem) contains
    rw [collectChildren, covered_collectChildren rest _ later apart clearLater i, first i, List.exists_mem_cons_iff,
      or_assoc]

end

end Walk

/-! ### Merging -/

/-- Ranges that are not empty, one behind the other with a gap between them. -/
structure Gapped (ranges : List Range) : Prop where
  nonempty : ∀ range ∈ ranges, range.1 < range.2
  gaps : ranges.Pairwise fun left right => left.2 < right.1

theorem covered_cons (range : Range) (ranges : List Range) :
    covered (range :: ranges) i = (range.covers i || covered ranges i) := rfl

theorem covered_mergeInto {last : Range} {ranges : List Range}
    (sorted : (last :: ranges).Pairwise fun left right => left.1 ≤ right.1) :
    covered (mergeInto last ranges) i = covered (last :: ranges) i := by
  induction ranges generalizing last with
  | nil => rfl
  | cons range rest ih =>
    obtain ⟨least, later⟩ := List.pairwise_cons.mp sorted
    obtain ⟨next, others⟩ := List.pairwise_cons.mp later
    have first := least range List.mem_cons_self
    rw [mergeInto]
    split_ifs with touches
    · have sorted : ((last.1, max last.2 range.2) :: rest).Pairwise fun left right => left.1 ≤ right.1 :=
        List.pairwise_cons.mpr ⟨fun other mem => Nat.le_trans first (next other mem), others⟩
      have union : Range.covers (last.1, max last.2 range.2) i = (last.covers i || range.covers i) := by
        rw [Bool.eq_iff_iff, Bool.or_eq_true, Range.covers_eq_true, Range.covers_eq_true, Range.covers_eq_true]
        dsimp only
        omega
      rw [ih sorted, covered_cons, covered_cons, covered_cons, union, Bool.or_assoc]
    · rw [covered_cons, ih later, covered_cons last]

theorem le_of_mem_mergeInto {last range : Range} {ranges : List Range}
    (sorted : (last :: ranges).Pairwise fun left right => left.1 ≤ right.1) (mem : range ∈ mergeInto last ranges) :
    last.1 ≤ range.1 := by
  induction ranges generalizing last with
  | nil =>
    obtain rfl := List.mem_singleton.mp mem
    exact Nat.le_refl _
  | cons next rest ih =>
    obtain ⟨least, later⟩ := List.pairwise_cons.mp sorted
    obtain ⟨second, others⟩ := List.pairwise_cons.mp later
    have first := least next List.mem_cons_self
    rw [mergeInto] at mem
    split_ifs at mem
    · exact @ih (last.1, max last.2 next.2)
        (List.pairwise_cons.mpr ⟨fun other there => Nat.le_trans first (second other there), others⟩) mem
    · rcases List.mem_cons.mp mem with rfl | mem
      · exact Nat.le_refl _
      · exact Nat.le_trans first (ih later mem)

theorem apart_mergeInto {last : Range} {ranges : List Range}
    (sorted : (last :: ranges).Pairwise fun left right => left.1 ≤ right.1)
    (nonempty : ∀ range ∈ last :: ranges, range.1 < range.2) : Gapped (mergeInto last ranges) := by
  induction ranges generalizing last with
  | nil => exact ⟨nonempty, List.pairwise_singleton _ _⟩
  | cons range rest ih =>
    obtain ⟨least, later⟩ := List.pairwise_cons.mp sorted
    obtain ⟨next, others⟩ := List.pairwise_cons.mp later
    obtain ⟨own, nonempty⟩ := List.forall_mem_cons.mp nonempty
    have first := least range List.mem_cons_self
    rw [mergeInto]
    split_ifs with touches
    · apply ih
      · exact List.pairwise_cons.mpr ⟨fun other mem => Nat.le_trans first (next other mem), others⟩
      · refine List.forall_mem_cons.mpr ⟨?_, (List.forall_mem_cons.mp nonempty).2⟩
        exact Nat.lt_of_lt_of_le own (Nat.le_max_left _ _)
    · obtain ⟨positive, gaps⟩ := ih later nonempty
      refine ⟨List.forall_mem_cons.mpr ⟨own, positive⟩, List.pairwise_cons.mpr ⟨fun other mem => ?_, gaps⟩⟩
      have := le_of_mem_mergeInto later mem
      omega

theorem pairwise_insertionSort (ranges : List Range) :
    (ranges.insertionSort RangeLe).Pairwise fun left right => left.1 ≤ right.1 := by
  have total : Std.Total RangeLe := ⟨fun left right => by unfold RangeLe; omega⟩
  have trans : IsTrans Range RangeLe := ⟨fun left middle right => by unfold RangeLe; omega⟩
  refine (List.pairwise_insertionSort RangeLe ranges).imp fun {left right} le => ?_
  unfold RangeLe at le
  omega

theorem covered_filter_nonempty (ranges : List Range) :
    covered (ranges.filter fun range => range.1 < range.2) i = covered ranges i := by
  rw [Bool.eq_iff_iff, covered_eq_true, covered_eq_true]
  constructor
  · rintro ⟨range, mem, covers⟩
    exact ⟨range, List.mem_of_mem_filter mem, covers⟩
  · rintro ⟨range, mem, left, right⟩
    exact ⟨range, List.mem_filter.mpr ⟨mem, decide_eq_true (Nat.lt_of_le_of_lt left right)⟩, left, right⟩

theorem covered_insertionSort (ranges : List Range) : covered (ranges.insertionSort RangeLe) i = covered ranges i := by
  rw [Bool.eq_iff_iff, covered_eq_true, covered_eq_true]
  simp only [List.mem_insertionSort]

theorem covered_mergeRanges (ranges : List Range) : covered (mergeRanges ranges) i = covered ranges i := by
  have sorted := pairwise_insertionSort (ranges.filter fun range => range.1 < range.2)
  have same := covered_insertionSort (i := i) (ranges.filter fun range => range.1 < range.2)
  rw [covered_filter_nonempty] at same
  rw [mergeRanges, ← same]
  cases equation : (ranges.filter fun range => range.1 < range.2).insertionSort RangeLe with
  | nil => rfl
  | cons first rest => exact covered_mergeInto (equation ▸ sorted)

theorem apart_mergeRanges (ranges : List Range) : Gapped (mergeRanges ranges) := by
  have sorted := pairwise_insertionSort (ranges.filter fun range => range.1 < range.2)
  have nonempty : ∀ range ∈ (ranges.filter fun range => range.1 < range.2).insertionSort RangeLe, range.1 < range.2 := by
    intro range mem
    rw [List.mem_insertionSort] at mem
    exact of_decide_eq_true (List.of_mem_filter (p := fun range : Range => range.1 < range.2) mem)
  rw [mergeRanges]
  cases equation : (ranges.filter fun range => range.1 < range.2).insertionSort RangeLe with
  | nil => exact ⟨nofun, List.Pairwise.nil⟩
  | cons first rest => exact apart_mergeInto (equation ▸ sorted) (equation ▸ nonempty)

theorem covered_nonCodeRanges (nonCode : NonCodeKinds) {scope : Node} (placed : WellPlaced scope) :
    covered (nonCodeRanges nonCode scope) i = true ↔ nonCode.NonCode nonCode.LooksInto scope i := by
  rw [nonCodeRanges, covered_mergeRanges, covered_collectNonCode nonCode scope [] placed (fun _ _ => rfl)]
  exact ⟨fun either => either.resolve_left Bool.false_ne_true, .inr⟩

/-! ### Bisection -/

/-- A bisection of ranges that are apart, where those before the indices end before the position and those behind
them begin behind it. -/
structure Bisected (ranges : List Range) (index low high : Nat) : Prop where
  inside : high ≤ ranges.length
  before : ∀ k (_ : k < ranges.length), k < low → ranges[k].2 ≤ index
  behind : ∀ k (_ : k < ranges.length), high ≤ k → index < ranges[k].1

namespace Bisected

variable {ranges : List Range} {index low high : Nat}

theorem initial (ranges : List Range) (index : Nat) : Bisected ranges index 0 ranges.length where
  inside := Nat.le_refl _
  before _ _ less := absurd less (Nat.not_lt_zero _)
  behind _ inside le := absurd inside (Nat.not_lt_of_ge le)

theorem not_covered (bisected : Bisected ranges index low high) (stop : high ≤ low) : covered ranges index = false := by
  rw [covered_eq_false]
  intro range mem begun
  obtain ⟨k, inside, rfl⟩ := List.mem_iff_getElem.mp mem
  rcases Nat.lt_or_ge k low with less | most
  · exact bisected.before k inside less
  · exact absurd (bisected.behind k inside (by omega)) (Nat.not_lt_of_ge begun)

theorem left (bisected : Bisected ranges index low high) (apart : Gapped ranges) {k : Nat} (mid : k < ranges.length)
    (front : index < ranges[k].1) : Bisected ranges index low k where
  inside := mid.le
  before := bisected.before
  behind j inside le := by
    rcases Nat.lt_or_eq_of_le le with less | rfl
    · have := List.pairwise_iff_getElem.mp apart.gaps k j mid inside less
      have := apart.nonempty _ (List.getElem_mem mid)
      omega
    · exact front

theorem right (bisected : Bisected ranges index low high) (apart : Gapped ranges) {k : Nat} (mid : k < ranges.length)
    (back : ranges[k].2 ≤ index) : Bisected ranges index (k + 1) high where
  inside := bisected.inside
  before j inside less := by
    rcases Nat.lt_or_eq_of_le (Nat.le_of_lt_succ less) with less | rfl
    · have := List.pairwise_iff_getElem.mp apart.gaps j k inside mid less
      have := apart.nonempty _ (List.getElem_mem mid)
      omega
    · exact back
  behind := bisected.behind

end Bisected

variable {ranges : List Range}

theorem bisect_cases (apart : Gapped ranges) {index fuel low high : Nat} (enough : high - low ≤ fuel)
    (bisected : Bisected ranges index low high) :
    (bisect ranges index fuel low high = some none ∧ covered ranges index = false) ∨
      ∃ range ∈ ranges, range.covers index = true ∧ bisect ranges index fuel low high = some (some range.2) := by
  induction fuel generalizing low high with
  | zero =>
    rw [bisect, if_neg (by omega)]
    exact .inl ⟨rfl, bisected.not_covered (by omega)⟩
  | succ fuel ih =>
    rw [bisect]
    by_cases more : low < high
    · have inside := bisected.inside
      have mid : low + (high - low) / 2 < ranges.length := by omega
      rw [if_pos more]
      simp only [List.getElem?_eq_getElem mid, Option.bind_eq_bind, Option.bind_some]
      split_ifs with front back
      · exact ih (by omega) (bisected.left apart mid front)
      · exact ih (by omega) (bisected.right apart mid back)
      · exact .inr ⟨_, List.getElem_mem mid, Range.covers_eq_true.mpr ⟨by omega, by omega⟩, rfl⟩
    · rw [if_neg more]
      exact .inl ⟨rfl, bisected.not_covered (by omega)⟩

theorem excludedEnd_cases (apart : Gapped ranges) (index : Nat) :
    (excludedEnd ranges index = some none ∧ covered ranges index = false) ∨
      ∃ range ∈ ranges, range.covers index = true ∧ excludedEnd ranges index = some (some range.2) :=
  bisect_cases apart (by omega) (.initial ranges index)

theorem isNone_excludedEnd (apart : Gapped ranges) (index : Nat) :
    (excludedEnd ranges index).map Option.isNone = some (!covered ranges index) := by
  rcases excludedEnd_cases apart index with ⟨found, outside⟩ | ⟨range, mem, covers, found⟩
  · rw [found, outside]
    rfl
  · have inside : covered ranges index = true := List.any_eq_true.mpr ⟨range, mem, covers⟩
    rw [found, inside]
    rfl

end OrbitGraph.Extract
