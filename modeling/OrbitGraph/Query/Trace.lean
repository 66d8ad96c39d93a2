import Mathlib.Data.List.Sort
import OrbitGraph.Lib.Arena
import OrbitGraph.Lib.Loop
import OrbitGraph.Query.Edges

/-!
The call tree of a command.

`trace` expands the handler of a command breadth first into an arena of at most
`TRACE_NODE_CAP` nodes, and reads the tree back from the arena. A call is a node of its
own wherever it occurs: nothing looks for a call that an ancestor made already, so a
recursive handler is expanded down to the depth.
-/

namespace OrbitGraph.Query

open Lib Sync Evidence

/-- A row of `commands`. -/
structure CommandRow where
  name : Text
  handlerSymbol : Option Nat

def defaultTraceDepth : Nat := 5

def traceNodeCap : Nat := 200

/-- `callees::edges_for_symbol`: the calls inside the span of a symbol, by their starts and then by row. -/
def edgesForSymbol (idx : Index) (symbol : SymbolRow) : List RefRow :=
  (idx.refs.filter fun r => r.fromFile = symbol.filePath ∧ symbol.spanStart ≤ r.raw.spanStart ∧
    r.raw.spanEnd ≤ symbol.spanEnd ∧ r.raw.kind = kindLabel .call).insertionSort fun a b =>
      a.raw.spanStart ≤ b.raw.spanStart

def normalizeCommandSelector (command : Text) : Text :=
  ((Text.stripPrefix "command:" (Text.trim command)).map Text.trim).getD (Text.trim command)

/-- The row of the command's handler; `commands.name` is a primary key. -/
def resolveCommandHandler (idx : Index) (commands : List CommandRow) (command : Text) : Option SymbolRow :=
  (commands.find? fun row => row.name = command).bind fun row => row.handlerSymbol.bind idx.symbolById

/-- What a node shows. -/
structure TraceLabel where
  name : Text
  qualifiedName : Option Text
  confidence : Option RefConfidence

abbrev TraceNode := Rose TraceLabel

abbrev TraceNodeBuilder := Cell TraceLabel

def TraceLabel.root (symbol : SymbolRow) : TraceLabel := ⟨symbol.name, some symbol.qualified, none⟩

def TraceLabel.callee (edge : RefRow) : TraceLabel := ⟨edge.raw.targetName, edge.targetQualified, some edge.confidence⟩

structure TraceResult where
  root : Option TraceNode
  truncated : Bool
  visitedNodes : Nat
  total : Option Nat

def TraceResult.empty : TraceResult where
  root := none
  truncated := false
  visitedNodes := 0
  total := some 0

/-! ### The expansion -/

/-- The arena, and the nodes to expand with their symbols and distances. -/
structure TraceState where
  arena : List TraceNodeBuilder
  queue : List (Nat × SymbolRow × Nat)

section

variable (idx : Index) (minConfidence : RefConfidence) (maxDepth : Nat)

/-- What is queued for a new node: its symbol, if it is resolved and not too deep. -/
def queuedChild (childIndex nextDistance : Nat) (edge : RefRow) : List (Nat × SymbolRow × Nat) :=
  match traceTarget idx edge with
  | some symbol => if nextDistance < maxDepth then [(childIndex, symbol, nextDistance)] else []
  | none => []

/-- The loop over the edges of a node; the second part of the answer says that the cap ended it. -/
def visitEdges (nodeIndex nextDistance : Nat) : List RefRow → TraceState → TraceState × Bool
  | [], s => (s, false)
  | edge :: rest, s =>
    if visibleAtFloor edge.confidence minConfidence = false then visitEdges nodeIndex nextDistance rest s
    else if traceNodeCap ≤ s.arena.length then (s, true)
    else
      visitEdges nodeIndex nextDistance rest {
        arena := Arena.push s.arena nodeIndex (.callee edge)
        queue := s.queue ++ queuedChild idx maxDepth s.arena.length nextDistance edge }

def traceRound (s : TraceState) : TraceState ⊕ (TraceState × Bool) :=
  match s.queue with
  | [] => .inr (s, false)
  | (nodeIndex, symbol, distance) :: queue =>
    if maxDepth ≤ distance then .inl { s with queue }
    else
      match visitEdges idx minConfidence maxDepth nodeIndex (distance + 1) (edgesForSymbol idx symbol) { s with queue } with
      | (s, true) => .inr (s, true)
      | (s, false) => .inl s

def TraceState.start (origin : SymbolRow) : TraceState := ⟨[⟨.root origin, []⟩], [(0, origin, 0)]⟩

/-- The loop over the queue; a node is queued at most once, so there are not more rounds than this. -/
def expandTrace (origin : SymbolRow) : Option (TraceState × Bool) :=
  runLoop (traceRound idx minConfidence maxDepth) (traceNodeCap + 1) (.start origin)

/-- `build_tree`; a child has a larger index, so there are not more generations than nodes. -/
def buildTree (arena : List TraceNodeBuilder) (index : Nat) : Option TraceNode := Arena.build arena arena.length index

def maxTraceDepth (depth : Nat) : Nat := if depth = 0 then defaultTraceDepth else depth

/-- `trace::run`; `none` if a loop did not end. -/
def trace (commands : List CommandRow) (command : Text) (depth : Nat) : Option TraceResult :=
  match resolveCommandHandler idx commands (normalizeCommandSelector command) with
  | none => some .empty
  | some origin =>
    (expandTrace idx minConfidence (maxTraceDepth depth) origin).bind fun (s, truncated) =>
      (buildTree s.arena 0).map fun root => {
        root := some root
        truncated
        visitedNodes := s.arena.length
        total := if truncated then none else some s.arena.length }

/-! ### Without a cap -/

def visibleCalls (symbol : SymbolRow) : List RefRow :=
  (edgesForSymbol idx symbol).filter fun edge => visibleAtFloor edge.confidence minConfidence

/-- The calls of a symbol, expanded so many levels down. -/
def callTrees : Nat → SymbolRow → List TraceNode
  | 0, _ => []
  | levels + 1, symbol =>
    (visibleCalls idx minConfidence symbol).map fun edge =>
      .node (.callee edge) (((traceTarget idx edge).map (callTrees levels)).getD [])

/-- The tree of a handler, expanded so many levels down. -/
def callTree (levels : Nat) (origin : SymbolRow) : TraceNode :=
  .node (.root origin) (callTrees idx minConfidence levels origin)

end

section

variable {idx : Index} {minConfidence : RefConfidence} {maxDepth : Nat} {s s' : TraceState} {truncated : Bool}
  {nodeIndex distance : Nat}

/-- The nodes still to come below a queued node. -/
def pendingNodes (idx : Index) (minConfidence : RefConfidence) (maxDepth : Nat) (entry : Nat × SymbolRow × Nat) : Nat :=
  (Rose.labelsAll (callTrees idx minConfidence (maxDepth - entry.2.2) entry.2.1)).length

def TraceState.count (idx : Index) (minConfidence : RefConfidence) (maxDepth : Nat) (s : TraceState) : Nat :=
  s.arena.length + (s.queue.map (pendingNodes idx minConfidence maxDepth)).sum

def edgeTree (idx : Index) (minConfidence : RefConfidence) (maxDepth nextDistance : Nat) (edge : RefRow) : TraceNode :=
  .node (.callee edge) (((traceTarget idx edge).map (callTrees idx minConfidence (maxDepth - nextDistance))).getD [])

def edgeNodes (idx : Index) (minConfidence : RefConfidence) (maxDepth nextDistance : Nat) (edge : RefRow) : Nat :=
  (edgeTree idx minConfidence maxDepth nextDistance edge).size

theorem edgeNodes_eq (childIndex nextDistance : Nat) (edge : RefRow) :
    edgeNodes idx minConfidence maxDepth nextDistance edge =
      1 + ((queuedChild idx maxDepth childIndex nextDistance edge).map (pendingNodes idx minConfidence maxDepth)).sum := by
  unfold edgeNodes edgeTree queuedChild
  rw [Rose.size, Rose.labels, List.length_cons, Nat.add_comm]
  cases traceTarget idx edge with
  | none => rfl
  | some symbol =>
    rw [Option.map_some, Option.getD_some]
    by_cases deep : nextDistance < maxDepth
    · simp [deep, pendingNodes]
    · have last : maxDepth - nextDistance = 0 := by omega
      rw [last]
      simp [deep, callTrees, Rose.labelsAll]

variable {childIndex nextDistance : Nat}

theorem mem_queuedChild {edge : RefRow} {entry : Nat × SymbolRow × Nat}
    (mem : entry ∈ queuedChild idx maxDepth childIndex nextDistance edge) : entry.1 = childIndex := by
  unfold queuedChild at mem
  split at mem
  · split_ifs at mem with deep
    · rw [List.mem_singleton.mp mem]
    · cases mem
  · cases mem

theorem queued_push {nextDistance : Nat} {edge : RefRow} (queued : ∀ entry ∈ s.queue, entry.1 < s.arena.length) :
    ∀ entry ∈ s.queue ++ queuedChild idx maxDepth s.arena.length nextDistance edge,
      entry.1 < (Arena.push s.arena nodeIndex (.callee edge)).length := by
  intro entry mem
  rw [Arena.length_push]
  rcases List.mem_append.mp mem with before | child
  · have := queued entry before
    omega
  · have := mem_queuedChild child
    omega

theorem length_queuedChild (idx : Index) (maxDepth childIndex nextDistance : Nat) (edge : RefRow) :
    (queuedChild idx maxDepth childIndex nextDistance edge).length ≤ 1 := by
  unfold queuedChild
  split
  · split_ifs <;> simp
  · simp

theorem nodup_queuedChild (idx : Index) (maxDepth childIndex nextDistance : Nat) (edge : RefRow) :
    ((queuedChild idx maxDepth childIndex nextDistance edge).map Prod.fst).Nodup := by
  unfold queuedChild
  split
  · split_ifs <;> simp
  · simp

/-- What holds between two rounds, for a tree of `total` nodes. -/
structure Expanding (idx : Index) (minConfidence : RefConfidence) (maxDepth total : Nat) (s : TraceState) : Prop where
  grown : Arena.Grown s.arena
  capped : s.arena.length ≤ traceNodeCap
  queued : ∀ entry ∈ s.queue, entry.1 < s.arena.length
  count_eq : s.count idx minConfidence maxDepth = total

/-- The rounds that are left, at most. -/
def TraceState.rounds (s : TraceState) : Nat := traceNodeCap - s.arena.length + s.queue.length

/-- What the edges of a node leave: all of them are entered, or the cap is reached and another is left. -/
theorem visitEdges_spec {total : Nat} : ∀ (edges : List RefRow) (s : TraceState), distance < maxDepth →
    Arena.Grown s.arena → s.arena.length ≤ traceNodeCap → nodeIndex < s.arena.length →
    (∀ entry ∈ s.queue, entry.1 < s.arena.length) →
    s.count idx minConfidence maxDepth + ((edges.filter fun edge => visibleAtFloor edge.confidence minConfidence).map
      (edgeNodes idx minConfidence maxDepth (distance + 1))).sum = total →
    visitEdges idx minConfidence maxDepth nodeIndex (distance + 1) edges s = (s', truncated) →
    (truncated = true → Arena.Grown s'.arena ∧ s'.arena.length = traceNodeCap ∧ traceNodeCap < total) ∧
      (truncated = false → Expanding idx minConfidence maxDepth total s' ∧ s'.rounds ≤ s.rounds)
  | [], s, deep, grown, capped, here, queued, count, run => by
    obtain ⟨rfl, rfl⟩ := Prod.mk.inj run
    exact ⟨nofun,
      fun _ => ⟨⟨grown, capped, queued, by simpa using count⟩, le_rfl⟩⟩
  | edge :: rest, s, deep, grown, capped, here, queued, count, run => by
    rw [visitEdges] at run
    split at run
    next hidden =>
      rw [List.filter_cons_of_neg (by simp [hidden])] at count
      exact visitEdges_spec rest s deep grown capped here queued count run
    next shown =>
      have shown : visibleAtFloor edge.confidence minConfidence = true := Bool.eq_true_of_not_eq_false shown
      rw [List.filter_cons_of_pos (p := fun edge : RefRow => visibleAtFloor edge.confidence minConfidence) shown,
        List.map_cons, List.sum_cons, edgeNodes_eq s.arena.length] at count
      split at run
      next full =>
        obtain ⟨rfl, rfl⟩ := Prod.mk.inj run
        refine ⟨fun _ => ⟨grown, by omega, ?_⟩, nofun⟩
        unfold TraceState.count at count
        omega
      next room =>
        have counted : TraceState.count idx minConfidence maxDepth {
              arena := Arena.push s.arena nodeIndex (.callee edge)
              queue := s.queue ++ queuedChild idx maxDepth s.arena.length (distance + 1) edge } +
            ((rest.filter fun edge => visibleAtFloor edge.confidence minConfidence).map
              (edgeNodes idx minConfidence maxDepth (distance + 1))).sum = total := by
          rw [← count]
          simp only [TraceState.count, Arena.length_push, List.map_append, List.sum_append]
          omega
        have few := length_queuedChild idx maxDepth s.arena.length (distance + 1) edge
        obtain ⟨cut, whole⟩ := visitEdges_spec rest _ deep (.leaf (.callee edge) grown here)
          (by rw [Arena.length_push]; omega) (by rw [Arena.length_push]; omega)
          (queued_push queued) counted run
        refine ⟨cut, fun ended => ?_⟩
        obtain ⟨expanding, fewer⟩ := whole ended
        refine ⟨expanding, fewer.trans ?_⟩
        simp only [TraceState.rounds, Arena.length_push, List.length_append]
        omega

variable {symbol : SymbolRow}

theorem callTrees_eq (deep : distance < maxDepth) : callTrees idx minConfidence (maxDepth - distance) symbol =
      (visibleCalls idx minConfidence symbol).map (edgeTree idx minConfidence maxDepth (distance + 1)) := by
  obtain ⟨levels, eq⟩ : ∃ levels, maxDepth - distance = levels + 1 := ⟨maxDepth - distance - 1, by omega⟩
  have next : maxDepth - (distance + 1) = levels := by omega
  rw [eq, callTrees]
  refine List.map_congr_left fun edge _ => ?_
  rw [edgeTree, next]

theorem pendingNodes_eq {i : Nat} (deep : distance < maxDepth) :
    pendingNodes idx minConfidence maxDepth (i, symbol, distance) =
      ((visibleCalls idx minConfidence symbol).map (edgeNodes idx minConfidence maxDepth (distance + 1))).sum := by
  unfold pendingNodes
  rw [callTrees_eq deep, Rose.length_labelsAll, List.map_map]
  rfl

theorem Expanding.dequeue {total : Nat} {arena : List TraceNodeBuilder} {rest : List (Nat × SymbolRow × Nat)}
    (expanding : Expanding idx minConfidence maxDepth total ⟨arena, (nodeIndex, symbol, distance) :: rest⟩) :
    nodeIndex < arena.length ∧ (∀ entry ∈ rest, entry.1 < arena.length) ∧
      TraceState.count idx minConfidence maxDepth ⟨arena, rest⟩ +
        pendingNodes idx minConfidence maxDepth (nodeIndex, symbol, distance) = total := by
  refine ⟨expanding.queued _ List.mem_cons_self, fun entry mem => expanding.queued entry (List.mem_cons_of_mem _ mem), ?_⟩
  have count := expanding.count_eq
  simp only [TraceState.count, List.map_cons, List.sum_cons] at count ⊢
  omega

/-- A round that goes on keeps the invariant, and fewer rounds are left. -/
theorem traceRound_next {total : Nat} (expanding : Expanding idx minConfidence maxDepth total s)
    (run : traceRound idx minConfidence maxDepth s = .inl s') :
    Expanding idx minConfidence maxDepth total s' ∧ s'.rounds < s.rounds := by
  obtain ⟨arena, queue⟩ := s
  unfold traceRound at run
  split at run
  next => cases run
  next nodeIndex symbol distance rest eq =>
    obtain rfl : queue = (nodeIndex, symbol, distance) :: rest := eq
    obtain ⟨here, others, count⟩ := expanding.dequeue
    have fewer : TraceState.rounds ⟨arena, rest⟩ < TraceState.rounds ⟨arena, (nodeIndex, symbol, distance) :: rest⟩ := by
      simp only [TraceState.rounds, List.length_cons]
      omega
    split at run
    next shallow =>
      obtain rfl := Sum.inl.inj run
      have none : pendingNodes idx minConfidence maxDepth (nodeIndex, symbol, distance) = 0 := by
        unfold pendingNodes
        rw [show maxDepth - distance = 0 by omega]
        rfl
      rw [none, Nat.add_zero] at count
      exact ⟨⟨expanding.grown, expanding.capped, others, count⟩, fewer⟩
    next deep =>
      have deep := not_le.mp deep
      rw [pendingNodes_eq deep] at count
      split at run
      next => cases run
      next after visited =>
        obtain rfl := Sum.inl.inj run
        obtain ⟨expanding, bound⟩ := (visitEdges_spec _ ⟨arena, rest⟩ deep expanding.grown expanding.capped here others
          count visited).2 rfl
        exact ⟨expanding, bound.trans_lt fewer⟩

/-- The loop ends with the whole tree, or at the cap with nodes left out. -/
structure Expanded (total : Nat) (s : TraceState) (truncated : Bool) : Prop where
  grown : Arena.Grown s.arena
  truncated_iff : truncated = true ↔ traceNodeCap < total
  length_eq : s.arena.length = min traceNodeCap total

theorem traceRound_done {total : Nat} (expanding : Expanding idx minConfidence maxDepth total s)
    (run : traceRound idx minConfidence maxDepth s = .inr (s', truncated)) : Expanded total s' truncated := by
  obtain ⟨arena, queue⟩ := s
  unfold traceRound at run
  split at run
  next eq =>
    obtain rfl : queue = [] := eq
    obtain ⟨rfl, rfl⟩ := Prod.mk.inj (Sum.inr.inj run)
    have count : arena.length = total := expanding.count_eq
    have capped : arena.length ≤ traceNodeCap := expanding.capped
    refine ⟨expanding.grown, ⟨nofun, fun more => ?_⟩, ?_⟩
    · omega
    · rw [← count, min_eq_right capped]
  next nodeIndex symbol distance rest eq =>
    obtain rfl : queue = (nodeIndex, symbol, distance) :: rest := eq
    obtain ⟨here, others, count⟩ := expanding.dequeue
    split at run
    next => cases run
    next deep =>
      have deep := not_le.mp deep
      rw [pendingNodes_eq deep] at count
      split at run
      next after visited =>
        obtain ⟨rfl, rfl⟩ := Prod.mk.inj (Sum.inr.inj run)
        obtain ⟨grown, full, more⟩ := (visitEdges_spec _ ⟨arena, rest⟩ deep expanding.grown expanding.capped here others
          count visited).1 rfl
        exact ⟨grown, iff_of_true rfl more, by rw [full, min_eq_left more.le]⟩
      next => cases run

/-! ### What the expansion is part of -/

def comingTrees (idx : Index) (minConfidence : RefConfidence) (maxDepth : Nat) (queue : List (Nat × SymbolRow × Nat))
    (i : Nat) : List TraceNode :=
  ((queue.find? fun entry => entry.1 = i).map fun entry =>
    callTrees idx minConfidence (maxDepth - entry.2.2) entry.2.1).getD []

variable {queue : List (Nat × SymbolRow × Nat)}

theorem comingTrees_of_notMem {i : Nat} (absent : i ∉ queue.map Prod.fst) :
    comingTrees idx minConfidence maxDepth queue i = [] := by
  have none : (queue.find? fun entry => entry.1 = i) = none := by
    rw [List.find?_eq_none]
    intro entry mem same
    exact absent (of_decide_eq_true same ▸ List.mem_map_of_mem mem)
  rw [comingTrees, none]
  rfl

theorem comingTrees_cons (entry : Nat × SymbolRow × Nat) (queue : List (Nat × SymbolRow × Nat)) :
    comingTrees idx minConfidence maxDepth (entry :: queue) =
      Function.update (comingTrees idx minConfidence maxDepth queue) entry.1
        (callTrees idx minConfidence (maxDepth - entry.2.2) entry.2.1) := by
  funext i
  unfold comingTrees
  by_cases same : i = entry.1
  · subst same
    rw [Function.update_self, List.find?_cons_of_pos (by simp)]
    rfl
  · rw [Function.update_of_ne same, List.find?_cons_of_neg (by simpa using Ne.symm same)]

theorem comingTrees_append (edge : RefRow) (absent : childIndex ∉ queue.map Prod.fst) :
    comingTrees idx minConfidence maxDepth (queue ++ queuedChild idx maxDepth childIndex nextDistance edge) =
      Function.update (comingTrees idx minConfidence maxDepth queue) childIndex
        (((traceTarget idx edge).map (callTrees idx minConfidence (maxDepth - nextDistance))).getD []) := by
  have unchanged : Function.update (comingTrees idx minConfidence maxDepth queue) childIndex [] =
      comingTrees idx minConfidence maxDepth queue := by
    rw [← comingTrees_of_notMem absent, Function.update_eq_self]
  unfold queuedChild
  cases traceTarget idx edge with
  | none => exact (congrArg _ (List.append_nil queue)).trans unchanged.symm
  | some symbol =>
    dsimp only
    split_ifs with deep
    · funext i
      by_cases same : i = childIndex
      · subst same
        have none : (queue.find? fun entry => entry.1 = i) = none := by
          rw [List.find?_eq_none]
          intro entry mem here
          exact absent (of_decide_eq_true here ▸ List.mem_map_of_mem mem)
        rw [Function.update_self, comingTrees, List.find?_append, none]
        simp
      · rw [Function.update_of_ne same, comingTrees, List.find?_append]
        simp [comingTrees, Ne.symm same]
    · have last : maxDepth - nextDistance = 0 := by omega
      rw [List.append_nil, last]
      exact unchanged.symm

/-- The arena with what the queue brings is the tree. -/
structure Promising (idx : Index) (minConfidence : RefConfidence) (maxDepth : Nat) (tree : TraceNode) (s : TraceState) :
    Prop where
  nodup : (s.queue.map Prod.fst).Nodup
  promised : Arena.promise s.arena (comingTrees idx minConfidence maxDepth s.queue) s.arena.length 0 = some tree

variable {tree : TraceNode}

theorem visitEdges_promise : ∀ (edges : List RefRow) (s : TraceState),
    Arena.Grown s.arena → nodeIndex < s.arena.length → (∀ entry ∈ s.queue, entry.1 < s.arena.length) →
    (nodeIndex :: s.queue.map Prod.fst).Nodup →
    Arena.promise s.arena (Function.update (comingTrees idx minConfidence maxDepth s.queue) nodeIndex
      ((edges.filter fun edge => visibleAtFloor edge.confidence minConfidence).map
        (edgeTree idx minConfidence maxDepth (distance + 1)))) s.arena.length 0 = some tree →
    visitEdges idx minConfidence maxDepth nodeIndex (distance + 1) edges s = (s', truncated) →
    (truncated = true → ∃ cut, Arena.promise s'.arena cut s'.arena.length 0 = some tree) ∧
      (truncated = false → Promising idx minConfidence maxDepth tree s')
  | [], s, grown, here, queued, nodup, promised, run => by
    obtain ⟨rfl, rfl⟩ := Prod.mk.inj run
    obtain ⟨absent, nodup⟩ := List.nodup_cons.mp nodup
    refine ⟨nofun, fun _ => ⟨nodup, ?_⟩⟩
    rw [List.filter_nil, List.map_nil, ← comingTrees_of_notMem absent, Function.update_eq_self] at promised
    exact promised
  | edge :: rest, s, grown, here, queued, nodup, promised, run => by
    rw [visitEdges] at run
    split at run
    next hidden =>
      rw [List.filter_cons_of_neg (by simp [hidden])] at promised
      exact visitEdges_promise rest s grown here queued nodup promised run
    next shown =>
      have shown : visibleAtFloor edge.confidence minConfidence = true := Bool.eq_true_of_not_eq_false shown
      rw [List.filter_cons_of_pos (p := fun edge : RefRow => visibleAtFloor edge.confidence minConfidence) shown,
        List.map_cons] at promised
      split at run
      next full =>
        obtain ⟨rfl, rfl⟩ := Prod.mk.inj run
        exact ⟨fun _ => ⟨_, promised⟩, nofun⟩
      next room =>
        have absent : s.arena.length ∉ s.queue.map Prod.fst := by
          intro mem
          obtain ⟨entry, mem, eq⟩ := List.mem_map.mp mem
          have := queued entry mem
          omega
        have once : (nodeIndex :: (s.queue ++ queuedChild idx maxDepth s.arena.length (distance + 1) edge).map
            Prod.fst).Nodup := by
          rw [List.map_append, ← List.cons_append]
          refine List.nodup_append.mpr ⟨nodup, nodup_queuedChild _ _ _ _ _, fun i left j right same => ?_⟩
          obtain ⟨entry, child, rfl⟩ := List.mem_map.mp right
          rw [mem_queuedChild child] at same
          rcases List.mem_cons.mp left with own | before
          · omega
          · exact absent (same ▸ before)
        have other : nodeIndex ≠ s.arena.length := here.ne
        have kept : Arena.promise (Arena.push s.arena nodeIndex (.callee edge))
            (Function.update (comingTrees idx minConfidence maxDepth
              (s.queue ++ queuedChild idx maxDepth s.arena.length (distance + 1) edge)) nodeIndex
              ((rest.filter fun edge => visibleAtFloor edge.confidence minConfidence).map
                (edgeTree idx minConfidence maxDepth (distance + 1))))
            (Arena.push s.arena nodeIndex (.callee edge)).length 0 = some tree := by
          rw [comingTrees_append edge absent, Function.update_comm other.symm, Arena.length_push, ← promised]
          have brings : Function.update (comingTrees idx minConfidence maxDepth s.queue) nodeIndex
              (edgeTree idx minConfidence maxDepth (distance + 1) edge ::
                (rest.filter fun edge => visibleAtFloor edge.confidence minConfidence).map
                  (edgeTree idx minConfidence maxDepth (distance + 1))) nodeIndex =
              .node (.callee edge) _ :: _ := Function.update_self ..
          rw [← grown.promise_push here brings s.arena.length 0 grown.length_pos (by omega), Function.update_idem]
        exact visitEdges_promise rest _ (.leaf (.callee edge) grown here) (by rw [Arena.length_push]; omega)
          (queued_push queued) once kept run

/-- A round keeps the promise. At the end nothing is left of it but what the cap cut off. -/
theorem traceRound_promise {total : Nat} (expanding : Expanding idx minConfidence maxDepth total s)
    (promising : Promising idx minConfidence maxDepth tree s) :
    (∀ s', traceRound idx minConfidence maxDepth s = .inl s' → Promising idx minConfidence maxDepth tree s') ∧
      ∀ s' truncated, traceRound idx minConfidence maxDepth s = .inr (s', truncated) →
        ∃ cut, Arena.promise s'.arena cut s'.arena.length 0 = some tree ∧ (truncated = false → cut = fun _ => []) := by
  obtain ⟨arena, queue⟩ := s
  unfold traceRound
  cases queue with
  | nil =>
    refine ⟨nofun, fun s' truncated run => ?_⟩
    obtain ⟨rfl, rfl⟩ := Prod.mk.inj (Sum.inr.inj run)
    exact ⟨_, promising.promised, fun _ => rfl⟩
  | cons entry rest =>
    obtain ⟨nodeIndex, symbol, distance⟩ := entry
    obtain ⟨here, others, _⟩ := expanding.dequeue
    obtain ⟨absent, nodup⟩ := List.nodup_cons.mp promising.nodup
    have promised := promising.promised
    rw [comingTrees_cons] at promised
    dsimp only at promised ⊢
    split
    next shallow =>
      refine ⟨fun s' run => ?_, nofun⟩
      obtain rfl := Sum.inl.inj run
      rw [show maxDepth - distance = 0 by omega, callTrees, ← comingTrees_of_notMem absent,
        Function.update_eq_self] at promised
      exact ⟨nodup, promised⟩
    next deep =>
      rw [callTrees_eq (not_le.mp deep)] at promised
      cases visited : visitEdges idx minConfidence maxDepth nodeIndex (distance + 1) (edgesForSymbol idx symbol)
          ⟨arena, rest⟩ with
      | mk after ended =>
        obtain ⟨cut, whole⟩ := visitEdges_promise _ ⟨arena, rest⟩ expanding.grown here others promising.nodup promised
          visited
        cases ended with
        | true =>
          refine ⟨nofun, fun s' truncated run => ?_⟩
          obtain ⟨rfl, rfl⟩ := Prod.mk.inj (Sum.inr.inj run)
          obtain ⟨cut, promised⟩ := cut rfl
          exact ⟨cut, promised, nofun⟩
        | false =>
          refine ⟨fun s' run => ?_, nofun⟩
          obtain rfl := Sum.inl.inj run
          exact whole rfl

theorem expandTrace_spec (idx : Index) (minConfidence : RefConfidence) (maxDepth : Nat) (origin : SymbolRow) :
    ∃ s truncated, expandTrace idx minConfidence maxDepth origin = some (s, truncated) ∧
      Expanded (callTree idx minConfidence maxDepth origin).size s truncated ∧
      ∃ cut, Arena.promise s.arena cut s.arena.length 0 = some (callTree idx minConfidence maxDepth origin) ∧
        (truncated = false → cut = fun _ => []) := by
  have start : Expanding idx minConfidence maxDepth (callTree idx minConfidence maxDepth origin).size (.start origin) := by
    refine ⟨.root _, show 1 ≤ traceNodeCap by decide, fun entry mem => ?_, ?_⟩
    · rw [List.mem_singleton.mp mem]
      exact Nat.one_pos
    · rw [callTree, Rose.size, Rose.labels, List.length_cons, Nat.add_comm]
      rfl
  have promise : Promising idx minConfidence maxDepth (callTree idx minConfidence maxDepth origin) (.start origin) := by
    refine ⟨List.nodup_singleton _, ?_⟩
    have coming : comingTrees idx minConfidence maxDepth [(0, origin, 0)] 0 = callTrees idx minConfidence maxDepth origin := by
      rw [comingTrees_cons, Function.update_self, Nat.sub_zero]
    change some (Rose.node (.root origin) ([] ++ comingTrees idx minConfidence maxDepth [(0, origin, 0)] 0)) = _
    rw [coming]
    rfl
  obtain ⟨⟨s, truncated⟩, run, expanded, cut⟩ := runLoop_of_invariant TraceState.rounds
    (fun s => Expanding idx minConfidence maxDepth (callTree idx minConfidence maxDepth origin).size s ∧
      Promising idx minConfidence maxDepth (callTree idx minConfidence maxDepth origin) s)
    (fun answer => Expanded (callTree idx minConfidence maxDepth origin).size answer.1 answer.2 ∧
      ∃ cut, Arena.promise answer.1.arena cut answer.1.arena.length 0 = some (callTree idx minConfidence maxDepth origin) ∧
        (answer.2 = false → cut = fun _ => []))
    (fun s t inv round => ⟨⟨(traceRound_next inv.1 round).1, (traceRound_promise inv.1 inv.2).1 t round⟩,
      (traceRound_next inv.1 round).2⟩)
    (fun s answer inv round => ⟨traceRound_done inv.1 round, (traceRound_promise inv.1 inv.2).2 _ _ round⟩)
    ⟨start, promise⟩ (show traceNodeCap - 1 + 1 < traceNodeCap + 1 by decide)
  exact ⟨s, truncated, run, expanded, cut⟩

/-- `trace` ends. Its arena is a tree of at most `TRACE_NODE_CAP` nodes, of which the tree it
answers has every one once. The cap cuts nodes off exactly if the whole tree of calls down to
the depth has more; then the answer is a part of that tree, and otherwise it is that tree. -/
theorem trace_tree (idx : Index) (minConfidence : RefConfidence) (commands : List CommandRow) (command : Text) (depth : Nat) :
    ∃ result, trace idx minConfidence commands command depth = some result ∧
      (resolveCommandHandler idx commands (normalizeCommandSelector command) = none → result = .empty) ∧
      ∀ origin, resolveCommandHandler idx commands (normalizeCommandSelector command) = some origin →
        ∃ s truncated root, expandTrace idx minConfidence (maxTraceDepth depth) origin = some (s, truncated) ∧
          buildTree s.arena 0 = some root ∧
          result = ⟨some root, truncated, s.arena.length, if truncated then none else some s.arena.length⟩ ∧
          (s.arena.flatMap Cell.children).Perm (List.range' 1 (s.arena.length - 1)) ∧
          (∀ i, ∀ c ∈ Arena.childrenAt s.arena i, i < c) ∧
          s.arena.length ≤ traceNodeCap ∧
          (truncated = true ↔ traceNodeCap < (callTree idx minConfidence (maxTraceDepth depth) origin).size) ∧
          (∃ order : List Nat, order.Perm (List.range s.arena.length) ∧
            root.labels.map some = order.map fun i => (s.arena[i]?).map Cell.label) ∧
          (∃ cut, Arena.promise s.arena cut s.arena.length 0 =
            some (callTree idx minConfidence (maxTraceDepth depth) origin)) ∧
          (truncated = false → root = callTree idx minConfidence (maxTraceDepth depth) origin) := by
  cases handler : resolveCommandHandler idx commands (normalizeCommandSelector command) with
  | none => exact ⟨.empty, by rw [trace, handler], fun _ => rfl, fun origin found => (by cases found)⟩
  | some origin =>
    obtain ⟨s, truncated, run, expanded, cut, promised, uncut⟩ :=
      expandTrace_spec idx minConfidence (maxTraceDepth depth) origin
    obtain ⟨root, order, built, perm, labels⟩ := expanded.grown.exists_build
    have built : buildTree s.arena 0 = some root := built
    have answer : trace idx minConfidence commands command depth =
        some ⟨some root, truncated, s.arena.length, if truncated then none else some s.arena.length⟩ := by
      unfold trace
      rw [handler]
      dsimp only
      rw [run, Option.bind_some]
      dsimp only
      rw [built, Option.map_some]
    refine ⟨_, answer, fun none => (by cases none), fun other found => ?_⟩
    obtain rfl := Option.some.inj found
    refine ⟨s, truncated, root, run, built, rfl, expanded.grown.children_perm,
      fun i c mem => (expanded.grown.children_lt i c mem).1, by rw [expanded.length_eq]; exact min_le_left _ _,
      expanded.truncated_iff, ⟨order, perm, labels⟩, ⟨cut, promised⟩, fun ended => ?_⟩
    rw [uncut ended, Arena.promise_nil] at promised
    exact Option.mem_unique built promised

end

namespace Sample

def recursive : SymbolRow := ⟨1, ['a'], ['f'], ['f'], ['f', 'n'], 0, 9⟩

def ownCall : RefRow :=
  ⟨['a'], ⟨3, 4, ['f'], none, ['c', 'a', 'l', 'l'], none, false⟩, some ['f'], some 1, .exact⟩

def loop : Index := { Index.empty with symbols := [recursive], refs := [ownCall] }

def callOfF : TraceLabel := ⟨['f'], some ['f'], some .exact⟩

/-- The recursive handler is below itself, and the call below the same call. -/
theorem recursion_repeats_ancestors : trace loop .exact [⟨['g', 'o'], some 1⟩] ['g', 'o'] 2 =
    some ⟨some (.node (.root recursive) [.node callOfF [.node callOfF []]]), false, 3, some 3⟩ := rfl

end Sample

end OrbitGraph.Query
