import Mathlib.Algebra.Group.Int.Defs
import Mathlib.Algebra.GroupWithZero.Nat
import Mathlib.Data.List.Nodup
import Mathlib.Data.List.Perm.Basic
import Mathlib.Data.List.Range
import Mathlib.Data.Option.Basic

/-!
Trees kept as a list of cells.

A cell has a label and the indices of its children. An arena grows from a root by pushing
one new child at a time below a cell that is there already. Whatever the order of the
pushes, every cell but the root is the child of one cell, and reading the tree back from
the root ends and meets every cell once.
-/

namespace Lib

universe u v

/-- Trees with any number of children. -/
inductive Rose (α : Type u) where
  | node (label : α) (children : List (Rose α))

namespace Rose

variable {α : Type u} {β : Type v}

mutual

def labels : Rose α → List α
  | node a ts => a :: labelsAll ts

def labelsAll : List (Rose α) → List α
  | [] => []
  | t :: ts => labels t ++ labelsAll ts

end

/-- The number of nodes. -/
def size (t : Rose α) : Nat := t.labels.length

mutual

def map (f : α → β) : Rose α → Rose β
  | node a ts => node (f a) (mapAll f ts)

def mapAll (f : α → β) : List (Rose α) → List (Rose β)
  | [] => []
  | t :: ts => map f t :: mapAll f ts

end

theorem mapAll_eq (f : α → β) (ts : List (Rose α)) : mapAll f ts = ts.map (map f) := by
  induction ts with
  | nil => rfl
  | cons t ts ih => rw [mapAll, ih, List.map_cons]

mutual

theorem labels_map (f : α → β) : ∀ t : Rose α, (t.map f).labels = t.labels.map f
  | node a ts => by rw [map, labels, labels, List.map_cons, labelsAll_mapAll f ts]

theorem labelsAll_mapAll (f : α → β) : ∀ ts : List (Rose α), labelsAll (mapAll f ts) = (labelsAll ts).map f
  | [] => rfl
  | t :: ts => by rw [mapAll, labelsAll, labelsAll, List.map_append, labels_map f t, labelsAll_mapAll f ts]

end

theorem labelsAll_append (ts us : List (Rose α)) : labelsAll (ts ++ us) = labelsAll ts ++ labelsAll us := by
  induction ts with
  | nil => rfl
  | cons t ts ih => rw [List.cons_append, labelsAll, labelsAll, ih, List.append_assoc]

theorem length_labelsAll (ts : List (Rose α)) : (labelsAll ts).length = (ts.map size).sum := by
  induction ts with
  | nil => rfl
  | cons t ts ih => rw [labelsAll, List.length_append, ih, List.map_cons, List.sum_cons, size]

section

variable [DecidableEq α]

mutual

/-- Below every node labelled `p` a last child labelled `q`. -/
def graft (p q : α) : Rose α → Rose α
  | node a ts => node a (if a = p then graftAll p q ts ++ [node q []] else graftAll p q ts)

def graftAll (p q : α) : List (Rose α) → List (Rose α)
  | [] => []
  | t :: ts => graft p q t :: graftAll p q ts

end

theorem graftAll_eq (p q : α) (ts : List (Rose α)) : graftAll p q ts = ts.map (graft p q) := by
  induction ts with
  | nil => rfl
  | cons t ts ih => rw [graftAll, ih, List.map_cons]

mutual

theorem labels_graft (p q : α) : ∀ t : Rose α,
    (t.graft p q).labels.Perm (t.labels ++ List.replicate (t.labels.count p) q)
  | node a ts => by
    have rest := labelsAll_graftAll p q ts
    rw [graft, labels, labels]
    by_cases here : a = p
    · have last : labelsAll [node q []] = [q] := rfl
      rw [if_pos here, labelsAll_append, last, here, List.count_cons_self, List.replicate_succ', ← List.append_assoc,
        List.cons_append]
      exact (rest.append_right [q]).cons p
    · rw [if_neg here, List.count_cons_of_ne here]
      exact rest.cons a

theorem labelsAll_graftAll (p q : α) : ∀ ts : List (Rose α),
    (labelsAll (graftAll p q ts)).Perm (labelsAll ts ++ List.replicate ((labelsAll ts).count p) q)
  | [] => .refl _
  | t :: ts => by
    have first := labels_graft p q t
    have rest := labelsAll_graftAll p q ts
    rw [graftAll, labelsAll, labelsAll, List.count_append, List.replicate_add]
    refine (first.append rest).trans ?_
    rw [List.append_assoc, List.append_assoc, ← List.append_assoc (List.replicate _ q),
      ← List.append_assoc (labelsAll ts)]
    exact (List.perm_append_comm.append_right _).append_left _

end

end

end Rose

/-- A node by its place in an arena. -/
structure Cell (α : Type u) where
  label : α
  children : List Nat

namespace Arena

variable {α : Type u}

/-- Enter a leaf as the last child of a cell. -/
def push (cells : List (Cell α)) (parent : Nat) (label : α) : List (Cell α) :=
  (cells ++ [Cell.mk label []]).modify parent fun cell => { cell with children := cell.children ++ [cells.length] }

/-- Read the tree below a cell, with at most so many generations; without an end there is none. -/
def build (cells : List (Cell α)) : Nat → Nat → Option (Rose α)
  | 0, _ => none
  | fuel + 1, i =>
    match cells[i]? with
    | none => none
    | some cell => (cell.children.mapM (build cells fuel)).map (Rose.node cell.label)

/-- The tree below a cell when each cell gets further children after those it has. -/
def promise (cells : List (Cell α)) (further : Nat → List (Rose α)) : Nat → Nat → Option (Rose α)
  | 0, _ => none
  | fuel + 1, i =>
    match cells[i]? with
    | none => none
    | some cell => (cell.children.mapM (promise cells further fuel)).map fun ts => .node cell.label (ts ++ further i)

/-- An arena as pushes make it. -/
inductive Grown : List (Cell α) → Prop where
  | root (label : α) : Grown [⟨label, []⟩]
  | leaf {cells : List (Cell α)} {parent : Nat} (label : α) :
      Grown cells → parent < cells.length → Grown (push cells parent label)

def childrenAt (cells : List (Cell α)) (i : Nat) : List Nat := ((cells[i]?).map Cell.children).getD []

def indexTree (children : Nat → List Nat) : Nat → Nat → Rose Nat
  | 0, i => .node i []
  | fuel + 1, i => .node i ((children i).map (indexTree children fuel))

variable {cells : List (Cell α)} {parent i c : Nat} {label : α}

@[simp]
theorem length_push : (push cells parent label).length = cells.length + 1 := by
  rw [push, List.length_modify, List.length_append, List.length_singleton]

theorem mapM_congr {β : Type v} {f g : Nat → Option β} {js : List Nat} (same : ∀ j ∈ js, f j = g j) :
    js.mapM f = js.mapM g := by
  induction js with
  | nil => rfl
  | cons j js ih =>
    rw [List.mapM_cons, List.mapM_cons, same j List.mem_cons_self, ih fun k mem => same k (List.mem_cons_of_mem _ mem)]

theorem promise_nil (cells : List (Cell α)) : ∀ fuel i, promise cells (fun _ => []) fuel i = build cells fuel i
  | 0, _ => rfl
  | fuel + 1, i => by
    rw [promise, build]
    cases cells[i]? with
    | none => rfl
    | some cell =>
      dsimp only
      rw [mapM_congr fun j _ => promise_nil cells fuel j]
      simp only [List.append_nil]

theorem getElem?_push (inside : parent < cells.length) (i : Nat) :
    (push cells parent label)[i]? =
      if i = parent then (cells[i]?).map fun cell => { cell with children := cell.children ++ [cells.length] }
      else if i = cells.length then some ⟨label, []⟩ else cells[i]? := by
  unfold push
  by_cases here : i = parent
  · subst here
    rw [if_pos rfl, List.getElem?_modify_eq, List.getElem?_append_left inside]
    rfl
  · rw [if_neg here, List.getElem?_modify_ne _ _ (Ne.symm here)]
    rcases lt_trichotomy i cells.length with before | rfl | after
    · rw [List.getElem?_append_left before, if_neg before.ne]
    · simp
    · rw [List.getElem?_eq_none (by simp; omega), List.getElem?_eq_none (by omega), if_neg (by omega)]

theorem childrenAt_push (inside : parent < cells.length) (i : Nat) :
    childrenAt (push cells parent label) i =
      if i = parent then childrenAt cells i ++ [cells.length] else childrenAt cells i := by
  unfold childrenAt
  rw [getElem?_push inside]
  by_cases here : i = parent
  · subst here
    rw [if_pos rfl, if_pos rfl, List.getElem?_eq_getElem inside]
    rfl
  · rw [if_neg here, if_neg here]
    by_cases last : i = cells.length
    · rw [if_pos last, List.getElem?_eq_none last.ge]
      rfl
    · rw [if_neg last]

namespace Grown

theorem length_pos (grown : Grown cells) : 0 < cells.length := by
  cases grown with
  | root => exact Nat.one_pos
  | leaf => rw [length_push]; omega

theorem children_lt (grown : Grown cells) : ∀ i, ∀ c ∈ childrenAt cells i, i < c ∧ c < cells.length := by
  induction grown with
  | root label =>
    intro i c mem
    cases i with
    | zero => cases mem
    | succ i => cases mem
  | @leaf cells parent label grown inside ih =>
    intro i c mem
    rw [childrenAt_push inside] at mem
    rw [length_push]
    split_ifs at mem with here
    · rcases List.mem_append.mp mem with before | last
      · have := ih i c before
        omega
      · have := List.mem_singleton.mp last
        omega
    · have := ih i c mem
      omega

theorem childrenAt_length (grown : Grown cells) : childrenAt cells cells.length = [] := by
  rw [List.eq_nil_iff_forall_not_mem]
  intro c mem
  have := grown.children_lt _ c mem
  omega

theorem indexTree_push (grown : Grown cells) (inside : parent < cells.length) :
    ∀ fuel i, i < cells.length → cells.length - i ≤ fuel →
      indexTree (childrenAt (push cells parent label)) (fuel + 1) i =
        (indexTree (childrenAt cells) fuel i).graft parent cells.length
  | 0, i, low, enough => by omega
  | fuel + 1, i, low, enough => by
    have below : (childrenAt cells i).map (indexTree (childrenAt (push cells parent label)) (fuel + 1)) =
        Rose.graftAll parent cells.length ((childrenAt cells i).map (indexTree (childrenAt cells) fuel)) := by
      rw [Rose.graftAll_eq, List.map_map]
      refine List.map_congr_left fun c mem => ?_
      have := grown.children_lt i c mem
      exact indexTree_push grown inside fuel c (by omega) (by omega)
    have leaf : indexTree (childrenAt (push cells parent label)) (fuel + 1) cells.length = .node cells.length [] := by
      rw [indexTree, childrenAt_push inside, if_neg (by omega), grown.childrenAt_length, List.map_nil]
    rw [indexTree, childrenAt_push inside, indexTree, Rose.graft]
    split_ifs with here
    · rw [List.map_append, below, List.map_singleton, leaf]
    · rw [below]

theorem promise_push (grown : Grown cells) (inside : parent < cells.length) {further : Nat → List (Rose α)}
    {below rest : List (Rose α)} (first : further parent = .node label below :: rest) :
    ∀ fuel i, i < cells.length → cells.length - i ≤ fuel →
      promise (push cells parent label) (Function.update (Function.update further parent rest) cells.length below)
        (fuel + 1) i = promise cells further fuel i
  | 0, i, low, enough => by omega
  | fuel + 1, i, low, enough => by
    have here := List.getElem?_eq_getElem low
    have same : ∀ c ∈ cells[i].children,
        promise (push cells parent label) (Function.update (Function.update further parent rest) cells.length below)
          (fuel + 1) c = promise cells further fuel c := by
      intro c mem
      have later := grown.children_lt i c (by rw [childrenAt, here]; exact mem)
      exact grown.promise_push inside first fuel c (by omega) (by omega)
    have leaf : promise (push cells parent label)
        (Function.update (Function.update further parent rest) cells.length below) (fuel + 1) cells.length =
          some (.node label below) := by
      rw [promise, getElem?_push inside, if_neg (by omega), if_pos rfl]
      dsimp only
      rw [Function.update_self]
      rfl
    rw [promise, promise, getElem?_push inside, here]
    by_cases at_parent : i = parent
    · subst at_parent
      rw [if_pos rfl]
      dsimp only [Option.map_some]
      rw [List.mapM_append, mapM_congr same, List.mapM_cons, leaf, Function.update_of_ne (by omega),
        Function.update_self, first]
      cases cells[i].children.mapM (promise cells further fuel) with
      | none => rfl
      | some ts => exact congrArg (fun us => some (Rose.node _ us)) (List.append_assoc ts _ rest)
    · rw [if_neg at_parent, if_neg (by omega)]
      dsimp only
      rw [mapM_congr same, Function.update_of_ne (by omega), Function.update_of_ne at_parent]

theorem indexTree_labels (grown : Grown cells) :
    ∀ fuel, cells.length ≤ fuel → (indexTree (childrenAt cells) fuel 0).labels.Perm (List.range cells.length) := by
  induction grown with
  | root label =>
    intro fuel enough
    cases fuel with
    | zero => exact absurd enough (by simp)
    | succ fuel => exact .refl _
  | @leaf cells parent label grown inside ih =>
    intro fuel enough
    rw [length_push] at enough
    obtain ⟨fuel, rfl⟩ : ∃ less, fuel = less + 1 := ⟨fuel - 1, by omega⟩
    have before := ih fuel (by omega)
    have once : (indexTree (childrenAt cells) fuel 0).labels.count parent = 1 := by
      rw [before.count_eq, List.count_eq_one_of_mem List.nodup_range (List.mem_range.mpr inside)]
    rw [grown.indexTree_push inside fuel 0 grown.length_pos (by omega), length_push, List.range_succ]
    refine (Rose.labels_graft _ _ _).trans ?_
    rw [once]
    exact before.append_right _

theorem build_eq (grown : Grown cells) (lab : Nat → α) (labels : ∀ i cell, cells[i]? = some cell → lab i = cell.label) :
    ∀ fuel i, i < cells.length → cells.length - i ≤ fuel →
      build cells fuel i = some ((indexTree (childrenAt cells) fuel i).map lab)
  | 0, i, low, enough => by omega
  | fuel + 1, i, low, enough => by
    have here := List.getElem?_eq_getElem low
    have children : childrenAt cells i = cells[i].children := by
      rw [childrenAt, here]
      rfl
    have below : ∀ js : List Nat, (∀ j ∈ js, j ∈ childrenAt cells i) → js.mapM (build cells fuel) =
        some ((js.map (indexTree (childrenAt cells) fuel)).map (Rose.map lab)) := by
      intro js all
      induction js with
      | nil => rfl
      | cons j js ih =>
        have later := grown.children_lt i j (all j List.mem_cons_self)
        rw [List.mapM_cons, build_eq grown lab labels fuel j (by omega) (by omega),
          ih fun k mem => all k (List.mem_cons_of_mem _ mem)]
        rfl
    rw [build, here]
    dsimp only
    rw [← children, below _ fun _ mem => mem, indexTree, Rose.map, Rose.mapAll_eq, labels i _ here]
    rfl

/-- The tree that is read back from the root has every cell once. -/
theorem exists_build (grown : Grown cells) :
    ∃ (t : Rose α) (order : List Nat), build cells cells.length 0 = some t ∧ order.Perm (List.range cells.length) ∧
      t.labels.map some = order.map fun i => (cells[i]?).map Cell.label := by
  have pos := grown.length_pos
  let lab : Nat → α := fun i => ((cells[i]?).map Cell.label).getD cells[0].label
  have labels : ∀ i cell, cells[i]? = some cell → lab i = cell.label := by
    intro i cell here
    simp only [lab, here, Option.map_some, Option.getD_some]
  have order := grown.indexTree_labels cells.length le_rfl
  refine ⟨_, _, grown.build_eq lab labels cells.length 0 pos (by omega), order, ?_⟩
  rw [Rose.labels_map, List.map_map]
  refine List.map_congr_left fun i mem => ?_
  have low := List.mem_range.mp (order.mem_iff.mp mem)
  have here := List.getElem?_eq_getElem low
  rw [Function.comp_apply, labels i _ here, here]
  rfl

theorem children_perm (grown : Grown cells) : (cells.flatMap Cell.children).Perm (List.range' 1 (cells.length - 1)) := by
  have added : ∀ (cells : List (Cell α)) (i c : Nat), i < cells.length →
      ((cells.modify i fun cell => { cell with children := cell.children ++ [c] }).flatMap Cell.children).Perm
        (cells.flatMap Cell.children ++ [c]) := by
    intro cells
    induction cells with
    | nil => exact fun i c low => absurd low (by simp)
    | cons cell rest ih =>
      intro i c low
      cases i with
      | zero =>
        rw [List.modify_zero_cons, List.flatMap_cons, List.flatMap_cons, List.append_assoc, List.append_assoc]
        exact List.perm_append_comm.append_left _
      | succ i =>
        rw [List.modify_succ_cons, List.flatMap_cons, List.flatMap_cons, List.append_assoc]
        exact (ih i c (by simpa using low)).append_left _
  induction grown with
  | root label => exact .refl _
  | @leaf cells parent label grown inside ih =>
    have pos := grown.length_pos
    have leaf : (cells ++ [Cell.mk label []]).flatMap Cell.children = cells.flatMap Cell.children := by
      rw [List.flatMap_append]
      simp
    have last : List.range' 1 (cells.length + 1 - 1) = List.range' 1 (cells.length - 1) ++ [cells.length] := by
      rw [show cells.length + 1 - 1 = cells.length - 1 + 1 by omega, List.range'_concat]
      simp
      omega
    rw [length_push, last, push]
    refine (added _ parent cells.length (by simp; omega)).trans ?_
    rw [leaf]
    exact ih.append_right _

end Grown

end Arena

end Lib
