import Mathlib.Data.List.Count
import Mathlib.Data.List.Induction
import Mathlib.Data.List.Sort

/-!
The first elements in an order, and the greatest of a list.

The first so many elements of a sorted list are those that fewer come before, and the very
first is the least. A running best, with a rule for ties, ends with the element that is best
of all.
-/

namespace Lib

universe u v

variable {α : Type u}

variable {before : α → α → Prop} {xs : List α} {n : Nat}

/-- What stands among the first elements of a list in a strict order. -/
theorem mem_take_iff [DecidableRel before] (asymm : ∀ a b, before a b → ¬ before b a)
    (sorted : xs.Pairwise before) {x : α} :
    x ∈ xs.take n ↔ x ∈ xs ∧ xs.countP (fun y => decide (before y x)) < n := by
  have place : ∀ first rest, xs = first ++ x :: rest →
      xs.countP (fun y => decide (before y x)) = first.length ∧ x ∉ first := by
    rintro first rest rfl
    obtain ⟨-, later, across⟩ := List.pairwise_append.mp sorted
    have earlier : ∀ y ∈ first, before y x := fun y mem => across y mem x List.mem_cons_self
    have irrefl : ¬ before x x := fun self => asymm x x self self
    have none : rest.countP (fun y => decide (before y x)) = 0 := by
      rw [List.countP_eq_zero]
      intro y mem
      rw [decide_eq_true_eq]
      exact asymm x y ((List.pairwise_cons.mp later).1 y mem)
    have all : first.countP (fun y => decide (before y x)) = first.length := by
      rw [List.countP_eq_length]
      exact fun y mem => decide_eq_true (earlier y mem)
    rw [List.countP_append, List.countP_cons_of_neg (by simpa using irrefl), none, all]
    exact ⟨rfl, fun mem => irrefl (earlier x mem)⟩
  constructor
  · intro taken
    have mem := List.mem_of_mem_take taken
    obtain ⟨first, rest, split⟩ := List.append_of_mem mem
    obtain ⟨count, absent⟩ := place first rest split
    refine ⟨mem, ?_⟩
    rw [count]
    by_contra many
    rw [split, List.take_append_of_le_length (Nat.not_lt.mp many)] at taken
    exact absent (List.mem_of_mem_take taken)
  · rintro ⟨mem, few⟩
    obtain ⟨first, rest, split⟩ := List.append_of_mem mem
    obtain ⟨count, -⟩ := place first rest split
    rw [count] at few
    rw [split, List.take_append]
    refine List.mem_append_right _ ?_
    obtain ⟨k, hk⟩ := Nat.exists_eq_add_of_lt few
    rw [hk, show first.length + k + 1 - first.length = k + 1 by omega, List.take_succ_cons]
    exact List.mem_cons_self

theorem mem_drop_iff [DecidableRel before] (asymm : ∀ a b, before a b → ¬ before b a)
    (sorted : xs.Pairwise before) {x : α} :
    x ∈ xs.drop n ↔ x ∈ xs ∧ n ≤ xs.countP (fun y => decide (before y x)) := by
  have irrefl : ∀ a, ¬ before a a := fun a self => asymm a a self self
  have distinct : xs.Nodup := by
    apply sorted.imp
    rintro a _ earlier rfl
    exact irrefl a earlier
  rw [← Nat.not_lt]
  constructor
  · intro behind
    have mem := List.mem_of_mem_drop behind
    refine ⟨mem, fun few => ?_⟩
    exact List.disjoint_take_drop distinct le_rfl ((mem_take_iff asymm sorted).mpr ⟨mem, few⟩) behind
  · rintro ⟨mem, many⟩
    rw [← List.take_append_drop n xs, List.mem_append] at mem
    rcases mem with taken | behind
    · exact absurd ((mem_take_iff asymm sorted).mp taken).2 many
    · exact behind

section Sorted

variable {le : α → α → Prop} [DecidableRel le] {xs : List α} {x : α}

variable (le) in
theorem exists_head?_insertionSort (mem : x ∈ xs) : ∃ first, (xs.insertionSort le).head? = some first := by
  rw [← Option.isSome_iff_exists, List.isSome_head?]
  exact List.ne_nil_of_mem ((List.perm_insertionSort _ _).mem_iff.mpr mem)

variable [Std.Total le] [IsTrans α le]

theorem head?_insertionSort (found : (xs.insertionSort le).head? = some x) : x ∈ xs ∧ ∀ y ∈ xs, le x y := by
  have sorted := List.pairwise_insertionSort le xs
  have perm := List.perm_insertionSort le xs
  cases inOrder : xs.insertionSort le with
  | nil =>
    rw [inOrder] at found
    cases found
  | cons first rest =>
    rw [inOrder] at found sorted perm
    obtain rfl := Option.some.inj found
    refine ⟨perm.mem_iff.mp List.mem_cons_self, fun y mem => ?_⟩
    rcases List.mem_cons.mp (perm.mem_iff.mpr mem) with rfl | later
    · exact (Std.Total.total y y).elim id id
    · exact List.rel_of_pairwise_cons sorted later

theorem head?_insertionSort_eq_some_iff (antisymm : ∀ y ∈ xs, ∀ z ∈ xs, le y z → le z y → y = z) :
    (xs.insertionSort le).head? = some x ↔ x ∈ xs ∧ ∀ y ∈ xs, le x y := by
  constructor
  · exact head?_insertionSort
  · rintro ⟨mem, least⟩
    obtain ⟨first, found⟩ := exists_head?_insertionSort le mem
    obtain ⟨firstMem, before⟩ := head?_insertionSort found
    rw [found, antisymm first firstMem x mem (before x mem) (least first firstMem)]

end Sorted

/-- Keep the better of two; the first that is seen stays unless another is better. -/
def keepBetter (better : α → α → Prop) [DecidableRel better] : Option α → α → Option α
  | none, x => some x
  | some current, x => if better x current then some x else some current

/-- A running best is in the list, and nothing in the list is better. -/
theorem foldl_keepBetter {better : α → α → Prop} [DecidableRel better]
    (negTrans : ∀ x y z, ¬ better x y → ¬ better y z → ¬ better x z) (asymm : ∀ x y, better x y → ¬ better y x)
    (xs : List α) : (xs = [] ∧ xs.foldl (keepBetter better) none = none) ∨
      ∃ w ∈ xs, xs.foldl (keepBetter better) none = some w ∧ ∀ x ∈ xs, ¬ better x w := by
  have irrefl : ∀ x, ¬ better x x := fun x self => asymm x x self self
  induction xs using List.reverseRecOn with
  | nil => exact .inl ⟨rfl, rfl⟩
  | append_singleton xs x ih =>
    refine .inr ?_
    rw [List.foldl_append]
    rcases ih with ⟨rfl, none⟩ | ⟨w, mem, best, least⟩
    · refine ⟨x, List.mem_singleton_self x, rfl, fun y mem => ?_⟩
      rw [List.mem_singleton.mp mem]
      exact irrefl x
    · rw [best, List.foldl_cons, List.foldl_nil, keepBetter]
      by_cases improves : better x w
      · rw [if_pos improves]
        refine ⟨x, List.mem_append_right _ (List.mem_singleton_self x), rfl, fun y member => ?_⟩
        rcases List.mem_append.mp member with earlier | last
        · exact negTrans y w x (least y earlier) (asymm x w improves)
        · rw [List.mem_singleton.mp last]
          exact irrefl x
      · rw [if_neg improves]
        refine ⟨w, List.mem_append_left _ mem, rfl, fun y member => ?_⟩
        rcases List.mem_append.mp member with earlier | last
        · exact least y earlier
        · rw [List.mem_singleton.mp last]
          exact improves

/-- The best of a list of images is the image of the best. -/
theorem foldl_keepBetter_map {β : Type u} (g : β → α) (better : α → α → Prop) [DecidableRel better] (xs : List β) :
    (xs.map g).foldl (keepBetter better) none = (xs.foldl (keepBetter fun x y => better (g x) (g y)) none).map g := by
  induction xs using List.reverseRecOn with
  | nil => rfl
  | append_singleton xs x ih =>
    rw [List.map_append, List.map_singleton, List.foldl_append, List.foldl_append, ih]
    simp only [List.foldl_cons, List.foldl_nil]
    cases xs.foldl (keepBetter fun x y => better (g x) (g y)) none with
    | none => rfl
    | some current =>
      rw [Option.map_some, keepBetter, keepBetter]
      split_ifs <;> rfl

/-- The best of a list in some order is the one that is better than all others, or first among those that are level. -/
theorem foldl_keepBetter_eq_some_iff {better before : α → α → Prop} [DecidableRel better]
    (negTrans : ∀ x y z, ¬ better x y → ¬ better y z → ¬ better x z) (asymm : ∀ x y, better x y → ¬ better y x)
    (ordered : ∀ x y, before x y → ¬ before y x) {xs : List α} (sorted : xs.Pairwise before) {x : α} :
    xs.foldl (keepBetter better) none = some x ↔
      x ∈ xs ∧ ∀ y ∈ xs, y = x ∨ better x y ∨ ¬ better y x ∧ before x y := by
  induction xs using List.reverseRecOn generalizing x with
  | nil =>
    constructor
    · intro found
      cases found
    · rintro ⟨mem, -⟩
      cases mem
  | append_singleton xs last ih =>
    obtain ⟨sorted, -, across⟩ := List.pairwise_append.mp sorted
    have ahead : ∀ y ∈ xs, before y last := fun y mem => across y mem last (List.mem_singleton_self last)
    rw [List.foldl_append, List.foldl_cons, List.foldl_nil]
    cases best : xs.foldl (keepBetter better) none with
    | none =>
      have empty : xs = [] := by
        rcases foldl_keepBetter negTrans asymm xs with ⟨empty, -⟩ | ⟨w, -, found, -⟩
        · exact empty
        · cases best.symm.trans found
      subst empty
      constructor
      · rintro ⟨rfl⟩
        exact ⟨List.mem_singleton_self _, fun y mem => .inl (List.mem_singleton.mp mem)⟩
      · rintro ⟨mem, -⟩
        rw [List.mem_singleton.mp mem]
        rfl
    | some current =>
      obtain ⟨inside, others⟩ := (ih sorted).mp best
      have least : ∀ y ∈ xs, ¬ better y current := by
        intro y mem improves
        rcases others y mem with rfl | worse | ⟨level, -⟩
        · exact asymm y y improves improves
        · exact asymm current y worse improves
        · exact level improves
      rw [keepBetter]
      split_ifs with improves
      · constructor
        · rintro ⟨rfl⟩
          refine ⟨List.mem_append_right _ (List.mem_singleton_self _), fun y mem => ?_⟩
          rcases List.mem_append.mp mem with earlier | same
          · right
            left
            by_contra level
            exact negTrans _ y _ level (least y earlier) improves
          · exact .inl (List.mem_singleton.mp same)
        · rintro ⟨mem, best'⟩
          rcases List.mem_append.mp mem with earlier | same
          · rcases best' last (List.mem_append_right _ (List.mem_singleton_self _)) with rfl | worse | ⟨level, -⟩
            · rfl
            · exact absurd improves (negTrans _ x _ (asymm _ _ worse) (least x earlier))
            · exact absurd improves (negTrans _ x _ level (least x earlier))
          · rw [List.mem_singleton.mp same]
      · constructor
        · rintro ⟨rfl⟩
          refine ⟨List.mem_append_left _ inside, fun y mem => ?_⟩
          rcases List.mem_append.mp mem with earlier | same
          · exact others y earlier
          · rw [List.mem_singleton.mp same]
            exact .inr (.inr ⟨improves, ahead _ inside⟩)
        · rintro ⟨mem, best'⟩
          rcases List.mem_append.mp mem with earlier | same
          · rw [← best]
            exact (ih sorted).mpr ⟨earlier, fun y within => best' y (List.mem_append_left _ within)⟩
          · rw [List.mem_singleton.mp same] at best' ⊢
            rcases best' current (List.mem_append_left _ inside) with rfl | worse | ⟨-, later⟩
            · rfl
            · exact absurd worse improves
            · exact absurd later (ordered _ _ (ahead _ inside))

theorem foldl_update {κ : Type v} [DecidableEq κ] {β : Type u} (key : α → κ) (g : β → α → β) (xs : List α) (f : κ → β)
    (k : κ) : xs.foldl (fun f x => Function.update f (key x) (g (f (key x)) x)) f k =
      (xs.filter fun x => decide (key x = k)).foldl g (f k) := by
  induction xs generalizing f with
  | nil => rfl
  | cons x rest ih =>
    rw [List.foldl_cons, ih]
    by_cases here : key x = k
    · rw [List.filter_cons_of_pos (by simpa using here), List.foldl_cons, ← here, Function.update_self]
    · rw [List.filter_cons_of_neg (by simpa using here), Function.update_of_ne (Ne.symm here)]

end Lib
