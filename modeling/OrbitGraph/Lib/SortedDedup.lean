import Mathlib.Data.List.Destutter
import Mathlib.Data.List.Sort

/-!
A list sorted by a comparison and rid of neighbors that are the same by a test.

The sort is stable, and of neighbors that are the same the first stays. This removes exactly the duplicates of a list,
whatever its order, just if no two different elements of it compare as equal.
-/

namespace Lib

variable {α : Type*} (cmp : α → α → Ordering) (same : α → α → Bool)

/-- `sort_by` and `dedup_by`. -/
def sortedDedup (xs : List α) : List α :=
  (xs.insertionSort fun a b => (cmp a b).isLE = true).destutter fun kept next => same next kept = false

/-- What is removed are exactly the duplicates: no two results are the same, every element is there, and the order does
not matter. -/
structure RemovesDuplicates (dedup : List α → List α) (same : α → α → Bool) (xs : List α) : Prop where
  apart : (dedup xs).Pairwise fun a b => same b a = false
  kept : ∀ x ∈ xs, x ∈ dedup xs
  unordered : ∀ ys, ys.Perm xs → dedup ys = dedup xs

/-- Different elements do not compare as equal. -/
def Distinguishes (xs : List α) : Prop := ∀ x ∈ xs, ∀ y ∈ xs, cmp x y = .eq → x = y

/-- Elements that are the same compare as equal, and every element is the same as itself. -/
structure Refines : Prop where
  refl : ∀ a, same a a = true
  equal : ∀ a b, same a b = true → cmp a b = .eq

section Sorted

variable {cmp same} [Std.TransCmp cmp] (refines : Refines cmp same)

/-- The first element of its class is still the first in the sorted list. -/
theorem find?_insertionSort (x : α) (xs : List α) :
    ((x :: xs).insertionSort fun a b => (cmp a b).isLE = true).find? (fun z => cmp x z == .eq) = some x := by
  rw [List.insertionSort_cons]
  induction xs.insertionSort fun a b => (cmp a b).isLE = true with
  | nil => simp [Std.ReflCmp.compare_self]
  | cons b sorted ih =>
    rw [List.orderedInsert]
    split_ifs with below
    · simp [Std.ReflCmp.compare_self]
    · have other : (cmp x b == .eq) = false := by
        cases order : cmp x b with
        | eq => exact absurd (by rw [order]; rfl) below
        | lt => rfl
        | gt => rfl
      rw [List.find?_cons_of_neg (by rw [other]; exact Bool.false_ne_true), ih]

/-- What is found is not removed, where elements that are the same are found alike. -/
theorem find?_destutter {p : α → Bool} (alike : ∀ a b, same a b = true → p a = p b) (xs : List α) :
    (xs.destutter fun kept next => same next kept = false).find? p = xs.find? p := by
  cases xs with
  | nil => rfl
  | cons a xs =>
    rw [List.destutter_cons']
    induction xs generalizing a with
    | nil => rfl
    | cons b xs ih =>
      rw [List.destutter'_cons]
      split_ifs with other
      · rw [List.find?_cons, ih b]
        rfl
      · rw [ih a, List.find?_cons, List.find?_cons, List.find?_cons, alike b a (Bool.eq_true_of_not_eq_false other)]
        cases p a <;> rfl

local instance total_isLE : Std.Total fun a b => (cmp a b).isLE = true :=
  ⟨fun a b => by
    rw [@Std.OrientedCmp.eq_swap _ cmp _ b, Ordering.isLE_swap]
    cases cmp a b <;> simp⟩

local instance isTrans_isLE : IsTrans α fun a b => (cmp a b).isLE = true := ⟨fun _ _ _ => Std.TransCmp.isLE_trans⟩

/-- Where different elements do not compare as equal, the order of the list does not matter. -/
theorem insertionSort_of_perm {xs ys : List α} (distinct : Distinguishes cmp xs) (perm : ys.Perm xs) :
    ys.insertionSort (fun a b => (cmp a b).isLE = true) = xs.insertionSort fun a b => (cmp a b).isLE = true := by
  refine List.Perm.eq_of_pairwise (fun a b ha hb before after => ?_) (List.pairwise_insertionSort _ ys)
    (List.pairwise_insertionSort _ xs)
    ((List.perm_insertionSort _ ys).trans (perm.trans (List.perm_insertionSort _ xs).symm))
  exact distinct a (perm.mem_iff.mp ((List.mem_insertionSort _).mp ha)) b ((List.mem_insertionSort _).mp hb)
    (Std.OrientedCmp.isLE_antisymm before after)

include refines

/-- The first element of its class is kept as the first. -/
theorem find?_sortedDedup (x : α) (xs : List α) :
    (sortedDedup cmp same (x :: xs)).find? (fun z => cmp x z == .eq) = some x := by
  rw [sortedDedup, find?_destutter, find?_insertionSort]
  intro a b alike
  rw [Std.TransCmp.congr_right (refines.equal a b alike)]

variable {xs : List α}

/-- Neighbors of a sorted list without different elements that compare as equal. -/
theorem destutter'_ascends {a : α} (sorted : (a :: xs).Pairwise fun a b => (cmp a b).isLE = true)
    (distinct : Distinguishes cmp (a :: xs)) :
    (xs.destutter' (fun kept next => same next kept = false) a).Pairwise (fun a b => cmp a b = .lt) ∧
      ∀ x ∈ a :: xs, x ∈ xs.destutter' (fun kept next => same next kept = false) a := by
  induction xs generalizing a with
  | nil => exact ⟨List.pairwise_singleton _ _, fun x mem => mem⟩
  | cons b xs ih =>
    obtain ⟨least, sortedTail⟩ := List.pairwise_cons.mp sorted
    rw [List.destutter'_cons]
    split_ifs with other
    · obtain ⟨ascends, kept⟩ := ih sortedTail fun x hx y hy => distinct x (List.mem_cons_of_mem _ hx) y (List.mem_cons_of_mem _ hy)
      have below : cmp a b = .lt := by
        cases order : cmp a b with
        | lt => rfl
        | eq =>
          obtain rfl := distinct a List.mem_cons_self b (List.mem_cons_of_mem _ List.mem_cons_self) order
          exact absurd (refines.refl a) (by rw [other]; exact Bool.false_ne_true)
        | gt => exact absurd (least b List.mem_cons_self) (by rw [order]; exact Bool.false_ne_true)
      refine ⟨List.pairwise_cons.mpr ⟨fun z mem => ?_, ascends⟩, fun x mem => ?_⟩
      · rcases List.mem_cons.mp ((List.destutter'_sublist _ _ b).subset mem) with rfl | later
        · exact below
        · exact Std.TransCmp.lt_of_lt_of_isLE below ((List.pairwise_cons.mp sortedTail).1 z later)
      · rcases List.mem_cons.mp mem with rfl | later
        · exact List.mem_cons_self
        · exact List.mem_cons_of_mem _ (kept x later)
    · have alike := refines.equal b a (Bool.eq_true_of_not_eq_false other)
      obtain rfl := distinct b (List.mem_cons_of_mem _ List.mem_cons_self) a List.mem_cons_self alike
      obtain ⟨ascends, kept⟩ := ih sortedTail fun x hx y hy => distinct x (List.mem_cons_of_mem _ hx) y (List.mem_cons_of_mem _ hy)
      refine ⟨ascends, fun x mem => kept x ?_⟩
      rcases List.mem_cons.mp mem with rfl | later
      · exact List.mem_cons_self
      · exact later

/-- What is left is in strict order, and nothing is lost. -/
theorem sortedDedup_ascends (distinct : Distinguishes cmp xs) :
    (sortedDedup cmp same xs).Pairwise (fun a b => cmp a b = .lt) ∧ ∀ x ∈ xs, x ∈ sortedDedup cmp same xs := by
  have sorted := List.pairwise_insertionSort (fun a b => (cmp a b).isLE = true) xs
  have members : ∀ x, x ∈ xs.insertionSort (fun a b => (cmp a b).isLE = true) ↔ x ∈ xs :=
    fun x => List.mem_insertionSort _
  unfold sortedDedup
  simp only [← members]
  cases shape : xs.insertionSort fun a b => (cmp a b).isLE = true with
  | nil => exact ⟨List.Pairwise.nil, fun x mem => mem⟩
  | cons a rest =>
    rw [shape] at sorted members
    exact destutter'_ascends refines sorted fun x hx y hy => distinct x ((members x).mp hx) y ((members y).mp hy)

theorem apart_of_lt {a b : α} (below : cmp a b = .lt) : same b a = false := by
  rw [Bool.eq_false_iff]
  intro alike
  rw [Std.OrientedCmp.eq_comm.mp (refines.equal b a alike)] at below
  cases below

/-- What is in strict order stays as it is. -/
theorem sortedDedup_of_ascends (ascends : xs.Pairwise fun a b => cmp a b = .lt) :
    sortedDedup cmp same xs = xs := by
  have sorted : xs.Pairwise fun a b => (cmp a b).isLE = true := ascends.imp fun below => by rw [below]; rfl
  have apart : xs.Pairwise fun a b => same b a = false := ascends.imp (apart_of_lt refines)
  rw [sortedDedup, sorted.insertionSort_eq]
  exact List.destutter_of_isChain _ _ apart.isChain

theorem removesDuplicates_iff (xs : List α) :
    RemovesDuplicates (sortedDedup cmp same) same xs ↔ Distinguishes cmp xs := by
  classical
  constructor
  · intro removes x hx y hy equal
    have first := find?_sortedDedup refines x (xs.erase x)
    have second := find?_sortedDedup refines y (xs.erase y)
    rw [removes.unordered _ (List.perm_cons_erase hx).symm] at first
    rw [removes.unordered _ (List.perm_cons_erase hy).symm] at second
    simp only [Std.TransCmp.congr_left equal] at first
    exact Option.mem_unique first second
  · intro distinct
    obtain ⟨ascends, kept⟩ := sortedDedup_ascends refines distinct
    refine ⟨ascends.imp (apart_of_lt refines), kept, fun ys perm => ?_⟩
    · rw [sortedDedup, insertionSort_of_perm distinct perm, sortedDedup]

end Sorted

end Lib
