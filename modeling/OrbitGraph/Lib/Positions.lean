import Mathlib.Data.List.Basic
import Mathlib.Data.List.Induction
import Mathlib.Data.List.TakeWhile

/-!
Inverted lists: at which positions of a list an element of some kind stands.

Positions are in ascending order, so that those of two kinds can be merged, and they lead
back to the elements.
-/

namespace Lib

universe u

variable {α : Type u}

/-- The positions of a list at which `p` holds. -/
def positions (p : α → Bool) (xs : List α) : List Nat := (List.range xs.length).filter fun i => xs[i]?.any p

theorem positions_append_singleton (p : α → Bool) (xs : List α) (x : α) :
    positions p (xs ++ [x]) = if p x then positions p xs ++ [xs.length] else positions p xs := by
  have before : (List.range xs.length).filter (fun i => (xs ++ [x])[i]?.any p) = positions p xs := by
    refine List.filter_congr fun i mem => ?_
    rw [List.getElem?_append_left (List.mem_range.mp mem)]
  have last : (xs ++ [x])[xs.length]? = some x := List.getElem?_concat_length
  rw [positions, List.length_append, List.length_singleton, List.range_succ, List.filter_append, before]
  by_cases holds : p x = true
  · rw [if_pos holds, List.filter_cons_of_pos (by rw [last]; exact holds), List.filter_nil]
  · rw [if_neg holds, List.filter_cons_of_neg (by rw [last]; exact holds), List.filter_nil, List.append_nil]

theorem filterMap_positions (p : α → Bool) (xs : List α) : (positions p xs).filterMap (fun i => xs[i]?) = xs.filter p := by
  induction xs using List.reverseRecOn with
  | nil => rfl
  | append_singleton xs x ih =>
    have old : (positions p xs).filterMap (fun i => (xs ++ [x])[i]?) = xs.filter p := by
      rw [← ih]
      refine List.filterMap_congr fun i mem => ?_
      rw [List.getElem?_append_left (List.mem_range.mp (List.mem_filter.mp mem).1)]
    rw [positions_append_singleton, List.filter_append]
    split_ifs with holds
    · rw [List.filterMap_append, old, List.filter_cons_of_pos holds]
      simp
    · rw [old, List.filter_cons_of_neg holds, List.filter_nil, List.append_nil]

theorem pairwise_positions (p : α → Bool) (xs : List α) : (positions p xs).Pairwise (· < ·) :=
  List.Pairwise.filter _ List.pairwise_lt_range

theorem mem_positions {p : α → Bool} {xs : List α} {i : Nat} : i ∈ positions p xs ↔ ∃ x, xs[i]? = some x ∧ p x = true := by
  rw [positions, List.mem_filter, List.mem_range, Option.any_eq_true_iff_get]
  constructor
  · rintro ⟨-, isSome, holds⟩
    exact ⟨_, Option.eq_some_of_isSome isSome, holds⟩
  · rintro ⟨x, found, holds⟩
    obtain ⟨inside, -⟩ := List.getElem?_eq_some_iff.mp found
    exact ⟨inside, by rw [found]; rfl, by simpa [found] using holds⟩

theorem positions_filter_mem (p q : α → Bool) (xs : List α) :
    (positions p xs).filter (fun i => decide (i ∈ positions q xs)) = positions (fun x => p x && q x) xs := by
  unfold positions
  rw [List.filter_filter]
  refine List.filter_congr fun i inside => ?_
  have both : i ∈ positions q xs ↔ ∃ x, xs[i]? = some x ∧ q x = true := mem_positions
  obtain ⟨x, found⟩ : ∃ x, xs[i]? = some x := ⟨_, List.getElem?_eq_getElem (List.mem_range.mp inside)⟩
  have one : i ∈ positions q xs ↔ q x = true := by
    rw [both, found]
    simp
  rw [found, Option.any_some, Option.any_some, Bool.and_comm]
  congr 1
  rw [Bool.eq_iff_iff, decide_eq_true_eq]
  exact one

/-- The elements of two ascending lists that are in both, by going through them side by side. -/
def intersectSorted : List Nat → List Nat → List Nat
  | [], _ => []
  | value :: left, right =>
    match right.dropWhile (· < value) with
    | [] => intersectSorted left []
    | candidate :: rest =>
      if candidate = value then value :: intersectSorted left rest
      else intersectSorted left (candidate :: rest)

theorem intersectSorted_eq {left right : List Nat} (ascending : left.Pairwise (· < ·))
    (ascending' : right.Pairwise (· < ·)) : intersectSorted left right = left.filter (fun v => decide (v ∈ right)) := by
  induction left generalizing right with
  | nil => rfl
  | cons value left ih =>
    obtain ⟨above, ascending⟩ := List.pairwise_cons.mp ascending
    have cut := List.takeWhile_append_dropWhile (p := fun c => decide (c < value)) (l := right)
    have small : ∀ c ∈ right.takeWhile (fun c => decide (c < value)), c < value := fun c mem =>
      of_decide_eq_true (List.mem_takeWhile_imp (p := fun c => decide (c < value)) mem)
    have rest := ascending'.sublist (List.dropWhile_sublist fun c => decide (c < value))
    have kept : ∀ v, value ≤ v → (v ∈ right ↔ v ∈ right.dropWhile fun c => decide (c < value)) := by
      intro v least
      conv_lhs => rw [← cut]
      rw [List.mem_append]
      exact ⟨fun mem => mem.resolve_left fun first => absurd (small v first) (Nat.not_lt.mpr least), .inr⟩
    have later : left.filter (fun v => decide (v ∈ right)) =
        left.filter fun v => decide (v ∈ right.dropWhile fun c => decide (c < value)) :=
      List.filter_congr fun v mem => decide_eq_decide.mpr (kept v (above v mem).le)
    have head := List.head?_dropWhile_not (fun c => decide (c < value)) right
    rw [intersectSorted, List.filter_cons, later]
    simp only [decide_eq_true_eq, kept value le_rfl]
    generalize right.dropWhile (fun c => decide (c < value)) = remaining at rest head
    cases remaining with
    | nil =>
      rw [if_neg List.not_mem_nil]
      exact ih ascending .nil
    | cons candidate rest' =>
      obtain ⟨aboveCandidate, ascendingRest⟩ := List.pairwise_cons.mp rest
      have least : value ≤ candidate := by simpa using head
      by_cases same : candidate = value
      · have others : left.filter (fun v => decide (v ∈ candidate :: rest')) =
            left.filter fun v => decide (v ∈ rest') := by
          refine List.filter_congr fun v mem => decide_eq_decide.mpr ?_
          rw [List.mem_cons]
          exact ⟨fun h => h.resolve_left fun eq => absurd (above v mem) (by omega), .inr⟩
        dsimp only
        rw [if_pos same, if_pos (same ▸ List.mem_cons_self), ih ascending ascendingRest, others]
      · have absent : value ∉ candidate :: rest' := by
          intro mem
          rcases List.mem_cons.mp mem with eq | mem
          · exact same eq.symm
          · have := aboveCandidate value mem
            omega
        dsimp only
        rw [if_neg same, if_neg absent, ih ascending rest]

end Lib
