import Mathlib.Data.Set.Basic

/-!
Two sides that are crossed out against each other, by one relation after another.

A relation crosses out whatever has a partner on the other side, whether or not that is
its only one. Two elements that are each other's only partner are a couple.
-/

namespace Lib

universe u v

structure Sides (α : Type u) (β : Type v) where
  left : Set α
  right : Set β

namespace Sides

variable {α : Type u} {β : Type v}

/-- What has no partner on the other side. -/
def uncrossed (s : Sides α β) (meets : α → β → Prop) : Sides α β where
  left := {a ∈ s.left | ∀ b ∈ s.right, ¬ meets a b}
  right := {b ∈ s.right | ∀ a ∈ s.left, ¬ meets a b}

/-- What a list of relations leaves. -/
def after (s : Sides α β) (rungs : List (α → β → Prop)) : Sides α β := rungs.foldl uncrossed s

/-- The only partners of each other. -/
structure Couple (s : Sides α β) (meets : α → β → Prop) (a : α) (b : β) : Prop where
  left : a ∈ s.left
  right : b ∈ s.right
  meet : meets a b
  onlyLeft : ∀ a' ∈ s.left, meets a' b → a' = a
  onlyRight : ∀ b' ∈ s.right, meets a b' → b' = b

variable {s : Sides α β} {rungs : List (α → β → Prop)}

/-- Nothing is put back. -/
theorem left_after_subset : (s.after rungs).left ⊆ s.left := by
  induction rungs generalizing s with
  | nil => exact subset_rfl
  | cons meets rest ih => exact fun a mem => (ih mem).1

theorem right_after_subset : (s.after rungs).right ⊆ s.right := by
  induction rungs generalizing s with
  | nil => exact subset_rfl
  | cons meets rest ih => exact fun b mem => (ih mem).1

/-- What no relation gives a partner is left. -/
theorem mem_left_after {a : α} (mem : a ∈ s.left) (alone : ∀ meets ∈ rungs, ∀ b ∈ s.right, ¬ meets a b) :
    a ∈ (s.after rungs).left := by
  induction rungs generalizing s with
  | nil => exact mem
  | cons meets rest ih =>
    refine ih ⟨mem, alone meets List.mem_cons_self⟩ fun other there b left => ?_
    exact alone other (List.mem_cons_of_mem meets there) b left.1

end Sides

/-- Two elements with one key. -/
def SameKey {α : Type u} {β : Type v} {κ : Type} (leftKey : α → Option κ) (rightKey : β → Option κ) (a : α) (b : β) :
    Prop := ∃ k, leftKey a = some k ∧ rightKey b = some k

/-- A couple of one key is alone with it on each side, among the elements that are compared. -/
theorem Sides.couple_sameKey_iff {α : Type u} {β : Type v} {κ : Type} {s : Sides α β} {leftKey : α → Option κ}
    {rightKey : β → Option κ} {among : α → Prop} {among' : β → Prop} {a : α} {b : β} :
    s.Couple (fun a b => among a ∧ among' b ∧ SameKey leftKey rightKey a b) a b ↔ ∃ k,
      ((among a ∧ a ∈ s.left) ∧ leftKey a = some k ∧ ∀ a', among a' ∧ a' ∈ s.left → leftKey a' = some k → a' = a) ∧
      (among' b ∧ b ∈ s.right) ∧ rightKey b = some k ∧ ∀ b', among' b' ∧ b' ∈ s.right → rightKey b' = some k → b' = b := by
  constructor
  · rintro ⟨left, right, ⟨here, here', k, key, key'⟩, onlyLeft, onlyRight⟩
    exact ⟨k, ⟨⟨here, left⟩, key, fun a' there keyed => onlyLeft a' there.2 ⟨there.1, here', k, keyed, key'⟩⟩,
      ⟨here', right⟩, key', fun b' there keyed => onlyRight b' there.2 ⟨here, there.1, k, key, keyed⟩⟩
  · rintro ⟨k, ⟨⟨here, left⟩, key, onlyLeft⟩, ⟨here', right⟩, key', onlyRight⟩
    refine ⟨left, right, ⟨here, here', k, key, key'⟩, fun a' mem ⟨there, _, j, keyed, other⟩ => ?_,
      fun b' mem ⟨_, there, j, other, keyed⟩ => ?_⟩
    · exact onlyLeft a' ⟨there, mem⟩ (keyed.trans (other.symm.trans key'))
    · exact onlyRight b' ⟨there, mem⟩ (keyed.trans (other.symm.trans key))

end Lib
