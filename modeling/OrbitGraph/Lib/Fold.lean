import Mathlib.Data.List.Basic

/-!
Left folds, as runs of a state through a list.

A condition on the steps of a fold is one on the state before each of them; what every
step under the condition keeps holds at the end.
-/

namespace Lib

universe u v

variable {σ : Type u} {α : Type v}

/-- Every step of a fold meets `C`, in the state in which it is taken. -/
def Along (f : σ → α → σ) (C : σ → α → Prop) : σ → List α → Prop
  | _, [] => True
  | s, a :: rest => C s a ∧ Along f C (f s a) rest

namespace Along

variable {f : σ → α → σ} {C D : σ → α → Prop}

instance decide [∀ s a, Decidable (C s a)] : ∀ s xs, Decidable (Along f C s xs)
  | _, [] => isTrue trivial
  | s, a :: rest =>
    have := decide (f s a) rest
    inferInstanceAs (Decidable (C s a ∧ Along f C (f s a) rest))

variable {xs : List α} {s : σ}

/-- What every step under a condition keeps. -/
theorem foldl {P : σ → Prop} (keep : ∀ s a, P s → C s a → P (f s a)) (along : Along f C s xs)
    (start : P s) : P (xs.foldl f s) := by
  induction xs generalizing s with
  | nil => exact start
  | cons a rest ih => exact ih along.2 (keep s a start along.1)

theorem imp (weaken : ∀ s a, C s a → D s a) (along : Along f C s xs) : Along f D s xs := by
  induction xs generalizing s with
  | nil => trivial
  | cons a rest ih => exact ⟨weaken s a along.1, ih along.2⟩

theorem append {xs ys : List α} : Along f C s (xs ++ ys) ↔ Along f C s xs ∧ Along f C (xs.foldl f s) ys := by
  induction xs generalizing s with
  | nil => simp [Along]
  | cons a rest ih => exact (and_congr_right fun _ => ih).trans and_assoc.symm

/-- A fold that does not meet a condition has a first step that does not. -/
theorem exists_of_not (fails : ¬ Along f C s xs) :
    ∃ before a after, xs = before ++ a :: after ∧ ¬ C (before.foldl f s) a := by
  induction xs generalizing s with
  | nil => exact absurd trivial fails
  | cons a rest ih =>
    by_cases here : C s a
    · obtain ⟨before, b, after, split, not⟩ := ih fun along => fails ⟨here, along⟩
      exact ⟨a :: before, b, after, by rw [split, List.cons_append], not⟩
    · exact ⟨[], a, rest, rfl, here⟩

end Along

end Lib
