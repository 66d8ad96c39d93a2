import Mathlib.Order.WellFounded

/-!
Loops whose number of rounds is not known beforehand.

A body goes on with a state or ends with an answer. A loop that keeps an invariant and
makes a measure smaller each round ends, and what the invariant says of the last state
holds of the answer.
-/

namespace Lib

universe u v

variable {σ : Type u} {α : Type v}

/-- `Yields body s a`: the loop ends with `a` if it begins with `s`. -/
inductive Yields (body : σ → σ ⊕ α) : σ → α → Prop where
  | done {s : σ} {a : α} : body s = .inr a → Yields body s a
  | next {s t : σ} {a : α} : body s = .inl t → Yields body t a → Yields body s a

/-- What a loop ends with in at most so many rounds. -/
def runLoop (body : σ → σ ⊕ α) : Nat → σ → Option α
  | 0, _ => none
  | rounds + 1, s =>
    match body s with
    | .inl t => runLoop body rounds t
    | .inr a => some a

variable {body : σ → σ ⊕ α} {s : σ} {a b : α}

theorem Yields.unique (first : Yields body s a) (second : Yields body s b) : a = b := by
  induction first with
  | done ends =>
    cases second with
    | done ends' => exact Sum.inr.inj (ends.symm.trans ends')
    | next goes _ => cases ends.symm.trans goes
  | next goes _ ih =>
    cases second with
    | done ends => cases goes.symm.trans ends
    | next goes' later =>
      obtain rfl := Sum.inl.inj (goes.symm.trans goes')
      exact ih later

theorem yields_iff_runLoop : Yields body s a ↔ ∃ rounds, runLoop body rounds s = some a := by
  constructor
  · intro yields
    induction yields with
    | done ends => exact ⟨1, by rw [runLoop, ends]⟩
    | next goes _ ih =>
      obtain ⟨rounds, run⟩ := ih
      exact ⟨rounds + 1, by rw [runLoop, goes]; exact run⟩
  · rintro ⟨rounds, run⟩
    induction rounds generalizing s with
    | zero => cases run
    | succ rounds ih =>
      rw [runLoop] at run
      split at run
      next t goes => exact .next goes (ih run)
      next ends =>
        obtain rfl := Option.some.inj run
        exact .done ends

/-- The rule of loops: an invariant that a round keeps, a measure that it makes smaller, and what holds at the
end. -/
theorem Yields.of_invariant {r : σ → σ → Prop} (wellFounded : WellFounded r) {inv : σ → Prop} {post : α → Prop}
    (goesOn : ∀ s t, inv s → body s = .inl t → inv t ∧ r t s) (ends : ∀ s a, inv s → body s = .inr a → post a)
    (start : inv s) : ∃ a, Yields body s a ∧ post a := by
  induction s using wellFounded.induction with
  | _ s ih =>
    cases round : body s with
    | inl t =>
      obtain ⟨keeps, smaller⟩ := goesOn s t start round
      obtain ⟨a, yields, holds⟩ := ih t smaller keeps
      exact ⟨a, .next round yields, holds⟩
    | inr a => exact ⟨a, .done round, ends s a start round⟩

/-- The rule for a given number of rounds: the measure is smaller than that. -/
theorem runLoop_of_invariant (measure : σ → Nat) (inv : σ → Prop) (post : α → Prop)
    (goesOn : ∀ s t, inv s → body s = .inl t → inv t ∧ measure t < measure s)
    (ends : ∀ s a, inv s → body s = .inr a → post a) {rounds : Nat} (start : inv s) (enough : measure s < rounds) :
    ∃ a, runLoop body rounds s = some a ∧ post a := by
  induction rounds generalizing s with
  | zero => omega
  | succ rounds ih =>
    rw [runLoop]
    cases round : body s with
    | inl t =>
      obtain ⟨keeps, smaller⟩ := goesOn s t start round
      exact ih keeps (by omega)
    | inr a => exact ⟨a, rfl, ends s a start round⟩

end Lib
