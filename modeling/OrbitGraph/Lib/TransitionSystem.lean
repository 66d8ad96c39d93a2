import Mathlib.Data.List.Induction
import Mathlib.Logic.Relation

/-!
Labelled transition systems, their reachable states and their invariants.

A protocol or a store is given by its initial states and one relation per
label; a property of every run is proved by showing that it holds initially and
that every step keeps it.
-/

namespace Lib

universe u v

/-- Initial states and labelled steps. -/
structure TransitionSystem (State : Type u) (Label : Type v) where
  init : State → Prop
  step : State → Label → State → Prop

namespace TransitionSystem

variable {State : Type u} {Label : Type v} (T : TransitionSystem State Label)

/-- `T.Run s ls t`: the labels `ls`, in order, lead from `s` to `t`. -/
inductive Run : State → List Label → State → Prop where
  | nil (s : State) : Run s [] s
  | snoc {s t u : State} {ls : List Label} {l : Label} :
      Run s ls t → T.step t l u → Run s (ls ++ [l]) u

/-- A state that some run from an initial state ends in. -/
def Reachable (s : State) : Prop := ∃ s₀ ls, T.init s₀ ∧ T.Run s₀ ls s

/-- A property that holds initially and that every step keeps. -/
structure Inductive (P : State → Prop) : Prop where
  init : ∀ s, T.init s → P s
  step : ∀ s l t, P s → T.step s l t → P t

variable {T}

variable {P : State → Prop}

variable {ls : List Label} {s t : State}

/-- A property that every step keeps holds at the end of a run if it holds at
its start. -/
theorem Run.preserves (keep : ∀ s l t, P s → T.step s l t → P t)
    (run : T.Run s ls t) (hs : P s) : P t := by
  induction run with
  | nil => exact hs
  | snoc _ step ih => exact keep _ _ _ ih step

variable {apply : State → Label → Option State}

theorem Run.of_apply
    (sound : ∀ s l t, apply s l = some t → T.step s l t)
    (accepted : ls.foldlM apply s = some t) : T.Run s ls t := by
  induction ls using List.reverseRecOn generalizing t with
  | nil =>
    obtain rfl : s = t := Option.some.inj accepted
    exact .nil s
  | append_singleton ls l ih =>
    rw [List.foldlM_append] at accepted
    obtain ⟨u, before, last⟩ := Option.bind_eq_some_iff.mp accepted
    exact .snoc (ih before) (sound u l t (by simpa using last))

/-- Every step of a run from `s` with the labels `ls` meets `C` in the state where
it is taken. -/
def Meets (T : TransitionSystem State Label) (C : State → Label → Prop) (s : State)
    (ls : List Label) : Prop :=
  ∀ ls₁ l ls₂ u, ls = ls₁ ++ l :: ls₂ → T.Run s ls₁ u → C u l

variable {C : State → Label → Prop} {s : State}

theorem Meets.nil : T.Meets C s [] := by
  intro ls₁ l ls₂ u eq
  simp at eq

theorem Meets.snoc {l : Label}
    (met : T.Meets C s ls) (last : ∀ u, T.Run s ls u → C u l) : T.Meets C s (ls ++ [l]) := by
  intro ls₁ l' ls₂ u eq run
  rcases List.eq_nil_or_concat ls₂ with rfl | ⟨rest, l'', rfl⟩
  · obtain ⟨rfl, rfl⟩ := List.append_inj' (eq : ls ++ [l] = ls₁ ++ [l']) rfl |>.imp_right
      (List.singleton_inj.mp ·)
    exact last u run
  · rw [List.concat_eq_append] at eq
    have split : ls ++ [l] = (ls₁ ++ l' :: rest) ++ [l''] := by simp [eq]
    exact met ls₁ l' rest u (List.append_inj' split rfl).1 run

theorem Run.eq_of_nil (run : T.Run s [] t) : s = t := by
  generalize h : ([] : List Label) = ls at run
  cases run with
  | nil => rfl
  | snoc => simp at h

/-- A run whose steps all meet `C` keeps what steps that meet `C` keep. -/
theorem Run.preserves_under (keep : ∀ s l t, P s → C s l → T.step s l t → P t)
    (run : T.Run s ls t) (met : T.Meets C s ls) (hs : P s) : P t := by
  induction run with
  | nil => exact hs
  | @snoc t u ls l run step ih =>
    refine keep _ _ _ (ih fun ls₁ l' ls₂ u' eq run' => ?_) (met ls l [] t (by simp) run) step
    exact met ls₁ l' (ls₂ ++ [l]) u' (by simp [eq]) run'

/-- Labels that a step function accepts one after another, each where it meets `C`. -/
theorem Run.of_apply_meets
    (steps : ∀ s l t, T.step s l t ↔ apply s l = some t)
    [∀ s l, Decidable (C s l)]
    (accepted : ls.foldlM (fun s l => if C s l then apply s l else none) s = some t) :
    T.Run s ls t ∧ T.Meets C s ls := by
  have unique : ∀ {ls : List Label} {u v : State}, T.Run s ls u → T.Run s ls v → u = v := by
    intro ls
    induction ls using List.reverseRecOn with
    | nil => exact fun hu hv => hu.eq_of_nil.symm.trans hv.eq_of_nil
    | append_singleton ls l ih =>
      have last : ∀ {w : State}, T.Run s (ls ++ [l]) w → ∃ x, T.Run s ls x ∧ T.step x l w := by
        intro w run
        generalize h : ls ++ [l] = ls' at run
        cases run with
        | nil => simp at h
        | snoc run step =>
          obtain ⟨rfl, eq⟩ := List.append_inj' h rfl
          exact ⟨_, run, (List.singleton_inj.mp eq) ▸ step⟩
      intro u v hu hv
      obtain ⟨x, hx, stepX⟩ := last hu
      obtain ⟨y, hy, stepY⟩ := last hv
      obtain rfl := ih hx hy
      exact Option.some.inj (((steps _ _ _).mp stepX).symm.trans ((steps _ _ _).mp stepY))
  induction ls using List.reverseRecOn generalizing t with
  | nil =>
    obtain rfl : s = t := Option.some.inj accepted
    exact ⟨.nil s, .nil⟩
  | append_singleton ls l ih =>
    rw [List.foldlM_append] at accepted
    obtain ⟨u, before, last⟩ := Option.bind_eq_some_iff.mp accepted
    obtain ⟨run, met⟩ := ih before
    have last : (if C u l then apply u l else none) = some t := by simpa using last
    split at last
    next holds => exact ⟨.snoc run ((steps _ _ _).mpr last), met.snoc fun v hv => unique run hv ▸ holds⟩
    next => cases last

theorem Reachable.of_inductive (ind : T.Inductive P) (reach : T.Reachable s) : P s := by
  obtain ⟨s₀, ls, start, run⟩ := reach
  exact run.preserves ind.step (ind.init s₀ start)

theorem Reachable.of_init (h : T.init s) : T.Reachable s := ⟨s, [], h, .nil s⟩

theorem Reachable.step {l : Label} (reach : T.Reachable s) (h : T.step s l t) : T.Reachable t := by
  obtain ⟨s₀, ls, start, run⟩ := reach
  exact ⟨s₀, ls ++ [l], start, .snoc run h⟩

theorem Reachable.run (reach : T.Reachable s) (run : T.Run s ls t) :
    T.Reachable t := by
  induction run with
  | nil => exact reach
  | snoc _ step ih => exact ih.step step

/-- Two inductive properties, the second proved with the first in hand. -/
theorem Inductive.and {P Q : State → Prop} (hP : T.Inductive P) (initQ : ∀ s, T.init s → Q s)
    (stepQ : ∀ s l t, P s → Q s → T.step s l t → Q t) : T.Inductive fun s => P s ∧ Q s where
  init s h := ⟨hP.init s h, initQ s h⟩
  step s l t h step := ⟨hP.step s l t h.1 step, stepQ s l t h.1 h.2 step⟩

end TransitionSystem

end Lib
