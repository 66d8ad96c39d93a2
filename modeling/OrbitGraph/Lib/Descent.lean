import Mathlib.Data.List.Nodup
import Mathlib.Data.List.Perm.Basic

/-!
Chains that go down: a partial successor function along which a rank decreases.

A chain from an element is the only one there is, visits no element twice, and
ends after finitely many steps. `trail a` lists the elements from `a` on that
have a successor; a `Path` is a stretch of it.
-/

namespace Lib

universe u

/-- A partial successor function whose steps go down. -/
structure Descent (α : Type u) where
  next : α → Option α
  rank : α → Nat
  descends : ∀ {a b}, next a = some b → rank b < rank a

namespace Descent

variable {α : Type u} (D : Descent α)

/-- `D.Path a as b`: the elements `as`, in order, lead from `a`, the first of them,
to `b`, which is not listed. -/
inductive Path : α → List α → α → Prop where
  | nil (a : α) : Path a [] a
  | cons {a b c : α} {as : List α} : D.next a = some b → Path b as c → Path a (a :: as) c

/-- The elements from `a` on that have a successor, at most `fuel` of them. -/
def trailFrom : Nat → α → List α
  | 0, _ => []
  | fuel + 1, a =>
    match D.next a with
    | none => []
    | some b => a :: trailFrom fuel b

/-- The elements from `a` on that have a successor. -/
def trail (a : α) : List α := D.trailFrom (D.rank a) a

variable {D} {a b c : α} {as bs cs : List α}

theorem trailFrom_congr {m n : Nat} (hm : D.rank a ≤ m) (hn : D.rank a ≤ n) : D.trailFrom m a = D.trailFrom n a := by
  induction m generalizing n a with
  | zero =>
    cases n with
    | zero => rfl
    | succ n =>
      cases h : D.next a with
      | none => simp [trailFrom, h]
      | some b =>
        have := D.descends h
        omega
  | succ m ih =>
    cases h : D.next a with
    | none => cases n <;> simp [trailFrom, h]
    | some b =>
      have lower := D.descends h
      cases n with
      | zero => omega
      | succ n =>
        have rest : D.trailFrom m b = D.trailFrom n b := ih (by omega) (by omega)
        simp [trailFrom, h, rest]

theorem trail_of_none (h : D.next a = none) : D.trail a = [] := by
  cases hr : D.rank a <;> simp [trail, hr, trailFrom, h]

theorem trail_of_some (h : D.next a = some b) : D.trail a = a :: D.trail b := by
  have lower := D.descends h
  have rest : D.trailFrom (D.rank a - 1) b = D.trail b := trailFrom_congr (by omega) (Nat.le_refl _)
  obtain ⟨rank, hrank⟩ : ∃ rank, D.rank a = rank + 1 := ⟨D.rank a - 1, by omega⟩
  rw [hrank] at rest
  unfold trail at rest ⊢
  simp only [hrank, trailFrom, h]
  simpa using rest

namespace Path

/-- Of two paths from one element, one is a stretch of the other. -/
theorem comparable (path : D.Path a as b) (other : D.Path a cs c) :
    (∃ ds, cs = as ++ ds ∧ D.Path b ds c) ∨ ∃ ds, as = cs ++ ds ∧ D.Path c ds b := by
  induction path generalizing cs c with
  | nil => exact .inl ⟨cs, rfl, other⟩
  | @cons a b e as first rest ih =>
    cases other with
    | nil => exact .inr ⟨a :: as, rfl, .cons first rest⟩
    | cons first' rest' =>
      obtain rfl := Option.mem_unique first first'
      rcases ih rest' with ⟨ds, rfl, below⟩ | ⟨ds, rfl, above⟩
      · exact .inl ⟨ds, rfl, below⟩
      · exact .inr ⟨ds, rfl, above⟩

theorem start_mem (path : D.Path a as b) : a ∈ as ++ [b] := by
  cases path with
  | nil => exact List.mem_singleton_self a
  | cons => exact List.mem_cons_self

theorem reaches (path : D.Path a as b) {x : α} (mem : x ∈ as ++ [b]) : ∃ bs, D.Path a bs x := by
  induction path with
  | nil a =>
    obtain rfl := List.mem_singleton.mp mem
    exact ⟨[], .nil x⟩
  | cons first _ ih =>
    rcases List.mem_cons.mp mem with rfl | later
    · exact ⟨[], .nil x⟩
    · obtain ⟨bs, path⟩ := ih later
      exact ⟨_, .cons first path⟩

theorem mem_of_last (path : D.Path a as b) (last : D.next b = none) (other : D.Path a cs c) : c ∈ as ++ [b] := by
  rcases path.comparable other with ⟨ds, rfl, below⟩ | ⟨ds, rfl, above⟩
  · cases below with
    | nil => exact List.mem_append_right _ (List.mem_singleton_self _)
    | cons further => cases last.symm.trans further
  · rw [List.append_assoc]
    exact List.mem_append_right _ above.start_mem

end Path

end Descent

end Lib
