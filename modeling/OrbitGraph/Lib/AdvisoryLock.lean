import Mathlib.Data.List.Basic

/-!
Advisory locks, shared or exclusive, held by the members of a list.

What a member holds is a function of its state, so a lock is released by leaving the
state. A lock is granted if no member holds one that excludes it; as long as every
new lock was granted, no two members hold locks that exclude each other.
-/

namespace Lib

inductive LockKind where
  | shared
  | exclusive
  deriving DecidableEq

structure AdvisoryLock (ι : Type) where
  file : ι
  kind : LockKind
  deriving DecidableEq

namespace AdvisoryLock

universe u

variable {ι : Type} {σ : Type u}

def Compatible (a b : AdvisoryLock ι) : Prop :=
  a.file = b.file → a.kind = .shared ∧ b.kind = .shared

instance [DecidableEq ι] (a b : AdvisoryLock ι) : Decidable (a.Compatible b) :=
  inferInstanceAs (Decidable (_ → _))

variable (locks : σ → List (AdvisoryLock ι))

/-- No member holds a lock that excludes `a`. -/
def Granted (members : List σ) (a : AdvisoryLock ι) : Prop :=
  ∀ m ∈ members, ∀ b ∈ locks m, a.Compatible b

instance [DecidableEq ι] (members : List σ) (a : AdvisoryLock ι) : Decidable (Granted locks members a) :=
  inferInstanceAs (Decidable (∀ m ∈ members, ∀ b ∈ locks m, a.Compatible b))

/-- Any two members hold compatible locks. -/
def Exclusive (members : List σ) : Prop :=
  ∀ (i j : Nat) (m n : σ), i ≠ j → members[i]? = some m → members[j]? = some n →
    ∀ a ∈ locks m, ∀ b ∈ locks n, a.Compatible b

variable {locks} {members : List σ}

theorem Compatible.symm {a b : AdvisoryLock ι} (h : a.Compatible b) : b.Compatible a :=
  fun same => (h same.symm).symm

theorem Exclusive.of_unlocked (unlocked : ∀ m ∈ members, locks m = []) : Exclusive locks members := by
  intro i j m n _ hm _ a ha
  rw [unlocked m (List.mem_of_getElem? hm)] at ha
  cases ha

theorem Exclusive.set (exclusive : Exclusive locks members) {k : Nat} {old new : σ} (here : members[k]? = some old)
    (locked : ∀ a ∈ locks new, a ∈ locks old ∨ Granted locks members a) : Exclusive locks (members.set k new) := by
  have other : ∀ (j : Nat) (n : σ), j ≠ k → members[j]? = some n → ∀ a ∈ locks new, ∀ b ∈ locks n, a.Compatible b := by
    intro j n different hn a ha b hb
    rcases locked a ha with held | granted
    · exact exclusive k j old n (Ne.symm different) here hn a held b hb
    · exact granted n (List.mem_of_getElem? hn) b hb
  intro i j m n different hm hn a ha b hb
  rw [List.getElem?_set] at hm hn
  split at hm
  next eq =>
    subst eq
    split at hm
    next =>
      obtain rfl := Option.some.inj hm
      rw [if_neg different] at hn
      exact other j n (Ne.symm different) hn a ha b hb
    next => cases hm
  next apart =>
    split at hn
    next eq =>
      subst eq
      split at hn
      next =>
        obtain rfl := Option.some.inj hn
        exact (other i m (Ne.symm apart) hm b hb a ha).symm
      next => cases hn
    next => exact exclusive i j m n different hm hn a ha b hb

theorem Exclusive.absurd (exclusive : Exclusive locks members) {i j : Nat} {m n : σ} (different : i ≠ j)
    (hm : members[i]? = some m) (hn : members[j]? = some n) {file : ι} {kind : LockKind}
    (held : ⟨file, .exclusive⟩ ∈ locks m) (other : ⟨file, kind⟩ ∈ locks n) : False := by
  have := (exclusive i j m n different hm hn _ held _ other rfl).1
  cases this

end AdvisoryLock

end Lib
