import Mathlib.Data.List.MinMax

/-!
Half-open extents of offsets, and the lines of a text.

Of several extents, some are innermost. A line of a text is the extent of the offsets with so
many separators before them.
-/

namespace Lib

universe u

/-- The offsets from `start` on and before `stop`. -/
structure Extent where
  start : Nat
  stop : Nat

namespace Extent

def Overlaps (s t : Extent) : Prop := s.start < t.stop ∧ t.start < s.stop

/-- `s` lies in `t` and is another. -/
def Inside (s t : Extent) : Prop := t.start ≤ s.start ∧ s.stop ≤ t.stop ∧ (t.start < s.start ∨ s.stop < t.stop)

theorem exists_innermost {α : Type u} (extent : α → Extent) {xs : List α} (inhabited : xs ≠ []) :
    ∃ x ∈ xs, ∀ y ∈ xs, ¬ (extent y).Inside (extent x) := by
  have some_ : xs.argmin (fun x => ((extent x).stop : Int) - (extent x).start) ≠ none :=
    fun none => inhabited (List.argmin_eq_none.mp none)
  obtain ⟨x, least⟩ := Option.ne_none_iff_exists'.mp some_
  refine ⟨x, List.argmin_mem least, fun y mem inside => ?_⟩
  have width := List.le_of_mem_argmin mem least
  obtain ⟨left, right, strict⟩ := inside
  omega

end Extent

variable {α : Type u} [DecidableEq α] {separator : α} {xs : List α} {line : Nat}

/-- An offset with so many separators before it. -/
def OnLine (separator : α) (xs : List α) (line p : Nat) : Prop :=
  p < xs.length ∧ (xs.take p).countP (fun x => decide (x = separator)) = line

theorem onLine_nil {p : Nat} : ¬ OnLine separator [] line p := fun on => absurd on.1 (Nat.not_lt_zero p)

@[simp] theorem onLine_zero {x : α} : OnLine separator (x :: xs) line 0 ↔ line = 0 := by
  simp [OnLine, eq_comm]

theorem onLine_separator {p : Nat} : OnLine separator (separator :: xs) line (p + 1) ↔ ∃ l, line = l + 1 ∧ OnLine separator xs l p := by
  simp only [OnLine, List.length_cons, List.take_succ_cons, List.countP_cons, decide_true, if_true, Nat.add_lt_add_iff_right]
  constructor
  · rintro ⟨within, rfl⟩
    exact ⟨_, rfl, within, rfl⟩
  · rintro ⟨_, rfl, within, rfl⟩
    exact ⟨within, rfl⟩

theorem onLine_other {x : α} {p : Nat} (other : x ≠ separator) :
    OnLine separator (x :: xs) line (p + 1) ↔ OnLine separator xs line p := by
  simp [OnLine, other]

structure IsLine (separator : α) (xs : List α) (line : Nat) (extent : Extent) : Prop where
  inhabited : extent.start < extent.stop
  mem_iff : ∀ p, extent.start ≤ p ∧ p < extent.stop ↔ OnLine separator xs line p

theorem IsLine.unique {s t : Extent} (left : IsLine separator xs line s) (right : IsLine separator xs line t) : s = t := by
  have same : ∀ p, s.start ≤ p ∧ p < s.stop ↔ t.start ≤ p ∧ p < t.stop := fun p =>
    (left.mem_iff p).trans (right.mem_iff p).symm
  have first := same s.start
  have last := same (s.stop - 1)
  have first' := same t.start
  have last' := same (t.stop - 1)
  have := left.inhabited
  have := right.inhabited
  obtain ⟨a, b⟩ := s
  obtain ⟨c, d⟩ := t
  dsimp only at *
  rw [Extent.mk.injEq]
  omega

end Lib
