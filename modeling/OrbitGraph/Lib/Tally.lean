import Mathlib.Data.List.Count
import Mathlib.Data.List.Induction
import Mathlib.Data.List.Nodup

/-!
Counting how often each element occurs in a list.

The counts are entries of a map, of which the order is not fixed: what matters is that
every element that occurs has one entry, with its number.
-/

namespace Lib

universe u

variable {κ : Type u} [DecidableEq κ]

/-- Count an element once more. -/
def tally (k : κ) : List (κ × Nat) → List (κ × Nat)
  | [] => [(k, 1)]
  | entry :: rest => if k = entry.1 then (k, entry.2 + 1) :: rest else entry :: tally k rest

def tallies (xs : List κ) : List (κ × Nat) := xs.foldl (fun counts k => tally k counts) []

theorem keys_tally (k : κ) (counts : List (κ × Nat)) :
    (tally k counts).map Prod.fst =
      if k ∈ counts.map Prod.fst then counts.map Prod.fst else counts.map Prod.fst ++ [k] := by
  induction counts with
  | nil => rfl
  | cons entry rest ih =>
    rw [tally]
    by_cases here : k = entry.1
    · rw [if_pos here, if_pos (by rw [here]; exact List.mem_cons_self), here]
      rfl
    · rw [if_neg here, List.map_cons, ih, List.map_cons]
      by_cases later : k ∈ rest.map Prod.fst
      · rw [if_pos later, if_pos (List.mem_cons_of_mem _ later)]
      · rw [if_neg later, if_neg fun mem => (List.mem_cons.mp mem).elim here later]
        rfl

/-- The number entered for an element. -/
def entered (k : κ) : List (κ × Nat) → Nat
  | [] => 0
  | entry :: rest => if k = entry.1 then entry.2 else entered k rest

theorem entered_tally (k l : κ) (counts : List (κ × Nat)) :
    entered l (tally k counts) = entered l counts + if l = k then 1 else 0 := by
  induction counts with
  | nil => simp [tally, entered]
  | cons entry rest ih =>
    rw [tally]
    by_cases here : k = entry.1
    · rw [if_pos here, entered, entered, ← here]
      split_ifs <;> rfl
    · rw [if_neg here, entered, entered, ih]
      by_cases first : l = entry.1
      · have other : l ≠ k := fun same => here (same.symm.trans first)
        rw [if_pos first, if_pos first, if_neg other, Nat.add_zero]
      · rw [if_neg first, if_neg first]

theorem mem_iff_entered {counts : List (κ × Nat)} (nodup : (counts.map Prod.fst).Nodup) {k : κ} {n : Nat} :
    (k, n) ∈ counts ↔ k ∈ counts.map Prod.fst ∧ entered k counts = n := by
  induction counts with
  | nil => simp
  | cons entry rest ih =>
    obtain ⟨key, m⟩ := entry
    rw [List.map_cons, List.nodup_cons] at nodup
    rw [List.mem_cons, ih nodup.2, List.map_cons, List.mem_cons, entered, Prod.mk.injEq]
    by_cases here : k = key
    · rw [if_pos here, here]
      constructor
      · rintro (⟨-, rfl⟩ | ⟨mem, -⟩)
        · exact ⟨.inl rfl, rfl⟩
        · exact absurd mem nodup.1
      · rintro ⟨-, rfl⟩
        exact .inl ⟨rfl, rfl⟩
    · rw [if_neg here]
      simp only [here, false_and, false_or]

/-- Every element that occurs has one entry, with how often it does. -/
theorem mem_tallies {xs : List κ} : ((tallies xs).map Prod.fst).Nodup ∧
      ∀ k n, (k, n) ∈ tallies xs ↔ n = xs.countP (fun x => decide (x = k)) ∧ 0 < n := by
  have counted : ((tallies xs).map Prod.fst).Nodup ∧
      ∀ k, (k ∈ (tallies xs).map Prod.fst ↔ k ∈ xs) ∧ entered k (tallies xs) = xs.countP (fun x => decide (x = k)) := by
    induction xs using List.reverseRecOn with
    | nil => exact ⟨List.nodup_nil, fun k => ⟨Iff.rfl, rfl⟩⟩
    | append_singleton xs x ih =>
      obtain ⟨nodup, each⟩ := ih
      have grown : tallies (xs ++ [x]) = tally x (tallies xs) := by
        rw [tallies, List.foldl_append]
        rfl
      rw [grown, keys_tally]
      constructor
      · split_ifs with known
        · exact nodup
        · exact List.nodup_append.mpr ⟨nodup, List.nodup_singleton x, fun y mem z one same => known <| by
            rwa [← List.mem_singleton.mp one, ← same]⟩
      · intro k
        obtain ⟨known, number⟩ := each k
        constructor
        · split_ifs with known'
          · have mem := (each x).1.mp known'
            rw [known, List.mem_append, List.mem_singleton]
            exact ⟨.inl, fun h => h.elim id fun same => same ▸ mem⟩
          · rw [List.mem_append, List.mem_append, known]
        · rw [entered_tally, number, List.countP_append, List.countP_singleton]
          simp only [decide_eq_true_eq, eq_comm (a := k)]
  refine ⟨counted.1, fun k n => ?_⟩
  have present : k ∈ xs ↔ 0 < xs.countP fun x => decide (x = k) := by
    rw [List.countP_pos_iff]
    constructor
    · exact fun mem => ⟨k, mem, decide_eq_true rfl⟩
    · rintro ⟨x, mem, same⟩
      exact of_decide_eq_true same ▸ mem
  rw [mem_iff_entered counted.1, (counted.2 k).1, (counted.2 k).2, present]
  constructor
  · rintro ⟨occurs, rfl⟩
    exact ⟨rfl, occurs⟩
  · rintro ⟨rfl, occurs⟩
    exact ⟨occurs, rfl⟩

end Lib
