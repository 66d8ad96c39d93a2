import Mathlib.Data.List.Nodup
import Mathlib.Data.List.TakeWhile
import Mathlib.Data.List.Perm.Subperm

/-!
A worklist search that visits at most a given number of elements.

`explore next budget visited pending` pops `pending` from its head, skips what
it has visited and pushes the successors of what it has not. It answers the
visited elements, or `none` when an element is left to visit after `budget`
visits. Whatever order the successors are listed in, the answer is the set of
elements reachable from the start, or `none` because that set is larger than the
budget (`explore_congr`).
-/

namespace Lib

universe u

variable {α : Type u}

/-- Visit up to `budget` elements from the stack `pending`. -/
def explore [DecidableEq α] (next : α → List α) : Nat → List α → List α → Option (List α)
  | 0, visited, pending =>
    match pending.dropWhile (fun a => decide (a ∈ visited)) with
    | [] => some visited
    | _ :: _ => none
  | budget + 1, visited, pending =>
    match pending.dropWhile (fun a => decide (a ∈ visited)) with
    | [] => some visited
    | a :: rest => explore next budget (a :: visited) ((next a).reverse ++ rest)

abbrev Reach (next : α → List α) : α → α → Prop :=
  Relation.ReflTransGen fun a b => b ∈ next a

/-- What holds between two pops of the search from `start`. -/
structure SearchInvariant (next : α → List α) (start : α) (visited pending : List α) : Prop where
  nodup : visited.Nodup
  visited_reach : ∀ a ∈ visited, Reach next start a
  pending_reach : ∀ a ∈ pending, Reach next start a
  start_mem : start ∈ visited ∨ start ∈ pending
  closed : ∀ a ∈ visited, ∀ b ∈ next a, b ∈ visited ∨ b ∈ pending

namespace SearchInvariant

variable {next : α → List α} {start : α} {visited pending : List α}

theorem initial : SearchInvariant next start [] [start] where
  nodup := List.nodup_nil
  visited_reach := by simp
  pending_reach := by simp [Relation.ReflTransGen.refl]
  start_mem := by simp
  closed := by simp

theorem pop [DecidableEq α] (inv : SearchInvariant next start visited pending) :
    SearchInvariant next start visited (pending.dropWhile fun a => decide (a ∈ visited)) := by
  have kept : ∀ b, b ∈ visited ∨ b ∈ pending →
      b ∈ visited ∨ b ∈ pending.dropWhile fun a => decide (a ∈ visited) := by
    rintro b (h | h)
    · exact .inl h
    · rw [← List.takeWhile_append_dropWhile (p := fun a => decide (a ∈ visited)) (l := pending)] at h
      rcases List.mem_append.mp h with h | h
      · have seen := List.mem_takeWhile_imp h
        exact .inl (of_decide_eq_true seen)
      · exact .inr h
  exact
    { nodup := inv.nodup
      visited_reach := inv.visited_reach
      pending_reach := fun a ha => inv.pending_reach a ((List.dropWhile_suffix _).subset ha)
      start_mem := kept _ inv.start_mem
      closed := fun a ha b hb => kept b (inv.closed a ha b hb) }

theorem skip {a : α} {rest : List α} (inv : SearchInvariant next start visited (a :: rest)) (seen : a ∈ visited) :
    SearchInvariant next start visited rest where
  nodup := inv.nodup
  visited_reach := inv.visited_reach
  pending_reach b hb := inv.pending_reach b (List.mem_cons_of_mem _ hb)
  start_mem := by
    rcases inv.start_mem with h | h
    · exact .inl h
    · rcases List.mem_cons.mp h with rfl | h
      · exact .inl seen
      · exact .inr h
  closed b hb c hc := by
    rcases inv.closed b hb c hc with h | h
    · exact .inl h
    · rcases List.mem_cons.mp h with rfl | h
      · exact .inl seen
      · exact .inr h

theorem visit {a : α} {rest : List α} (inv : SearchInvariant next start visited (a :: rest))
    (fresh : a ∉ visited) : SearchInvariant next start (a :: visited) ((next a).reverse ++ rest) where
  nodup := List.nodup_cons.mpr ⟨fresh, inv.nodup⟩
  visited_reach := by
    intro b hb
    rcases List.mem_cons.mp hb with rfl | hb
    · exact inv.pending_reach _ List.mem_cons_self
    · exact inv.visited_reach b hb
  pending_reach := by
    intro b hb
    rcases List.mem_append.mp hb with hb | hb
    · exact (inv.pending_reach a List.mem_cons_self).tail (List.mem_reverse.mp hb)
    · exact inv.pending_reach b (List.mem_cons_of_mem _ hb)
  start_mem := by
    rcases inv.start_mem with h | h
    · exact .inl (List.mem_cons_of_mem _ h)
    · rcases List.mem_cons.mp h with rfl | h
      · exact .inl List.mem_cons_self
      · exact .inr (List.mem_append_right _ h)
  closed := by
    intro b hb c hc
    rcases List.mem_cons.mp hb with rfl | hb
    · exact .inr (List.mem_append_left _ (List.mem_reverse.mpr hc))
    · rcases inv.closed b hb c hc with h | h
      · exact .inl (List.mem_cons_of_mem _ h)
      · rcases List.mem_cons.mp h with rfl | h
        · exact .inl List.mem_cons_self
        · exact .inr (List.mem_append_right _ h)

/-- With nothing pending, the visited elements are the reachable ones. -/
theorem mem_visited_iff (inv : SearchInvariant next start visited []) {a : α} : a ∈ visited ↔ Reach next start a := by
  refine ⟨inv.visited_reach a, fun reach => ?_⟩
  induction reach with
  | refl => simpa using inv.start_mem
  | tail _ step ih => simpa using inv.closed _ ih _ step

end SearchInvariant

section Explore

variable [DecidableEq α] {next : α → List α} {start : α} {budget : Nat} {visited pending : List α}

private theorem head_fresh {a : α} {rest : List α}
    (h : pending.dropWhile (fun a => decide (a ∈ visited)) = a :: rest) : a ∉ visited := by
  have := List.head?_dropWhile_not (p := fun a => decide (a ∈ visited)) pending
  rw [h] at this
  simpa using this

/-- An answer lists the reachable elements, each once and within the budget. -/
theorem explore_some (inv : SearchInvariant next start visited pending) {found : List α}
    (h : explore next budget visited pending = some found) : found.Nodup ∧ (∀ a, a ∈ found ↔ Reach next start a) ∧
      found.length ≤ visited.length + budget := by
  induction budget generalizing visited pending with
  | zero =>
    cases hd : pending.dropWhile (fun a => decide (a ∈ visited)) with
    | nil =>
      simp only [explore, hd, Option.some.injEq] at h
      subst h
      have popped := inv.pop
      rw [hd] at popped
      exact ⟨inv.nodup, fun a => popped.mem_visited_iff, by omega⟩
    | cons a rest => simp [explore, hd] at h
  | succ budget ih =>
    cases hd : pending.dropWhile (fun a => decide (a ∈ visited)) with
    | nil =>
      simp only [explore, hd, Option.some.injEq] at h
      subst h
      have popped := inv.pop
      rw [hd] at popped
      exact ⟨inv.nodup, fun a => popped.mem_visited_iff, by omega⟩
    | cons a rest =>
      simp only [explore, hd] at h
      have popped := inv.pop
      rw [hd] at popped
      obtain ⟨nodup, mem, len⟩ := ih (popped.visit (head_fresh hd)) h
      refine ⟨nodup, mem, ?_⟩
      simp only [List.length_cons] at len
      omega

/-- No answer means that more elements are reachable than the budget allows. -/
theorem explore_none (inv : SearchInvariant next start visited pending)
    (h : explore next budget visited pending = none) :
    ∃ found : List α, found.Nodup ∧ (∀ a ∈ found, Reach next start a) ∧
      found.length = visited.length + budget + 1 := by
  induction budget generalizing visited pending with
  | zero =>
    cases hd : pending.dropWhile (fun a => decide (a ∈ visited)) with
    | nil => simp [explore, hd] at h
    | cons a rest =>
      have popped := inv.pop
      rw [hd] at popped
      have visited' := popped.visit (head_fresh hd)
      exact ⟨a :: visited, visited'.nodup, visited'.visited_reach, by simp⟩
  | succ budget ih =>
    cases hd : pending.dropWhile (fun a => decide (a ∈ visited)) with
    | nil => simp [explore, hd] at h
    | cons a rest =>
      simp only [explore, hd] at h
      have popped := inv.pop
      rw [hd] at popped
      obtain ⟨found, nodup, mem, len⟩ := ih (popped.visit (head_fresh hd)) h
      refine ⟨found, nodup, mem, ?_⟩
      simp only [List.length_cons] at len
      omega

/-- The order in which successors are listed, and how often, does not change
what a search finds. -/
theorem explore_congr {next' : α → List α} (same : ∀ a b, b ∈ next a ↔ b ∈ next' a) (budget : Nat) (start : α) :
    Option.Rel List.Perm (explore next budget [] [start]) (explore next' budget [] [start]) := by
  have sameReach : ∀ a, Reach next start a ↔ Reach next' start a := by
    intro a
    have : (fun a b => b ∈ next a) = fun a b => b ∈ next' a := by
      funext a b
      exact propext (same a b)
    unfold Reach
    rw [this]
  cases h : explore next budget [] [start] with
  | some found =>
    obtain ⟨nodup, mem, len⟩ := explore_some SearchInvariant.initial h
    cases h' : explore next' budget [] [start] with
    | some found' =>
      obtain ⟨nodup', mem', _⟩ := explore_some SearchInvariant.initial h'
      exact .some ((List.perm_ext_iff_of_nodup nodup nodup').mpr fun a => by
        rw [mem, mem', sameReach])
    | none =>
      obtain ⟨big, bigNodup, bigMem, bigLen⟩ := explore_none SearchInvariant.initial h'
      have sub : big ⊆ found := fun a ha => (mem a).mpr ((sameReach a).mpr (bigMem a ha))
      have := (bigNodup.subperm sub).length_le
      omega
  | none =>
    obtain ⟨big, bigNodup, bigMem, bigLen⟩ := explore_none SearchInvariant.initial h
    cases h' : explore next' budget [] [start] with
    | some found' =>
      obtain ⟨_, mem', len'⟩ := explore_some SearchInvariant.initial h'
      have sub : big ⊆ found' := fun a ha => (mem' a).mpr ((sameReach a).mp (bigMem a ha))
      have := (bigNodup.subperm sub).length_le
      omega
    | none => exact .none

end Explore

end Lib
