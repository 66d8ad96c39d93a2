import Mathlib.Data.List.Induction

/-!
Lists grouped by a key, in the order of the keys.

A group holds the elements that have its key, in the order of the list.
-/

namespace Lib

universe u v

variable {α : Type u} {κ : Type v} [Ord κ]

def groups (key : α → Option κ) (xs : List α) : Std.TreeMap κ (List α) :=
  xs.foldl (fun groups x =>
    match key x with
    | none => groups
    | some k => groups.alter k fun group => some (group.getD [] ++ [x])) ∅

variable [Std.TransOrd κ] [Std.LawfulEqOrd κ] {key : α → Option κ} {xs : List α}

variable [DecidableEq κ] {k : κ}

theorem getD_groups : (groups key xs)[k]?.getD [] = xs.filter fun x => key x = some k := by
  induction xs using List.reverseRecOn with
  | nil => simp [groups]
  | append_singleton xs x ih =>
    rw [List.filter_append, ← ih]
    simp only [groups, List.foldl_append, List.foldl_cons, List.foldl_nil]
    cases named : key x with
    | none => simp [named]
    | some j =>
      by_cases same : j = k
      · subst same
        simp [named]
      · simp [named, Std.TreeMap.getElem?_alter, same]

variable {ys : List α}

theorem getElem?_groups (found : (groups key xs)[k]? = some ys) : ys = xs.filter fun x => key x = some k := by
  rw [← getD_groups, found]
  rfl

omit [Std.LawfulEqOrd κ] [DecidableEq κ] in
theorem groups_ne_nil (found : (groups key xs)[k]? = some ys) : ys ≠ [] := by
  induction xs using List.reverseRecOn generalizing ys with
  | nil => simp [groups] at found
  | append_singleton xs x ih =>
    simp only [groups, List.foldl_append, List.foldl_cons, List.foldl_nil] at found ih
    cases named : key x with
    | none =>
      rw [named] at found
      exact ih found
    | some j =>
      rw [named, Std.TreeMap.getElem?_alter] at found
      split at found
      · obtain rfl := Option.some.inj found
        simp
      · exact ih found

theorem mem_groups {x : α} (mem : x ∈ xs) (keyed : key x = some k) : ∃ ys, (groups key xs)[k]? = some ys ∧ x ∈ ys := by
  have inside : x ∈ (groups key xs)[k]?.getD [] := by
    rw [getD_groups, List.mem_filter, decide_eq_true_iff]
    exact ⟨mem, keyed⟩
  cases found : (groups key xs)[k]? with
  | none => simp [found] at inside
  | some ys => exact ⟨ys, rfl, by simpa [found] using inside⟩

theorem exists_of_groups (found : (groups key xs)[k]? = some ys) : ∃ x ∈ xs, key x = some k := by
  obtain ⟨x, mem⟩ := List.exists_mem_of_ne_nil _ (groups_ne_nil found)
  rw [getElem?_groups found, List.mem_filter, decide_eq_true_iff] at mem
  exact ⟨x, mem⟩

theorem getElem?_groups_eq_some : (groups key xs)[k]? = some ys ↔ ys = xs.filter (fun x => key x = some k) ∧ ys ≠ [] := by
  constructor
  · exact fun found => ⟨getElem?_groups found, groups_ne_nil found⟩
  · rintro ⟨rfl, nonempty⟩
    obtain ⟨x, mem⟩ := List.exists_mem_of_ne_nil _ nonempty
    rw [List.mem_filter, decide_eq_true_iff] at mem
    obtain ⟨ys, found, -⟩ := mem_groups mem.1 mem.2
    rw [found, getElem?_groups found]

/-- The only element of a key is a group by itself. -/
theorem getElem?_groups_eq_singleton (distinct : xs.Nodup) {x : α} :
    (groups key xs)[k]? = some [x] ↔ x ∈ xs ∧ key x = some k ∧ ∀ y ∈ xs, key y = some k → y = x := by
  have inside : ∀ y, y ∈ xs.filter (fun x => key x = some k) ↔ y ∈ xs ∧ key y = some k := by
    intro y
    rw [List.mem_filter, decide_eq_true_iff]
  rw [getElem?_groups_eq_some]
  constructor
  · rintro ⟨only, -⟩
    have mem := (inside x).mp (only ▸ List.mem_singleton_self x)
    refine ⟨mem.1, mem.2, fun y there keyed => ?_⟩
    have one := (inside y).mpr ⟨there, keyed⟩
    rw [← only] at one
    exact List.mem_singleton.mp one
  · rintro ⟨mem, keyed, only⟩
    refine ⟨?_, List.cons_ne_nil _ _⟩
    refine ((List.perm_ext_iff_of_nodup (distinct.filter _) (List.pairwise_singleton _ x)).mpr fun y => ?_).eq_singleton.symm
    rw [inside, List.mem_singleton]
    constructor
    · exact fun there => only y there.1 there.2
    · rintro rfl
      exact ⟨mem, keyed⟩

/-- Grouping elements beside their keys is grouping them by the keys. -/
theorem getElem?_groups_zip : ((groups Prod.snd (xs.zip (xs.map key))).map fun _ group => group.map Prod.fst)[k]? =
    (groups key xs)[k]? := by
  have pairs : xs.zip (xs.map key) = xs.map fun x => (x, key x) := by
    rw [List.zip_map_right]
    induction xs with
    | nil => rfl
    | cons x rest ih => exact congrArg (_ :: ·) ih
  have filtered : ((xs.zip (xs.map key)).filter fun pair => pair.2 = some k).map Prod.fst =
      xs.filter fun x => key x = some k := by
    rw [pairs, List.filter_map, List.map_map]
    exact List.map_id _
  rw [Std.TreeMap.getElem?_map]
  ext ys
  rw [Option.map_eq_some_iff, getElem?_groups_eq_some, ← filtered]
  constructor
  · rintro ⟨group, found, rfl⟩
    obtain ⟨rfl, nonempty⟩ := getElem?_groups_eq_some.mp found
    exact ⟨rfl, by simpa using nonempty⟩
  · rintro ⟨rfl, nonempty⟩
    exact ⟨_, getElem?_groups_eq_some.mpr ⟨rfl, by simpa using nonempty⟩, rfl⟩

end Lib
