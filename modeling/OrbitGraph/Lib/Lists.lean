import Mathlib.Data.List.Destutter

/-!
Facts about lists that more than one model needs.
-/

namespace Lib

universe u v

variable {α : Type u} {β : Type v}

variable {xs : List α}

theorem mem_destutter [DecidableEq α] {x : α} (mem : x ∈ xs) : x ∈ xs.destutter (· ≠ ·) := by
  cases xs with
  | nil => cases mem
  | cons first rest =>
    rw [List.destutter_cons']
    induction rest generalizing first with
    | nil => simpa using mem
    | cons second rest ih =>
      by_cases same : first = second
      · subst same
        rw [List.destutter'_cons_neg _ (by simp)]
        refine ih first ?_
        rcases List.mem_cons.mp mem with rfl | mem
        · exact List.mem_cons_self
        · exact mem
      · rw [List.destutter'_cons_pos _ same]
        rcases List.mem_cons.mp mem with rfl | mem
        · exact List.mem_cons_self
        · exact List.mem_cons_of_mem first (ih second mem)

theorem filterMap_cons_toList (f : α → Option β) (x : α) (rest : List α) :
    (x :: rest).filterMap f = (f x).toList ++ rest.filterMap f := by
  cases found : f x with
  | none => exact List.filterMap_cons_none found
  | some y => exact List.filterMap_cons_some found

theorem filterMap_append_perm {f g h : α → Option β} (parts : ∀ x, ((f x).toList ++ (g x).toList).Perm (h x).toList)
    (xs : List α) : (xs.filterMap f ++ xs.filterMap g).Perm (xs.filterMap h) := by
  induction xs with
  | nil => exact .nil
  | cons x rest ih =>
    rw [filterMap_cons_toList f, filterMap_cons_toList g, filterMap_cons_toList h]
    have swapped : ((f x).toList ++ rest.filterMap f ++ ((g x).toList ++ rest.filterMap g)).Perm
        ((f x).toList ++ (g x).toList ++ (rest.filterMap f ++ rest.filterMap g)) := by
      rw [List.append_assoc, List.append_assoc]
      apply List.Perm.append_left
      rw [← List.append_assoc, ← List.append_assoc]
      exact List.perm_append_comm.append_right _
    exact swapped.trans ((parts x).append ih)

variable {p : α → Bool}

theorem le_countP_iff {n : Nat} :
    n ≤ xs.countP p ↔ ∃ ys : List α, ys.Sublist xs ∧ ys.length = n ∧ ∀ y ∈ ys, p y = true := by
  constructor
  · intro many
    rw [List.countP_eq_length_filter] at many
    refine ⟨(xs.filter p).take n, (List.take_sublist _ _).trans List.filter_sublist, ?_, fun y mem => ?_⟩
    · rw [List.length_take, Nat.min_eq_left many]
    · exact (List.mem_filter.mp (List.mem_of_mem_take mem)).2
  · rintro ⟨ys, part, rfl, all⟩
    rw [← List.countP_eq_length.mpr all]
    exact part.countP_le

/-- A filter that drops no more than another has the same result only if it is the same. -/
theorem filterMap_eq_filterMap_iff {f g : α → Option β}
    (fewer : ∀ x ∈ xs, (g x).isSome → (f x).isSome) : xs.filterMap f = xs.filterMap g ↔ ∀ x ∈ xs, f x = g x := by
  refine ⟨fun same => ?_, List.filterMap_congr⟩
  induction xs with
  | nil => exact nofun
  | cons x rest ih =>
    have fewer' := fun y mem => fewer y (List.mem_cons_of_mem x mem)
    have shorter : (rest.filterMap g).length ≤ (rest.filterMap f).length := by
      rw [List.length_filterMap_eq_countP, List.length_filterMap_eq_countP]
      exact List.countP_mono_left fewer'
    have kept := fewer x List.mem_cons_self
    rw [List.forall_mem_cons]
    cases ours : f x with
    | none =>
      cases theirs : g x with
      | none =>
        rw [List.filterMap_cons_none ours, List.filterMap_cons_none theirs] at same
        exact ⟨rfl, ih fewer' same⟩
      | some b => simp [ours, theirs] at kept
    | some a =>
      cases theirs : g x with
      | none =>
        rw [List.filterMap_cons_some ours, List.filterMap_cons_none theirs] at same
        rw [← same, List.length_cons] at shorter
        omega
      | some b =>
        rw [List.filterMap_cons_some ours, List.filterMap_cons_some theirs] at same
        obtain ⟨head, tail⟩ := List.cons.inj same
        exact ⟨congrArg some head, ih fewer' tail⟩

theorem get_set {i j : Nat} {a b : α} (found : (xs.set i a)[j]? = some b) :
    (j = i ∧ b = a) ∨ (j ≠ i ∧ xs[j]? = some b) := by
  rw [List.getElem?_set] at found
  split at found
  next same =>
    split at found
    next => exact .inl ⟨same.symm, (Option.some.inj found).symm⟩
    next => cases found
  next apart => exact .inr ⟨fun same => apart same.symm, found⟩

theorem mem_set {i : Nat} {a b : α} (mem : b ∈ xs.set i a) : b = a ∨ ∃ j, j ≠ i ∧ xs[j]? = some b := by
  obtain ⟨j, found⟩ := List.mem_iff_getElem?.mp mem
  exact (get_set found).imp (fun h => h.2) fun h => ⟨j, h⟩

theorem exists_of_forall₂ {R : α → β → Prop} {ys : List β} (related : List.Forall₂ R xs ys) {y : β}
    (mem : y ∈ ys) : ∃ x ∈ xs, R x y := by
  induction related with
  | nil => cases mem
  | cons first _ ih =>
    rcases List.mem_cons.mp mem with rfl | mem
    · exact ⟨_, List.mem_cons_self, first⟩
    · obtain ⟨x, inside, same⟩ := ih mem
      exact ⟨x, List.mem_cons_of_mem _ inside, same⟩

/-! ### Cuts by a test -/

theorem takeWhile_cut (p : α → Bool) (xs : List α) :
    ∃ rest, xs = xs.takeWhile p ++ rest ∧ ∀ a, rest.head? = some a → p a = false := by
  refine ⟨xs.dropWhile p, List.takeWhile_append_dropWhile.symm, fun a head => ?_⟩
  induction xs with
  | nil => cases head
  | cons b rest ih =>
    cases passes : p b with
    | true => exact ih (by rwa [List.dropWhile_cons, if_pos passes] at head)
    | false =>
      rw [List.dropWhile_cons, passes, if_neg Bool.false_ne_true] at head
      rw [← Option.some.inj head, passes]

theorem takeWhile_of_lt (stops : (xs.takeWhile p).length < xs.length) :
    ∃ a rest, xs = xs.takeWhile p ++ a :: rest ∧ p a = false := by
  obtain ⟨rest, whole, head⟩ := takeWhile_cut p xs
  cases rest with
  | nil =>
    rw [List.append_nil] at whole
    rw [← whole] at stops
    exact absurd stops (Nat.lt_irrefl _)
  | cons a rest => exact ⟨a, rest, whole, head a rfl⟩

theorem takeWhile_length_lt_iff : (xs.takeWhile fun a => !p a).length < xs.length ↔ xs.any p = true := by
  constructor
  · intro stops
    obtain ⟨a, rest, whole, stop⟩ := takeWhile_of_lt stops
    refine List.any_eq_true.mpr ⟨a, ?_, by simpa using stop⟩
    rw [whole]
    exact List.mem_append_right _ List.mem_cons_self
  · intro some
    refine Nat.lt_of_le_of_ne (List.takeWhile_sublist _).length_le fun same => ?_
    obtain ⟨a, mem, passes⟩ := List.any_eq_true.mp some
    have all := List.all_takeWhile (p := fun a => !p a) (l := xs)
    rw [(List.takeWhile_prefix _).eq_of_length same] at all
    have fails := List.all_eq_true.mp all a mem
    rw [passes] at fails
    cases fails

theorem takeWhile_append_stop (passes : ∀ a ∈ xs, p a = true) {a : α} (stop : p a = false)
    (rest : List α) : (xs ++ a :: rest).takeWhile p = xs := by
  rw [List.takeWhile_append_of_pos passes, List.takeWhile_cons, stop, if_neg Bool.false_ne_true, List.append_nil]

/-! ### First occurrences -/

/-- The elements that are not seen before. -/
def retainUnseen [DecidableEq α] : List α → List α → List α
  | _, [] => []
  | seen, x :: rest => if x ∈ seen then retainUnseen seen rest else x :: retainUnseen (x :: seen) rest

theorem mem_retainUnseen [DecidableEq α] {seen xs : List α} {x : α} : x ∈ retainUnseen seen xs ↔ x ∈ xs ∧ x ∉ seen := by
  induction xs generalizing seen with
  | nil => exact ⟨fun mem => (List.not_mem_nil mem).elim, fun both => (List.not_mem_nil both.1).elim⟩
  | cons y rest ih =>
    rw [retainUnseen]
    rcases Decidable.em (y ∈ seen) with known | new
    · rw [if_pos known, ih, List.mem_cons]
      refine and_congr_left fun unseen => ⟨.inr, fun mem => mem.resolve_left ?_⟩
      rintro rfl
      exact unseen known
    · rw [if_neg new, List.mem_cons, ih, List.mem_cons, List.mem_cons, not_or]
      rcases Decidable.em (x = y) with rfl | other
      · exact ⟨fun _ => ⟨.inl rfl, new⟩, fun _ => .inl rfl⟩
      · exact ⟨fun mem => ((mem.resolve_left other).imp .inr And.right),
          fun both => .inr ⟨both.1.resolve_left other, other, both.2⟩⟩

theorem nodup_retainUnseen [DecidableEq α] (seen xs : List α) : (retainUnseen seen xs).Nodup := by
  induction xs generalizing seen with
  | nil => exact List.nodup_nil
  | cons y rest ih =>
    rw [retainUnseen]
    split
    · exact ih seen
    · refine List.nodup_cons.mpr ⟨fun mem => ?_, ih (y :: seen)⟩
      exact (mem_retainUnseen.mp mem).2 List.mem_cons_self

theorem length_retainUnseen_le [DecidableEq α] (seen xs : List α) : (retainUnseen seen xs).length ≤ xs.length := by
  induction xs generalizing seen with
  | nil => exact Nat.le_refl _
  | cons y rest ih =>
    rw [retainUnseen]
    split
    · exact Nat.le_succ_of_le (ih seen)
    · exact Nat.succ_le_succ (ih (y :: seen))

end Lib
