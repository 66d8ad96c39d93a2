import Mathlib.Data.List.Perm.Basic
import Mathlib.Data.List.Nodup

/-!
Lists of rows that are read by a key.

A table is a list whose rows carry a key, and is known by the rows it has under
each key. `foldl_keyed` follows one key through a sequence of updates that each
touch the rows of one key only; `perm_of_keyed` puts the rows of all keys back
together.
-/

namespace Lib

universe u v w x

variable {α : Type u} {κ : Type v} {σ : Type w} {β : Type x} [DecidableEq κ]

theorem perm_of_keyed (key : α → κ) {xs ys : List α}
    (same : ∀ k, (xs.filter fun a => key a = k).Perm (ys.filter fun a => key a = k)) : xs.Perm ys := by
  classical
  refine List.perm_iff_count.mpr fun a => ?_
  have count : ∀ zs : List α, zs.count a = (zs.filter fun b => key b = key a).count a := by
    intro zs
    rw [List.count_filter (by simp)]
  rw [count xs, count ys]
  exact (same (key a)).count_eq a

/-- A sequence of updates that each touch one key: what is seen under a key
afterwards is what its own updates make of what was seen before. -/
theorem foldl_keyed {apply : σ → α → σ} {key : α → κ} (view : σ → κ → β) (leaves : α → β → β)
    (one : ∀ s a k, view (apply s a) k = if key a = k then leaves a (view s k) else view s k)
    (as : List α) (s : σ) (k : κ) :
    view (as.foldl apply s) k =
      (as.filter fun a => key a = k).foldl (fun b a => leaves a b) (view s k) := by
  induction as generalizing s with
  | nil => rfl
  | cons a rest ih =>
    rw [List.foldl_cons, ih, one]
    by_cases h : key a = k
    · simp [h]
    · simp [h]

variable {f : κ → Option α}

/-- The rows under a key of a table that is computed from a list of distinct
keys, at most one row for each. -/
theorem filter_filterMap_keyed {key : α → κ}
    (named : ∀ k a, f k = some a → key a = k) {ks : List κ} (distinct : ks.Nodup) (k : κ) :
    (ks.filterMap f).filter (fun a => key a = k) = if k ∈ ks then (f k).toList else [] := by
  induction ks with
  | nil => rfl
  | cons l rest ih =>
    obtain ⟨fresh, distinct⟩ := List.nodup_cons.mp distinct
    have ih := ih distinct
    by_cases h : k = l
    · subst h
      rw [if_neg fresh] at ih
      cases hf : f k with
      | none => simp [hf, ih]
      | some a => simp [hf, ih, named k a hf]
    · have skip : k ∈ l :: rest ↔ k ∈ rest := by simp [h]
      cases hf : f l with
      | none => simp [hf, ih, skip]
      | some a =>
        have other : key a ≠ k := fun eq => h (eq.symm.trans (named l a hf))
        simp [hf, ih, skip, other]

omit [DecidableEq κ] in
theorem map_filterMap_keyed_sublist {key : α → κ}
    (named : ∀ k a, f k = some a → key a = k) (ks : List κ) : ((ks.filterMap f).map key).Sublist ks := by
  induction ks with
  | nil => exact .slnil
  | cons k rest ih =>
    cases hf : f k with
    | none => simpa [hf] using ih.cons k
    | some a => simpa [hf, named k a hf] using ih.cons_cons k

theorem find?_filter_ne {key : α → κ} (xs : List α) (k l : κ) :
    (xs.filter fun a => key a ≠ l).find? (fun a => key a = k) =
      if k = l then none else xs.find? fun a => key a = k := by
  induction xs with
  | nil => simp
  | cons a rest ih =>
    by_cases h : key a = l
    · by_cases hk : k = l
      · simp [hk]
      · have : l ≠ k := fun eq => hk eq.symm
        simpa [h, hk, this] using ih
    · by_cases hk : k = l
      · simp [hk]
      · by_cases hak : key a = k
        · simp [hak, hk]
        · simpa [h, hak, hk] using ih

theorem filter_filter_ne {key : α → κ} (xs : List α) (k l : κ) :
    (xs.filter fun a => key a ≠ l).filter (fun a => key a = k) =
      if k = l then [] else xs.filter fun a => key a = k := by
  rw [List.filter_filter]
  by_cases h : k = l
  · subst h
    simp
  · rw [if_neg h]
    refine List.filter_congr fun a _ => ?_
    by_cases hak : key a = k
    · have : key a ≠ l := fun eq => h (hak.symm.trans eq)
      simp [hak, h]
    · simp [hak]

/-- Taking some rows out and putting their images at the end is, up to order, mapping
them in place. -/
theorem filter_append_map_perm (p : α → Bool) (f : α → α) (xs : List α) :
    (xs.filter (fun a => !p a) ++ (xs.filter p).map f).Perm
      (xs.map fun a => if p a then f a else a) := by
  induction xs with
  | nil => exact .nil
  | cons a rest ih =>
    cases h : p a with
    | true => simpa [h] using List.perm_middle.trans (ih.cons (f a))
    | false => simpa [h] using ih.cons a

omit [DecidableEq κ] in
/-- Where keys are distinct, a row is among the selected ones if its key is. -/
theorem mem_map_filter_of_nodup {key : α → κ} {p : α → Bool} {rows : List α} {row : α}
    (nodup : (rows.map key).Nodup) (mem : row ∈ rows) : key row ∈ (rows.filter p).map key ↔ p row = true := by
  constructor
  · intro found
    obtain ⟨other, selected, same⟩ := List.mem_map.mp found
    obtain ⟨stored, holds⟩ := List.mem_filter.mp selected
    rwa [← List.inj_on_of_nodup_map nodup stored mem same]
  · exact fun holds => List.mem_map_of_mem (List.mem_filter.mpr ⟨mem, holds⟩)

section Insert

variable {ε : Type} {key : α → κ} {e : ε} {rows rows' : List α}

def insertUnique (key : α → κ) (e : ε) (rows : List α) (row : α) : Except ε (List α) :=
  if key row ∈ rows.map key then .error e else .ok (rows ++ [row])

theorem insertUnique_eq_ok {row : α} :
    insertUnique key e rows row = .ok rows' ↔ key row ∉ rows.map key ∧ rows' = rows ++ [row] := by
  unfold insertUnique
  by_cases taken : key row ∈ rows.map key
  · simp [taken]
  · simp [taken, eq_comm]

theorem insertUnique_all_eq_ok (distinct : (rows.map key).Nodup) {new : List α} :
    new.foldlM (insertUnique key e) rows = .ok rows' ↔ ((rows ++ new).map key).Nodup ∧ rows' = rows ++ new := by
  induction new generalizing rows with
  | nil => simp [pure, Except.pure, distinct, eq_comm]
  | cons row rest ih =>
    rw [List.foldlM_cons, List.append_cons]
    unfold insertUnique
    by_cases taken : key row ∈ rows.map key
    · rw [if_pos taken]
      constructor
      · intro run
        cases run
      · rintro ⟨nodup, _⟩
        rw [List.append_assoc, List.map_append] at nodup
        exact absurd rfl ((List.nodup_append.mp nodup).2.2 _ taken _ (by simp))
    · rw [if_neg taken]
      refine ih ?_
      rw [List.map_append]
      exact List.nodup_append.mpr ⟨distinct, by simp, by simpa using taken⟩

end Insert

theorem update_eq_some {f : κ → Option β} {k l : κ} {v : Option β} {b : β} :
    Function.update f k v l = some b ↔ (l = k ∧ v = some b) ∨ (l ≠ k ∧ f l = some b) := by
  by_cases h : l = k
  · subst h
    simp
  · simp [h]

section Writes

variable {f : κ → β} {write : α → Option (κ × β)} {xs : List α} {k : κ}

/-- A map after each element of a list has written to it, or has not. -/
def writeEach (write : α → Option (κ × β)) (f : κ → β) (xs : List α) : κ → β :=
  xs.foldl (fun f a => (write a).elim f fun w => Function.update f w.1 w.2) f

theorem writeEach_of_unwritten (unwritten : ∀ a ∈ xs, ∀ w, write a = some w → w.1 ≠ k) :
    writeEach write f xs k = f k := by
  induction xs generalizing f with
  | nil => rfl
  | cons a rest ih =>
    have later := ih (f := (write a).elim f fun w => Function.update f w.1 w.2)
      fun b mem => unwritten b (List.mem_cons_of_mem _ mem)
    refine later.trans ?_
    cases written : write a with
    | none => rfl
    | some w => exact Function.update_of_ne (unwritten a List.mem_cons_self w written).symm _ _

theorem writeEach_of_last {i : Nat} {a : α} {v : β} (entry : xs[i]? = some a) (writes : write a = some (k, v))
    (last : ∀ (j : Nat) b, i < j → xs[j]? = some b → ∀ w, write b = some w → w.1 ≠ k) :
    writeEach write f xs k = v := by
  induction xs generalizing f i with
  | nil => cases entry
  | cons b rest ih =>
    cases i with
    | zero =>
      obtain rfl : b = a := Option.some.inj entry
      have later : ∀ c ∈ rest, ∀ w, write c = some w → w.1 ≠ k := by
        intro c mem
        obtain ⟨j, position⟩ := List.mem_iff_getElem?.mp mem
        exact last (j + 1) c (Nat.succ_pos j) position
      have kept := writeEach_of_unwritten (f := (write b).elim f fun w => Function.update f w.1 w.2) later
      refine kept.trans ?_
      rw [writes]
      exact Function.update_self ..
    | succ i =>
      exact ih entry fun j c later position => last (j + 1) c (Nat.succ_lt_succ later) position

theorem exists_last {p : α → Prop} {a : α} (mem : a ∈ xs) (holds : p a) :
    ∃ (i : Nat) (b : α), xs[i]? = some b ∧ p b ∧ ∀ j c, i < j → xs[j]? = some c → ¬ p c := by
  induction xs generalizing a with
  | nil => cases mem
  | cons b rest ih =>
    by_cases later : ∃ c ∈ rest, p c
    · obtain ⟨c, inRest, pc⟩ := later
      obtain ⟨i, d, position, pd, last⟩ := ih inRest pc
      refine ⟨i + 1, d, position, pd, fun j e below found => ?_⟩
      cases j with
      | zero => cases below
      | succ j => exact last j e (Nat.lt_of_succ_lt_succ below) found
    · have here : p b := by
        rcases List.mem_cons.mp mem with rfl | inRest
        · exact holds
        · exact absurd ⟨a, inRest, holds⟩ later
      refine ⟨0, b, rfl, here, fun j c below found pc => later ?_⟩
      cases j with
      | zero => cases below
      | succ j => exact ⟨c, List.mem_of_getElem? found, pc⟩

theorem writeEach_cases (write : α → Option (κ × β)) (f : κ → β) (xs : List α) (k : κ) :
    writeEach write f xs k = f k ∨ ∃ a ∈ xs, write a = some (k, writeEach write f xs k) := by
  by_cases written : ∃ a ∈ xs, ∃ v, write a = some (k, v)
  · obtain ⟨a, mem, v, writes⟩ := written
    obtain ⟨i, b, entry, ⟨w, wrote⟩, last⟩ :=
      exists_last (p := fun b => ∃ v, write b = some (k, v)) mem ⟨v, writes⟩
    have value := writeEach_of_last (f := f) entry wrote fun j c later found w' writes' same =>
      last j c later found ⟨w'.2, by rw [writes', ← same]⟩
    exact .inr ⟨b, List.mem_of_getElem? entry, by rw [value, wrote]⟩
  · refine .inl (writeEach_of_unwritten fun a mem w writes same => written ⟨a, mem, w.2, ?_⟩)
    rw [writes, ← same]

end Writes

end Lib
