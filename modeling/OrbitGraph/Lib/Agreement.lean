import Mathlib.Data.List.Perm.Basic

/-!
Lists that agree up to order and a relation on their elements.

`Agree R xs ys` pairs every element of `xs` with one element of `ys` that it is
related to. A query whose result is unordered, and whose rows are known only up
to some identity, answers two databases in agreeing lists; every operation that
looks at a list only through its members and their number keeps the agreement.
-/

namespace Lib

universe u v w x

variable {α : Type u} {β : Type v} {γ : Type w} {δ : Type x}

/-- The elements of `xs` and `ys` correspond one to one under `R`, in some
order. -/
def Agree (R : α → β → Prop) (xs : List α) (ys : List β) : Prop :=
  ∃ zs, xs.Perm zs ∧ List.Forall₂ R zs ys

/-- The only element of a list that has exactly one. -/
def uniqueElem : List α → Option α
  | [a] => some a
  | _ => none

theorem uniqueElem_eq_some {xs : List α} {a : α} : uniqueElem xs = some a ↔ xs = [a] := by
  cases xs with
  | nil => simp [uniqueElem]
  | cons b rest =>
    cases rest with
    | nil | cons c rest => simp [uniqueElem]

variable {R : α → β → Prop}

theorem optionRel_cases {a : Option α} {b : Option β}
    (h : Option.Rel R a b) : (a = none ∧ b = none) ∨ ∃ x y, a = some x ∧ b = some y ∧ R x y := by
  cases h with
  | none => exact .inl ⟨rfl, rfl⟩
  | some rel => exact .inr ⟨_, _, rfl, rfl, rel⟩

variable {S : γ → δ → Prop}

theorem optionRel_map {f : α → γ} {g : β → δ}
    {a : Option α} {b : Option β} (h : Option.Rel R a b) (same : ∀ x y, R x y → S (f x) (g y)) :
    Option.Rel S (a.map f) (b.map g) := by
  cases h with
  | none => exact .none
  | some rel => exact .some (same _ _ rel)

theorem optionRel_bind {f : α → Option γ}
    {g : β → Option δ} {a : Option α} {b : Option β} (h : Option.Rel R a b)
    (same : ∀ x y, R x y → Option.Rel S (f x) (g y)) : Option.Rel S (a.bind f) (b.bind g) := by
  cases h with
  | none => exact .none
  | some rel => exact same _ _ rel

namespace Agree

variable {R : α → β → Prop} {S : γ → δ → Prop}

theorem nil : Agree R [] [] := ⟨[], List.Perm.refl _, .nil⟩

variable {ys : List β} {xs : List α}

theorem of_forall₂ (h : List.Forall₂ R xs ys) : Agree R xs ys :=
  ⟨xs, List.Perm.refl _, h⟩

theorem of_perm {xs ys : List α} (h : xs.Perm ys) : Agree (· = ·) xs ys :=
  ⟨ys, h, List.forall₂_same.mpr fun _ _ => rfl⟩

theorem mono {R' : α → β → Prop} (sub : ∀ a ∈ xs, ∀ b ∈ ys, R a b → R' a b) (h : Agree R xs ys) : Agree R' xs ys := by
  obtain ⟨zs, perm, rel⟩ := h
  refine ⟨zs, perm, ?_⟩
  have inXs : ∀ a ∈ zs, a ∈ xs := fun a ha => perm.mem_iff.mpr ha
  clear perm
  induction rel with
  | nil => exact .nil
  | @cons a b as bs hab _ ih =>
    refine .cons (sub a (inXs a List.mem_cons_self) b List.mem_cons_self hab) (ih ?_ ?_)
    · exact fun a' ha' b' hb' => sub a' ha' b' (List.mem_cons_of_mem _ hb')
    · exact fun a' ha' => inXs a' (List.mem_cons_of_mem _ ha')

theorem length_eq (h : Agree R xs ys) : xs.length = ys.length := by
  obtain ⟨zs, perm, rel⟩ := h
  exact perm.length_eq.trans rel.length_eq

theorem isEmpty_eq (h : Agree R xs ys) : xs.isEmpty = ys.isEmpty := by
  have len := h.length_eq
  cases xs <;> cases ys <;> simp_all

variable {q : β → Bool} {p : α → Bool}

theorem filter (same : ∀ a b, R a b → p a = q b) (h : Agree R xs ys) : Agree R (xs.filter p) (ys.filter q) := by
  obtain ⟨zs, perm, rel⟩ := h
  refine ⟨zs.filter p, perm.filter p, ?_⟩
  clear perm
  induction rel with
  | nil => exact .nil
  | @cons a b as bs hab _ ih =>
    cases hp : p a with
    | true => simpa [hp, ← same a b hab] using List.Forall₂.cons hab ih
    | false => simpa [hp, ← same a b hab] using ih

theorem filterMap {f : α → Option γ} {g : β → Option δ}
    (same : ∀ a b, R a b → Option.Rel S (f a) (g b)) (h : Agree R xs ys) :
    Agree S (xs.filterMap f) (ys.filterMap g) := by
  obtain ⟨zs, perm, rel⟩ := h
  refine ⟨zs.filterMap f, perm.filterMap f, ?_⟩
  clear perm
  induction rel with
  | nil => exact .nil
  | @cons a b as bs hab _ ih =>
    have hfg := same a b hab
    cases hf : f a <;> cases hg : g b <;> rw [hf, hg] at hfg
    · simpa [hf, hg] using ih
    · cases hfg
    · cases hfg
    · cases hfg with
      | some hcd => simpa [hf, hg] using List.Forall₂.cons hcd ih

variable {f : α → γ}

theorem map {g : β → δ}
    (same : ∀ a b, R a b → S (f a) (g b)) (h : Agree R xs ys) : Agree S (xs.map f) (ys.map g) := by
  obtain ⟨zs, perm, rel⟩ := h
  refine ⟨zs.map f, perm.map f, ?_⟩
  exact List.forall₂_map_left_iff.mpr (List.forall₂_map_right_iff.mpr (rel.imp fun a b => same a b))

theorem exists_right (h : Agree R xs ys) {a : α} (ha : a ∈ xs) : ∃ b ∈ ys, R a b := by
  obtain ⟨zs, perm, rel⟩ := h
  have ha' := perm.mem_iff.mp ha
  clear perm ha
  induction rel with
  | nil => cases ha'
  | @cons c b _ _ hcb _ ih =>
    rcases List.mem_cons.mp ha' with rfl | mem
    · exact ⟨b, List.mem_cons_self, hcb⟩
    · obtain ⟨b', hb', rel'⟩ := ih mem
      exact ⟨b', List.mem_cons_of_mem _ hb', rel'⟩

theorem exists_left (h : Agree R xs ys) {b : β} (hb : b ∈ ys) : ∃ a ∈ xs, R a b := by
  obtain ⟨zs, perm, rel⟩ := h
  have : ∃ a ∈ zs, R a b := by
    clear perm
    induction rel with
    | nil => cases hb
    | @cons a c _ _ hac _ ih =>
      rcases List.mem_cons.mp hb with rfl | mem
      · exact ⟨a, List.mem_cons_self, hac⟩
      · obtain ⟨a', ha', rel'⟩ := ih mem
        exact ⟨a', List.mem_cons_of_mem _ ha', rel'⟩
  obtain ⟨a, ha, rel'⟩ := this
  exact ⟨a, perm.mem_iff.mpr ha, rel'⟩

theorem any_eq (same : ∀ a b, R a b → p a = q b) (h : Agree R xs ys) : xs.any p = ys.any q := by
  rw [Bool.eq_iff_iff, List.any_eq_true, List.any_eq_true]
  constructor
  · rintro ⟨a, ha, hp⟩
    obtain ⟨b, hb, rel⟩ := h.exists_right ha
    exact ⟨b, hb, (same a b rel) ▸ hp⟩
  · rintro ⟨b, hb, hq⟩
    obtain ⟨a, ha, rel⟩ := h.exists_left hb
    exact ⟨a, ha, (same a b rel).symm ▸ hq⟩

theorem all_eq (same : ∀ a b, R a b → p a = q b) (h : Agree R xs ys) : xs.all p = ys.all q := by
  have := h.any_eq (p := fun a => !p a) (q := fun b => !q b) fun a b rel => by rw [same a b rel]
  rw [List.all_eq_not_any_not, List.all_eq_not_any_not, this]

theorem uniqueElem (h : Agree R xs ys) : Option.Rel R (Lib.uniqueElem xs) (Lib.uniqueElem ys) := by
  obtain ⟨zs, perm, rel⟩ := h
  cases rel with
  | nil =>
    rw [List.Perm.eq_nil perm]
    exact .none
  | @cons a b as bs hab rest =>
    cases rest with
    | nil =>
      rw [List.perm_singleton.mp perm]
      exact .some hab
    | @cons a' b' as' bs' _ _ =>
      have len := perm.length_eq
      match xs, len with
      | x :: y :: xs', _ => exact .none

/-- Two lists with the same images, in some order, agree on having the same
image. -/
theorem of_perm_map {g : β → γ} (perm : (xs.map f).Perm (ys.map g)) : Agree (fun a b => f a = g b) xs ys := by
  have left : List.Forall₂ (fun a c => f a = c) xs (xs.map f) :=
    List.forall₂_map_right_iff.mpr (List.forall₂_same.mpr fun _ _ => rfl)
  have comp : Relation.Comp (List.Forall₂ fun a c => f a = c) List.Perm xs (ys.map g) :=
    ⟨xs.map f, left, perm⟩
  rw [List.forall₂_comp_perm_eq_perm_comp_forall₂] at comp
  obtain ⟨zs, hperm, hrel⟩ := comp
  exact ⟨zs, hperm, List.forall₂_map_right_iff.mp hrel⟩

theorem perm_map {g : β → γ} (same : ∀ a b, R a b → f a = g b) (h : Agree R xs ys) : (xs.map f).Perm (ys.map g) := by
  obtain ⟨zs, perm, rel⟩ := h
  have : zs.map f = ys.map g := by
    clear perm
    induction rel with
    | nil => rfl
    | @cons a b _ _ hab _ ih => simp [same a b hab, ih]
  exact this ▸ perm.map f

end Agree

end Lib
