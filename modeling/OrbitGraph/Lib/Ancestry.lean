import Mathlib.Data.Finset.Card

/-!
Ancestors in an acyclic graph, and how many lie between two elements.

The distance of an element from one of its descendants is the number of ancestors that
the descendant has and it has not. Distances add up along a line of descent, and a sole
parent is at distance one.
-/

namespace Lib

universe u

/-- Elements with parents; every parent is lower. -/
structure Ancestry (α : Type u) where
  parents : α → List α
  rank : α → Nat
  descends : ∀ a, ∀ p ∈ parents a, rank p < rank a

namespace Ancestry

variable {α : Type u} [DecidableEq α] (G : Ancestry α)

/-- An element and its ancestors, so many generations up. -/
def within : Nat → α → Finset α
  | 0, a => {a}
  | n + 1, a => insert a ((G.parents a).foldr (fun p found => within n p ∪ found) ∅)

def ancestors (a : α) : Finset α := G.within (G.rank a) a

/-- The elements that the descendant `b` comes from and `a` does not. -/
def distance (a b : α) : Nat := (G.ancestors b \ G.ancestors a).card

variable {G} {a b c p : α}

theorem mem_foldr_union (f : α → Finset α) (xs : List α) :
    b ∈ xs.foldr (fun p found => f p ∪ found) ∅ ↔ ∃ p ∈ xs, b ∈ f p := by
  induction xs with
  | nil => simp
  | cons x rest ih => rw [List.foldr_cons, Finset.mem_union, ih, List.exists_mem_cons_iff]

/-- Generations beyond the rank add nothing. -/
theorem within_eq {n : Nat} (enough : G.rank a ≤ n) : G.within n a = G.ancestors a := by
  have same : ∀ m n (a : α), G.rank a ≤ m → G.rank a ≤ n → G.within m a = G.within n a := by
    intro m
    induction m with
    | zero =>
      intro n a low _
      have none : G.parents a = [] := by
        rw [List.eq_nil_iff_forall_not_mem]
        intro p mem
        have := G.descends a p mem
        omega
      cases n <;> simp [within, none]
    | succ m ih =>
      intro n a low high
      ext b
      cases n with
      | zero =>
        have none : G.parents a = [] := by
          rw [List.eq_nil_iff_forall_not_mem]
          intro p mem
          have := G.descends a p mem
          omega
        simp [within, none]
      | succ n =>
        rw [within, within, Finset.mem_insert, Finset.mem_insert, mem_foldr_union, mem_foldr_union]
        refine or_congr_right (exists_congr fun p => and_congr_right fun mem => ?_)
        have lower := G.descends a p mem
        rw [ih n p (by omega) (by omega)]
  exact same n (G.rank a) a enough le_rfl

theorem mem_ancestors : b ∈ G.ancestors a ↔ b = a ∨ ∃ p ∈ G.parents a, b ∈ G.ancestors p := by
  rw [← within_eq (Nat.le_succ (G.rank a)), within, Finset.mem_insert, mem_foldr_union]
  refine or_congr_right (exists_congr fun p => and_congr_right fun mem => ?_)
  rw [within_eq (G.descends a p mem).le]

theorem self_mem_ancestors (a : α) : a ∈ G.ancestors a := by
  rw [mem_ancestors]
  exact .inl rfl

theorem parent_mem_ancestors (mem : p ∈ G.parents a) : p ∈ G.ancestors a := by
  rw [mem_ancestors]
  exact .inr ⟨p, mem, self_mem_ancestors p⟩

theorem mem_ancestors_iff_reach : b ∈ G.ancestors a ↔ Relation.ReflTransGen (fun x y => y ∈ G.parents x) a b := by
  constructor
  · intro mem
    induction rank : G.rank a using Nat.strongRecOn generalizing a with
    | _ n ih =>
      rw [mem_ancestors] at mem
      rcases mem with rfl | ⟨p, isParent, mem⟩
      · exact .refl
      · exact .head isParent (ih (G.rank p) (rank ▸ G.descends a p isParent) mem rfl)
  · intro reach
    induction reach using Relation.ReflTransGen.head_induction_on with
    | refl => exact self_mem_ancestors b
    | head isParent _ ih =>
      rw [mem_ancestors]
      exact .inr ⟨_, isParent, ih⟩

theorem ancestors_subset (mem : b ∈ G.ancestors a) : G.ancestors b ⊆ G.ancestors a := by
  intro _ further
  rw [mem_ancestors_iff_reach] at *
  exact mem.trans further

theorem rank_le (mem : b ∈ G.ancestors a) : G.rank b ≤ G.rank a := by
  rw [mem_ancestors_iff_reach] at mem
  induction mem with
  | refl => exact le_rfl
  | tail _ isParent ih => exact (G.descends _ _ isParent).le.trans ih

theorem distance_self (a : α) : G.distance a a = 0 := by rw [distance, Finset.sdiff_self, Finset.card_empty]

theorem distance_add (near : b ∈ G.ancestors c) (far : a ∈ G.ancestors b) :
    G.distance a c = G.distance b c + G.distance a b := by
  have split : G.ancestors c \ G.ancestors a = (G.ancestors c \ G.ancestors b) ∪ (G.ancestors b \ G.ancestors a) := by
    ext x
    rw [Finset.mem_sdiff, Finset.mem_union, Finset.mem_sdiff, Finset.mem_sdiff]
    constructor
    · rintro ⟨inC, notA⟩
      by_cases inB : x ∈ G.ancestors b
      · exact .inr ⟨inB, notA⟩
      · exact .inl ⟨inC, inB⟩
    · rintro (⟨inC, notB⟩ | ⟨inB, notA⟩)
      · exact ⟨inC, fun inA => notB (ancestors_subset far inA)⟩
      · exact ⟨ancestors_subset near inB, notA⟩
  have disjoint : Disjoint (G.ancestors c \ G.ancestors b) (G.ancestors b \ G.ancestors a) :=
    Finset.disjoint_left.mpr fun x left right => (Finset.mem_sdiff.mp left).2 (Finset.mem_sdiff.mp right).1
  rw [distance, split, Finset.card_union_of_disjoint disjoint]
  rfl

theorem distance_sole (sole : G.parents b = [p]) : G.distance p b = 1 := by
  have only : G.ancestors b \ G.ancestors p = {b} := by
    ext x
    rw [Finset.mem_sdiff, mem_ancestors, sole, Finset.mem_singleton]
    constructor
    · rintro ⟨rfl | ⟨q, mem, inQ⟩, notP⟩
      · rfl
      · exact absurd (List.mem_singleton.mp mem ▸ inQ) notP
    · rintro rfl
      refine ⟨.inl rfl, fun mem => ?_⟩
      have lower := G.descends x p (sole ▸ List.mem_singleton_self p)
      have := rank_le mem
      omega
  rw [distance, only, Finset.card_singleton]

theorem distance_pos (mem : a ∈ G.ancestors b) (proper : a ≠ b) : 0 < G.distance a b := by
  rw [distance, Finset.card_pos]
  refine ⟨b, Finset.mem_sdiff.mpr ⟨self_mem_ancestors b, fun back => proper ?_⟩⟩
  rw [mem_ancestors] at back
  rcases back with same | ⟨p, isParent, further⟩
  · exact same.symm
  · have lower := G.descends a p isParent
    have up := rank_le further
    have down := rank_le mem
    omega

end Ancestry

end Lib
