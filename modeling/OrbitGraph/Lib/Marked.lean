import Mathlib.Data.List.Basic

/-!
Texts with marked places.

A mark stands between the symbols of a text and can be spelled out by symbols. Two marked
texts that are spelled alike are the same unless, after a common beginning, one has the
mark where the other has its spelling.
-/

namespace Lib.Marked

universe u

variable {α : Type u}

def spell (mark : List α) (marked : List (Option α)) : List α := marked.flatMap fun place => place.elim mark fun a => [a]

@[simp] theorem spell_none (mark : List α) (rest : List (Option α)) : spell mark (none :: rest) = mark ++ spell mark rest :=
  rfl

@[simp] theorem spell_some (mark : List α) (a : α) (rest : List (Option α)) :
    spell mark (some a :: rest) = a :: spell mark rest := rfl

/-- Symbols that are not kept are dropped before or after the marks are spelled out. -/
theorem filter_spell (keep : α → Bool) (mark : List α) (marked : List (Option α)) :
    (spell mark marked).filter keep = spell (mark.filter keep) (marked.filter fun place => place.all keep) := by
  induction marked with
  | nil => rfl
  | cons place rest ih =>
    cases place with
    | none =>
      rw [spell_none, List.filter_append, ih, List.filter_cons_of_pos (by rfl), spell_none]
    | some a =>
      rw [spell_some]
      by_cases kept : keep a = true
      · rw [List.filter_cons_of_pos kept, List.filter_cons_of_pos (by exact kept), ih, spell_some]
      · rw [List.filter_cons_of_neg kept, List.filter_cons_of_neg (by exact kept), ih]

variable {front back : List (Option α)}

/-- Two spellings of the mark that differ in one symbol tell its places. -/
theorem eq_of_spell_eq {a b : α} (differ : a ≠ b)
    (first : spell [a] front = spell [a] back) (second : spell [b] front = spell [b] back) : front = back := by
  induction front generalizing back with
  | nil =>
    cases back with
    | nil => rfl
    | cons place rest => cases place <;> cases first
  | cons place rest ih =>
    cases back with
    | nil => cases place <;> cases first
    | cons place' rest' =>
      cases place with
      | none =>
        cases place' with
        | none => rw [ih (List.cons.inj first).2 (List.cons.inj second).2]
        | some c => exact absurd ((List.cons.inj first).1.trans (List.cons.inj second).1.symm) differ
      | some c =>
        cases place' with
        | none => exact absurd ((List.cons.inj first).1.symm.trans (List.cons.inj second).1) differ
        | some d =>
          obtain ⟨rfl, tails⟩ := List.cons.inj first
          rw [ih tails (List.cons.inj second).2]

/-- After a common beginning, the first text has the mark where the second has its spelling. -/
def Confuses (mark : List α) (front back : List (Option α)) : Prop :=
  ∃ common rest rest', front = common ++ none :: rest ∧ back = common ++ (mark.map some ++ rest')

variable {first : α} {later : List α}

theorem eq_map_some_append {symbols : List α} (apart : first ∉ symbols) {marked : List (Option α)} {rest : List α}
    (spelled : spell (first :: later) marked = symbols ++ rest) : ∃ rest', marked = symbols.map some ++ rest' := by
  induction symbols generalizing marked with
  | nil => exact ⟨marked, rfl⟩
  | cons a symbols ih =>
    rw [List.mem_cons, not_or] at apart
    cases marked with
    | nil => cases spelled
    | cons place marked =>
      cases place with
      | none => exact absurd (List.cons.inj spelled).1 apart.1
      | some b =>
        obtain ⟨rfl, tails⟩ := List.cons.inj spelled
        obtain ⟨rest', rfl⟩ := ih apart.2 tails
        exact ⟨rest', rfl⟩

theorem not_confuses_self (marked : List (Option α)) : ¬ Confuses (first :: later) marked marked := by
  rintro ⟨common, rest, rest', is, is'⟩
  have same := List.append_cancel_left (is.symm.trans is')
  cases same

/-- A mark against a symbol: the symbol begins the spelling of the mark. -/
theorem confuses_of_spell_eq (once : first ∉ later) {rest : List (Option α)} {a : α} {rest' : List (Option α)}
    (same : spell (first :: later) (none :: rest) = spell (first :: later) (some a :: rest')) :
    Confuses (first :: later) (none :: rest) (some a :: rest') := by
  rw [spell_none, spell_some, List.cons_append] at same
  obtain ⟨rfl, tails⟩ := List.cons.inj same
  obtain ⟨rest'', rfl⟩ := eq_map_some_append once tails.symm
  exact ⟨[], rest, rest'', rfl, rfl⟩

theorem Confuses.cons {mark : List α} (confuses : Confuses mark front back)
    (place : Option α) : Confuses mark (place :: front) (place :: back) := by
  obtain ⟨common, rest, rest', rfl, rfl⟩ := confuses
  exact ⟨place :: common, rest, rest', rfl, rfl⟩

/-- **Two marked texts that are spelled alike** are the same unless one has the mark where the other spells it, if the
mark begins with a symbol that it has only once. -/
theorem eq_iff_of_spell_eq (once : first ∉ later)
    (same : spell (first :: later) front = spell (first :: later) back) :
    front = back ↔ ¬ Confuses (first :: later) front back ∧ ¬ Confuses (first :: later) back front := by
  constructor
  · rintro rfl
    exact ⟨not_confuses_self front, not_confuses_self front⟩
  · rintro ⟨apart, apart'⟩
    induction front generalizing back with
    | nil =>
      cases back with
      | nil => rfl
      | cons place rest => cases place <;> cases same
    | cons place rest ih =>
      cases back with
      | nil => cases place <;> cases same
      | cons place' rest' =>
        cases place with
        | none =>
          cases place' with
          | none =>
            rw [ih (List.append_cancel_left same) (mt (·.cons none) apart) (mt (·.cons none) apart')]
          | some a => exact absurd (confuses_of_spell_eq once same) apart
        | some a =>
          cases place' with
          | none => exact absurd (confuses_of_spell_eq once same.symm) apart'
          | some b =>
            obtain ⟨rfl, tails⟩ := List.cons.inj same
            rw [ih tails (mt (·.cons (some a)) apart) (mt (·.cons (some a)) apart')]

end Lib.Marked
