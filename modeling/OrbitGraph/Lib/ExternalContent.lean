import Mathlib.Data.List.Nodup
import Mathlib.Data.List.Perm.Basic

/-!
A full-text index over the rows of another table.

The index keeps, for each rowid it was given, the texts that were given with it. It keeps
no copy it could look a rowid up in: a deletion takes out the texts that the row of the
other table has at that moment, and nothing if there is no such row. So the index stays
right only if an entry is deleted while its row is still there, as it was inserted.
-/

namespace Lib

universe u v

/-- How the rows of a table are indexed. -/
structure ExternalContent (ρ : Type u) (τ : Type v) where
  id : ρ → Nat
  texts : ρ → τ

namespace ExternalContent

variable {ρ : Type u} {τ : Type v} (c : ExternalContent ρ τ)

def entry (row : ρ) : Nat × τ := (c.id row, c.texts row)

/-- The index has just the entries of the rows. -/
def Mirrors (content : List ρ) (entries : List (Nat × τ)) : Prop := entries.Perm (content.map c.entry)

def search (matches_ : τ → Bool) (entries : List (Nat × τ)) : List Nat :=
  (entries.filter fun e => matches_ e.2).map Prod.fst

section Delete

variable [DecidableEq τ]

def delete (content : List ρ) (entries : List (Nat × τ)) (rowid : Nat) : List (Nat × τ) :=
  match content.find? fun row => c.id row = rowid with
  | some row => entries.erase (c.entry row)
  | none => entries

def deleteAll (content : List ρ) (entries : List (Nat × τ)) (rowids : List Nat) : List (Nat × τ) :=
  rowids.foldl (c.delete content) entries

variable {c} {content : List ρ} {entries : List (Nat × τ)}

theorem delete_of_mem (distinct : (content.map c.id).Nodup) {row : ρ} (mem : row ∈ content) :
    c.delete content entries (c.id row) = entries.erase (c.entry row) := by
  obtain ⟨found, eq⟩ : ∃ found, (content.find? fun other => c.id other = c.id row) = some found :=
    Option.isSome_iff_exists.mp (List.find?_isSome.mpr ⟨row, mem, decide_eq_true rfl⟩)
  have same := List.find?_some eq
  rw [decide_eq_true_iff] at same
  have same := List.inj_on_of_nodup_map distinct (List.mem_of_find?_eq_some eq) mem same
  unfold delete
  rw [eq, same]

theorem deleteAll_perm (distinct : (content.map c.id).Nodup) {gone : List ρ} (here : ∀ row ∈ gone, row ∈ content)
    {rest : List (Nat × τ)} (split : entries.Perm (gone.map c.entry ++ rest)) :
    (c.deleteAll content entries (gone.map c.id)).Perm rest := by
  induction gone generalizing entries with
  | nil => exact split
  | cons row gone ih =>
    refine ih (fun other mem => here other (List.mem_cons_of_mem _ mem)) ?_
    rw [delete_of_mem distinct (here row List.mem_cons_self)]
    refine (split.erase (c.entry row)).trans ?_
    rw [List.map_cons, List.cons_append, List.erase_cons_head]

theorem Mirrors.deleteAll (mirrors : c.Mirrors content entries) (distinct : (content.map c.id).Nodup) (p : ρ → Bool) :
    c.Mirrors (content.filter fun row => !p row) (c.deleteAll content entries ((content.filter p).map c.id)) := by
  refine deleteAll_perm distinct (fun row mem => (List.mem_filter.mp mem).1) (mirrors.trans ?_)
  rw [← List.map_append]
  exact (List.filter_append_perm p content).symm.map c.entry

end Delete

variable {c} {content : List ρ} {entries : List (Nat × τ)}

theorem Mirrors.insert (mirrors : c.Mirrors content entries) (row : ρ) :
    c.Mirrors (content ++ [row]) (entries ++ [c.entry row]) := by
  unfold Mirrors
  rw [List.map_append]
  exact mirrors.append_right _

theorem Mirrors.congr {d : ExternalContent ρ τ} (mirrors : c.Mirrors content entries)
    (same : ∀ row ∈ content, d.entry row = c.entry row) : d.Mirrors content entries := by
  unfold Mirrors
  rw [List.map_congr_left same]
  exact mirrors

theorem Mirrors.mem_search (mirrors : c.Mirrors content entries) {matches_ : τ → Bool} {rowid : Nat} :
    rowid ∈ search matches_ entries ↔ ∃ row ∈ content, c.id row = rowid ∧ matches_ (c.texts row) = true := by
  unfold search
  rw [List.mem_map]
  constructor
  · rintro ⟨e, mem, rfl⟩
    obtain ⟨inside, fits⟩ := List.mem_filter.mp mem
    obtain ⟨row, stored, rfl⟩ := List.mem_map.mp (mirrors.mem_iff.mp inside)
    exact ⟨row, stored, rfl, fits⟩
  · rintro ⟨row, stored, rfl, fits⟩
    exact ⟨c.entry row, List.mem_filter.mpr ⟨mirrors.mem_iff.mpr (List.mem_map_of_mem stored), fits⟩, rfl⟩

end ExternalContent

end Lib
