import Mathlib.Data.Char
import Mathlib.Data.List.Lex
import Mathlib.Data.List.Nodup
import Mathlib.Order.Lattice

/-!
Maps whose entries are in the order of their keys.

Such a map is a list of entries, and the order makes it the only list for what it holds:
a map that is filled again with the entries of another, in any way that keeps their order,
is that map.
-/

namespace Lib

universe u v w

structure SortedMap (κ : Type u) (α : Type v) [LinearOrder κ] where
  entries : List (κ × α)
  sorted : entries.Pairwise fun a b => a.1 < b.1

namespace SortedMap

variable {κ : Type u} {α : Type v} {β : Type w} [LinearOrder κ]

@[ext]
theorem ext {m n : SortedMap κ α} (same : m.entries = n.entries) : m = n := by
  cases m
  cases n
  congr

instance [DecidableEq α] : DecidableEq (SortedMap κ α) := fun m n =>
  decidable_of_iff (m.entries = n.entries) ⟨ext, fun same => same ▸ rfl⟩

theorem entry_unique (m : SortedMap κ α) {e f : κ × α} (left : e ∈ m.entries) (right : f ∈ m.entries)
    (key : e.1 = f.1) : e = f := by
  have nodup : (m.entries.map Prod.fst).Nodup := List.pairwise_map.mpr (m.sorted.imp fun less => less.ne)
  exact List.inj_on_of_nodup_map nodup left right key

def empty : SortedMap κ α := ⟨[], .nil⟩

/-! ### Inserting -/

/-- Enter a value at the place of its key, instead of the value that the key had. -/
def insertEntry (key : κ) (value : α) : List (κ × α) → List (κ × α)
  | [] => [(key, value)]
  | entry :: rest =>
    if key < entry.1 then (key, value) :: entry :: rest
    else if key = entry.1 then (key, value) :: rest
    else entry :: insertEntry key value rest

variable {entries : List (κ × α)} {key : κ} {value : α}

theorem mem_insertEntry {e : κ × α} (mem : e ∈ insertEntry key value entries) : e = (key, value) ∨ e ∈ entries := by
  induction entries with
  | nil => exact .inl (List.mem_singleton.mp mem)
  | cons entry rest ih =>
    rw [insertEntry] at mem
    split_ifs at mem with before here
    · exact List.mem_cons.mp mem
    · exact (List.mem_cons.mp mem).imp_right (List.mem_cons_of_mem _)
    · rcases List.mem_cons.mp mem with rfl | later
      · exact .inr List.mem_cons_self
      · exact (ih later).imp_right (List.mem_cons_of_mem _)

theorem sorted_insertEntry (key : κ) (value : α) (sorted : entries.Pairwise fun a b => a.1 < b.1) :
    (insertEntry key value entries).Pairwise fun a b => a.1 < b.1 := by
  induction entries with
  | nil => exact List.pairwise_singleton _ _
  | cons entry rest ih =>
    obtain ⟨least, sortedRest⟩ := List.pairwise_cons.mp sorted
    rw [insertEntry]
    split_ifs with before here
    · refine List.pairwise_cons.mpr ⟨fun e mem => ?_, sorted⟩
      rcases List.mem_cons.mp mem with rfl | later
      · exact before
      · exact before.trans (least e later)
    · exact List.pairwise_cons.mpr ⟨fun e mem => here ▸ least e mem, sortedRest⟩
    · refine List.pairwise_cons.mpr ⟨fun e mem => ?_, ih sortedRest⟩
      rcases mem_insertEntry mem with rfl | later
      · exact lt_of_le_of_ne (not_lt.mp before) (Ne.symm here)
      · exact least e later

theorem insertEntry_of_lt (value : α) (last : ∀ e ∈ entries, e.1 < key) :
    insertEntry key value entries = entries ++ [(key, value)] := by
  induction entries with
  | nil => rfl
  | cons entry rest ih =>
    have first : entry.1 < key := last entry List.mem_cons_self
    rw [insertEntry, if_neg first.not_gt, if_neg first.ne', ih fun e mem => last e (List.mem_cons_of_mem _ mem)]
    rfl

def insert (m : SortedMap κ α) (key : κ) (value : α) : SortedMap κ α :=
  ⟨insertEntry key value m.entries, sorted_insertEntry key value m.sorted⟩

/-! ### Looking up -/

/-- The value of the entry for a key. -/
def lookup (key : κ) : List (κ × α) → Option α
  | [] => none
  | entry :: rest => if key = entry.1 then some entry.2 else lookup key rest

theorem lookup_eq_some (found : lookup key entries = some value) : (key, value) ∈ entries := by
  induction entries with
  | nil => cases found
  | cons entry rest ih =>
    rw [lookup] at found
    split_ifs at found with here
    · rw [here, ← Option.some.inj found]
      exact List.mem_cons_self
    · exact List.mem_cons_of_mem _ (ih found)

theorem lookup_insertEntry (key : κ) (value : α) (entries : List (κ × α)) (other : κ) :
    lookup other (insertEntry key value entries) = if other = key then some value else lookup other entries := by
  induction entries with
  | nil => rfl
  | cons entry rest ih =>
    by_cases before : key < entry.1
    · rw [insertEntry, if_pos before, lookup]
    · by_cases here : key = entry.1
      · rw [insertEntry, if_neg before, if_pos here, lookup, lookup, here]
        by_cases same : other = entry.1 <;> simp only [same, if_true, if_false]
      · rw [insertEntry, if_neg before, if_neg here, lookup, ih, lookup]
        by_cases same : other = key
        · rw [if_pos same, if_pos same, if_neg (same ▸ here)]
        · rw [if_neg same, if_neg same]

def get? (m : SortedMap κ α) (key : κ) : Option α := lookup key m.entries

@[simp]
theorem get?_empty (key : κ) : (empty : SortedMap κ α).get? key = none := rfl

theorem get?_insert (m : SortedMap κ α) (key : κ) (value : α) (other : κ) :
    (m.insert key value).get? other = if other = key then some value else m.get? other :=
  lookup_insertEntry key value m.entries other

theorem get?_eq_some {m : SortedMap κ α} : m.get? key = some value ↔ (key, value) ∈ m.entries := by
  refine ⟨lookup_eq_some, fun mem => ?_⟩
  cases found : m.get? key with
  | none =>
    have absent : ∀ entries : List (κ × α), (key, value) ∈ entries → lookup key entries ≠ none := by
      intro entries
      induction entries with
      | nil => exact nofun
      | cons entry rest ih =>
        intro mem
        rw [lookup]
        split_ifs with here
        · exact Option.some_ne_none _
        · exact ih ((List.mem_cons.mp mem).resolve_left fun eq => here (congrArg Prod.fst eq))
    exact absurd found (absent m.entries mem)
  | some other => exact congrArg (fun e => some e.2) (m.entry_unique (lookup_eq_some found) mem rfl)

/-- A map with the given entries; of two for one key, the later. -/
def ofList (entries : List (κ × α)) : SortedMap κ α := entries.foldl (fun m e => m.insert e.1 e.2) empty

theorem entries_foldl_insert {m : SortedMap κ α} (sorted : (m.entries ++ entries).Pairwise fun a b => a.1 < b.1) :
    (entries.foldl (fun m e => m.insert e.1 e.2) m).entries = m.entries ++ entries := by
  induction entries generalizing m with
  | nil => exact (List.append_nil _).symm
  | cons e rest ih =>
    have last : ∀ other ∈ m.entries, other.1 < e.1 := fun other mem =>
      (List.pairwise_append.mp sorted).2.2 other mem e List.mem_cons_self
    have inserted : (m.insert e.1 e.2).entries = m.entries ++ [e] := insertEntry_of_lt e.2 last
    have appended : m.entries ++ e :: rest = (m.insert e.1 e.2).entries ++ rest := by
      rw [inserted, List.append_assoc]
      rfl
    rw [List.foldl_cons, ih (appended ▸ sorted), appended]

theorem ofList_entries (m : SortedMap κ α) : ofList m.entries = m :=
  ext ((entries_foldl_insert (m := empty) m.sorted).trans (List.nil_append _))

def mapValues (f : α → β) (m : SortedMap κ α) : SortedMap κ β :=
  ⟨m.entries.map fun e => (e.1, f e.2), List.pairwise_map.mpr m.sorted⟩

end SortedMap

end Lib
