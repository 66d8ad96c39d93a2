import Mathlib.Data.Set.Basic

/-!
Ledgers: items that are pending, and entries that take the items they mention.

An entry is made with all the items it mentions at once, and each of them is pending
until then; an item may instead be dropped. When nothing is pending any more, every
item that was not dropped is mentioned by exactly one entry.
-/

namespace Lib

universe u v

/-- What is pending, and the entries so far. -/
structure Ledger (ι : Type u) (ε : Type v) where
  pending : Set ι
  entries : List ε

namespace Ledger

variable {ι : Type u} {ε : Type v} (mentions : ε → ι → Prop) (idle : Set ι)

/-- A step books an entry, or drops an item that is idle. -/
inductive Step : Ledger ι ε → Ledger ι ε → Prop where
  | book (l : Ledger ι ε) (e : ε) (taken : ∀ i, mentions e i → i ∈ l.pending ∧ i ∉ idle) :
      Step l ⟨{i ∈ l.pending | ¬ mentions e i}, l.entries ++ [e]⟩
  | drop (l : Ledger ι ε) (i : ι) (dropped : i ∈ idle) : Step l ⟨l.pending \ {i}, l.entries⟩

abbrev Steps : Ledger ι ε → Ledger ι ε → Prop := Relation.ReflTransGen (Step mentions idle)

variable {mentions} {idle} in
theorem Steps.book_each {f : ι → ε} (names : ∀ i j, mentions (f i) j ↔ j = i) {pending : Set ι} {entries : List ε}
    {xs : List ι} (distinct : xs.Nodup) (taken : ∀ i ∈ xs, i ∈ pending ∧ i ∉ idle) :
    Steps mentions idle ⟨pending, entries⟩ ⟨{i ∈ pending | i ∉ xs}, entries ++ xs.map f⟩ := by
  induction xs generalizing pending entries with
  | nil =>
    simp only [List.not_mem_nil, not_false_eq_true, and_true, List.map_nil, List.append_nil]
    exact .refl
  | cons x xs ih =>
    obtain ⟨fresh, distinct⟩ := List.nodup_cons.mp distinct
    have first : Step mentions idle ⟨pending, entries⟩ ⟨{i ∈ pending | ¬ mentions (f x) i}, entries ++ [f x]⟩ :=
      .book ⟨pending, entries⟩ (f x) fun i named => (names x i).mp named ▸ taken x List.mem_cons_self
    have rest := @ih {i ∈ pending | ¬ mentions (f x) i} (entries ++ [f x]) distinct fun i mem =>
      have ⟨there, busy⟩ := taken i (List.mem_cons_of_mem x mem)
      ⟨⟨there, fun named => fresh ((names x i).mp named ▸ mem)⟩, busy⟩
    refine .head first ?_
    convert rest using 2
    · ext i
      simp [names, and_assoc]
    · simp

variable [DecidableRel mentions]

def count (l : Ledger ι ε) (i : ι) : Nat := l.entries.countP fun e => mentions e i

/-- The pending items are in no entry; the other items are in one, but for those that are idle; and
the entries mention nothing else. -/
structure Balanced (all : Set ι) (l : Ledger ι ε) : Prop where
  pending : ∀ i ∈ l.pending, i ∈ all ∧ l.count mentions i = 0
  settled : ∀ i ∈ all, i ∉ l.pending → i ∉ idle → l.count mentions i = 1
  unbooked : ∀ i, i ∈ idle ∨ i ∉ all → l.count mentions i = 0

variable {mentions} {idle} {all : Set ι} {l m : Ledger ι ε}

theorem Balanced.initial (all : Set ι) : Balanced mentions idle all ⟨all, []⟩ where
  pending _ mem := ⟨mem, rfl⟩
  settled _ mem pending := absurd mem pending
  unbooked _ _ := rfl

theorem count_book (l : Ledger ι ε) (e : ε) (pending : Set ι) (i : ι) :
    count mentions ⟨pending, l.entries ++ [e]⟩ i = l.count mentions i + if mentions e i then 1 else 0 := by
  simp [count, List.countP_append, List.countP_cons]

theorem Balanced.step (balanced : l.Balanced mentions idle all) (step : Step mentions idle l m) :
    m.Balanced mentions idle all := by
  cases step with
  | drop i dropped =>
    constructor
    · exact fun j mem => balanced.pending j mem.1
    · intro j mem left busy
      refine balanced.settled j mem (fun pending => left ⟨pending, ?_⟩) busy
      rintro rfl
      exact busy dropped
    · exact balanced.unbooked
  | book e taken =>
    constructor
    · intro j ⟨mem, apart⟩
      obtain ⟨known, none⟩ := balanced.pending j mem
      exact ⟨known, by rw [count_book, none, if_neg apart]⟩
    · intro j mem left busy
      rw [count_book]
      by_cases named : mentions e j
      · rw [(balanced.pending j (taken j named).1).2, if_pos named]
      · rw [balanced.settled j mem (fun pending => left ⟨pending, named⟩) busy, if_neg named]
    · intro j out
      have unnamed : ¬ mentions e j := by
        intro named
        obtain ⟨pending, busy⟩ := taken j named
        rcases out with idle | unknown
        · exact busy idle
        · exact unknown (balanced.pending j pending).1
      rw [count_book, balanced.unbooked j out, if_neg unnamed]

theorem Balanced.steps (balanced : l.Balanced mentions idle all) (steps : Steps mentions idle l m) :
    m.Balanced mentions idle all := by
  induction steps with
  | refl => exact balanced
  | tail _ step ih => exact ih.step step

/-- With nothing pending, every item is in exactly one entry or idle. -/
theorem Balanced.count_eq_one (balanced : l.Balanced mentions idle all) (done : l.pending = ∅) {i : ι}
    (mem : i ∈ all) (busy : i ∉ idle) : l.count mentions i = 1 :=
  balanced.settled i mem (by rw [done]; exact Set.notMem_empty i) busy

end Ledger

end Lib
