import Mathlib.Data.List.Sort
import Mathlib.Data.List.Infix

/-!
Masking of ranges.

A masked text is a sequence of pieces, of which some are kept and the others hidden. The
pieces put the text together, what they show is the masked text, and what they hide is what
some range covers.
-/

namespace Lib

universe u

abbrev Range := Nat × Nat

namespace Range

/-- A range inside a text of a length, with at least one position. -/
def Within (length : Nat) (range : Range) : Prop := range.1 < range.2 ∧ range.2 ≤ length

def covers (range : Range) (i : Nat) : Bool := range.1 ≤ i && i < range.2

theorem covers_eq_true {range : Range} {i : Nat} : range.covers i = true ↔ range.1 ≤ i ∧ i < range.2 := by
  unfold covers
  rw [Bool.and_eq_true, decide_eq_true_eq, decide_eq_true_eq]

end Range

/-- Whether a position is in one of the ranges. -/
def covered (ranges : List Range) (i : Nat) : Bool := ranges.any fun range => range.covers i

theorem covered_eq_true {ranges : List Range} {i : Nat} :
    covered ranges i = true ↔ ∃ range ∈ ranges, range.1 ≤ i ∧ i < range.2 := by
  simp only [covered, List.any_eq_true, Range.covers_eq_true]

theorem covered_eq_false {ranges : List Range} {i : Nat} :
    covered ranges i = false ↔ ∀ range ∈ ranges, range.1 ≤ i → range.2 ≤ i := by
  rw [Bool.eq_false_iff, Ne, covered_eq_true]
  push Not
  rfl

inductive Piece (α : Type u) where
  | keep (part : List α)
  | hide (part : List α)

namespace Piece

variable {α : Type u}

def source : Piece α → List α
  | .keep part => part
  | .hide part => part

def shown (marker : List α) : Piece α → List α
  | .keep part => part
  | .hide _ => marker

/-- For each position of the part, whether it is hidden. -/
def flags : Piece α → List Bool
  | .keep part => part.map fun _ => false
  | .hide part => part.map fun _ => true

end Piece

section Mask

variable {α : Type u} (marker : List α)

/-- A text from `copied` on, with a marker for each of the ranges, which are sorted. -/
def mask (text : List α) : Nat → List Range → List α
  | copied, [] => text.drop copied
  | copied, (start, stop) :: rest =>
    if stop ≤ copied then mask text copied rest
    else (text.take start).drop copied ++ marker ++ mask text stop rest

structure Pieces (text masked : List α) (ranges : List Range) (pieces : List (Piece α)) : Prop where
  /-- The pieces put the text together. -/
  source : pieces.flatMap Piece.source = text
  /-- The masked text is what they show. -/
  shown : pieces.flatMap (Piece.shown marker) = masked
  /-- What they hide is what the ranges cover. -/
  flags : pieces.flatMap Piece.flags = (List.range text.length).map (covered ranges)
  /-- No marker stands for nothing. -/
  hidden : ∀ part, .hide part ∈ pieces → part ≠ []

variable {text : List α} {ranges : List Range}

theorem map_const_eq_covered {part : List α} {first : Nat} {b : Bool}
    (alike : ∀ i, first ≤ i → i < first + part.length → covered ranges i = b) :
    (part.map fun _ => b) = (List.range' first part.length).map (covered ranges) := by
  refine List.ext_getElem (by simp) fun i left right => ?_
  rw [List.length_map] at left
  rw [List.getElem_map, List.getElem_map, List.getElem_range']
  exact (alike _ (by omega) (by omega)).symm

theorem drop_take_append_drop_of_le (text : List α) {i j : Nat} (le : i ≤ j) (inside : j ≤ text.length) :
    (text.take j).drop i ++ text.drop j = text.drop i := by
  rw [← List.drop_append_of_le_length (by rwa [List.length_take, Nat.min_eq_left inside]), List.take_append_drop]

theorem covered_cons_of_le {range : Range} {i : Nat} (behind : range.2 ≤ i) :
    covered (range :: ranges) i = covered ranges i := by
  have : range.covers i = false := by
    rw [Bool.eq_false_iff, Ne, Range.covers_eq_true]
    omega
  rw [covered, List.any_cons, this, Bool.false_or, covered]

/-- The pieces from `copied` on. -/
theorem exists_pieces_from (within : ∀ range ∈ ranges, range.Within text.length)
    (sorted : ranges.Pairwise fun a b => a.1 ≤ b.1) {copied : Nat} (inside : copied ≤ text.length) :
    ∃ pieces : List (Piece α), pieces.flatMap Piece.source = text.drop copied ∧
      pieces.flatMap (Piece.shown marker) = mask marker text copied ranges ∧
      pieces.flatMap Piece.flags = (List.range' copied (text.length - copied)).map (covered ranges) ∧
      ∀ part, .hide part ∈ pieces → part ≠ [] := by
  induction ranges generalizing copied with
  | nil =>
    refine ⟨[.keep (text.drop copied)], List.append_nil _, List.append_nil _, ?_, by simp⟩
    rw [← List.length_drop, ← map_const_eq_covered fun _ _ _ => rfl]
    exact List.append_nil _
  | cons range rest ih =>
    obtain ⟨start, stop⟩ := range
    obtain ⟨nonempty, most⟩ := within _ List.mem_cons_self
    obtain ⟨least, sorted⟩ := List.pairwise_cons.mp sorted
    have within : ∀ range ∈ rest, range.Within text.length := fun range mem =>
      within range (List.mem_cons_of_mem _ mem)
    dsimp only at nonempty most least
    by_cases done : stop ≤ copied
    · obtain ⟨pieces, source, shown, flags, hidden⟩ := ih within sorted inside
      refine ⟨pieces, source, ?_, ?_, hidden⟩
      · rw [shown, mask, if_pos done]
      · rw [flags]
        refine List.map_congr_left fun i mem => ?_
        have := (List.mem_range'_1.mp mem).1
        exact (covered_cons_of_le (by omega)).symm
    · obtain ⟨pieces, source, shown, flags, hidden⟩ := ih within sorted most
      -- Where the range before reached into this one, nothing is kept between them.
      have kept : (text.take start).drop copied = (text.take (max copied start)).drop copied := by
        rcases Nat.le_total start copied with le | le
        · rw [Nat.max_eq_left le, List.drop_take_self, List.drop_eq_nil_of_le ((List.length_take_le _ _).trans le)]
        · rw [Nat.max_eq_right le]
      have keptLength : ((text.take (max copied start)).drop copied).length = max copied start - copied := by
        rw [List.length_drop, List.length_take]
        omega
      have hiddenLength : ((text.take stop).drop (max copied start)).length = stop - max copied start := by
        rw [List.length_drop, List.length_take]
        omega
      refine ⟨.keep ((text.take (max copied start)).drop copied) ::
        .hide ((text.take stop).drop (max copied start)) :: pieces, ?_, ?_, ?_, ?_⟩
      · simp only [List.flatMap_cons, Piece.source, source]
        rw [drop_take_append_drop_of_le text (by omega) most, drop_take_append_drop_of_le text (by omega) (by omega)]
      · rw [mask, if_neg done, kept]
        simp only [List.flatMap_cons, Piece.shown, shown, List.append_assoc]
      · have before : ∀ i, copied ≤ i → i < copied + ((text.take (max copied start)).drop copied).length →
            covered ((start, stop) :: rest) i = false := by
          intro i low high
          refine covered_eq_false.mpr fun range mem reaches => ?_
          rcases List.mem_cons.mp mem with rfl | later
          · omega
          · have := least range later
            omega
        have here : ∀ i, max copied start ≤ i → i < max copied start + ((text.take stop).drop (max copied start)).length →
            covered ((start, stop) :: rest) i = true := fun i low high =>
          covered_eq_true.mpr ⟨_, List.mem_cons_self, by omega, by omega⟩
        have behind : (List.range' stop (text.length - stop)).map (covered rest) =
            (List.range' stop (text.length - stop)).map (covered ((start, stop) :: rest)) :=
          List.map_congr_left fun i mem => (covered_cons_of_le (List.mem_range'_1.mp mem).1).symm
        simp only [List.flatMap_cons, Piece.flags, flags]
        rw [map_const_eq_covered before, map_const_eq_covered here, behind, ← List.map_append, ← List.map_append,
          keptLength, hiddenLength]
        congr 1
        have first : copied + (max copied start - copied) = max copied start := by omega
        have second : max copied start + (stop - max copied start) = stop := by omega
        have total : max copied start - copied + (stop - max copied start + (text.length - stop)) =
            text.length - copied := by omega
        rw [← total, ← List.range'_append_1, ← List.range'_append_1, first, second]
      · intro part mem
        simp only [List.mem_cons, reduceCtorEq, false_or] at mem
        rcases mem with same | later
        · rw [Piece.hide.inj same, ← List.length_pos_iff_ne_nil, hiddenLength]
          omega
        · exact hidden part later

/-- **Masking hides what the ranges cover and keeps the rest**, however the ranges lie to each other. -/
theorem exists_pieces (text : List α) {ranges : List Range} (within : ∀ range ∈ ranges, range.Within text.length)
    (sorted : ranges.Pairwise fun a b => a.1 ≤ b.1) :
    ∃ pieces, Pieces marker text (mask marker text 0 ranges) ranges pieces := by
  obtain ⟨pieces, source, shown, flags, hidden⟩ := exists_pieces_from marker within sorted (Nat.zero_le text.length)
  exact ⟨pieces, source, shown, by rw [flags, Nat.sub_zero, List.range_eq_range'], hidden⟩

end Mask

end Lib
