import Mathlib.Data.List.TakeWhile
import OrbitGraph.Lib.Text

/-!
Splitting at a separator of two characters, and trimming the pieces.

Pieces that do not have the first character of the separator are found again behind one
another. Whatever the text is, a character that is not of the separator is in some piece, and
one that is no white space is still there when the piece is trimmed.
-/

namespace Lib.Text

variable {a b : Char}

theorem splitPair_ne_nil (a b : Char) (s : Text) : splitPair a b s ≠ [] := by
  induction s using splitPair.induct a b with
  | case1 | case2 c => simp [splitPair]
  | case3 c d cs here _ => simp [splitPair, here]
  | case4 c d cs _ _ _ | case5 c d cs _ piece rest found _ => simp [splitPair, *]

theorem splitPair_cons {c : Char} (apart : c ≠ a) (s : Text) :
    ∃ piece rest, splitPair a b s = piece :: rest ∧ splitPair a b (c :: s) = (c :: piece) :: rest := by
  cases s with
  | nil => exact ⟨[], [], rfl, rfl⟩
  | cons d cs =>
    cases split : splitPair a b (d :: cs) with
    | nil => exact (splitPair_ne_nil a b _ split).elim
    | cons piece rest =>
      refine ⟨piece, rest, rfl, ?_⟩
      rw [splitPair, if_neg fun same => apart same.1, split]

theorem splitPair_append {piece : Text} (absent : a ∉ piece) (rest : Text) :
    splitPair a b (piece ++ a :: b :: rest) = piece :: splitPair a b rest := by
  induction piece with
  | nil => rw [List.nil_append, splitPair, if_pos ⟨rfl, rfl⟩]
  | cons c piece ih =>
    obtain ⟨_, _, split, split'⟩ := splitPair_cons (b := b) (Ne.symm (List.ne_of_not_mem_cons absent)) (piece ++ a :: b :: rest)
    rw [ih (List.not_mem_of_not_mem_cons absent)] at split
    obtain ⟨rfl, rfl⟩ := List.cons.inj split
    exact split'

theorem splitPair_of_not_mem {piece : Text} (absent : a ∉ piece) : splitPair a b piece = [piece] := by
  induction piece with
  | nil => rfl
  | cons c piece ih =>
    obtain ⟨_, _, split, split'⟩ := splitPair_cons (b := b) (Ne.symm (List.ne_of_not_mem_cons absent)) piece
    rw [ih (List.not_mem_of_not_mem_cons absent)] at split
    obtain ⟨rfl, rfl⟩ := List.cons.inj split
    exact split'

variable {pieces : List Text}

theorem splitPair_join (nonempty : pieces ≠ []) (absent : ∀ piece ∈ pieces, a ∉ piece) :
    splitPair a b (join [a, b] pieces) = pieces := by
  induction pieces with
  | nil => exact (nonempty rfl).elim
  | cons piece rest ih =>
    have here := absent piece List.mem_cons_self
    cases rest with
    | nil => exact splitPair_of_not_mem here
    | cons next rest =>
      rw [join, List.append_assoc, List.cons_append, List.cons_append, List.nil_append, splitPair_append here,
        ih (List.cons_ne_nil _ _) fun p mem => absent p (List.mem_cons_of_mem _ mem)]
      exact List.cons_ne_nil _ _

variable {s : Text}

theorem exists_mem_splitPair {c : Char} (mem : c ∈ s) (first : c ≠ a) (second : c ≠ b) :
    ∃ piece ∈ splitPair a b s, c ∈ piece := by
  induction s using splitPair.induct a b with
  | case1 => cases mem
  | case2 d => exact ⟨[d], List.mem_singleton_self _, mem⟩
  | case3 d e cs here ih =>
    obtain ⟨rfl, rfl⟩ := here
    have later : c ∈ cs := by simpa [first, second] using mem
    obtain ⟨piece, inside, there⟩ := ih later
    rw [splitPair, if_pos ⟨rfl, rfl⟩]
    exact ⟨piece, List.mem_cons_of_mem _ inside, there⟩
  | case4 d e cs apart none _ => exact (splitPair_ne_nil a b _ none).elim
  | case5 d e cs apart piece rest found ih =>
    rw [splitPair, if_neg apart, found]
    rcases List.mem_cons.mp mem with rfl | later
    · exact ⟨_, List.mem_cons_self, List.mem_cons_self⟩
    · obtain ⟨p, inside, there⟩ := ih later
      rw [found] at inside
      rcases List.mem_cons.mp inside with rfl | behind
      · exact ⟨_, List.mem_cons_self, List.mem_cons_of_mem _ there⟩
      · exact ⟨p, List.mem_cons_of_mem _ behind, there⟩

theorem stripPrefix_append (p s : Text) : stripPrefix p (p ++ s) = some s := stripPrefix_eq_some.mpr rfl

/-- The first separator of any length is found behind a text without its first character. -/
theorem splitOnce_append {sep before : Text} (absent : a ∉ before) (rest : Text) :
    splitOnce (a :: sep) (before ++ (a :: sep ++ rest)) = some (before, rest) := by
  induction before with
  | nil =>
    rw [List.nil_append, List.cons_append, splitOnce, ← List.cons_append, stripPrefix_append]
  | cons c before ih =>
    have apart : a ≠ c := List.ne_of_not_mem_cons absent
    rw [List.cons_append, splitOnce, stripPrefix, if_neg apart, ih (List.not_mem_of_not_mem_cons absent)]
    rfl

/-- The last separator is found in front of a text without its first character. -/
theorem rsplitOnce_append {after : Text} (absent : a ∉ after) (before : Text) :
    rsplitOnce [a, a] (before ++ ([a, a] ++ after)) = some (before, after) := by
  have reversed : (before ++ ([a, a] ++ after)).reverse = after.reverse ++ (a :: [a] ++ before.reverse) := by simp
  rw [rsplitOnce, reversed, show [a, a].reverse = a :: [a] from rfl,
    splitOnce_append fun mem => absent (List.mem_reverse.mp mem)]
  simp

theorem mem_join_of_mem {sep piece : Text} {c : Char} (inside : piece ∈ pieces) (mem : c ∈ piece) :
    c ∈ join sep pieces := by
  induction pieces with
  | nil => cases inside
  | cons first rest ih =>
    cases rest with
    | nil =>
      rw [List.mem_singleton.mp inside] at mem
      exact mem
    | cons next rest =>
      rw [join]
      · rcases List.mem_cons.mp inside with rfl | later
        · exact List.mem_append_left _ (List.mem_append_left _ mem)
        · exact List.mem_append_right _ (ih later)
      · exact List.cons_ne_nil _ _

theorem mem_dropWhile_of_not {p : Char → Bool} {c : Char} (mem : c ∈ s) (fails : p c = false) : c ∈ s.dropWhile p := by
  rw [← List.takeWhile_append_dropWhile (p := p) (l := s), List.mem_append] at mem
  rcases mem with taken | kept
  · have := List.mem_takeWhile_imp taken
    rw [fails] at this
    cases this
  · exact kept

theorem mem_trim {c : Char} (mem : c ∈ s) (visible : isWhitespace c = false) : c ∈ trim s := by
  rw [trim, trimEnd, List.mem_reverse]
  exact mem_dropWhile_of_not (List.mem_reverse.mpr (mem_dropWhile_of_not mem visible)) visible

theorem trim_between {before s after : Text} (bare : Bare s) (left : ∀ c ∈ before, isWhitespace c = true)
    (right : ∀ c ∈ after, isWhitespace c = true) : trim (before ++ s ++ after) = s := by
  have drop : ∀ {front back : Text}, (∀ c ∈ front, isWhitespace c = true) → (front ++ back).dropWhile isWhitespace =
      back.dropWhile isWhitespace := by
    intro front back blank
    rw [List.dropWhile_append, List.dropWhile_eq_nil_iff.mpr blank]
    rfl
  cases s with
  | nil =>
    have blank : ∀ c ∈ before ++ after, isWhitespace c = true := by
      intro c mem
      exact (List.mem_append.mp mem).elim (left c) (right c)
    rw [List.append_nil, trim, trimStart, List.dropWhile_eq_nil_iff.mpr blank]
    rfl
  | cons first s =>
    have start : trimStart ((first :: s) ++ after) = (first :: s) ++ after := trimStart_of_head fun c found => bare.1 c found
    rw [List.append_assoc, trim, trimStart, drop left, ← trimStart, start, trimEnd, List.reverse_append,
      drop fun c mem => right c (List.mem_reverse.mp mem)]
    exact trimEnd_of_last bare.2

end Lib.Text
