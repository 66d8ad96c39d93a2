import Mathlib.Algebra.Group.Int.Defs
import Mathlib.Algebra.GroupWithZero.Nat
import Mathlib.Data.List.Infix

/-!
Text as a list of characters, with the string operations the development uses.

Every function is structurally recursive, so that concrete texts evaluate in
the kernel. Separators are nonempty texts; a search runs from the left unless
its name says otherwise.
-/

namespace Lib

abbrev Text := List Char

namespace Text

/-- A literal stands for its characters. -/
instance : Coe String Text := ⟨String.toList⟩

instance : LawfulBEq Text := inferInstanceAs (LawfulBEq (List Char))

instance : LawfulBEq (Text × Text) := inferInstanceAs (LawfulBEq (List Char × List Char))

/-- `stripPrefix p s` is `s` without the prefix `p`, if it has it. -/
def stripPrefix : Text → Text → Option Text
  | [], s => some s
  | _ :: _, [] => none
  | p :: ps, c :: cs => if p = c then stripPrefix ps cs else none

/-- `stripSuffix p s` is `s` without the suffix `p`, if it has it. -/
def stripSuffix (p s : Text) : Option Text :=
  (stripPrefix p.reverse s.reverse).map List.reverse

def startsWith (p s : Text) : Bool := (stripPrefix p s).isSome

def endsWith (p s : Text) : Bool := (stripSuffix p s).isSome

/-- The text before and after the first occurrence of `sep`. -/
def splitOnce (sep : Text) : Text → Option (Text × Text)
  | [] => if sep = [] then some ([], []) else none
  | c :: cs =>
    match stripPrefix sep (c :: cs) with
    | some rest => some ([], rest)
    | none => (splitOnce sep cs).map fun (before, after) => (c :: before, after)

/-- The text before and after the last occurrence of `sep`. -/
def rsplitOnce (sep s : Text) : Option (Text × Text) :=
  (splitOnce sep.reverse s.reverse).map fun (before, after) => (after.reverse, before.reverse)

/-- Whether `sep` occurs in the text. -/
def contains (sep s : Text) : Bool := (splitOnce sep s).isSome

/-- The pieces between the occurrences of one character. -/
def splitChar (sep : Char) : Text → List Text
  | [] => [[]]
  | c :: cs =>
    if c = sep then [] :: splitChar sep cs
    else
      match splitChar sep cs with
      | [] => [[c]]
      | piece :: rest => (c :: piece) :: rest

/-- The pieces between the occurrences of a two-character separator. -/
def splitPair (a b : Char) : Text → List Text
  | [] => [[]]
  | [c] => [[c]]
  | c :: d :: cs =>
    if c = a ∧ d = b then [] :: splitPair a b cs
    else
      match splitPair a b (d :: cs) with
      | [] => [[c]]
      | piece :: rest => (c :: piece) :: rest

/-- The pieces joined with `sep` between them. -/
def join (sep : Text) : List Text → Text
  | [] => []
  | [piece] => piece
  | piece :: rest => piece ++ sep ++ join sep rest

/-- `s` with every occurrence of the character `c` replaced by `replacement`. -/
def replaceChar (c : Char) (replacement : Text) (s : Text) : Text :=
  s.flatMap fun x => if x = c then replacement else [x]

/-- Unicode `White_Space`. -/
def isWhitespace (c : Char) : Bool :=
  let n := c.toNat
  (9 ≤ n && n ≤ 13) || n == 0x20 || n == 0x85 || n == 0xA0 || n == 0x1680 ||
    (0x2000 ≤ n && n ≤ 0x200A) || n == 0x2028 || n == 0x2029 || n == 0x202F ||
    n == 0x205F || n == 0x3000

def trimStart (s : Text) : Text := s.dropWhile isWhitespace

def trimEnd (s : Text) : Text := (s.reverse.dropWhile isWhitespace).reverse

/-- `s` without leading and trailing white space. -/
def trim (s : Text) : Text := trimEnd (trimStart s)

def byteLen (s : Text) : Nat := (s.map Char.utf8Size).sum

/-- Lexicographic order by scalar value, which is the byte order of UTF-8. -/
def ble : Text → Text → Bool
  | [], _ => true
  | _ :: _, [] => false
  | a :: as, b :: bs => if a = b then ble as bs else decide (a.toNat ≤ b.toNat)

/-! ### Prefixes and suffixes -/

theorem stripPrefix_eq_some {p s rest : Text} : stripPrefix p s = some rest ↔ s = p ++ rest := by
  induction p generalizing s with
  | nil => simp [stripPrefix, eq_comm]
  | cons a p ih =>
    cases s with
    | nil => simp [stripPrefix]
    | cons c cs =>
      by_cases h : a = c
      · simp [stripPrefix, h, ih]
      · simp [stripPrefix, h, Ne.symm h]

theorem stripSuffix_eq_some {p s rest : Text} : stripSuffix p s = some rest ↔ s = rest ++ p := by
  unfold stripSuffix
  constructor
  · intro h
    obtain ⟨r, hr, rfl⟩ := Option.map_eq_some_iff.mp h
    rw [stripPrefix_eq_some] at hr
    have := congrArg List.reverse hr
    simpa using this
  · rintro rfl
    refine Option.map_eq_some_iff.mpr ⟨rest.reverse, ?_, by simp⟩
    rw [stripPrefix_eq_some, List.reverse_append]

theorem startsWith_iff {p s : Text} : startsWith p s = true ↔ ∃ rest, s = p ++ rest := by
  simp only [startsWith, Option.isSome_iff_exists, stripPrefix_eq_some]

theorem endsWith_iff {p s : Text} : endsWith p s = true ↔ ∃ rest, s = rest ++ p := by
  simp only [endsWith, Option.isSome_iff_exists, stripSuffix_eq_some]

theorem byteLen_append (s t : Text) : byteLen (s ++ t) = byteLen s + byteLen t := by
  rw [byteLen, List.map_append, List.sum_append]
  rfl

variable {sep : Char}

/-- A separator of one character is found after a text without it. -/
theorem splitOnce_of_not_mem {before : Text} (absent : sep ∉ before) (rest : Text) :
    splitOnce [sep] (before ++ sep :: rest) = some (before, rest) := by
  induction before with
  | nil => simp [splitOnce, stripPrefix]
  | cons c before ih =>
    have apart : sep ≠ c := fun eq => absent (List.mem_cons.mpr (.inl eq))
    simp [splitOnce, stripPrefix, apart, ih fun mem => absent (List.mem_cons_of_mem _ mem)]

/-- … and it is the first. -/
theorem splitOnce_eq_some {s before rest : Text} (found : splitOnce [sep] s = some (before, rest)) :
    s = before ++ sep :: rest ∧ sep ∉ before := by
  induction s generalizing before with
  | nil => cases found
  | cons c s ih =>
    by_cases here : sep = c
    · have split : splitOnce [sep] (c :: s) = some ([], s) := by simp [splitOnce, stripPrefix, here]
      obtain ⟨rfl, rfl⟩ := Prod.mk.inj (Option.mem_unique split found)
      exact ⟨here ▸ rfl, List.not_mem_nil⟩
    · simp only [splitOnce, stripPrefix, if_neg here] at found
      obtain ⟨⟨front, back⟩, later, same⟩ := Option.map_eq_some_iff.mp found
      obtain ⟨rfl, rfl⟩ := Prod.mk.inj same
      obtain ⟨rfl, absent⟩ := ih later
      exact ⟨rfl, fun mem => (List.mem_cons.mp mem).elim here absent⟩

theorem eq_of_splitOnce {sep s before rest : Text} (found : splitOnce sep s = some (before, rest)) :
    s = before ++ sep ++ rest := by
  induction s generalizing before with
  | nil =>
    rw [splitOnce] at found
    split at found
    · next empty =>
        obtain ⟨rfl, rfl⟩ := Prod.mk.inj (Option.some.inj found)
        rw [empty, List.append_nil, List.append_nil]
    · cases found
  | cons c s ih =>
    rw [splitOnce] at found
    cases here : stripPrefix sep (c :: s) with
    | some _ =>
      rw [here] at found
      obtain ⟨rfl, rfl⟩ := Prod.mk.inj (Option.some.inj found)
      rw [stripPrefix_eq_some] at here
      exact here
    | none =>
      rw [here] at found
      obtain ⟨⟨front, back⟩, later, same⟩ := Option.map_eq_some_iff.mp found
      obtain ⟨rfl, rfl⟩ := Prod.mk.inj same
      exact congrArg (c :: ·) (ih later)

/-- Where the separator is first found does not depend on what follows it. -/
theorem splitOnce_congr {sep s before rest : Text} (found : splitOnce sep s = some (before, rest)) (rest' : Text) :
    splitOnce sep (before ++ sep ++ rest') = some (before, rest') := by
  obtain rfl := eq_of_splitOnce found
  induction before with
  | nil =>
    cases sep with
    | nil => cases rest' <;> simp [splitOnce, stripPrefix]
    | cons a sep =>
      have front : stripPrefix (a :: sep) (a :: sep ++ rest') = some rest' := by rw [stripPrefix_eq_some]
      rw [List.nil_append, List.cons_append, splitOnce, ← List.cons_append, front]
  | cons c before ih =>
    rw [List.append_assoc, List.cons_append, ← List.append_assoc, splitOnce] at found ⊢
    have absent : stripPrefix sep (c :: (before ++ sep ++ rest)) = none := by
      cases here : stripPrefix sep (c :: (before ++ sep ++ rest)) with
      | none => rfl
      | some _ =>
        rw [here] at found
        cases found
    have later : splitOnce sep (before ++ sep ++ rest) = some (before, rest) := by
      rw [absent] at found
      obtain ⟨⟨front, back⟩, later, same⟩ := Option.map_eq_some_iff.mp found
      obtain ⟨front_eq, rfl⟩ := Prod.mk.inj same
      obtain rfl := (List.cons.inj front_eq).2
      exact later
    -- An earlier place would lie in front of the separator, where both texts agree.
    have absent' : stripPrefix sep (c :: (before ++ sep ++ rest')) = none := by
      cases here : stripPrefix sep (c :: (before ++ sep ++ rest')) with
      | none => rfl
      | some tail =>
        rw [stripPrefix_eq_some] at here
        have front : sep <+: c :: (before ++ sep) :=
          List.prefix_of_prefix_length_le ⟨tail, here.symm⟩ ⟨rest', rfl⟩
            (by simp only [List.length_cons, List.length_append]; omega)
        obtain ⟨behind, same⟩ := front
        have there : stripPrefix sep (c :: (before ++ sep ++ rest)) = some (behind ++ rest) := by
          rw [stripPrefix_eq_some, ← List.append_assoc, same, List.cons_append]
        exact (Option.some_ne_none _ (there.symm.trans absent)).elim
    rw [absent']
    exact Option.map_eq_some_iff.mpr ⟨(before, rest'), ih later, rfl⟩

theorem splitOnce_eq_none {sep s : Text} : splitOnce sep s = none ↔ ¬ sep <:+: s := by
  constructor
  · intro absent
    induction s with
    | nil =>
      intro occurs
      rw [List.infix_nil.mp occurs, splitOnce, if_pos rfl] at absent
      cases absent
    | cons c s ih =>
      rw [splitOnce] at absent
      cases here : stripPrefix sep (c :: s) with
      | some _ =>
        rw [here] at absent
        cases absent
      | none =>
        rw [here] at absent
        intro occurs
        rcases List.infix_cons_iff.mp occurs with ⟨rest, same⟩ | later
        · have there : stripPrefix sep (c :: s) = some rest := by rw [stripPrefix_eq_some, same]
          exact Option.some_ne_none _ (there.symm.trans here)
        · exact ih (Option.map_eq_none_iff.mp absent) later
  · intro absent
    cases found : splitOnce sep s with
    | none => rfl
    | some parts =>
      obtain ⟨before, rest⟩ := parts
      exact (absent ⟨before, rest, (eq_of_splitOnce found).symm⟩).elim

variable {s : Text}

theorem splitOnce_singleton_eq_none : splitOnce [sep] s = none ↔ sep ∉ s := by
  rw [splitOnce_eq_none, List.singleton_infix_iff]

theorem rsplitOnce_of_not_mem {after : Text} (absent : sep ∉ after) (before : Text) :
    rsplitOnce [sep] (before ++ sep :: after) = some (before, after) := by
  have reversed : (before ++ sep :: after).reverse = after.reverse ++ sep :: before.reverse := by simp
  unfold rsplitOnce
  rw [reversed, List.reverse_singleton, splitOnce_of_not_mem (fun mem => absent (List.mem_reverse.mp mem))]
  simp

theorem rsplitOnce_eq_some {s before after : Text} (found : rsplitOnce [sep] s = some (before, after)) :
    s = before ++ sep :: after ∧ sep ∉ after := by
  obtain ⟨⟨back, front⟩, cut, same⟩ := Option.map_eq_some_iff.mp found
  obtain ⟨rfl, rfl⟩ := Prod.mk.inj same
  obtain ⟨reversed, absent⟩ := splitOnce_eq_some cut
  constructor
  · rw [← List.reverse_reverse s, reversed]
    simp
  · exact fun mem => absent (List.mem_reverse.mp mem)

theorem rsplitOnce_singleton_eq_none : rsplitOnce [sep] s = none ↔ sep ∉ s := by
  unfold rsplitOnce
  rw [Option.map_eq_none_iff, List.reverse_singleton, splitOnce_singleton_eq_none, List.mem_reverse]

/-! ### Pieces -/

theorem splitChar_append {piece : Text} (absent : sep ∉ piece) (rest : Text) :
    splitChar sep (piece ++ sep :: rest) = piece :: splitChar sep rest := by
  induction piece with
  | nil => rw [List.nil_append, splitChar, if_pos rfl]
  | cons c piece ih =>
    have apart : c ≠ sep := fun eq => absent (List.mem_cons.mpr (.inl eq.symm))
    rw [List.cons_append, splitChar, if_neg apart, ih fun mem => absent (List.mem_cons_of_mem c mem)]

theorem splitChar_of_not_mem {piece : Text} (absent : sep ∉ piece) : splitChar sep piece = [piece] := by
  induction piece with
  | nil => rfl
  | cons c piece ih =>
    have apart : c ≠ sep := fun eq => absent (List.mem_cons.mpr (.inl eq.symm))
    rw [splitChar, if_neg apart, ih fun mem => absent (List.mem_cons_of_mem c mem)]

theorem splitChar_join {pieces : List Text} (some : pieces ≠ [])
    (absent : ∀ piece ∈ pieces, sep ∉ piece) : splitChar sep (join [sep] pieces) = pieces := by
  induction pieces with
  | nil => exact (some rfl).elim
  | cons piece rest ih =>
    have here := absent piece List.mem_cons_self
    cases rest with
    | nil => exact splitChar_of_not_mem here
    | cons next rest =>
      rw [join, List.append_assoc, List.singleton_append, splitChar_append here,
        ih (List.cons_ne_nil _ _) fun p mem => absent p (List.mem_cons_of_mem _ mem)]
      exact List.cons_ne_nil _ _

theorem mem_join {sep : Text} {c : Char} {parts : List Text} (mem : c ∈ join sep parts) :
    c ∈ sep ∨ ∃ part ∈ parts, c ∈ part := by
  induction parts with
  | nil => exact (List.not_mem_nil mem).elim
  | cons part rest ih =>
    cases rest with
    | nil => exact .inr ⟨part, List.mem_cons_self, mem⟩
    | cons next rest =>
      rw [join, List.mem_append, List.mem_append] at mem
      · rcases mem with (here | between) | later
        · exact .inr ⟨part, List.mem_cons_self, here⟩
        · exact .inl between
        · rcases ih later with between | inside
          · exact .inl between
          · obtain ⟨p, inside, there⟩ := inside
            exact .inr ⟨p, List.mem_cons_of_mem _ inside, there⟩
      · exact List.cons_ne_nil _ _

theorem not_mem_of_mem_splitChar {s piece : Text} (mem : piece ∈ splitChar sep s) : sep ∉ piece := by
  induction s generalizing piece with
  | nil =>
    rw [List.mem_singleton.mp mem]
    exact List.not_mem_nil
  | cons c s ih =>
    rw [splitChar] at mem
    by_cases here : c = sep
    · rw [if_pos here] at mem
      rcases List.mem_cons.mp mem with rfl | later
      · exact List.not_mem_nil
      · exact ih later
    · rw [if_neg here] at mem
      cases rest : splitChar sep s with
      | nil =>
        rw [rest] at mem
        rw [List.mem_singleton.mp mem]
        exact fun eq => here (List.mem_singleton.mp eq).symm
      | cons first others =>
        rw [rest] at mem ih
        rcases List.mem_cons.mp mem with rfl | later
        · exact fun at_ => (List.mem_cons.mp at_).elim (fun eq => here eq.symm) (ih List.mem_cons_self)
        · exact ih (List.mem_cons_of_mem _ later)

/-! ### White space at the ends -/

/-- Neither the first nor the last character is white space. -/
def Bare (s : Text) : Prop :=
  (∀ c, s.head? = some c → isWhitespace c = false) ∧ ∀ c, s.getLast? = some c → isWhitespace c = false

theorem trimStart_of_head (first : ∀ c, s.head? = some c → isWhitespace c = false) : trimStart s = s := by
  cases s with
  | nil => rfl
  | cons c s => exact List.dropWhile_cons_of_neg (by rw [first c rfl]; exact Bool.false_ne_true)

theorem trimEnd_of_last (last : ∀ c, s.getLast? = some c → isWhitespace c = false) : trimEnd s = s := by
  have reversed := trimStart_of_head (s := s.reverse) fun c first => last c (List.head?_reverse ▸ first)
  rw [trimEnd, show s.reverse.dropWhile isWhitespace = s.reverse from reversed, List.reverse_reverse]

theorem trim_of_bare (bare : Bare s) : trim s = s := by
  rw [trim, trimStart_of_head bare.1, trimEnd_of_last bare.2]

theorem trimEnd_isPrefix (s : Text) : trimEnd s <+: s := by
  rw [trimEnd, ← List.reverse_suffix, List.reverse_reverse]
  exact List.dropWhile_suffix _

theorem trimEnd_sublist (s : Text) : (trimEnd s).Sublist s := (trimEnd_isPrefix s).sublist

theorem bare_trim (s : Text) : Bare (trim s) := by
  have first : ∀ t : Text, ∀ c, (t.dropWhile isWhitespace).head? = some c → isWhitespace c = false := by
    intro t c found
    have := List.head?_dropWhile_not isWhitespace t
    rw [found] at this
    simpa using this
  constructor
  · intro c found
    obtain ⟨rest, same⟩ := trimEnd_isPrefix (trimStart s)
    refine first s c ?_
    rw [show s.dropWhile isWhitespace = trimStart s from rfl, ← same, List.head?_append, ← trim, found]
    rfl
  · intro c found
    rw [trim, trimEnd, List.getLast?_reverse] at found
    exact first _ c found

theorem trim_sublist (s : Text) : (trim s).Sublist s := (trimEnd_sublist _).trans (List.dropWhile_sublist _)

theorem trim_append {front : Text} (nonempty : front ≠ []) (bare : Bare front) (s : Text) :
    trim (front ++ s) = front ++ trimEnd s := by
  have first : ∀ c, (front ++ s).head? = some c → isWhitespace c = false := fun c found => by
    cases front with
    | nil => exact (nonempty rfl).elim
    | cons d front => exact bare.1 c found
  have behind : front.reverse.dropWhile isWhitespace = front.reverse :=
    trimStart_of_head fun c found => bare.2 c (List.head?_reverse ▸ found)
  rw [trim, trimStart_of_head first, trimEnd, trimEnd, List.reverse_append, List.dropWhile_append, behind]
  split_ifs with empty
  · rw [List.isEmpty_iff.mp empty, List.reverse_reverse, List.reverse_nil, List.append_nil]
  · rw [List.reverse_append, List.reverse_reverse]

theorem trim_eq_self_iff : trim s = s ↔ Bare s :=
  ⟨fun same => same ▸ bare_trim s, trim_of_bare⟩

/-! ### Order -/

theorem ble_total (s t : Text) : ble s t = true ∨ ble t s = true := by
  induction s generalizing t with
  | nil => exact .inl rfl
  | cons a s ih =>
    cases t with
    | nil => exact .inr rfl
    | cons b t =>
      rw [ble, ble]
      by_cases same : a = b
      · rw [if_pos same, if_pos same.symm]
        exact ih t
      · rw [if_neg same, if_neg (Ne.symm same), decide_eq_true_eq, decide_eq_true_eq]
        exact Nat.le_total _ _

theorem ble_trans {s t u : Text} (left : ble s t = true) (right : ble t u = true) : ble s u = true := by
  induction s generalizing t u with
  | nil => rfl
  | cons a s ih =>
    cases t with
    | nil => cases left
    | cons b t =>
      cases u with
      | nil => cases right
      | cons c u =>
        rw [ble] at left right ⊢
        by_cases first : a = b
        · subst first
          rw [if_pos rfl] at left
          split_ifs at right ⊢ with second
          · exact ih left right
          · exact right
        · rw [if_neg first, decide_eq_true_eq] at left
          by_cases second : b = c
          · subst second
            rw [if_neg first]
            exact decide_eq_true left
          · rw [if_neg second, decide_eq_true_eq] at right
            have apart : a ≠ c := fun same => first (Char.toNat_inj.mp (le_antisymm left (same ▸ right)))
            rw [if_neg apart]
            exact decide_eq_true (left.trans right)

theorem ble_antisymm {s t : Text} (left : ble s t = true) (right : ble t s = true) : s = t := by
  induction s generalizing t with
  | nil =>
    cases t with
    | nil => rfl
    | cons b t => cases right
  | cons a s ih =>
    cases t with
    | nil => cases left
    | cons b t =>
      rw [ble] at left right
      by_cases same : a = b
      · rw [if_pos same] at left
        rw [if_pos same.symm] at right
        rw [same, ih left right]
      · rw [if_neg same, decide_eq_true_eq] at left
        rw [if_neg (Ne.symm same), decide_eq_true_eq] at right
        exact (same (Char.toNat_inj.mp (le_antisymm left right))).elim

end Text

end Lib
