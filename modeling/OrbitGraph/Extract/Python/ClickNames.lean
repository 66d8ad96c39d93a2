import Mathlib.Data.List.DropRight
import OrbitGraph.Extract.Python.Click

/-!
When the name of a click command is read from its decorator as it is written there.

A name is known if the argument for it is one plain literal, or if there is none. In every
other case it should be reported as unknown, with a place inside the argument. The extractor
does so if it cuts the arguments where they end, no comment stands in front of what it reads,
the literal has no triple quotes, and what is no literal begins with a name.
-/

namespace OrbitGraph.Extract.Python

open Lib

/-- What should be reported for the argument that is the name. -/
def Reported (value : Value) (first stop : Nat) (result : Option CommandName) : Prop :=
  match value.literal? with
  | some literal => result = some (.resolved literal.body)
  | none => ∃ spanStart spanEnd target, result = some (.unresolved spanStart spanEnd target) ∧
      first ≤ spanStart ∧ spanStart ≤ spanEnd ∧ spanEnd ≤ stop

/-- The name is the first positional argument, or the one called `name`. -/
def Faithful (functionName : Text) : Nat → List Argument → Option CommandName → Prop
  | _, [], result => result = some (.resolved (clickDefaultCommandName functionName))
  | start, arg :: rest, result =>
    match arg with
    | .blank _ => Faithful functionName (start + Text.byteLen arg.text + 1) rest result
    | .positional _ value _ _ => Reported value start (start + Text.byteLen arg.text) result
    | .keyword _ key _ _ value _ =>
      if key.text = "name" then Reported value start (start + Text.byteLen arg.text) result
      else Faithful functionName (start + Text.byteLen arg.text + 1) rest result

/-! ### When it is -/

def AlignedUpTo : List Argument → Prop
  | [] => True
  | arg :: rest => arg.Aligned ∧
      match arg with
      | .blank _ => AlignedUpTo rest
      | .positional _ _ _ _ => True
      | .keyword _ key _ _ _ _ => key.text = "name" ∨ AlignedUpTo rest

/-- It begins with a string literal, apart from those with fields. -/
def StartsQuoted (text : Text) : Prop := ∃ quote rest, text.dropWhile isPlainPrefix = quote :: rest ∧ isQuote quote = true

/-- It begins with names that are joined by dots and do not end in one. -/
def StartsNamed (text : Text) : Prop := ∃ c, (text.takeWhile isTargetChar).getLast? = some c ∧ c ≠ '.'

/-- It begins with a name that is compared, so that it looks like a keyword. -/
def Compares (text : Text) : Prop := ∃ front behind, Text.splitOnce ['='] text = some (front, behind) ∧
  Text.trim front ≠ [] ∧ (Text.trim front).all isWordChar = true

def Value.Readable (value : Value) : Prop :=
  match value.literal? with
  | some literal => literal.triple = false
  | none => ¬ StartsQuoted value.text ∧ StartsNamed value.text

def Readable : List Argument → Prop
  | [] => True
  | .blank gap :: rest => gap.Blank ∧ Readable rest
  | .positional before value _ _ :: _ => before.Blank ∧ value.Readable ∧ ¬ Compares value.text
  | .keyword before key _ behind value _ :: rest =>
    before.Blank ∧
      if key.text = "name" then behind.Blank ∧ value.Readable else key.text.all isWordChar = true ∧ Readable rest

section Lengths

theorem trimStart_split (s : Text) : ∃ white, s = white ++ Text.trimStart s :=
  ⟨_, List.takeWhile_append_dropWhile.symm⟩

theorem leading_add_trim_le (s : Text) : leadingWhitespaceLen s + Text.byteLen (Text.trim s) ≤ Text.byteLen s := by
  obtain ⟨white, front⟩ := trimStart_split s
  obtain ⟨white', back⟩ := Text.trimEnd_isPrefix (Text.trimStart s)
  have first := congrArg Text.byteLen front
  have second := congrArg Text.byteLen back
  rw [Text.byteLen_append] at first second
  rw [leadingWhitespaceLen, Text.trim]
  omega

theorem span_of_commandNameFromValue {value target : Text} {valueStart spanStart spanEnd : Nat}
    (found : commandNameFromValue value valueStart = some (.unresolved spanStart spanEnd target)) :
    valueStart ≤ spanStart ∧ spanStart ≤ spanEnd ∧ spanEnd ≤ valueStart + Text.byteLen value := by
  have within := leading_add_trim_le value
  rw [commandNameFromValue] at found
  split_ifs at found
  dsimp only at found
  cases literal : pythonStringLiteralValue (Text.trim value) with
  | some content =>
    rw [literal] at found
    cases found
  | none =>
    rw [literal] at found
    obtain ⟨name, -, same⟩ := Option.map_eq_some_iff.mp found
    cases same
    omega

end Lengths

section Reading

variable {text : Text}

variable {c : Char}

theorem splitKeywordArg_eq_none {front : Text} (noEquals : '=' ∉ front) (other : c ≠ '=')
    (visible : Text.isWhitespace c = false) (noWord : isWordChar c = false) (back : Text) (start : Nat) :
    splitKeywordArg (front ++ c :: back) start = none := by
  rw [splitKeywordArg]
  cases split : Text.splitOnce ['='] (front ++ c :: back) with
  | none => rfl
  | some parts =>
    obtain ⟨before, value⟩ := parts
    obtain ⟨same, absent⟩ := Text.splitOnce_eq_some split
    have inside : c ∈ before := by
      rcases List.append_eq_append_iff.mp same with ⟨middle, rfl, tail⟩ | ⟨middle, rfl, tail⟩
      · cases middle with
        | nil => cases other (List.cons.inj tail).1
        | cons d middle =>
          rw [(List.cons.inj tail).1]
          exact List.mem_append_right _ List.mem_cons_self
      · cases middle with
        | nil => cases other (List.cons.inj tail).1.symm
        | cons d middle =>
          rw [← (List.cons.inj tail).1] at noEquals
          exact (noEquals (List.mem_append_right _ List.mem_cons_self)).elim
    have unnamed : (Text.trim before).all isWordChar = false := by
      rw [List.all_eq_false]
      exact ⟨c, Text.mem_trim inside visible, by rw [noWord]; exact Bool.false_ne_true⟩
    dsimp only
    rw [unnamed, Bool.not_false, Bool.or_true, if_pos rfl]

theorem isTargetChar_of_isPlainPrefix (letter : isPlainPrefix c = true) : isTargetChar c = true := by
  have all : ∀ c ∈ ['r', 'R', 'u', 'U', 'b', 'B'], isTargetChar c = true := List.forall_iff_forall_mem.mp (by decide)
  exact all c (of_decide_eq_true letter)

theorem isPlainPrefix_eq_false (other : isTargetChar c = false) : isPlainPrefix c = false := by
  rw [Bool.eq_false_iff] at other ⊢
  exact fun letter => other (isTargetChar_of_isPlainPrefix letter)

theorem commandNameFromValue_eq_none {value rest : Text} (trimmed : Text.trim value = c :: rest)
    (unnamed : isTargetChar c = false) (unquoted : isQuote c = false) (start : Nat) : commandNameFromValue value start = none := by
  have literal : pythonStringLiteralValue (c :: rest) = none := by
    rw [pythonStringLiteralValue, ← trimmed, Text.trim_of_bare (Text.bare_trim value), trimmed,
      List.dropWhile_cons_of_neg (by rw [isPlainPrefix_eq_false unnamed]; exact Bool.false_ne_true)]
    dsimp only
    rw [unquoted, if_neg Bool.false_ne_true]
  have name : unresolvedCommandTargetName (c :: rest) = none := by
    rw [unresolvedCommandTargetName, List.takeWhile_cons_of_neg (by rw [unnamed]; exact Bool.false_ne_true)]
    rfl
  rw [commandNameFromValue, trimmed, List.isEmpty_cons, if_neg Bool.false_ne_true]
  dsimp only
  rw [literal, name]
  rfl

theorem isSome_unresolved_iff : (unresolvedCommandTargetName text).isSome = true ↔ StartsNamed text := by
  rw [unresolvedCommandTargetName, StartsNamed]
  generalize text.takeWhile isTargetChar = token
  cases split : Text.rsplitOnce ['.'] token with
  | none =>
    have absent := Text.rsplitOnce_singleton_eq_none.mp split
    cases token with
    | nil => simp
    | cons c rest =>
      have last := List.getLast?_eq_some_getLast (List.cons_ne_nil c rest)
      refine ⟨fun _ => ⟨_, last, fun dot => absent (dot ▸ List.getLast_mem (List.cons_ne_nil c rest))⟩, fun _ => ?_⟩
      simp
  | some parts =>
    obtain ⟨before, after⟩ := parts
    obtain ⟨rfl, absent⟩ := Text.rsplitOnce_eq_some split
    cases after with
    | nil => simp
    | cons c rest =>
      have last : (before ++ '.' :: c :: rest).getLast? = some ((c :: rest).getLast (List.cons_ne_nil c rest)) := by
        rw [List.append_cons, List.getLast?_append_of_ne_nil _ (List.cons_ne_nil c rest),
          List.getLast?_eq_some_getLast (List.cons_ne_nil c rest)]
      refine ⟨fun _ => ⟨_, last, fun dot => absent (dot ▸ List.getLast_mem (List.cons_ne_nil c rest))⟩, fun _ => ?_⟩
      simp

theorem commandNameFromValue_eq {value : Text} (nonempty : text ≠ []) (trimmed : Text.trim value = text) (start : Nat) :
    commandNameFromValue value start =
      match pythonStringLiteralValue text with
      | some literal => some (.resolved literal)
      | none => (unresolvedCommandTargetName text).map fun name =>
        .unresolved (start + leadingWhitespaceLen value) (start + leadingWhitespaceLen value + Text.byteLen text) name := by
  rw [commandNameFromValue, trimmed]
  exact if_neg (by simpa using nonempty)

end Reading

/-! ### The parts of an argument -/

/-- What can stand behind a value, without the white space at the end. -/
structure Tail (tail : Text) : Prop where
  unquoted : ∀ c ∈ tail, isQuote c = false
  apart : ∀ c ∈ tail.head?, isTargetChar c = false
  trimmed : Text.trimEnd tail = tail
  noted : ∀ front behind, tail = front ++ '=' :: behind → ∃ c ∈ front, c = '#' ∨ c = '\\'

section Parts

variable {gap : Gap} {value : Value}

theorem bounds_of_isAlphanum {c : Char} (letter : c.isAlphanum = true) : 48 ≤ c.toNat ∧ c.toNat ≤ 122 := by
  have ends : 'A'.toNat = 65 ∧ 'Z'.toNat = 90 ∧ 'a'.toNat = 97 ∧ 'z'.toNat = 122 ∧ '0'.toNat = 48 ∧ '9'.toNat = 57 := by decide
  have spelled : c.isAlphanum = (decide ('A'.val ≤ c.val ∧ c.val ≤ 'Z'.val) || ('a'.val ≤ c.val && c.val ≤ 'z'.val) ||
      ('0'.val ≤ c.val && c.val ≤ '9'.val)) := rfl
  simp only [spelled, Bool.or_eq_true, Bool.and_eq_true, decide_eq_true_eq, UInt32.le_iff_toNat_le, Char.toNat_val] at letter
  omega

theorem isTargetChar_of_white {c : Char} (white : Text.isWhitespace c = true) : isTargetChar c = false := by
  have letter : c.isAlphanum = false := by
    rw [Bool.eq_false_iff]
    intro letter
    have bounds := bounds_of_isAlphanum letter
    simp only [Text.isWhitespace, Bool.or_eq_true, Bool.and_eq_true, decide_eq_true_eq, beq_iff_eq] at white
    omega
  have underscore : c ≠ '_' := by
    rintro rfl
    cases white
  have dot : c ≠ '.' := by
    rintro rfl
    cases white
  simp [isTargetChar, letter, underscore, dot]

theorem Gap.Blank.white (blank : gap.Blank) : ∀ c ∈ gap.text, Text.isWhitespace c = true := by
  intro c mem
  obtain ⟨piece, inside, there⟩ := List.mem_flatMap.mp mem
  have isTrivia := gap.trivia piece inside
  cases piece with
  | code d plain => exact List.mem_singleton.mp there ▸ isTrivia
  | note first isNote rest => cases blank _ inside
  | literal string => cases isTrivia

theorem Gap.exists_note (noted : ¬ gap.Blank) : ∃ white first rest, gap.text = white ++ first :: rest ∧
    (∀ c ∈ white, Text.isWhitespace c = true) ∧ (first = '#' ∨ first = '\\') := by
  obtain ⟨pieces, trivia⟩ := gap
  rw [Gap.Blank] at noted
  dsimp only at noted
  show ∃ white first rest, textOf pieces = _ ∧ _ ∧ _
  induction pieces with
  | nil => exact (noted nofun).elim
  | cons piece pieces ih =>
    have isTrivia := trivia piece List.mem_cons_self
    cases piece with
    | literal string => cases isTrivia
    | note first isNote rest => exact ⟨[], first, rest ++ textOf pieces, rfl, nofun, isNote⟩
    | code c plain =>
      obtain ⟨white, first, rest, same, blank, isNote⟩ := ih (fun piece mem => trivia piece (List.mem_cons_of_mem _ mem))
        fun all => noted fun piece mem => (List.mem_cons.mp mem).elim (fun here => here ▸ rfl) (all piece)
      refine ⟨c :: white, first, rest, ?_, fun d mem => ?_, isNote⟩
      · exact congrArg (c :: ·) same
      · exact (List.mem_cons.mp mem).elim (fun here => here ▸ isTrivia) (blank d)

theorem isTargetChar_of_note {c : Char} (isNote : c = '#' ∨ c = '\\') :
    isTargetChar c = false ∧ isQuote c = false ∧ Text.isWhitespace c = false ∧ isWordChar c = false ∧ c ≠ '=' := by
  rcases isNote with rfl | rfl <;> exact ⟨by decide, by decide, by decide, by decide, by decide⟩

theorem Gap.apart (gap : Gap) : ∀ c ∈ gap.text.head?, isTargetChar c = false := by
  obtain ⟨pieces, trivia⟩ := gap
  intro c found
  cases pieces with
  | nil => cases found
  | cons piece pieces =>
    have isTrivia := trivia piece List.mem_cons_self
    cases piece with
    | code d plain =>
      obtain rfl : d = c := Option.some.inj found
      exact isTargetChar_of_white isTrivia
    | note first isNote rest =>
      obtain rfl : first = c := Option.some.inj found
      exact (isTargetChar_of_note isNote).1
    | literal string => cases isTrivia

theorem Gap.unquoted (safe : SafeAll gap.pieces) : ∀ c ∈ gap.text, isQuote c = false := by
  intro c mem
  obtain ⟨piece, inside, there⟩ := List.mem_flatMap.mp mem
  have isTrivia := gap.trivia piece inside
  cases piece with
  | code d plain => exact List.mem_singleton.mp there ▸ plain.1
  | note first isNote rest =>
    rcases List.mem_cons.mp there with rfl | later
    · exact (isTargetChar_of_note isNote).2.1
    · exact (safe _ inside c later).1
  | literal string => cases isTrivia

/-- An `=` between the parts of an argument is in a comment. -/
theorem Gap.noted (gap : Gap) {front behind : Text} (same : gap.text = front ++ '=' :: behind) :
    ∃ c ∈ front, c = '#' ∨ c = '\\' := by
  obtain ⟨pieces, trivia⟩ := gap
  change textOf pieces = front ++ '=' :: behind at same
  induction pieces generalizing front with
  | nil => cases front <;> cases same
  | cons piece pieces ih =>
    have isTrivia := trivia piece List.mem_cons_self
    cases piece with
    | literal string => cases isTrivia
    | note first isNote rest =>
      have same : first :: (rest ++ textOf pieces) = front ++ '=' :: behind := same
      cases front with
      | nil => cases (isTargetChar_of_note isNote).2.2.2.2 (List.cons.inj same).1
      | cons d front => exact ⟨first, (List.cons.inj same).1 ▸ List.mem_cons_self, isNote⟩
    | code c plain =>
      have same : c :: textOf pieces = front ++ '=' :: behind := same
      cases front with
      | nil =>
        have white : Text.isWhitespace c = true := isTrivia
        rw [(List.cons.inj same).1] at white
        cases white
      | cons d front =>
        obtain ⟨e, inside, isNote⟩ := ih (fun piece mem => trivia piece (List.mem_cons_of_mem _ mem)) (List.cons.inj same).2
        exact ⟨e, List.mem_cons_of_mem _ inside, isNote⟩

theorem trimEnd_trimEnd (s : Text) : Text.trimEnd (Text.trimEnd s) = Text.trimEnd s := by
  rw [Text.trimEnd, Text.trimEnd, List.reverse_reverse, List.dropWhile_idempotent]

theorem Gap.tail (safe : SafeAll gap.pieces) : Tail (Text.trimEnd gap.text) := by
  obtain ⟨white, split⟩ := Text.trimEnd_isPrefix gap.text
  refine ⟨fun c mem => Gap.unquoted safe c ((Text.trimEnd_sublist _).subset mem), fun c found => ?_, trimEnd_trimEnd _,
    fun front behind same => ?_⟩
  · refine gap.apart c ?_
    rw [← split, List.head?_append, Option.mem_def.mp found]
    rfl
  · have whole : gap.text = front ++ '=' :: (behind ++ white) := by
      rw [← split, same, List.append_assoc]
      rfl
    exact gap.noted whole

theorem Literal.ends (string : Literal) : ∃ front, string.text = front ++ [string.quote] := by
  rw [Literal.text, Literal.delimiter]
  cases string.triple with
  | false => exact ⟨string.letters ++ ([string.quote] ++ string.body), by simp⟩
  | true =>
    exact ⟨string.letters ++ ([string.quote, string.quote, string.quote] ++ (string.body ++ [string.quote, string.quote])), by simp⟩

theorem isWhitespace_of_quote {c : Char} (quoted : isQuote c = true) : Text.isWhitespace c = false := by
  rcases isQuote_iff.mp quoted with rfl | rfl <;> decide

theorem Value.text_ne_nil (value : Value) : value.text ≠ [] := by
  obtain ⟨piece, pieces, same⟩ := List.exists_cons_of_ne_nil value.nonempty
  rw [Value.text, same, textOf, List.flatMap_cons]
  refine List.append_ne_nil_of_left_ne_nil ?_ _
  cases piece with
  | code c plain | note first isNote rest => exact List.cons_ne_nil _ _
  | literal string =>
    obtain ⟨front, ends⟩ := string.ends
    exact fun none => List.cons_ne_nil _ _ (List.append_eq_nil_iff.mp (ends.symm.trans none)).2

theorem Value.bare (value : Value) : Text.Bare value.text := by
  constructor
  · intro c found
    obtain ⟨piece, pieces, same⟩ := List.exists_cons_of_ne_nil value.nonempty
    have visible := value.first piece (by rw [same]; rfl)
    rw [Value.text, same, textOf, List.flatMap_cons] at found
    cases piece with
    | code d plain =>
      obtain rfl : d = c := Option.some.inj found
      exact visible
    | note first isNote rest => cases visible
    | literal string =>
      have all : ∀ c ∈ ['r', 'R', 'u', 'U', 'b', 'B', 'f', 'F', 't', 'T'], Text.isWhitespace c = false :=
        List.forall_iff_forall_mem.mp (by decide)
      have isPrefix := string.isPrefix
      rw [Piece.text, Literal.text, Literal.delimiter] at found
      cases letters : string.letters with
      | nil =>
        rw [letters] at found
        have quoted := isWhitespace_of_quote string.quoted
        cases triple : string.triple <;> rw [triple] at found <;> exact Option.some.inj found ▸ quoted
      | cons d rest =>
        rw [letters] at found
        obtain rfl : d = c := Option.some.inj found
        exact all d (isPrefix d (letters ▸ List.mem_cons_self))
  · intro c found
    have split := List.dropLast_append_getLast value.nonempty
    have visible := value.last (value.pieces.getLast value.nonempty) (List.getLast?_eq_some_getLast value.nonempty)
    rw [Value.text, ← split, textOf, List.flatMap_append, List.flatMap_singleton] at found
    cases piece : value.pieces.getLast value.nonempty with
    | code d plain =>
      rw [piece] at found visible
      rw [Piece.text, List.getLast?_concat] at found
      exact Option.some.inj found ▸ visible
    | note first isNote rest =>
      rw [piece] at visible
      cases visible
    | literal string =>
      obtain ⟨front, ends⟩ := string.ends
      rw [piece, Piece.text, ends, ← List.append_assoc, List.getLast?_concat] at found
      exact Option.some.inj found ▸ isWhitespace_of_quote string.quoted

theorem trim_white {white : Text} (blank : ∀ c ∈ white, Text.isWhitespace c = true) (s : Text) :
    Text.trim (white ++ s) = Text.trim s := by
  rw [Text.trim, Text.trimStart, List.dropWhile_append, List.dropWhile_eq_nil_iff.mpr blank]
  rfl

/-! ### The value that is the name -/

variable {tail : Text}

theorem startsQuoted_append (isTail : Tail tail) (text : Text) : StartsQuoted (text ++ tail) ↔ StartsQuoted text := by
  have stops : ¬ StartsQuoted tail := by
    rintro ⟨quote, rest, same, quoted⟩
    cases tail with
    | nil => cases same
    | cons c tail =>
      rw [List.dropWhile_cons_of_neg (by rw [isPlainPrefix_eq_false (isTail.apart c rfl)]; exact Bool.false_ne_true)] at same
      have unquoted := isTail.unquoted c List.mem_cons_self
      rw [(List.cons.inj same).1, quoted] at unquoted
      cases unquoted
  rw [StartsQuoted, List.dropWhile_append, StartsQuoted]
  cases dropped : text.dropWhile isPlainPrefix with
  | nil => exact ⟨fun starts => (stops starts).elim, fun ⟨_, _, same, _⟩ => by cases same⟩
  | cons c rest =>
    constructor
    · rintro ⟨quote, rest', same, quoted⟩
      exact ⟨c, rest, rfl, (List.cons.inj same).1 ▸ quoted⟩
    · rintro ⟨quote, rest', same, quoted⟩
      exact ⟨c, rest ++ tail, rfl, (List.cons.inj same).1 ▸ quoted⟩

theorem startsNamed_append (isTail : Tail tail) (text : Text) : StartsNamed (text ++ tail) ↔ StartsNamed text := by
  have stops : tail.takeWhile isTargetChar = [] := by
    cases tail with
    | nil => rfl
    | cons c tail => exact List.takeWhile_cons_of_neg (by rw [isTail.apart c rfl]; exact Bool.false_ne_true)
  have same : (text ++ tail).takeWhile isTargetChar = text.takeWhile isTargetChar := by
    rw [List.takeWhile_append, stops, List.append_nil]
    split_ifs with whole
    · exact ((List.takeWhile_prefix _).eq_of_length whole).symm
    · rfl
  rw [StartsNamed, same, StartsNamed]

theorem Literal.delimiter_eq (string : Literal) : ∃ more, string.delimiter = string.quote :: more := by
  rw [Literal.delimiter]
  cases string.triple <;> exact ⟨_, rfl⟩

theorem Literal.quote_marks (string : Literal) : isPlainPrefix string.quote = false ∧ string.quote ≠ '=' ∧
    Text.isWhitespace string.quote = false ∧ isWordChar string.quote = false := by
  rcases isQuote_iff.mp string.quoted with is | is <;> rw [is] <;> decide

/-- A text that begins with a quote has the quote again, where the literal ends. -/
theorem mem_of_startsQuoted {pieces : List Piece} (safe : SafeAll pieces) (isTail : Tail tail) {quote : Char} {rest : Text}
    (same : (textOf pieces ++ tail).dropWhile isPlainPrefix = quote :: rest) (quoted : isQuote quote = true) : quote ∈ rest := by
  induction pieces with
  | nil =>
    obtain ⟨_, _, empty, -⟩ := (startsQuoted_append isTail []).mp ⟨quote, rest, same, quoted⟩
    cases empty
  | cons piece pieces ih =>
    rw [textOf, List.flatMap_cons, List.append_assoc] at same
    cases piece with
    | code c plain =>
      rw [Piece.text, List.singleton_append, List.dropWhile_cons] at same
      split_ifs at same
      · exact ih (fun piece mem => safe piece (List.mem_cons_of_mem _ mem)) same
      · rw [← (List.cons.inj same).1, plain.1] at quoted
        cases quoted
    | note first isNote text =>
      have apart := isTargetChar_of_note isNote
      rw [Piece.text, List.cons_append, List.dropWhile_cons_of_neg
        (by rw [isPlainPrefix_eq_false apart.1]; exact Bool.false_ne_true)] at same
      rw [← (List.cons.inj same).1, apart.2.1] at quoted
      cases quoted
    | literal string =>
      have letters : ∀ c ∈ ['r', 'R', 'u', 'U', 'b', 'B', 'f', 'F', 't', 'T'], isQuote c = false :=
        List.forall_iff_forall_mem.mp (by decide)
      obtain ⟨more, delimiter⟩ := string.delimiter_eq
      rw [Piece.text, Literal.text, List.append_assoc, List.dropWhile_append] at same
      cases dropped : string.letters.dropWhile isPlainPrefix with
      | cons c later =>
        rw [dropped] at same
        have inside : c ∈ string.letters := (List.dropWhile_sublist _).subset (dropped ▸ List.mem_cons_self)
        have unquoted := letters c (string.isPrefix c inside)
        rw [(List.cons.inj same).1, quoted] at unquoted
        cases unquoted
      | nil =>
        rw [dropped, List.isEmpty_nil, if_pos rfl, List.append_assoc, delimiter, List.cons_append,
          List.dropWhile_cons_of_neg (by rw [string.quote_marks.1]; exact Bool.false_ne_true)] at same
        obtain ⟨rfl, rfl⟩ := List.cons.inj same
        simp

theorem trim_value (value : Value) (isTail : Tail tail) : Text.trim (value.text ++ tail) = value.text ++ tail := by
  rw [Text.trim_append value.text_ne_nil value.bare, isTail.trimmed]

variable {string : Literal}

/-- What is between the first quote and the last is the literal if it has one quote at each end. -/
theorem pythonStringLiteralValue_literal (plain : string.Plain) (isTail : Tail tail)
    (trimmed : Text.trim (string.text ++ tail) = string.text ++ tail) :
    pythonStringLiteralValue (string.text ++ tail) =
      some (if string.triple then string.quote :: string.quote :: (string.body ++ [string.quote, string.quote]) else string.body) := by
  have letters : ∀ c ∈ string.letters, isPlainPrefix c = true := by
    have all : ∀ c ∈ ['r', 'R', 'u', 'U'], isPlainPrefix c = true := List.forall_iff_forall_mem.mp (by decide)
    exact fun c mem => all c (plain c mem)
  have absent : string.quote ∉ tail := fun mem => by
    have := isTail.unquoted _ mem
    rw [string.quoted] at this
    cases this
  obtain ⟨more, body, delimiter, shape, content⟩ : ∃ more body, string.delimiter = string.quote :: more ∧
      more ++ (string.body ++ (string.quote :: more ++ tail)) = body ++ string.quote :: tail ∧
      body = if string.triple then string.quote :: string.quote :: (string.body ++ [string.quote, string.quote]) else string.body := by
    rw [Literal.delimiter]
    cases string.triple with
    | false => exact ⟨[], string.body, rfl, by simp, rfl⟩
    | true => exact ⟨[string.quote, string.quote], _, rfl, by simp, rfl⟩
  have behind : (string.text ++ tail).dropWhile isPlainPrefix = string.quote :: (body ++ string.quote :: tail) := by
    rw [Literal.text, List.append_assoc, List.dropWhile_append, List.dropWhile_eq_nil_iff.mpr letters, List.isEmpty_nil, if_pos rfl,
      delimiter, List.cons_append, List.cons_append, List.dropWhile_cons_of_neg (by rw [string.quote_marks.1]; exact Bool.false_ne_true), ← shape]
    simp
  rw [pythonStringLiteralValue, trimmed, behind]
  dsimp only
  rw [if_pos string.quoted, Text.rsplitOnce_of_not_mem absent, ← content]
  rfl

theorem pythonStringLiteralValue_eq_none {text : Text} (trimmed : Text.trim text = text) (starts : ¬ StartsQuoted text) :
    pythonStringLiteralValue text = none := by
  rw [pythonStringLiteralValue, trimmed]
  cases dropped : text.dropWhile isPlainPrefix with
  | nil => rfl
  | cons c rest => exact if_neg fun quoted => starts ⟨c, rest, dropped, quoted⟩

theorem pythonStringLiteralValue_isSome {text : Text} (trimmed : Text.trim text = text) {quote : Char} {rest : Text}
    (dropped : text.dropWhile isPlainPrefix = quote :: rest) (quoted : isQuote quote = true) (closed : quote ∈ rest) :
    ∃ content, pythonStringLiteralValue text = some content := by
  rw [pythonStringLiteralValue, trimmed, dropped]
  dsimp only
  rw [if_pos quoted]
  cases split : Text.rsplitOnce [quote] rest with
  | none => exact (Text.rsplitOnce_singleton_eq_none.mp split closed).elim
  | some parts => exact ⟨_, rfl⟩

theorem Value.literal_text {value : Value} (whole : value.literal? = some string) :
    value.text = string.text ∧ string.Plain := by
  rw [Value.literal?] at whole
  rw [Value.text]
  split at whole
  · rename_i other pieces
    split_ifs at whole with plain
    rw [pieces, ← Option.some.inj whole]
    exact ⟨List.append_nil _, plain⟩
  · cases whole

/-- The value is reported as it should be just if it can be read. -/
theorem reported_iff {white : Text} (blank : ∀ c ∈ white, Text.isWhitespace c = true) (safe : SafeAll value.pieces)
    (isTail : Tail tail) {start first stop : Nat} (low : first ≤ start)
    (high : start + Text.byteLen (white ++ (value.text ++ tail)) ≤ stop) :
    Reported value first stop (commandNameFromValue (white ++ (value.text ++ tail)) start) ↔ value.Readable := by
  have trimmed := trim_value value isTail
  have read := commandNameFromValue_eq (List.append_ne_nil_of_left_ne_nil value.text_ne_nil tail)
    ((trim_white blank _).trans trimmed) start
  rw [Reported, Value.Readable]
  cases whole : value.literal? with
  | some string =>
    have alone := value.literal_text whole
    rw [alone.1] at trimmed
    rw [read, alone.1, pythonStringLiteralValue_literal alone.2 isTail trimmed]
    show _ = some (CommandName.resolved string.body) ↔ string.triple = false
    cases string.triple with
    | false => exact ⟨fun _ => rfl, fun _ => rfl⟩
    | true =>
      refine ⟨fun same => ?_, nofun⟩
      have lengths := congrArg List.length (CommandName.resolved.inj (Option.some.inj same))
      rw [if_pos rfl] at lengths
      simp at lengths
      omega
  | none =>
    constructor
    · rintro ⟨spanStart, spanEnd, target, found, -⟩
      rw [read] at found
      have unquoted : ¬ StartsQuoted (value.text ++ tail) := by
        rintro ⟨quote, rest, dropped, quoted⟩
        obtain ⟨content, literal⟩ := pythonStringLiteralValue_isSome trimmed dropped quoted
          (mem_of_startsQuoted safe isTail dropped quoted)
        rw [literal] at found
        cases found
      rw [pythonStringLiteralValue_eq_none trimmed unquoted] at found
      obtain ⟨name, named, -⟩ := Option.map_eq_some_iff.mp found
      exact ⟨fun starts => unquoted ((startsQuoted_append isTail _).mpr starts),
        (startsNamed_append isTail _).mp (isSome_unresolved_iff.mp (named ▸ rfl))⟩
    · rintro ⟨unquoted, named⟩
      have literal := pythonStringLiteralValue_eq_none trimmed fun starts => unquoted ((startsQuoted_append isTail _).mp starts)
      obtain ⟨name, target⟩ := Option.isSome_iff_exists.mp
        (isSome_unresolved_iff.mpr ((startsNamed_append isTail _).mpr named))
      rw [literal, target] at read
      obtain ⟨after, order, within⟩ := span_of_commandNameFromValue read
      exact ⟨_, _, name, read, low.trans after, order, within.trans high⟩

end Parts

section Rounds

variable {functionName : Text} {later : Option CommandName} {start : Nat}

variable {arg : ArgSpan}

theorem readArg_of_empty (empty : Text.trim arg.text = []) : readArg arg later = later := by
  rw [readArg, empty]
  rfl

theorem readArg_of_positional (nonempty : Text.trim arg.text ≠ [])
    (positional : splitKeywordArg (Text.trim arg.text) (arg.start + leadingWhitespaceLen arg.text) = none) :
    readArg arg later = commandNameFromValue (Text.trim arg.text) (arg.start + leadingWhitespaceLen arg.text) := by
  rw [readArg, if_neg (by simpa using nonempty)]
  dsimp only
  rw [positional]

variable {valueStart : Nat}

theorem readArg_of_keyword {key value : Text} (nonempty : Text.trim arg.text ≠ [])
    (keyword : splitKeywordArg (Text.trim arg.text) (arg.start + leadingWhitespaceLen arg.text) = some (key, value, valueStart)) :
    readArg arg later = if key = "name" then commandNameFromValue value valueStart else later := by
  rw [readArg, if_neg (by simpa using nonempty)]
  dsimp only
  rw [keyword]

theorem readArg_of_note {gap : Gap} (noted : ¬ gap.Blank) (behind : Text) : readArg ⟨gap.text ++ behind, start⟩ later = none := by
  obtain ⟨white, first, rest, same, blank, isNote⟩ := gap.exists_note noted
  obtain ⟨unnamed, unquoted, visible, noWord, other⟩ := isTargetChar_of_note isNote
  have bare : Text.Bare [first] := by
    constructor <;> intro c found <;> (cases found; exact visible)
  have trimmed : Text.trim (gap.text ++ behind) = first :: Text.trimEnd (rest ++ behind) := by
    rw [same, List.append_assoc, trim_white blank]
    exact Text.trim_append (List.cons_ne_nil _ _) bare (rest ++ behind)
  have nonempty : Text.trim (gap.text ++ behind) ≠ [] := trimmed ▸ List.cons_ne_nil _ _
  rw [readArg_of_positional nonempty (trimmed ▸ splitKeywordArg_eq_none (List.not_mem_nil : '=' ∉ []) other visible noWord _ _)]
  exact commandNameFromValue_eq_none ((Text.trim_of_bare (Text.bare_trim _)).trans trimmed) unnamed unquoted _

theorem not_reported_none {value : Value} {first stop : Nat} : ¬ Reported value first stop none := by
  rw [Reported]
  split
  · exact nofun
  · rintro ⟨_, _, _, same, _⟩
    cases same

theorem not_faithful_none (args : List Argument) (start : Nat) : ¬ Faithful functionName start args none := by
  induction args generalizing start with
  | nil => exact nofun
  | cons arg rest ih =>
    cases arg with
    | blank gap => exact ih _
    | positional before value after expression => exact not_reported_none
    | keyword before key middle behind value after =>
      rw [Faithful]
      split_ifs
      · exact not_reported_none
      · exact ih _

theorem le_of_reported {value : Value} {first stop spanStart spanEnd : Nat} {target : Text}
    (reported : Reported value first stop (some (.unresolved spanStart spanEnd target))) :
    first ≤ spanStart ∧ spanStart ≤ spanEnd ∧ spanEnd ≤ stop := by
  rw [Reported] at reported
  split at reported
  · cases reported
  · obtain ⟨_, _, _, same, within⟩ := reported
    cases same
    exact within

variable {spanStart spanEnd : Nat}

theorem le_of_faithful {target : Text} (args : List Argument) (start : Nat)
    (faithful : Faithful functionName start args (some (.unresolved spanStart spanEnd target))) : start ≤ spanStart := by
  induction args generalizing start with
  | nil => cases faithful
  | cons arg rest ih =>
    cases arg with
    | blank gap => exact (by omega : start ≤ start + _ + 1).trans (ih _ faithful)
    | positional before value after expression => exact (le_of_reported faithful).1
    | keyword before key middle behind value after =>
      rw [Faithful] at faithful
      split_ifs at faithful
      · exact (le_of_reported faithful).1
      · exact (by omega : start ≤ start + _ + 1).trans (ih _ faithful)

theorem start_le_of_mem_splitFrom {text piece : Text} {scan : ArgScan} {start : Nat}
    (mem : arg ∈ splitFrom start piece scan text) : start ≤ arg.start := by
  induction text generalizing start piece scan with
  | nil => exact List.mem_singleton.mp mem ▸ Nat.le_refl _
  | cons c text ih =>
    rw [splitFrom] at mem
    split_ifs at mem
    · rcases List.mem_cons.mp mem with rfl | behind
      · exact Nat.le_refl _
      · exact (by omega : start ≤ start + _ + 1).trans (ih behind)
    · exact ih mem

theorem start_le_of_readArg {target : Text}
    (found : readArg arg later = some (.unresolved spanStart spanEnd target)) (other : later ≠ some (.unresolved spanStart spanEnd target)) :
    arg.start ≤ spanStart := by
  rw [readArg] at found
  split_ifs at found with empty
  · exact (other found).elim
  · dsimp only at found
    cases split : splitKeywordArg (Text.trim arg.text) (arg.start + leadingWhitespaceLen arg.text) with
    | none =>
      rw [split] at found
      have := (span_of_commandNameFromValue found).1
      omega
    | some parts =>
      obtain ⟨key, value, valueStart⟩ := parts
      rw [split] at found
      dsimp only at found
      split_ifs at found
      · have after := (span_of_commandNameFromValue found).1
        have place : arg.start ≤ valueStart := by
          rw [splitKeywordArg] at split
          split at split
          · cases split
          · dsimp only at split
            split_ifs at split
            cases split
            omega
        exact place.trans after
      · exact (other found).elim

theorem le_of_commandNameFromClickArgs {text target : Text}
    (found : commandNameFromClickArgs text start functionName = some (.unresolved spanStart spanEnd target)) : start ≤ spanStart := by
  have all : ∀ args : List ArgSpan, (∀ arg ∈ args, start ≤ arg.start) →
      args.foldr readArg (some (.resolved (clickDefaultCommandName functionName))) = some (.unresolved spanStart spanEnd target) →
      start ≤ spanStart := by
    intro args
    induction args with
    | nil => exact nofun
    | cons arg rest ih =>
      intro inside found
      by_cases later : rest.foldr readArg (some (.resolved (clickDefaultCommandName functionName))) =
          some (.unresolved spanStart spanEnd target)
      · exact ih (fun arg mem => inside arg (List.mem_cons_of_mem _ mem)) later
      · exact (inside arg List.mem_cons_self).trans (start_le_of_readArg found later)
  exact all _ (fun _ => start_le_of_mem_splitFrom) found

/-- What looks like a keyword is a comparison: an `=` behind the value is in a comment. -/
theorem comparison_of_keyword {value : Value} {tail key behind : Text} (isTail : Tail tail)
    (found : splitKeywordArg (value.text ++ tail) start = some (key, behind, valueStart)) :
    ∃ front back, Text.splitOnce ['='] value.text = some (front, back) ∧ Text.trim front = key ∧ key ≠ [] ∧
      key.all isWordChar = true ∧ behind = back ++ tail := by
  rw [splitKeywordArg] at found
  cases split : Text.splitOnce ['='] (value.text ++ tail) with
  | none =>
    rw [split] at found
    cases found
  | some parts =>
    obtain ⟨front, rest⟩ := parts
    rw [split] at found
    dsimp only at found
    split_ifs at found with named
    cases found
    rw [Bool.not_eq_true, Bool.or_eq_false_iff, Bool.not_eq_false'] at named
    have nonempty : Text.trim front ≠ [] := by simpa using named.1
    cases inside : Text.splitOnce ['='] value.text with
    | some parts' =>
      obtain ⟨front', back⟩ := parts'
      obtain ⟨same, absent⟩ := Text.splitOnce_eq_some inside
      rw [same, List.append_assoc, List.cons_append, Text.splitOnce_of_not_mem absent] at split
      cases split
      exact ⟨front, back, rfl, rfl, nonempty, named.2, rfl⟩
    | none =>
      obtain ⟨same, absent⟩ := Text.splitOnce_eq_some split
      have outside := Text.splitOnce_singleton_eq_none.mp inside
      obtain ⟨middle, rfl, rest'⟩ : ∃ middle, front = value.text ++ middle ∧ tail = middle ++ '=' :: behind := by
        rcases List.append_eq_append_iff.mp same with ⟨middle, front, back⟩ | ⟨middle, whole, back⟩
        · exact ⟨middle, front, back⟩
        · cases middle with
          | nil => exact ⟨[], by simpa using whole.symm, by simpa using back.symm⟩
          | cons c middle =>
            rw [(List.cons.inj back).1] at outside
            exact (outside (whole ▸ List.mem_append_right _ List.mem_cons_self)).elim
      obtain ⟨c, mem, isNote⟩ := isTail.noted _ _ rest'
      obtain ⟨-, -, visible, noWord, -⟩ := isTargetChar_of_note isNote
      have := List.all_eq_true.mp named.2 c (Text.mem_trim (List.mem_append_right _ mem) visible)
      rw [noWord] at this
      cases this

theorem keyword_of_comparison {text : Text} (compares : Compares text) (tail : Text) (start : Nat) :
    splitKeywordArg (text ++ tail) start ≠ none := by
  obtain ⟨front, behind, split, nonempty, word⟩ := compares
  obtain ⟨same, absent⟩ := Text.splitOnce_eq_some split
  have named : ((Text.trim front).isEmpty || !(Text.trim front).all isWordChar) = false := by
    rw [word, Bool.not_true, Bool.or_false]
    simpa using nonempty
  rw [splitKeywordArg, same, List.append_assoc, List.cons_append, Text.splitOnce_of_not_mem absent]
  dsimp only
  rw [named, if_neg Bool.false_ne_true]
  exact nofun

theorem splitKeywordArg_literal {string : Literal} (plain : string.Plain) (tail : Text) :
    splitKeywordArg (string.text ++ tail) start = none := by
  have letters : ∀ c ∈ ['r', 'R', 'u', 'U'], c ≠ '=' := List.forall_iff_forall_mem.mp (by decide)
  have marks := string.quote_marks.2
  obtain ⟨more, delimiter⟩ := string.delimiter_eq
  rw [Literal.text, delimiter, List.append_assoc, List.cons_append, List.cons_append]
  exact splitKeywordArg_eq_none (fun mem => letters _ (plain _ mem) rfl) marks.1 marks.2.1 marks.2.2 _ _

/-- A positional argument is reported as it should be just if it is in front of its comments and can be read. -/
theorem positional_iff {before after : Gap} {value : Value} {expression} (aligned : (Argument.positional before value after expression).Aligned)
    (behind : ∀ spanStart spanEnd target, later = some (.unresolved spanStart spanEnd target) →
      start + Text.byteLen (Argument.positional before value after expression).text < spanStart) :
    Reported value start (start + Text.byteLen (Argument.positional before value after expression).text)
        (readArg ⟨(Argument.positional before value after expression).text, start⟩ later) ↔
      before.Blank ∧ value.Readable ∧ ¬ Compares value.text := by
  obtain ⟨-, safe, safeAfter⟩ := aligned
  have isTail := Gap.tail safeAfter
  by_cases blank : before.Blank
  case neg =>
    rw [Argument.text, readArg_of_note blank]
    exact ⟨fun reported => (not_reported_none reported).elim, fun all => (blank all.1).elim⟩
  have trimmed : Text.trim (Argument.positional before value after expression).text = value.text ++ Text.trimEnd after.text := by
    rw [Argument.text, trim_white blank.white, Text.trim_append value.text_ne_nil value.bare]
  have within := leading_add_trim_le (Argument.positional before value after expression).text
  have nonempty := List.append_ne_nil_of_left_ne_nil value.text_ne_nil (Text.trimEnd after.text)
  rw [trimmed] at within
  rw [← trimmed] at nonempty
  cases split : splitKeywordArg (value.text ++ Text.trimEnd after.text)
      (start + leadingWhitespaceLen (Argument.positional before value after expression).text) with
  | none =>
    have read := reported_iff (fun _ mem => (by cases mem) : ∀ c ∈ [], Text.isWhitespace c = true) safe isTail (Nat.le_add_right start _)
      (by rw [List.nil_append]; omega :
        start + leadingWhitespaceLen (Argument.positional before value after expression).text +
          Text.byteLen ([] ++ (value.text ++ Text.trimEnd after.text)) ≤
        start + Text.byteLen (Argument.positional before value after expression).text)
    rw [readArg_of_positional nonempty (trimmed ▸ split), trimmed]
    refine read.trans ?_
    exact ⟨fun readable => ⟨blank, readable, fun compares => keyword_of_comparison compares _ _ split⟩, fun all => all.2.1⟩
  | some parts =>
    obtain ⟨key, rest, valueStart⟩ := parts
    obtain ⟨front, back, inside, named, some, word, rfl⟩ := comparison_of_keyword isTail split
    have compares : Compares value.text := ⟨front, back, inside, named ▸ some, named ▸ word⟩
    refine ⟨fun reported => ?_, fun all => (all.2.2 compares).elim⟩
    rw [readArg_of_keyword nonempty (trimmed ▸ split)] at reported
    split_ifs at reported
    · obtain ⟨rest, shape⟩ : ∃ rest, back = '=' :: rest := by
        have head := expression front back inside (named ▸ word)
        cases back with
        | nil => cases head
        | cons c rest => exact ⟨rest, by rw [Option.some.inj head]⟩
      have bare : Text.Bare ['='] := by
        constructor <;> intro c found <;> (cases found; decide)
      rw [shape, List.cons_append, ← List.singleton_append, commandNameFromValue_eq_none
        (Text.trim_append (List.cons_ne_nil _ _) bare _) (by decide) (by decide)] at reported
      exact (not_reported_none reported).elim
    · cases whole : value.literal? with
      | some string =>
        obtain ⟨same, plain⟩ := value.literal_text whole
        rw [same, splitKeywordArg_literal plain] at split
        cases split
      | none =>
        rw [Reported, whole] at reported
        obtain ⟨spanStart, spanEnd, target, same, -, order, last⟩ := reported
        have := behind _ _ _ same
        omega

theorem Key.bare (key : Key) : Text.Bare key.text :=
  ⟨fun c found => (key.clean c (List.mem_of_head? found)).1, fun c found => (key.clean c (List.mem_of_getLast? found)).1⟩

section Keyword

variable {before : Gap} (key : Key) (middle behind : Gap) (value : Value) (after : Gap)

/-- A keyword argument without what is around it. -/
def keywordCore : Text :=
  key.text ++ middle.text ++ '=' :: (behind.text ++ value.text)

theorem trim_keyword (blank : before.Blank) : Text.trim (Argument.keyword before key middle behind value after).text =
      keywordCore key middle behind value ++ Text.trimEnd after.text := by
  have shape : (Argument.keyword before key middle behind value after).text =
      before.text ++ (keywordCore key middle behind value ++ after.text) := by
    simp [Argument.text, keywordCore]
  have nonempty : keywordCore key middle behind value ≠ [] :=
    List.append_ne_nil_of_left_ne_nil (List.append_ne_nil_of_left_ne_nil key.nonempty _) _
  have bare : Text.Bare (keywordCore key middle behind value) := by
    constructor
    · intro c found
      refine key.bare.1 c ?_
      obtain ⟨d, rest, same⟩ := List.exists_cons_of_ne_nil key.nonempty
      rw [keywordCore, same] at found
      rw [same]
      exact found
    · intro c found
      rw [keywordCore, ← List.cons_append, ← List.append_assoc, List.getLast?_append_of_ne_nil _ value.text_ne_nil] at found
      exact value.bare.2 c found
  rw [shape, trim_white blank.white, Text.trim_append nonempty bare]

theorem splitKeywordArg_keyword (blankMiddle : middle.Blank) (tail : Text) (start : Nat) :
    splitKeywordArg (keywordCore key middle behind value ++ tail) start =
      if key.text.all isWordChar then
        some (key.text, behind.text ++ (value.text ++ tail), start + Text.byteLen (key.text ++ middle.text) + 1)
      else none := by
  have absent : '=' ∉ key.text ++ middle.text := fun mem => by
    rcases List.mem_append.mp mem with inKey | inGap
    · exact (key.clean _ inKey).2.2.2.2 (by decide)
    · cases blankMiddle.white _ inGap
  have trimmed : Text.trim (key.text ++ middle.text) = key.text :=
    Text.trim_between key.bare (nofun : ∀ c ∈ [], Text.isWhitespace c = true) blankMiddle.white
  have nonempty : key.text.isEmpty = false := by simpa using key.nonempty
  have shape : keywordCore key middle behind value ++ tail = (key.text ++ middle.text) ++ '=' :: (behind.text ++ (value.text ++ tail)) := by
    simp [keywordCore]
  rw [splitKeywordArg, shape, Text.splitOnce_of_not_mem absent]
  dsimp only
  rw [trimmed, nonempty, Bool.false_or]
  cases key.text.all isWordChar <;> rfl

theorem readArg_of_unusual (blank : before.Blank) (blankMiddle : middle.Blank) (unusual : key.text.all isWordChar = false) :
    readArg ⟨(Argument.keyword before key middle behind value after).text, start⟩ later = none ∨
      ∃ spanStart spanEnd target,
        readArg ⟨(Argument.keyword before key middle behind value after).text, start⟩ later =
          some (.unresolved spanStart spanEnd target) ∧
        spanStart ≤ start + Text.byteLen (Argument.keyword before key middle behind value after).text := by
  have trimmed := trim_keyword key middle behind value after blank
  have nonempty : keywordCore key middle behind value ++ Text.trimEnd after.text ≠ [] :=
    List.append_ne_nil_of_left_ne_nil (List.append_ne_nil_of_left_ne_nil (List.append_ne_nil_of_left_ne_nil key.nonempty _) _) _
  have within := leading_add_trim_le (Argument.keyword before key middle behind value after).text
  have again : Text.trim (keywordCore key middle behind value ++ Text.trimEnd after.text) =
      keywordCore key middle behind value ++ Text.trimEnd after.text := trimmed ▸ Text.trim_of_bare (Text.bare_trim _)
  have unquoted : ¬ StartsQuoted (keywordCore key middle behind value ++ Text.trimEnd after.text) := by
    rintro ⟨quote, rest, same, quoted⟩
    rw [keywordCore, List.append_assoc, List.append_assoc, List.dropWhile_append] at same
    cases dropped : key.text.dropWhile isPlainPrefix with
    | nil =>
      have word : key.text.all isWordChar = true := List.all_eq_true.mpr fun c mem => by
        have letters : ∀ c ∈ ['r', 'R', 'u', 'U', 'b', 'B'], isWordChar c = true := List.forall_iff_forall_mem.mp (by decide)
        exact letters c (of_decide_eq_true (List.dropWhile_eq_nil_iff.mp dropped c mem))
      rw [word] at unusual
      cases unusual
    | cons c back =>
      rw [dropped] at same
      have inside : c ∈ key.text := (List.dropWhile_sublist _).subset (dropped ▸ List.mem_cons_self)
      have clean := (key.clean c inside).2.1
      rw [(List.cons.inj same).1, quoted] at clean
      cases clean
  have read : readArg ⟨(Argument.keyword before key middle behind value after).text, start⟩ later =
      commandNameFromValue (Text.trim (Argument.keyword before key middle behind value after).text)
        (start + leadingWhitespaceLen (Argument.keyword before key middle behind value after).text) := by
    refine readArg_of_positional (trimmed ▸ nonempty) ?_
    rw [trimmed, splitKeywordArg_keyword key middle behind value blankMiddle, unusual]
    rfl
  rw [trimmed] at within
  rw [read, trimmed]
  cases found : commandNameFromValue (keywordCore key middle behind value ++ Text.trimEnd after.text)
      (start + leadingWhitespaceLen (Argument.keyword before key middle behind value after).text) with
  | none => exact .inl rfl
  | some result =>
    have spans := found
    rw [commandNameFromValue_eq nonempty again, pythonStringLiteralValue_eq_none again unquoted] at found
    obtain ⟨name, -, rfl⟩ := Option.map_eq_some_iff.mp found
    have inside := span_of_commandNameFromValue spans
    exact .inr ⟨_, _, _, rfl, by omega⟩

end Keyword

end Rounds

/-! ### All arguments -/

/-- The name is reported as it is written just if the arguments can be read up to it. -/
theorem faithful_iff_readable {args : List Argument} (aligned : AlignedUpTo args) (start : Nat) (functionName : Text) :
    Faithful functionName start args (commandNameFromClickArgs (argumentsText args) start functionName) ↔ Readable args := by
  induction args generalizing start with
  | nil => exact ⟨fun _ => trivial, fun _ => rfl⟩
  | cons arg rest ih =>
    obtain ⟨here, later⟩ := aligned
    rw [commandNameFromClickArgs_cons here]
    have behind : ∀ spanStart spanEnd target, commandNameFromClickArgs (argumentsText rest)
        (start + Text.byteLen arg.text + 1) functionName = some (.unresolved spanStart spanEnd target) →
        start + Text.byteLen arg.text + 1 ≤ spanStart := fun _ _ _ => le_of_commandNameFromClickArgs
    cases arg with
    | blank gap =>
      by_cases blank : gap.Blank
      · have empty : Text.trim gap.text = [] := by
          rw [← List.append_nil gap.text, trim_white blank.white]
          rfl
        rw [readArg_of_empty empty]
        exact (ih later _).trans (and_iff_right blank).symm
      · rw [← List.append_nil (Argument.blank gap).text, show (Argument.blank gap).text = gap.text from rfl, readArg_of_note blank []]
        exact ⟨fun faithful => (not_faithful_none _ _ faithful).elim, fun readable => (blank readable.1).elim⟩
    | positional before value after expression =>
      exact positional_iff here fun spanStart spanEnd target found => behind spanStart spanEnd target found
    | keyword before key middle back value after =>
      obtain ⟨-, blankMiddle, -, safe, safeAfter⟩ := here
      have isTail := Gap.tail safeAfter
      by_cases blank : before.Blank
      case neg =>
        rw [show (Argument.keyword before key middle back value after).text = before.text ++
          (key.text ++ middle.text ++ '=' :: (back.text ++ (value.text ++ after.text))) from rfl, readArg_of_note blank]
        exact ⟨fun faithful => (not_faithful_none (_ :: _) _ faithful).elim, fun readable => (blank readable.1).elim⟩
      have trimmed := trim_keyword key middle back value after blank
      have nonempty : Text.trim (Argument.keyword before key middle back value after).text ≠ [] :=
        trimmed ▸ List.append_ne_nil_of_left_ne_nil (List.append_ne_nil_of_left_ne_nil
          (List.append_ne_nil_of_left_ne_nil key.nonempty _) _) _
      rw [Faithful, Readable]
      by_cases word : key.text.all isWordChar = true
      · have split := splitKeywordArg_keyword key middle back value blankMiddle (Text.trimEnd after.text)
          (start + leadingWhitespaceLen (Argument.keyword before key middle back value after).text)
        rw [if_pos word, ← trimmed] at split
        rw [readArg_of_keyword nonempty split]
        by_cases name : key.text = "name"
        · rw [if_pos name, if_pos name, if_pos name]
          refine Iff.trans ?_ (and_iff_right blank).symm
          have within := leading_add_trim_le (Argument.keyword before key middle back value after).text
          have shape : keywordCore key middle back value ++ Text.trimEnd after.text =
              (key.text ++ middle.text) ++ (['='] ++ (back.text ++ (value.text ++ Text.trimEnd after.text))) := by
            simp [keywordCore]
          have one : Text.byteLen ['='] = 1 := rfl
          rw [trimmed, shape, Text.byteLen_append (key.text ++ middle.text), Text.byteLen_append ['='], one] at within
          by_cases blankBack : back.Blank
          · exact (reported_iff blankBack.white safe isTail (by omega) (by omega)).trans (and_iff_right blankBack).symm
          · obtain ⟨white, first, more, same, whites, isNote⟩ := back.exists_note blankBack
            obtain ⟨unnamed, unquoted, visible, -, -⟩ := isTargetChar_of_note isNote
            have bare : Text.Bare [first] := by
              constructor <;> intro c found <;> (cases found; exact visible)
            have none := commandNameFromValue_eq_none
              ((trim_white whites _).trans (Text.trim_append (List.cons_ne_nil first []) bare
                (more ++ (value.text ++ Text.trimEnd after.text)))) unnamed unquoted
            have back' : back.text ++ (value.text ++ Text.trimEnd after.text) =
                white ++ ([first] ++ (more ++ (value.text ++ Text.trimEnd after.text))) := by
              rw [same]
              simp
            rw [back', none]
            exact ⟨fun reported => (not_reported_none reported).elim, fun readable => (blankBack readable.1).elim⟩
        · rw [if_neg name, if_neg name, if_neg name]
          refine (ih (later.resolve_left name) _).trans ?_
          exact ⟨fun readable => ⟨blank, word, readable⟩, fun readable => readable.2.2⟩
      · have other : key.text ≠ "name" := fun name => word (name ▸ by decide)
        rw [if_neg other, if_neg other]
        refine ⟨fun faithful => ?_, fun readable => (word readable.2.1).elim⟩
        rcases readArg_of_unusual key middle back value after blank blankMiddle
          (Bool.eq_false_iff.mpr word) with none | ⟨spanStart, spanEnd, target, found, inside⟩
        · rw [none] at faithful
          exact (not_faithful_none _ _ faithful).elim
        · rw [found] at faithful
          have := le_of_faithful _ _ faithful
          omega

/-! ### The decorator -/

/-- A decorator with a list of arguments. -/
structure Decorator where
  white : Text
  target : Text
  args : List Argument
  /-- What is left on its line. -/
  trailing : Text
  blank : ∀ c ∈ white, Text.isWhitespace c = true
  named : target ≠ []
  bare : Text.Bare target
  noOpening : '(' ∉ target
  noClosing : ')' ∉ trailing

namespace Decorator

variable (decorator : Decorator)

def front : Text := '@' :: (decorator.white ++ (decorator.target ++ ['(']))

def text : Text := decorator.front ++ argumentsText decorator.args ++ ')' :: decorator.trailing

/-- The extractor finds the text between the parentheses. -/
theorem clickCommandFromDecorator_eq (isTarget : isClickCommandTarget decorator.target = true) (nodeStart : Nat) (functionName : Text) :
    clickCommandFromDecorator decorator.text nodeStart functionName =
      commandNameFromClickArgs (argumentsText decorator.args) (nodeStart + Text.byteLen decorator.front) functionName := by
  have behindAt : decorator.text = [] ++ '@' ::
      (decorator.white ++ (decorator.target ++ '(' :: (argumentsText decorator.args ++ ')' :: decorator.trailing))) := by
    simp [text, front]
  have at_ : Text.splitOnce ['@'] decorator.text = some ([],
      decorator.white ++ (decorator.target ++ '(' :: (argumentsText decorator.args ++ ')' :: decorator.trailing))) :=
    behindAt ▸ Text.splitOnce_of_not_mem List.not_mem_nil _
  have body : Text.trimStart (decorator.white ++ (decorator.target ++ '(' :: (argumentsText decorator.args ++ ')' :: decorator.trailing))) =
      decorator.target ++ '(' :: (argumentsText decorator.args ++ ')' :: decorator.trailing) := by
    have head : ∀ c, (decorator.target ++ '(' :: (argumentsText decorator.args ++ ')' :: decorator.trailing)).head? = some c →
        Text.isWhitespace c = false := fun c found => by
      obtain ⟨d, rest, same⟩ := List.exists_cons_of_ne_nil decorator.named
      refine decorator.bare.1 c ?_
      rw [same] at found ⊢
      exact found
    rw [Text.trimStart, List.dropWhile_append, List.dropWhile_eq_nil_iff.mpr decorator.blank]
    exact Text.trimStart_of_head head
  have leading : leadingWhitespaceLen (decorator.white ++ (decorator.target ++ '(' ::
      (argumentsText decorator.args ++ ')' :: decorator.trailing))) = Text.byteLen decorator.white := by
    rw [leadingWhitespaceLen, body, Text.byteLen_append, Nat.add_sub_cancel_right]
  have close : Text.rsplitOnce [')'] decorator.text = some (decorator.front ++ argumentsText decorator.args, decorator.trailing) := by
    rw [text, Text.rsplitOnce_of_not_mem decorator.noClosing]
  have frontLen : Text.byteLen decorator.front = Text.byteLen [] + 1 + Text.byteLen decorator.white + Text.byteLen decorator.target + 1 := by
    have one : Text.byteLen ['@'] = 1 ∧ Text.byteLen ['('] = 1 ∧ Text.byteLen [] = 0 := ⟨rfl, rfl, rfl⟩
    rw [front, ← List.singleton_append, Text.byteLen_append, Text.byteLen_append, Text.byteLen_append]
    omega
  rw [clickCommandFromDecorator, at_]
  dsimp only
  rw [body, leading, Text.splitOnce_of_not_mem decorator.noOpening]
  dsimp only
  rw [Text.trim_of_bare decorator.bare, if_pos isTarget, close, Option.map_some, Option.getD_some, ← frontLen,
    Utf8.byteLen_eq, Utf8.byteLen_eq, text, Utf8.getBytes_append]
  rfl

/-- The command is reported as the decorator is written just if its arguments can be read. -/
theorem faithful_iff (isTarget : isClickCommandTarget decorator.target = true) (aligned : AlignedUpTo decorator.args)
    (nodeStart : Nat) (functionName : Text) :
    Faithful functionName (nodeStart + Text.byteLen decorator.front) decorator.args
        (clickCommandFromDecorator decorator.text nodeStart functionName) ↔ Readable decorator.args := by
  rw [decorator.clickCommandFromDecorator_eq isTarget]
  exact faithful_iff_readable aligned _ functionName

end Decorator

namespace Sample

def noGap : Gap := ⟨[], fun _ mem => by cases mem⟩

def letter (c : Char) : Literal := ⟨[], '"', false, [c], fun _ mem => (by cases mem), rfl⟩

def quoted (c : Char) : Value :=
  ⟨[.literal (letter c)], List.cons_ne_nil _ _, rfl, fun _ found => by cases found; rfl, fun _ found => by cases found; rfl⟩

def decorate (args : List Argument) : Decorator where
  white := []
  target := "click.command"
  args
  trailing := []
  blank := fun _ mem => by cases mem
  named := by decide
  bare := ⟨fun _ found => by cases found; decide, fun _ found => by cases found; decide⟩
  noOpening := by decide
  noClosing := List.not_mem_nil

def plain : Decorator := decorate
  [.keyword noGap ⟨"help", by decide, List.forall_iff_forall_mem.mp (by decide)⟩ noGap noGap (quoted 'x') noGap,
    .keyword noGap ⟨"name", by decide, List.forall_iff_forall_mem.mp (by decide)⟩ noGap noGap (quoted 'a') noGap]

theorem faithful_iff_plain : Faithful "f" (10 + Text.byteLen plain.front) plain.args
    (clickCommandFromDecorator plain.text 10 "f") ↔ Readable plain.args := by
  have none : SafeAll noGap.pieces := fun _ mem => by cases mem
  have safe : ∀ c, c ≠ '"' → c ≠ '\\' → SafeAll (quoted c).pieces := fun c other plain piece mem =>
    List.mem_singleton.mp mem ▸ .plain other plain .nil
  have help := safe 'x' (by decide) (by decide)
  have name := safe 'a' (by decide) (by decide)
  refine plain.faithful_iff (by decide) ⟨⟨none, fun _ mem => (by cases mem), none, help, none⟩, .inr ⟨?_, .inl rfl⟩⟩ 10 "f"
  exact ⟨none, fun _ mem => (by cases mem), none, name, none⟩

def joined : Decorator := decorate
  [.positional noGap ⟨[.literal (letter 'a'), .code ' ' (by decide), .literal (letter 'b')], List.cons_ne_nil _ _, rfl,
    fun _ found => by cases found; rfl, fun _ found => by cases found; rfl⟩ noGap fun _ _ split => by cases split]

theorem joined_not_faithful : ¬ Faithful "f" (0 + Text.byteLen joined.front) joined.args
    (clickCommandFromDecorator joined.text 0 "f") := by
  have read : clickCommandFromDecorator joined.text 0 "f" = some (.resolved "a\" \"b") := by decide
  rw [read]
  rintro ⟨_, _, _, same, _⟩
  cases same

end Sample

end OrbitGraph.Extract.Python
