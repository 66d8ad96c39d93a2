import OrbitGraph.Lib.Pieces
import OrbitGraph.Lib.Utf8Search

/-!
The name of a click command, read from the text of its decorator.

The extractor cuts the arguments at commas outside brackets and quotes, and takes the first
that is positional or called `name`. What begins with a quote is taken for a literal up to
the last such quote.
-/

namespace OrbitGraph.Extract.Python

open Lib

inductive CommandName where
  | resolved (name : Text)
  | unresolved (spanStart spanEnd : Nat) (targetName : Text)
  deriving DecidableEq

/-! ### Cutting the arguments -/

structure ArgSpan where
  text : Text
  start : Nat

/-- The state of the loop of `split_top_level_args` apart from the piece. -/
structure ArgScan where
  depth : Nat
  quote : Option Char
  escaped : Bool

def ArgScan.ground : ArgScan := ⟨0, none, false⟩

def isQuote (c : Char) : Bool := c = '\'' || c = '"'

def isOpening (c : Char) : Bool := c = '(' || c = '[' || c = '{'

def isClosing (c : Char) : Bool := c = ')' || c = ']' || c = '}'

/-- A character that does not end the argument. -/
def ArgScan.step (scan : ArgScan) (c : Char) : ArgScan :=
  match scan.quote with
  | some quote =>
    if scan.escaped then { scan with escaped := false }
    else if c = '\\' then { scan with escaped := true }
    else if c = quote then { scan with quote := none }
    else scan
  | none =>
    if isQuote c then { scan with quote := some c }
    else if isOpening c then { scan with depth := scan.depth + 1 }
    else if isClosing c then { scan with depth := scan.depth - 1 }
    else scan

/-- A comma that ends the argument. -/
def ArgScan.ends (scan : ArgScan) (c : Char) : Prop := scan.quote = none ∧ c = ',' ∧ scan.depth = 0

instance (scan : ArgScan) (c : Char) : Decidable (scan.ends c) := inferInstanceAs (Decidable (_ ∧ _ ∧ _))

/-- The arguments from the piece read so far on, which begins at `start`. -/
def splitFrom (start : Nat) (piece : Text) (scan : ArgScan) : Text → List ArgSpan
  | [] => [⟨piece, start⟩]
  | c :: rest =>
    if scan.ends c then ⟨piece, start⟩ :: splitFrom (start + Text.byteLen piece + 1) [] .ground rest
    else splitFrom start (piece ++ [c]) (scan.step c) rest

def splitTopLevelArgs (args : Text) (argsStart : Nat) : List ArgSpan := splitFrom argsStart [] .ground args

def leadingWhitespaceLen (value : Text) : Nat := Text.byteLen value - Text.byteLen (Text.trimStart value)

/-! ### Reading one argument -/

def isWordChar (c : Char) : Bool := c = '_' || c.isAlphanum

def splitKeywordArg (arg : Text) (argStart : Nat) : Option (Text × Text × Nat) :=
  match Text.splitOnce ['='] arg with
  | none => none
  | some (before, value) =>
    let key := Text.trim before
    if key.isEmpty || !key.all isWordChar then none else some (key, value, argStart + Text.byteLen before + 1)

def isPlainPrefix (c : Char) : Bool := c ∈ ['r', 'R', 'u', 'U', 'b', 'B']

def pythonStringLiteralValue (value : Text) : Option Text :=
  match (Text.trim value).dropWhile isPlainPrefix with
  | [] => none
  | quote :: rest => if isQuote quote then (Text.rsplitOnce [quote] rest).map Prod.fst else none

def isTargetChar (c : Char) : Bool := c = '_' || c = '.' || c.isAlphanum

def unresolvedCommandTargetName (value : Text) : Option Text :=
  let token := value.takeWhile isTargetChar
  let name := ((Text.rsplitOnce ['.'] token).map Prod.snd).getD token
  if name.isEmpty then none else some name

def commandNameFromValue (value : Text) (valueStart : Nat) : Option CommandName :=
  let trimmed := Text.trim value
  if trimmed.isEmpty then none
  else
    let spanStart := valueStart + leadingWhitespaceLen value
    match pythonStringLiteralValue trimmed with
    | some literal => some (.resolved literal)
    | none => (unresolvedCommandTargetName trimmed).map fun name =>
      .unresolved spanStart (spanStart + Text.byteLen trimmed) name

def clickDefaultCommandName (functionName : Text) : Text := Text.replaceChar '_' ['-'] functionName

/-- One round of the loop over the arguments, with what the rounds after it yield. -/
def readArg (arg : ArgSpan) (later : Option CommandName) : Option CommandName :=
  let trimmed := Text.trim arg.text
  if trimmed.isEmpty then later
  else
    let trimmedStart := arg.start + leadingWhitespaceLen arg.text
    match splitKeywordArg trimmed trimmedStart with
    | some (key, value, valueStart) => if key = "name" then commandNameFromValue value valueStart else later
    | none => commandNameFromValue trimmed trimmedStart

def commandNameFromClickArgs (args : Text) (argsStart : Nat) (functionName : Text) : Option CommandName :=
  (splitTopLevelArgs args argsStart).foldr readArg (some (.resolved (clickDefaultCommandName functionName)))

def isClickCommandTarget (target : Text) : Bool :=
  Text.trim (((Text.rsplitOnce ['.'] target).map Prod.snd).getD target) ∈ ["command".toList, "group".toList]

/-- The name from the text of a decorator, of which the first byte is given. -/
def clickCommandFromDecorator (text : Text) (nodeStart : Nat) (functionName : Text) : Option CommandName :=
  match Text.splitOnce ['@'] text with
  | none => none
  | some (before, behind) =>
    let body := Text.trimStart behind
    let bodyStart := Text.byteLen before + 1 + leadingWhitespaceLen behind
    match Text.splitOnce ['('] body with
    | none => if isClickCommandTarget body then some (.resolved (clickDefaultCommandName functionName)) else none
    | some (target, _) =>
      if isClickCommandTarget (Text.trim target) then
        let argsStart := bodyStart + Text.byteLen target + 1
        let closeIndex := ((Text.rsplitOnce [')'] text).map fun parts => Text.byteLen parts.1).getD (Text.byteLen text)
        let args := (Utf8.getBytes text argsStart closeIndex).getD []
        commandNameFromClickArgs args (nodeStart + argsStart) functionName
      else none

/-! ### Arguments as they are written -/

/-- A string literal: its prefix, its quotes, and what is between them. -/
structure Literal where
  letters : Text
  quote : Char
  triple : Bool
  body : Text
  isPrefix : ∀ c ∈ letters, c ∈ ['r', 'R', 'u', 'U', 'b', 'B', 'f', 'F', 't', 'T']
  quoted : isQuote quote = true

namespace Literal

def delimiter (literal : Literal) : Text := if literal.triple then [literal.quote, literal.quote, literal.quote] else [literal.quote]

def text (literal : Literal) : Text := literal.letters ++ (literal.delimiter ++ (literal.body ++ literal.delimiter))

/-- It stands for a text and has no fields. -/
def Plain (literal : Literal) : Prop := ∀ c ∈ literal.letters, c ∈ ['r', 'R', 'u', 'U']

instance (literal : Literal) : Decidable literal.Plain := inferInstanceAs (Decidable (∀ c ∈ literal.letters, _))

end Literal

inductive Piece where
  | code (c : Char) (plain : isQuote c = false ∧ c ≠ '#' ∧ c ≠ '\\')
  /-- A comment or a continued line. -/
  | note (first : Char) (isNote : first = '#' ∨ first = '\\') (rest : Text)
  | literal (literal : Literal)

namespace Piece

def text : Piece → Text
  | .code c _ => [c]
  | .note first _ rest => first :: rest
  | .literal string => string.text

/-- It is not part of an expression. -/
def isTrivia : Piece → Bool
  | .code c _ => Text.isWhitespace c
  | .note _ _ _ => true
  | .literal _ => false

def isNote : Piece → Bool
  | .note _ _ _ => true
  | _ => false

/-- The depth of brackets behind it; nothing where the argument ends. -/
def depthAfter (depth : Nat) : Piece → Option Nat
  | .code c _ =>
    if isOpening c then some (depth + 1)
    else if isClosing c then if depth = 0 then none else some (depth - 1)
    else if c = ',' ∧ depth = 0 then none
    else some depth
  | _ => some depth

end Piece

def textOf (pieces : List Piece) : Text := pieces.flatMap Piece.text

def depthBehind : Nat → List Piece → Option Nat
  | depth, [] => some depth
  | depth, piece :: rest => (piece.depthAfter depth).bind fun depth => depthBehind depth rest

/-- What stands between the parts of an argument. -/
structure Gap where
  pieces : List Piece
  trivia : ∀ piece ∈ pieces, piece.isTrivia = true

def Gap.text (gap : Gap) : Text := textOf gap.pieces

/-- White space alone. -/
def Gap.Blank (gap : Gap) : Prop := ∀ piece ∈ gap.pieces, piece.isNote = false

/-- An expression, with its brackets closed and without a comma outside them. -/
structure Value where
  pieces : List Piece
  nonempty : pieces ≠ []
  closed : depthBehind 0 pieces = some 0
  first : ∀ piece ∈ pieces.head?, piece.isTrivia = false
  last : ∀ piece ∈ pieces.getLast?, piece.isTrivia = false

def Value.text (value : Value) : Text := textOf value.pieces

/-- The literal that the expression is, if it is a plain one and nothing else. -/
def Value.literal? (value : Value) : Option Literal :=
  match value.pieces with
  | [.literal literal] => if literal.Plain then some literal else none
  | _ => none

structure Key where
  text : Text
  nonempty : text ≠ []
  clean : ∀ c ∈ text, Text.isWhitespace c = false ∧ isQuote c = false ∧ isOpening c = false ∧ isClosing c = false ∧
    c ∉ [',', '=', '#', '\\']

inductive Argument where
  | blank (gap : Gap)
  /-- What is before the first `=` of an expression is a name only if another `=` follows. -/
  | positional (before : Gap) (value : Value) (after : Gap)
      (expression : ∀ front behind, Text.splitOnce ['='] value.text = some (front, behind) →
        (Text.trim front).all isWordChar = true → behind.head? = some '=')
  | keyword (before : Gap) (key : Key) (middle behind : Gap) (value : Value) (after : Gap)

def Argument.text : Argument → Text
  | .blank gap => gap.text
  | .positional before value after _ => before.text ++ (value.text ++ after.text)
  | .keyword before key middle behind value after =>
    before.text ++ (key.text ++ middle.text ++ '=' :: (behind.text ++ (value.text ++ after.text)))

/-- The text between the parentheses. -/
def argumentsText (args : List Argument) : Text := Text.join [','] (args.map Argument.text)

/-! ### What the cutting keeps together -/

def ArgScan.through : ArgScan → Text → Option ArgScan
  | scan, [] => some scan
  | scan, c :: rest => if scan.ends c then none else (scan.step c).through rest

def ArgScan.outside (depth : Nat) : ArgScan := ⟨depth, none, false⟩

def ArgScan.inside (depth : Nat) (quote : Char) : ArgScan := ⟨depth, some quote, false⟩

inductive Quoted (quote : Char) : Text → Prop where
  | nil : Quoted quote []
  | plain {c : Char} {rest : Text} : c ≠ quote → c ≠ '\\' → Quoted quote rest → Quoted quote (c :: rest)
  | escaped {rest : Text} (c : Char) : Quoted quote rest → Quoted quote ('\\' :: c :: rest)

/-- A character that the scan passes outside of quotes. -/
def Neutral (c : Char) : Prop := isQuote c = false ∧ isOpening c = false ∧ isClosing c = false ∧ c ≠ ','

/-- A piece that the scan takes for what it is. -/
def Piece.Safe : Piece → Prop
  | .code _ _ => True
  | .note _ _ rest => ∀ c ∈ rest, Neutral c
  | .literal string => Quoted string.quote string.body

def SafeAll (pieces : List Piece) : Prop := ∀ piece ∈ pieces, piece.Safe

/-- An argument that is cut where it ends, and whose name is in front of its `=`. -/
def Argument.Aligned : Argument → Prop
  | .blank gap => SafeAll gap.pieces
  | .positional before value after _ => SafeAll before.pieces ∧ SafeAll value.pieces ∧ SafeAll after.pieces
  | .keyword before _ middle behind value after =>
    SafeAll before.pieces ∧ middle.Blank ∧ SafeAll behind.pieces ∧ SafeAll value.pieces ∧ SafeAll after.pieces

section Through

variable {scan scan' : ArgScan} {text : Text}

theorem through_cons (scan : ArgScan) (c : Char) (rest : Text) :
    scan.through (c :: rest) = if scan.ends c then none else (scan.step c).through rest := rfl

theorem step_outside (depth : Nat) (c : Char) : (ArgScan.outside depth).step c =
    if isQuote c then .inside depth c else if isOpening c then .outside (depth + 1)
    else if isClosing c then .outside (depth - 1) else .outside depth := rfl

theorem step_inside (depth : Nat) (quote c : Char) : (ArgScan.inside depth quote).step c =
    if c = '\\' then ⟨depth, some quote, true⟩ else if c = quote then .outside depth else .inside depth quote := rfl

theorem through_append (through : scan.through text = some scan') (rest : Text) :
    scan.through (text ++ rest) = scan'.through rest := by
  induction text generalizing scan with
  | nil => rw [← Option.some.inj through, List.nil_append]
  | cons c text ih =>
    rw [through_cons] at through
    rw [List.cons_append, through_cons]
    split_ifs at through ⊢
    exact ih through

theorem splitFrom_through (through : scan.through text = some scan') (start : Nat) (piece rest : Text) :
    splitFrom start piece scan (text ++ rest) = splitFrom start (piece ++ text) scan' rest := by
  induction text generalizing scan piece with
  | nil => rw [← Option.some.inj through, List.nil_append, List.append_nil]
  | cons c text ih =>
    rw [through_cons] at through
    rw [List.cons_append, splitFrom]
    split_ifs at through ⊢
    rw [ih through, List.append_assoc]
    rfl

theorem not_ends_inside (depth : Nat) (quote c : Char) : ¬ (ArgScan.inside depth quote).ends c := fun ends => by
  cases ends.1

theorem through_neutral (depth : Nat) (neutral : ∀ c ∈ text, Neutral c) :
    (ArgScan.outside depth).through text = some (.outside depth) := by
  induction text with
  | nil => rfl
  | cons c text ih =>
    obtain ⟨quote, opening, closing, comma⟩ := neutral c List.mem_cons_self
    have step : (ArgScan.outside depth).step c = .outside depth := by simp [step_outside, quote, opening, closing]
    rw [through_cons, if_neg fun ends => comma ends.2.1, step]
    exact ih fun c mem => neutral c (List.mem_cons_of_mem _ mem)

variable {quote : Char}

theorem through_quoted (quoted : Quoted quote text) (depth : Nat) :
    (ArgScan.inside depth quote).through text = some (.inside depth quote) := by
  induction quoted with
  | nil => rfl
  | @plain c rest other plain _ ih =>
    have step : (ArgScan.inside depth quote).step c = .inside depth quote := by simp [step_inside, other, plain]
    rw [through_cons, if_neg (not_ends_inside _ _ _), step, ih]
  | @escaped rest c _ ih =>
    have step : ((ArgScan.inside depth quote).step '\\').step c = .inside depth quote := rfl
    have middle : ¬ ((ArgScan.inside depth quote).step '\\').ends c := fun ends => by cases ends.1
    rw [through_cons, if_neg (not_ends_inside _ _ _), through_cons, if_neg middle, step, ih]

theorem isQuote_iff {c : Char} : isQuote c = true ↔ c = '\'' ∨ c = '"' := by
  simp [isQuote]

theorem through_open (quoted : isQuote quote = true) (depth : Nat) :
    (ArgScan.outside depth).through [quote] = some (.inside depth quote) := by
  have comma : quote ≠ ',' := by
    rintro rfl
    cases quoted
  rw [through_cons, if_neg fun ends => comma ends.2.1, step_outside, if_pos quoted]
  rfl

theorem through_close (quoted : isQuote quote = true) (depth : Nat) :
    (ArgScan.inside depth quote).through [quote] = some (.outside depth) := by
  have other : quote ≠ '\\' := by
    rintro rfl
    cases quoted
  rw [through_cons, if_neg (not_ends_inside _ _ _), step_inside, if_neg other, if_pos rfl]
  rfl

/-- Quotes of three open as those of one do, with an empty literal in front, and close so. -/
theorem through_literal {literal : Literal} (safe : Quoted literal.quote literal.body) (depth : Nat) :
    (ArgScan.outside depth).through literal.text = some (.outside depth) := by
  have letters : (ArgScan.outside depth).through literal.letters = some (.outside depth) := by
    have neutral : ∀ c ∈ ['r', 'R', 'u', 'U', 'b', 'B', 'f', 'F', 't', 'T'],
        isQuote c = false ∧ isOpening c = false ∧ isClosing c = false ∧ c ≠ ',' :=
      List.forall_iff_forall_mem.mp (by decide)
    exact through_neutral depth fun c mem => neutral c (literal.isPrefix c mem)
  have opening := through_open literal.quoted depth
  have closing := through_close literal.quoted depth
  have delimiter : (ArgScan.outside depth).through literal.delimiter = some (.inside depth literal.quote) := by
    rw [Literal.delimiter]
    cases literal.triple with
    | false => exact opening
    | true => exact (through_append opening _).trans ((through_append closing _).trans opening)
  have delimiter' : (ArgScan.inside depth literal.quote).through literal.delimiter = some (.outside depth) := by
    rw [Literal.delimiter]
    cases literal.triple with
    | false => exact closing
    | true => exact (through_append closing _).trans ((through_append opening _).trans closing)
  rw [Literal.text, through_append letters, through_append delimiter, through_append (through_quoted safe depth), delimiter']

variable {depth depth' : Nat}

theorem through_piece {piece : Piece} (safe : piece.Safe) (behind : piece.depthAfter depth = some depth') :
    (ArgScan.outside depth).through piece.text = some (.outside depth') := by
  cases piece with
  | literal string =>
    obtain rfl : depth = depth' := Option.some.inj behind
    exact through_literal safe depth
  | note first isNote rest =>
    obtain rfl : depth = depth' := Option.some.inj behind
    refine through_neutral depth fun c mem => ?_
    rcases List.mem_cons.mp mem with rfl | later
    · rcases isNote with rfl | rfl <;> exact ⟨rfl, rfl, rfl, by decide⟩
    · exact safe c later
  | code c plain =>
    rw [Piece.depthAfter] at behind
    rw [Piece.text, through_cons]
    by_cases comma : c = ','
    · subst comma
      have nested : depth ≠ 0 := by
        rintro rfl
        cases behind
      obtain rfl : depth = depth' := by simpa [isOpening, isClosing, nested] using behind
      rw [if_neg fun ends => nested ends.2.2]
      rfl
    · rw [if_neg fun ends => comma ends.2.1]
      rw [step_outside, plain.1]
      split_ifs at behind ⊢ <;> simp_all [ArgScan.through]

theorem through_pieces {pieces : List Piece} (safe : SafeAll pieces)
    (behind : depthBehind depth pieces = some depth') :
    (ArgScan.outside depth).through (textOf pieces) = some (.outside depth') := by
  induction pieces generalizing depth with
  | nil =>
    obtain rfl : depth = depth' := Option.some.inj behind
    rfl
  | cons piece rest ih =>
    obtain ⟨middle, first, later⟩ := Option.bind_eq_some_iff.mp behind
    rw [textOf, List.flatMap_cons, through_append (through_piece (safe piece List.mem_cons_self) first)]
    exact ih (fun piece mem => safe piece (List.mem_cons_of_mem _ mem)) later

theorem through_gap {gap : Gap} (safe : SafeAll gap.pieces) (depth : Nat) :
    (ArgScan.outside depth).through gap.text = some (.outside depth) := by
  have blank : ∀ c, Text.isWhitespace c = true → isOpening c = false ∧ isClosing c = false ∧ c ≠ ',' := by
    intro c white
    refine ⟨?_, ?_, ?_⟩
    · by_contra bracket
      rw [Bool.not_eq_false] at bracket
      simp only [isOpening, Bool.or_eq_true, decide_eq_true_eq] at bracket
      rcases bracket with (rfl | rfl) | rfl <;> cases white
    · by_contra bracket
      rw [Bool.not_eq_false] at bracket
      simp only [isClosing, Bool.or_eq_true, decide_eq_true_eq] at bracket
      rcases bracket with (rfl | rfl) | rfl <;> cases white
    · rintro rfl
      cases white
  refine through_pieces safe ?_
  obtain ⟨pieces, trivia⟩ := gap
  dsimp only
  clear safe
  induction pieces with
  | nil => rfl
  | cons piece rest ih =>
    have here : piece.depthAfter depth = some depth := by
      have isTrivia := trivia piece List.mem_cons_self
      cases piece with
      | code c plain =>
        obtain ⟨opening, closing, comma⟩ := blank c isTrivia
        simp [Piece.depthAfter, opening, closing, comma]
      | note first isNote rest => rfl
      | literal string => cases isTrivia
    rw [depthBehind, here]
    exact ih fun piece mem => trivia piece (List.mem_cons_of_mem _ mem)

theorem through_value {value : Value} (safe : SafeAll value.pieces) :
    (ArgScan.outside 0).through value.text = some (.outside 0) :=
  through_pieces safe value.closed

theorem through_argument {arg : Argument} (aligned : arg.Aligned) : ArgScan.ground.through arg.text = some .ground := by
  show (ArgScan.outside 0).through arg.text = some (.outside 0)
  cases arg with
  | blank gap => exact through_gap aligned 0
  | positional before value after expression =>
    obtain ⟨safeBefore, safeValue, safeAfter⟩ := aligned
    rw [Argument.text, through_append (through_gap safeBefore 0), through_append (through_value safeValue)]
    exact through_gap safeAfter 0
  | keyword before key middle behind value after =>
    obtain ⟨safeBefore, blank, safeBehind, safeValue, safeAfter⟩ := aligned
    have safeMiddle : SafeAll middle.pieces := fun piece mem => by
      have isTrivia := middle.trivia piece mem
      cases piece with
      | code c plain => trivial
      | note first isNote rest => cases blank _ mem
      | literal string => cases isTrivia
    have keyThrough : (ArgScan.outside 0).through key.text = some (.outside 0) := through_neutral 0 fun c mem => by
      obtain ⟨-, quote, opening, closing, others⟩ := key.clean c mem
      exact ⟨quote, opening, closing, fun same => others (same ▸ List.mem_cons_self)⟩
    have equals : (ArgScan.outside 0).through ['='] = some (.outside 0) := rfl
    rw [Argument.text, through_append (through_gap safeBefore 0), List.append_assoc, through_append keyThrough,
      through_append (through_gap safeMiddle 0), ← List.singleton_append, through_append equals,
      through_append (through_gap safeBehind 0), through_append (through_value safeValue)]
    exact through_gap safeAfter 0

end Through

variable {arg : Argument}

/-- The first argument is cut off at its comma, and the others are cut as if it were not there. -/
theorem splitTopLevelArgs_cons (aligned : arg.Aligned) {rest : List Argument} (some : rest ≠ []) (start : Nat) :
    splitTopLevelArgs (argumentsText (arg :: rest)) start =
      ⟨arg.text, start⟩ :: splitTopLevelArgs (argumentsText rest) (start + Text.byteLen arg.text + 1) := by
  obtain ⟨next, rest, rfl⟩ := List.exists_cons_of_ne_nil some
  have shape : argumentsText (arg :: next :: rest) = arg.text ++ ',' :: argumentsText (next :: rest) := List.append_assoc _ _ _
  rw [shape, splitTopLevelArgs, splitFrom_through (through_argument aligned), splitFrom,
    if_pos (show ArgScan.ground.ends ',' from ⟨rfl, rfl, rfl⟩), List.nil_append]
  rfl

theorem splitTopLevelArgs_singleton (aligned : arg.Aligned) (start : Nat) :
    splitTopLevelArgs (argumentsText [arg]) start = [⟨arg.text, start⟩] := by
  have shape : argumentsText [arg] = arg.text ++ [] := (List.append_nil _).symm
  rw [shape, splitTopLevelArgs, splitFrom_through (through_argument aligned), splitFrom, List.nil_append]

theorem commandNameFromClickArgs_cons (aligned : arg.Aligned) (rest : List Argument) (start : Nat)
    (functionName : Text) :
    commandNameFromClickArgs (argumentsText (arg :: rest)) start functionName = readArg ⟨arg.text, start⟩
      (commandNameFromClickArgs (argumentsText rest) (start + Text.byteLen arg.text + 1) functionName) := by
  rw [commandNameFromClickArgs]
  by_cases last : rest = []
  · subst last
    rw [splitTopLevelArgs_singleton aligned]
    rfl
  · rw [splitTopLevelArgs_cons aligned last]
    rfl

end OrbitGraph.Extract.Python
