import OrbitGraph.Lib.Lines
import OrbitGraph.Snapshot.Names

/-!
The lines of references and the text shown of them.

The queries number lines in two ways: references and callees look an offset up among the starts of the lines, and the
search counts the line feeds before it. What is shown of a line is decoded from a window of it.
-/

namespace OrbitGraph.Query

open Lib Lib.Utf8 Changes

/-- `LineIndex` of the references. -/
structure LineIndex where
  bytes : Bytes
  lineStarts : List Nat

/-- `LineIndex::new`: zero, and what is behind every line feed. -/
def LineIndex.new (bytes : Bytes) : LineIndex := ⟨bytes, Lib.lineStarts bytes⟩

/-- The starts ascend, so that `partition_point` is the number of those that are not beyond the offset. -/
def LineIndex.lineFor (index : LineIndex) (byteOffset : Nat) : Nat :=
  (index.lineStarts.takeWhile (· ≤ min byteOffset index.bytes.length)).length

/-- `LineIndex` of the callees. -/
structure CalleeLineIndex where
  byteLen : Nat
  lineStarts : List Nat

def CalleeLineIndex.new (bytes : Bytes) : CalleeLineIndex := ⟨bytes.length, Lib.lineStarts bytes⟩

def CalleeLineIndex.lineFor (index : CalleeLineIndex) (byteOffset : Nat) : Nat :=
  (index.lineStarts.takeWhile (· ≤ min byteOffset index.byteLen)).length

/-- `symbol_line`, of a source that is read; `none` where the offset is refused. -/
def symbolLine (bytes : Bytes) (spanStart : Nat) : Option Nat :=
  if bytes.length < spanStart then none else some ((bytes.take spanStart).count 10 + 1)

/-! ### Snippets -/

/-- What the references show of a line at most. -/
def REF_SNIPPET_MAX_CHARS : Nat := 160

/-- What is shown of a line: so many characters, decoded from a window of it behind its indentation. No line is long
enough for the width of the window to saturate. -/
def snippetOf (lineBytes : Bytes) (maxChars : Nat) : Text :=
  let body := lineBytes.dropWhile Utf8.isAsciiWhitespace
  let windowLen := min body.length ((maxChars + 1) * 4)
  let windowCut := decide (windowLen < body.length)
  let text := fromUtf8Lossy (body.take windowLen)
  let text := if windowCut then Text.trimStart text else Text.trim text
  text.take maxChars ++ if windowCut || decide (maxChars < text.length) then ['…'] else []

/-- `LineIndex::snippet_for`; `none` where an index or a slice is out of range. -/
def LineIndex.snippetFor (index : LineIndex) (byteOffset maxChars : Nat) : Option Text :=
  let line := index.lineFor byteOffset
  if line = 0 then none
  else
    (index.lineStarts[line - 1]?).bind fun start =>
      let stop := max (((index.lineStarts[line]?).map (· - 1)).getD index.bytes.length) start
      if index.bytes.length < stop then none
      else some (snippetOf ((index.bytes.take stop).drop start) maxChars)

/-- The line that holds an offset: what is around it up to the line feeds. -/
def lineAt (bytes : Bytes) (byteOffset : Nat) : Bytes :=
  ((bytes.take byteOffset).reverse.takeWhile (· ≠ 10)).reverse ++ (bytes.drop byteOffset).takeWhile (· ≠ 10)

/-- A line without the white space around it, cut to so many characters. -/
def shownLine (line : Bytes) (maxChars : Nat) : Text :=
  let text := Text.trim (fromUtf8Lossy line)
  text.take maxChars ++ if maxChars < text.length then ['…'] else []

/-- The three numbers of the line that holds an offset are the plain one. -/
def Numbered (bytes : Bytes) (byteOffset : Nat) : Prop :=
  byteOffset ≤ bytes.length → (LineIndex.new bytes).lineFor byteOffset = (bytes.take byteOffset).count 10 + 1 ∧
    (CalleeLineIndex.new bytes).lineFor byteOffset = (bytes.take byteOffset).count 10 + 1 ∧
    symbolLine bytes byteOffset = some ((bytes.take byteOffset).count 10 + 1)

structure Plain (bytes : Bytes) (byteOffset maxChars : Nat) : Prop where
  lines : Numbered bytes byteOffset
  snippet : (LineIndex.new bytes).snippetFor byteOffset maxChars = some (shownLine (lineAt bytes byteOffset) maxChars)

section Lines

variable (front back : Bytes)

theorem takeWhile_lineStarts :
    (Lib.lineStarts (front ++ back)).takeWhile (· ≤ front.length) = Lib.lineStarts front := by
  rw [lineStarts_append, List.takeWhile_append_of_pos fun start mem => decide_eq_true (le_length_of_mem_lineStarts mem)]
  cases later : lineStartsFrom front.length back with
  | nil => rw [List.takeWhile_nil, List.append_nil]
  | cons start rest =>
    have beyond := (mem_lineStartsFrom (later ▸ List.mem_cons_self : start ∈ lineStartsFrom front.length back)).1
    rw [List.takeWhile_cons_of_neg (by simpa using beyond), List.append_nil]

theorem last_lineStart : (Lib.lineStarts front)[front.count 10]? =
    some (front.length - (front.reverse.takeWhile (· ≠ 10)).length) := by
  induction front using List.reverseRecOn with
  | nil => rfl
  | append_singleton front b ih =>
    have length := length_lineStarts front
    rw [lineStarts_append, List.reverse_append, List.reverse_singleton, List.singleton_append]
    by_cases feed : b = 10
    · subst feed
      rw [List.count_append, List.getElem?_append_right (by rw [length, List.count_singleton_self])]
      simp [lineStartsFrom, length]
    · rw [List.count_append, List.count_singleton, List.getElem?_append_left (by simp [length, feed])]
      simp [feed, ih]

theorem first_lineStartsFrom (offset : Nat) : (((lineStartsFrom offset back)[0]?).map (· - 1)).getD (offset + back.length) =
    offset + (back.takeWhile (· ≠ 10)).length := by
  induction back generalizing offset with
  | nil => rfl
  | cons b back ih =>
    rw [lineStartsFrom]
    split_ifs with feed
    · simp [feed]
    · have later := ih (offset + 1)
      rw [List.takeWhile_cons_of_pos (by simpa using feed), List.length_cons, List.length_cons]
      rw [show offset + (back.length + 1) = offset + 1 + back.length by omega, later]
      omega

end Lines

variable {bytes : Bytes} {byteOffset maxChars : Nat}

theorem lineFor_new : (LineIndex.new bytes).lineFor byteOffset = (bytes.take byteOffset).count 10 + 1 := by
  have split := takeWhile_lineStarts (bytes.take byteOffset) (bytes.drop byteOffset)
  rw [List.take_append_drop, List.length_take] at split
  rw [LineIndex.lineFor, LineIndex.new, split, length_lineStarts]

/-- No slice is out of range, and what is cut out is the line. -/
theorem snippetFor_new : (LineIndex.new bytes).snippetFor byteOffset maxChars =
    some (snippetOf (lineAt bytes byteOffset) maxChars) := by
  obtain ⟨front, back, whole, isFront, isBack⟩ :
      ∃ front back, bytes = front ++ back ∧ bytes.take byteOffset = front ∧ bytes.drop byteOffset = back :=
    ⟨_, _, (List.take_append_drop byteOffset bytes).symm, rfl, rfl⟩
  unfold LineIndex.snippetFor lineAt
  rw [lineFor_new, isFront, isBack, if_neg (Nat.succ_ne_zero _), Nat.add_sub_cancel]
  have starts : (LineIndex.new bytes).lineStarts = Lib.lineStarts front ++ lineStartsFrom front.length back := by
    rw [LineIndex.new, whole, lineStarts_append]
  have length := length_lineStarts front
  rw [starts, List.getElem?_append_left (by omega), last_lineStart, List.getElem?_append_right length.le, length,
    Nat.sub_self, Option.bind_some]
  dsimp only
  rw [show (LineIndex.new bytes).bytes = front ++ back from whole, List.length_append, first_lineStartsFrom]
  have before := List.reverse_suffix.mpr (List.takeWhile_prefix (· ≠ 10) : _ <+: front.reverse)
  rw [List.reverse_reverse, List.suffix_iff_eq_drop, List.length_reverse] at before
  have behind := List.prefix_iff_eq_take.mp (List.takeWhile_prefix (· ≠ 10) : _ <+: back)
  have inside := (List.takeWhile_prefix (· ≠ 10) : _ <+: back).length_le
  rw [max_eq_left (by omega), if_neg (by omega), List.take_length_add_append, ← behind,
    List.drop_append_of_le_length (Nat.sub_le _ _)]
  rw [← before]

/-! ### Windows -/

/-- A character with the places where its bytes begin and end. -/
structure Placed where
  char : Char
  start : Nat
  stop : Nat

/-- What the byte at `n` completes, where `start` is the place of the bytes read before: a sequence that goes on no further
ends in front of it. -/
def placeText (state next : Option Partial) (start n : Nat) : Text → List Placed
  | [] => []
  | c :: text => match state with
    | none => ⟨c, n, n + 1⟩ :: text.map (⟨·, n, n + 1⟩)
    | some _ => ⟨c, start, if text = [] ∧ next = none then n + 1 else n⟩ :: text.map (⟨·, n, n + 1⟩)

def placedFrom : Option Partial → Nat → Nat → Bytes → List Placed
  | none, _, _, [] => []
  | some _, start, n, [] => [⟨replacement, start, n⟩]
  | state, start, n, b :: bytes =>
    let (text, next) := nextByte state b
    placeText state next start n text ++ placedFrom next (if state = none ∨ text ≠ [] then n else start) (n + 1) bytes

/-- The characters of bytes, in their places. -/
def placed (bytes : Bytes) : List Placed := placedFrom none 0 0 bytes

/-- The characters that begin before a limit; one that ends behind it is replaced. -/
def within (limit : Nat) (chars : List Placed) : Text :=
  (chars.filter (·.start < limit)).map fun c => if c.stop ≤ limit then c.char else replacement

section Placed

variable {limit start n : Nat}

theorem within_append (front back : List Placed) : within limit (front ++ back) = within limit front ++ within limit back := by
  rw [within, List.filter_append, List.map_append]
  rfl

theorem leadByte_cases (b : UInt8) : (∃ c, leadByte b = ([c], none)) ∨ ∃ p, leadByte b = ([], some p) := by
  unfold leadByte
  dsimp only
  split_ifs <;> simp

theorem nextByte_cases (p : Partial) (b : UInt8) : (∃ q, nextByte (some p) b = ([], some q)) ∨
    (∃ c, nextByte (some p) b = ([c], none)) ∨ nextByte (some p) b = (replacement :: (leadByte b).1, (leadByte b).2) := by
  unfold nextByte
  dsimp only
  split_ifs <;> simp

/-- Behind the limit at most the character that it splits is replaced. -/
theorem within_beyond (beyond : limit ≤ n) (state : Option Partial) (bytes : Bytes) :
    within limit (placedFrom state start n bytes) = if state ≠ none ∧ start < limit then [replacement] else [] := by
  induction bytes generalizing state start n with
  | nil => cases state <;> simp [placedFrom, within, List.filter_cons, apply_ite]
  | cons b bytes ih =>
    have later := fun next start' => @ih start' (n + 1) (by omega) next
    rw [placedFrom, within_append, later]
    cases state with
    | none =>
      rcases leadByte_cases b with ⟨c, lead⟩ | ⟨p, lead⟩ <;> simp [nextByte, lead, placeText, within, beyond]
    | some p =>
      rcases nextByte_cases p b with ⟨q, next⟩ | ⟨c, next⟩ | next
      · simp [next, placeText, within]
      · by_cases begun : start < limit <;> simp [next, placeText, within, begun, show ¬ n + 1 ≤ limit by omega]
      · rcases leadByte_cases b with ⟨c, lead⟩ | ⟨q, lead⟩ <;>
          by_cases begun : start < limit <;> simp [next, lead, placeText, within, begun, beyond]

theorem within_placeText (inside : n < limit) (begun : start < limit) (state next : Option Partial) (text : Text) :
    within limit (placeText state next start n text) = text := by
  have one : n + 1 ≤ limit := inside
  cases text with
  | nil => rfl
  | cons c text =>
    cases state with
    | none => simp [placeText, within, inside, one, List.filter_map, Function.comp_def]
    | some p =>
      have stop : (if text = [] ∧ next = none then n + 1 else n) ≤ limit := by split_ifs <;> omega
      simp [placeText, within, inside, one, begun, stop, List.filter_map, Function.comp_def]

theorem decodeFrom_take (state : Option Partial) (bytes : Bytes) (inside : n ≤ limit) (begun : start < limit) :
    decodeFrom state (bytes.take (limit - n)) = within limit (placedFrom state start n bytes) := by
  induction bytes generalizing state start n with
  | nil => cases state <;> simp [placedFrom, decodeFrom, within, inside, begun]
  | cons b bytes ih =>
    rcases Nat.eq_or_lt_of_le inside with rfl | less
    · rw [Nat.sub_self, List.take_zero, within_beyond (Nat.le_refl n)]
      cases state <;> simp [decodeFrom, begun]
    · have step := @ih (if state = none ∨ (nextByte state b).1 ≠ [] then n else start) (n + 1) (nextByte state b).2 less
        (by split_ifs <;> omega)
      rw [show limit - n = limit - (n + 1) + 1 by omega, List.take_succ_cons, decodeFrom_cons, placedFrom, within_append,
        within_placeText less begun, step]

end Placed

/-- The line behind its indentation. -/
def body (line : Bytes) : Bytes := line.dropWhile Utf8.isAsciiWhitespace

/-- The line is shown as it is: its window holds all of it, or the characters that lie in the window are what the line is
cut to, or the line ends in an ellipsis of its own right behind them. -/
def ShowsLine (line : Bytes) (maxChars : Nat) : Prop :=
  let inside := Text.trimStart (within ((maxChars + 1) * 4) (placed (body line)))
  let text := Text.trim (fromUtf8Lossy line)
  (body line).length ≤ (maxChars + 1) * 4 ∨
    if (fromUtf8Lossy (body line)).head?.any Text.isWhitespace then
      if maxChars < text.length then text.take maxChars <+: inside else text = inside ++ ['…']
    else maxChars < text.length

theorem trim_body (line : Bytes) : Text.trim (fromUtf8Lossy (body line)) = Text.trim (fromUtf8Lossy line) := by
  induction line with
  | nil => rfl
  | cons b line ih =>
    unfold body at ih ⊢
    rw [List.dropWhile_cons]
    split_ifs with blank
    · have white : ∃ c, Text.isWhitespace c = true ∧ fromUtf8Lossy (b :: line) = c :: fromUtf8Lossy line := by
        simp only [Utf8.isAsciiWhitespace, Bool.or_eq_true, beq_iff_eq] at blank
        obtain (((rfl | rfl) | rfl) | rfl) | rfl := blank
        all_goals exact ⟨_, rfl, rfl⟩
      obtain ⟨c, white, decoded⟩ := white
      rw [ih, decoded, Text.trim, Text.trim, Text.trimStart, Text.trimStart, List.dropWhile_cons_of_pos white]
    · rfl

section Windows

variable {line : Bytes}

theorem snippetOf_of_fits (fits : (body line).length ≤ (maxChars + 1) * 4) :
    snippetOf line maxChars = shownLine line maxChars := by
  unfold snippetOf
  dsimp only
  rw [show line.dropWhile Utf8.isAsciiWhitespace = body line from rfl, min_eq_left fits, List.take_length]
  simp [shownLine, trim_body]

theorem snippetOf_of_long (long : (maxChars + 1) * 4 < (body line).length) : snippetOf line maxChars =
    (Text.trimStart (fromUtf8Lossy ((body line).take ((maxChars + 1) * 4)))).take maxChars ++ ['…'] := by
  unfold snippetOf
  dsimp only
  rw [show line.dropWhile Utf8.isAsciiWhitespace = body line from rfl, min_eq_right long.le]
  simp [long]

/-- A window that does not hold the line holds more characters of it than are shown. -/
theorem exists_window (long : (maxChars + 1) * 4 < (body line).length) : ∃ text ended rest, maxChars < text.length ∧
    fromUtf8Lossy ((body line).take ((maxChars + 1) * 4)) = text ++ ended ∧ fromUtf8Lossy (body line) = text ++ rest := by
  obtain ⟨text, pending, split, enough⟩ :=
    OrbitGraph.Snapshot.decodeFrom_split (show OrbitGraph.Snapshot.Spent none 0 from rfl) ((body line).take ((maxChars + 1) * 4))
  have ended := split []
  have whole := split ((body line).drop ((maxChars + 1) * 4))
  rw [List.append_nil] at ended
  rw [List.take_append_drop] at whole
  rw [List.length_take, min_eq_left long.le] at enough
  exact ⟨text, _, _, by omega, ended, whole⟩

variable {shown text : Text}

theorem cut_eq_cut_iff (longer : maxChars < text.length) :
    shown.take maxChars ++ ['…'] = text.take maxChars ++ ['…'] ↔ text.take maxChars <+: shown := by
  rw [List.append_left_inj, List.prefix_iff_eq_take, List.length_take, min_eq_left longer.le]
  exact eq_comm

theorem cut_eq_iff (within : text.length ≤ maxChars) :
    shown.take maxChars ++ ['…'] = text ↔ text = shown ++ ['…'] := by
  have whole : shown.length < maxChars → shown.take maxChars = shown := fun below => List.take_of_length_le below.le
  constructor
  · rintro rfl
    rw [List.length_append, List.length_take, List.length_singleton] at within
    rw [whole (by omega)]
  · rintro rfl
    rw [List.length_append, List.length_singleton] at within
    rw [whole within]

/-- Texts with a common beginning that is visible and longer than what is shown are cut alike, unless the second is not. -/
theorem cut_eq_iff_of_visible {c : Char} {front ended rest : Text} (visible : Text.isWhitespace c = false)
    (enough : maxChars < (c :: front).length) :
    (Text.trimStart ((c :: front) ++ ended)).take maxChars ++ ['…'] = (Text.trim ((c :: front) ++ rest)).take maxChars ++
      (if maxChars < (Text.trim ((c :: front) ++ rest)).length then ['…'] else []) ↔
        maxChars < (Text.trim ((c :: front) ++ rest)).length := by
  have start : ∀ behind, Text.trimStart ((c :: front) ++ behind) = (c :: front) ++ behind := fun behind =>
    List.dropWhile_cons_of_neg (by rw [visible]; exact Bool.false_ne_true)
  rw [Text.trim, start, start, List.take_append_of_le_length enough.le]
  split_ifs with longer
  · have same : (Text.trimEnd ((c :: front) ++ rest)).take maxChars = (c :: front).take maxChars := by
      have cut := List.prefix_iff_eq_take.mp (Text.trimEnd_isPrefix ((c :: front) ++ rest))
      rw [cut, List.take_take, min_eq_left longer.le, List.take_append_of_le_length enough.le]
    exact iff_of_true (by rw [same]) longer
  · refine iff_of_false (fun same => ?_) longer
    have lengths := congrArg List.length same
    simp only [List.length_append, List.length_take, List.length_singleton, List.length_nil] at lengths
    omega

theorem snippetOf_eq_iff : snippetOf line maxChars = shownLine line maxChars ↔ ShowsLine line maxChars := by
  unfold ShowsLine
  dsimp only
  by_cases fits : (body line).length ≤ (maxChars + 1) * 4
  · exact iff_of_true (snippetOf_of_fits fits) (.inl fits)
  · have inside : fromUtf8Lossy ((body line).take ((maxChars + 1) * 4)) = within ((maxChars + 1) * 4) (placed (body line)) :=
      @decodeFrom_take ((maxChars + 1) * 4) 0 0 none (body line) (Nat.zero_le _) (by omega)
    rw [or_iff_right fits, snippetOf_of_long (Nat.not_le.mp fits), shownLine, ← trim_body, ← inside]
    by_cases blank : (fromUtf8Lossy (body line)).head?.any Text.isWhitespace = true
    · rw [if_pos blank]
      split_ifs with longer
      · exact cut_eq_cut_iff longer
      · rw [List.append_nil, List.take_of_length_le (Nat.not_lt.mp longer)]
        exact cut_eq_iff (Nat.not_lt.mp longer)
    · obtain ⟨front, ended, rest, enough, window, whole⟩ := exists_window (Nat.not_le.mp fits)
      rw [if_neg blank, window, whole]
      cases front with
      | nil => exact (Nat.not_lt_zero _ enough).elim
      | cons c front =>
        rw [whole] at blank
        exact cut_eq_iff_of_visible (by simpa using blank) enough

end Windows

/-- The numbers of lines always agree and no slice is out of range; the snippet is the plain one exactly if the line is
shown as it is. -/
theorem plain_iff (bytes : Bytes) (byteOffset maxChars : Nat) :
    Numbered bytes byteOffset ∧ (LineIndex.new bytes).snippetFor byteOffset maxChars ≠ none ∧
      (Plain bytes byteOffset maxChars ↔ ShowsLine (lineAt bytes byteOffset) maxChars) := by
  have numbered : Numbered bytes byteOffset := by
    intro inside
    refine ⟨lineFor_new, ?_, ?_⟩
    · exact @lineFor_new bytes byteOffset
    · exact if_neg (Nat.not_lt.mpr inside)
  refine ⟨numbered, by rw [snippetFor_new]; exact Option.some_ne_none _, ?_⟩
  rw [← snippetOf_eq_iff]
  constructor
  · intro plain
    exact Option.mem_unique snippetFor_new plain.snippet
  · intro shown
    exact ⟨numbered, snippetFor_new.trans (congrArg some shown)⟩

/-- White space at the end of a line that its window does not reach is cut like text: `a` is shown as `a…`. -/
theorem white_space_cut : ¬ Plain (97 :: List.replicate 644 32) 0 REF_SNIPPET_MAX_CHARS := by
  intro plain
  have shown := Option.mem_unique snippetFor_new plain.snippet
  revert shown
  decide +kernel

end OrbitGraph.Query
