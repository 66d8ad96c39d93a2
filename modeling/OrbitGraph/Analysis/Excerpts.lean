import OrbitGraph.Analysis.Report
import OrbitGraph.History.Detection
import OrbitGraph.History.Extraction
import OrbitGraph.Query.Source
import OrbitGraph.Snapshot.Names

/-!
Source excerpts at cited lines.

A report reads a file up to a bound and shows some of its lines around the line that
is cited, or all of them, or refers to the place. A cited line is a line of the whole
file, and the bound can end before it: the window is then moved to the last line that
was read, and shows lines that nobody cites, as the whole of what was read does.
-/

namespace OrbitGraph.Analysis

open Lib Changes
open History (GraphError decimal redact)

/-! ### The source -/

def excerptRadiusLines : Nat := 5

def defaultShowMaxBytes : Nat := 64 * 1024

inductive ExcerptMode where
  | none
  | controlled
  | fullSpan
  deriving DecidableEq

structure SourceExcerpt where
  startLine : Nat
  endLine : Nat
  text : Text
  truncated : Bool

inductive LocationEvidence where
  | embedded (excerpt : SourceExcerpt)
  | reference (reference : Text)

/-- The snapshots of a comparison: the length that a file was indexed with, and how it opens. -/
structure Snapshots where
  resolveFile : SnapshotSide → Text → Except GraphError (Option Int)
  opened : SnapshotSide → Text → Except GraphError Utf8.Bytes

abbrev LineCacheValue := Option (List Text × Bool)

/-- `Graph::show`, of a file. -/
def Snapshots.showFile (snapshots : Snapshots) (side : SnapshotSide) (file : Text) :
    Except GraphError (Option Query.ShowWindow) := do
  match ← snapshots.resolveFile side file with
  | none => return none
  | some byteLen =>
    let view ← Query.readShowWindow (snapshots.opened side file) "read source span for graph show" 0 byteLen
      defaultShowMaxBytes file
    return some view

def readFileLines (snapshots : Snapshots) (side : SnapshotSide) (file : Text) : LineCacheValue :=
  match snapshots.showFile side file with
  | .ok (some view) => some (History.lines (fromUtf8Lossy view.bytes), view.truncated)
  | _ => none

/-- What rendering has read and noted so far; what it has read is what the snapshots hold. -/
structure RenderState (snapshots : Snapshots) where
  cache : SnapshotSide × Text → Option LineCacheValue
  truncation : Std.TreeSet TruncationFlag
  sound : ∀ key value, cache key = some value → value = readFileLines snapshots key.1 key.2

namespace RenderState

variable {snapshots : Snapshots}

def new : RenderState snapshots where
  cache _ := none
  truncation := ∅
  sound _ _ found := by cases found

/-- `RenderState::lines`, and the state with the file read. -/
def lines (state : RenderState snapshots) (side : SnapshotSide) (file : Text) :
    LineCacheValue × RenderState snapshots :=
  match state.cache (side, file) with
  | some value => (value, state)
  | none =>
    let value := readFileLines snapshots side file
    (value,
      { state with
        cache := fun key => if key = (side, file) then some value else state.cache key
        sound := by
          intro key other found
          by_cases same : key = (side, file)
          · rw [if_pos same] at found
            rw [same, ← Option.some.inj found]
          · rw [if_neg same] at found
            exact state.sound key other found })

def noteTruncation (state : RenderState snapshots) (what bound : Text) (value : Nat) : RenderState snapshots :=
  { state with truncation := state.truncation.insert ⟨what, bound, value⟩ }

end RenderState

/-- The window of lines around a line, which may be the only one. Adding wraps around. -/
def window (line total radius : Nat) : Nat × Nat :=
  let total := max total 1
  let start := max (line - radius) 1
  let stop := min ((line + radius) % 2 ^ 64) total
  (min start stop, stop)

def referencePointer (file : Text) (span : Option (Nat × Nat)) (sha : Text) : Text :=
  match span with
  | some (start, stop) =>
    if start = stop then file ++ ":" ++ decimal start ++ "@" ++ sha
    else file ++ ":" ++ decimal start ++ "-" ++ decimal stop ++ "@" ++ sha
  | none => file ++ "@" ++ sha

/-- `lines[start..stop]`; `none` where the source panics. -/
def slice (lines : List Text) (start stop : Nat) : Option (List Text) :=
  if start ≤ stop ∧ stop ≤ lines.length then some ((lines.drop start).take (stop - start)) else none

/-- The span that is shown of a file with `total` lines. -/
def shownSpan (mode : ExcerptMode) (line : Option Nat) (total : Nat) : Option (Nat × Nat) :=
  if mode = .fullSpan then some (1, max total 1) else line.map fun current => window current total excerptRadiusLines

/-- The excerpt of a span, with a note when a whole file was cut. -/
def embed {snapshots : Snapshots} (state : RenderState snapshots) (lines : List Text) (fileTruncated : Bool)
    (mode : ExcerptMode) (what : Text) (start stop : Nat) : Option (LocationEvidence × RenderState snapshots) :=
  let total := lines.length
  let stop := min stop (max total start)
  let shown := if total = 0 then some [] else (slice lines (start - 1) stop).map (Text.join ['\n'])
  shown.map fun text =>
    let truncated := fileTruncated && mode = .fullSpan
    (.embedded ⟨start, stop, redact text, truncated⟩,
      if truncated then state.noteTruncation what "source_max_bytes" defaultShowMaxBytes else state)

/-- `render_location`; `none` where the source panics. -/
def renderLocation {snapshots : Snapshots} (state : RenderState snapshots) (side : SnapshotSide)
    (commitSha file : Text) (line : Option Nat) (mode : ExcerptMode) (what : Text) :
    Option (LocationEvidence × RenderState snapshots) :=
  let pointer := LocationEvidence.reference (referencePointer file (line.map fun l => (l, l)) commitSha)
  if mode = .none then some (pointer, state)
  else
    let read := state.lines side file
    match read.1 with
    | none => some (pointer, read.2)
    | some (lines, fileTruncated) =>
      match shownSpan mode line lines.length with
      | none => some (pointer, read.2)
      | some (start, stop) => embed read.2 lines fileTruncated mode what start stop

/-! ### Lines of a text -/

/-- The pieces of a text that goes on: all but the last piece of the first part stay. -/
theorem splitChar_append_eq (sep : Char) (front : Text) : ∃ pieces last, pieces.length = front.count sep ∧
    Text.splitChar sep front = pieces ++ [last] ∧
    ∀ back, ∃ rest, rest ≠ [] ∧ Text.splitChar sep (front ++ back) = pieces ++ rest := by
  induction front with
  | nil =>
    refine ⟨[], [], rfl, rfl, fun back => ⟨Text.splitChar sep back, ?_, rfl⟩⟩
    cases back with
    | nil => exact List.cons_ne_nil _ _
    | cons c back =>
      rw [Text.splitChar]
      split
      · exact List.cons_ne_nil _ _
      · split <;> exact List.cons_ne_nil _ _
  | cons c front ih =>
    obtain ⟨pieces, last, length, whole, continued⟩ := ih
    by_cases here : c = sep
    · refine ⟨[] :: pieces, last, ?_, ?_, fun back => ?_⟩
      · rw [List.length_cons, length, here, List.count_cons_self]
      · rw [Text.splitChar, if_pos here, whole, List.cons_append]
      · obtain ⟨rest, nonempty, goes⟩ := continued back
        refine ⟨rest, nonempty, ?_⟩
        rw [List.cons_append, Text.splitChar, if_pos here, goes, List.cons_append]
    · have apart : (c == sep) = false := by simpa using here
      cases pieces with
      | nil =>
        refine ⟨[], c :: last, ?_, ?_, fun back => ?_⟩
        · rw [List.count_cons_of_ne here, ← length]
        · rw [Text.splitChar, if_neg here, whole]
          rfl
        · obtain ⟨rest, nonempty, goes⟩ := continued back
          cases rest with
          | nil => exact absurd rfl nonempty
          | cons piece rest =>
            refine ⟨(c :: piece) :: rest, List.cons_ne_nil _ _, ?_⟩
            rw [List.cons_append, Text.splitChar, if_neg here, goes]
            rfl
      | cons piece pieces =>
        refine ⟨(c :: piece) :: pieces, last, ?_, ?_, fun back => ?_⟩
        · rw [List.count_cons_of_ne here, ← length]
          rfl
        · rw [Text.splitChar, if_neg here, whole]
          rfl
        · obtain ⟨rest, nonempty, goes⟩ := continued back
          refine ⟨rest, nonempty, ?_⟩
          rw [List.cons_append, Text.splitChar, if_neg here, goes]
          rfl

theorem lines_length_le (text : Text) : (History.lines text).length ≤ text.count '\n' + 1 := by
  obtain ⟨pieces, last, length, whole, -⟩ := splitChar_append_eq '\n' text
  unfold History.lines
  dsimp only
  rw [whole, List.dropLast_concat, List.length_append, List.length_map, length]
  split_ifs <;> simp

theorem getElem?_lines_append (front back : Text) {i : Nat} (ended : i < front.count '\n') :
    (History.lines (front ++ back))[i]? = (History.lines front)[i]? := by
  obtain ⟨pieces, last, length, whole, continued⟩ := splitChar_append_eq '\n' front
  obtain ⟨rest, nonempty, goes⟩ := continued back
  have inside : i < (pieces.map fun line => (Text.stripSuffix ['\r'] line).getD line).length := by
    rw [List.length_map]
    omega
  unfold History.lines
  dsimp only
  rw [whole, goes, List.dropLast_concat, List.dropLast_append_of_ne_nil nonempty, List.map_append, List.append_assoc,
    List.getElem?_append_left inside, List.getElem?_append_left inside]

theorem not_mem_of_mem_lines {text line : Text} (mem : line ∈ History.lines text) : '\n' ∉ line := by
  unfold History.lines at mem
  rcases List.mem_append.mp mem with early | final
  · obtain ⟨piece, inside, rfl⟩ := List.mem_map.mp early
    have absent := Text.not_mem_of_mem_splitChar (List.mem_of_mem_dropLast inside)
    cases stripped : Text.stripSuffix ['\r'] piece with
    | none => exact absent
    | some rest =>
      rw [Text.stripSuffix_eq_some.mp stripped] at absent
      exact fun found => absent (List.mem_append_left _ found)
  · split_ifs at final with empty
    · cases final
    · rw [List.mem_singleton.mp final]
      cases last : (Text.splitChar '\n' text).getLast? with
      | none => exact List.not_mem_nil
      | some piece => exact Text.not_mem_of_mem_splitChar (List.mem_of_getLast? last)

theorem count_join {lines : List Text} (absent : ∀ line ∈ lines, '\n' ∉ line) :
    (Text.join ['\n'] lines).count '\n' = lines.length - 1 := by
  induction lines with
  | nil => rfl
  | cons line rest ih =>
    have here : line.count '\n' = 0 := List.count_eq_zero.mpr (absent line List.mem_cons_self)
    cases rest with
    | nil => exact here
    | cons next rest =>
      have later := ih fun other mem => absent other (List.mem_cons_of_mem _ mem)
      rw [Text.join, List.count_append, List.count_append, here, later]
      · simp
        omega
      · exact List.cons_ne_nil _ _

theorem count_redact_le (text : Text) : (redact text).count '\n' ≤ text.count '\n' := by
  obtain ⟨pieces, source, shown, -, -⟩ := History.exists_pieces_redact text
  rw [← shown, ← source]
  clear source shown
  induction pieces with
  | nil => exact Nat.le_refl _
  | cons piece rest ih =>
    have here : (piece.shown History.marker).count '\n' ≤ piece.source.count '\n' := by
      cases piece with
      | keep part => exact Nat.le_refl _
      | hide part => exact Nat.zero_le _
    rw [List.flatMap_cons, List.flatMap_cons, List.count_append, List.count_append]
    exact Nat.add_le_add here ih

/-! ### The bounded text -/

/-- `lines` are those of `contents` but for the last, which the bound may cut. -/
def LinesOf (lines : List Text) (contents : Utf8.Bytes) : Prop :=
  ∀ i, i + 1 < lines.length → lines[i]? = (History.lines (fromUtf8Lossy contents))[i]?

theorem linesOf_of_prefix {bytes contents : Utf8.Bytes} (start : bytes <+: contents) :
    LinesOf (History.lines (fromUtf8Lossy bytes)) contents := by
  obtain ⟨rest, rfl⟩ := start
  obtain ⟨text, pending, split, -⟩ :=
    OrbitGraph.Snapshot.decodeFrom_split (show OrbitGraph.Snapshot.Spent none 0 from rfl) bytes
  have ended := split []
  rw [List.append_nil] at ended
  intro i inside
  have noLine : (decodeFrom pending []).count '\n' = 0 := by
    cases pending <;> rfl
  unfold fromUtf8Lossy at inside ⊢
  have bound := lines_length_le (decodeFrom none bytes)
  rw [ended, List.count_append, noLine] at bound
  rw [ended] at inside
  rw [split rest, ended, getElem?_lines_append text _ (by omega), getElem?_lines_append text _ (by omega)]

theorem decodeFrom_length_le (state : Option Partial) (bytes : List UInt8) :
    (decodeFrom state bytes).length ≤ 2 * bytes.length + 1 := by
  induction bytes generalizing state with
  | nil =>
    cases state with
    | none => exact Nat.zero_le _
    | some p => exact Nat.le_refl _
  | cons b bytes ih =>
    have lead : (leadByte b).1.length ≤ 1 := by
      unfold leadByte
      dsimp only
      split_ifs <;> simp
    have next : (nextByte state b).1.length ≤ 2 := by
      cases state with
      | none => exact lead.trans (by decide)
      | some p =>
        rw [nextByte]
        dsimp only
        split_ifs
        · simp
        · simp
        · rw [List.length_cons]
          omega
    rw [decodeFrom_cons, List.length_append, List.length_cons]
    have rest := ih (nextByte state b).2
    omega

theorem readShowWindow_prefix {opened : Except GraphError Utf8.Bytes} {operation label : Text} {stop : Int}
    {maxBytes : Nat} {view : Query.ShowWindow}
    (read : Query.readShowWindow opened operation 0 stop maxBytes label = .ok view) :
    ∃ contents, opened = .ok contents ∧ view.bytes <+: contents ∧ view.bytes.length ≤ maxBytes + 3 := by
  unfold Query.readShowWindow at read
  obtain ⟨contents, ok, read⟩ := bind_eq_ok.mp read
  obtain ⟨start, zero, read⟩ := bind_eq_ok.mp read
  obtain ⟨stop, -, read⟩ := bind_eq_ok.mp read
  have first : start = 0 := by
    have := Query.i64ToUsize_ok zero
    omega
  subst first
  refine ⟨contents, ok, ?_⟩
  split_ifs at read with outside
  obtain rfl := Except.ok.inj read
  have most : Query.showReadLen (stop - 0) maxBytes ≤ maxBytes + 3 := by
    unfold Query.showReadLen Query.utf8CharTail
    split_ifs <;> omega
  dsimp only
  rw [List.length_take]
  split_ifs
  · exact ⟨(List.take_prefix _ _).trans List.nil_prefix, by simp⟩
  · refine ⟨(List.take_prefix _ _).trans (List.take_prefix _ _), ?_⟩
    rw [List.length_take]
    omega

theorem readShowWindow_cases (contents : Utf8.Bytes) (operation label : Text) (maxBytes start stop : Nat) :
    (¬ (start ≤ stop ∧ stop ≤ contents.length) ∧
        ∃ error, Query.readShowWindow (.ok contents) operation start stop maxBytes label = .error error) ∨
      start ≤ stop ∧ stop ≤ contents.length ∧
        ∃ view, Query.readShowWindow (.ok contents) operation start stop maxBytes label = .ok view ∧
          view.start = start ∧ view.stop = stop := by
  have whole : ∀ n : Nat, Query.i64ToUsize operation n = .ok n := fun n =>
    if_neg (Int.not_lt.mpr (Int.natCast_nonneg _))
  unfold Query.readShowWindow
  simp only [whole, bind, Except.bind]
  by_cases inside : start ≤ stop ∧ stop ≤ contents.length
  · right
    rw [if_neg (by omega)]
    exact ⟨inside.1, inside.2, _, rfl, rfl, rfl⟩
  · left
    rw [if_pos (by omega)]
    exact ⟨inside, _, rfl⟩

theorem readFileLines_of_shown {snapshots : Snapshots} {side : SnapshotSide} {file : Text} {view : Query.ShowWindow}
    (shown : snapshots.showFile side file = .ok (some view)) :
    readFileLines snapshots side file = some (History.lines (fromUtf8Lossy view.bytes), view.truncated) := by
  unfold readFileLines
  rw [shown]

theorem readFileLines_eq_some {snapshots : Snapshots} {side : SnapshotSide} {file : Text} {lines : List Text}
    {truncated : Bool} (read : readFileLines snapshots side file = some (lines, truncated)) :
    ∃ contents bytes, snapshots.opened side file = .ok contents ∧ bytes <+: contents ∧
      lines = History.lines (fromUtf8Lossy bytes) ∧ LinesOf lines contents ∧
      (∀ line ∈ lines, '\n' ∉ line) ∧ lines.length ≤ 2 * defaultShowMaxBytes + 8 := by
  unfold readFileLines at read
  split at read
  next view shown =>
    obtain ⟨rfl, -⟩ := Prod.mk.inj (Option.some.inj read)
    unfold Snapshots.showFile at shown
    obtain ⟨row, -, shown⟩ := bind_eq_ok.mp shown
    cases row with
    | none => cases shown
    | some byteLen =>
      obtain ⟨window, opened, shown⟩ := bind_eq_ok.mp shown
      obtain rfl := Option.some.inj (Except.ok.inj shown)
      obtain ⟨contents, ok, start, length⟩ := readShowWindow_prefix opened
      have lines := lines_length_le (fromUtf8Lossy window.bytes)
      have feeds := @List.count_le_length _ _ '\n' (fromUtf8Lossy window.bytes)
      have text := decodeFrom_length_le none window.bytes
      refine ⟨contents, _, ok, start, rfl, linesOf_of_prefix start, fun line mem => not_mem_of_mem_lines mem, ?_⟩
      unfold fromUtf8Lossy at lines feeds ⊢
      omega
  next => cases read

/-! ### What rendering shows -/

/-- A location that is rendered for a line of a file. Rendering does not index out of range.
A controlled excerpt shows lines of the text that was read, which is the beginning of the
file, at most so many, with the cited line among them. A cited line that was not read has
a reference. -/
structure CitesLine (snapshots : Snapshots) (side : SnapshotSide) (file : Text) (line : Option Nat) (mode : ExcerptMode)
    (rendered : Option (LocationEvidence × RenderState snapshots)) : Prop where
  inRange : rendered.isSome
  controlled : ∀ excerpt state, rendered = some (.embedded excerpt, state) → mode = .controlled →
    ∃ lines truncated contents bytes cited, readFileLines snapshots side file = some (lines, truncated) ∧
      snapshots.opened side file = .ok contents ∧ bytes <+: contents ∧ lines = History.lines (fromUtf8Lossy bytes) ∧
      LinesOf lines contents ∧ line = some cited ∧
      1 ≤ excerpt.startLine ∧ excerpt.startLine ≤ cited ∧ cited ≤ excerpt.endLine ∧ excerpt.endLine ≤ lines.length ∧
      (∃ shown, slice lines (excerpt.startLine - 1) excerpt.endLine = some shown ∧
        excerpt.text = redact (Text.join ['\n'] shown)) ∧
      excerpt.endLine + 1 - excerpt.startLine ≤ 2 * excerptRadiusLines + 1 ∧
      (History.lines excerpt.text).length ≤ 2 * excerptRadiusLines + 1
  unread : ∀ lines truncated cited, readFileLines snapshots side file = some (lines, truncated) → line = some cited →
    ¬ (1 ≤ cited ∧ cited ≤ lines.length) → ∀ location state, rendered = some (location, state) →
      ∃ pointer, location = .reference pointer

section Rendering

variable {snapshots : Snapshots} {state : RenderState snapshots} {side : SnapshotSide} {commitSha file what : Text}
  {line : Option Nat} {mode : ExcerptMode} {lines : List Text} {truncated : Bool}

theorem lines_fst : (state.lines side file).1 = readFileLines snapshots side file := by
  unfold RenderState.lines
  split
  next value cached => exact state.sound _ _ cached
  next => rfl

theorem renderLocation_of_read (state : RenderState snapshots) (commitSha what : Text) (line : Option Nat)
    (mode : ExcerptMode) (shown : mode ≠ .none) (read : readFileLines snapshots side file = some (lines, truncated)) :
    (shownSpan mode line lines.length = none ∧ ∃ pointer state',
        renderLocation state side commitSha file line mode what = some (.reference pointer, state')) ∨
      ∃ start stop, shownSpan mode line lines.length = some (start, stop) ∧
        renderLocation state side commitSha file line mode what =
          embed (state.lines side file).2 lines truncated mode what start stop := by
  unfold renderLocation
  dsimp only
  rw [if_neg shown, lines_fst, read]
  dsimp only
  cases span : shownSpan mode line lines.length with
  | none =>
    left
    exact ⟨rfl, _, _, rfl⟩
  | some span' =>
    right
    exact ⟨_, _, rfl, rfl⟩

theorem renderLocation_of_unread (unread : mode = .none ∨ readFileLines snapshots side file = none) :
    ∃ pointer state', renderLocation state side commitSha file line mode what = some (.reference pointer, state') := by
  unfold renderLocation
  dsimp only
  by_cases hidden : mode = .none
  · rw [if_pos hidden]
    exact ⟨_, _, rfl⟩
  · rw [if_neg hidden, lines_fst, unread.resolve_left hidden]
    exact ⟨_, _, rfl⟩

theorem window_of_inside {current total : Nat} (first : 1 ≤ current) (last : current ≤ total)
    (small : total < 2 ^ 64 - excerptRadiusLines) : window current total excerptRadiusLines =
        (max (current - excerptRadiusLines) 1, min (current + excerptRadiusLines) total) ∧
      max (current - excerptRadiusLines) 1 ≤ current ∧ current ≤ min (current + excerptRadiusLines) total := by
  unfold excerptRadiusLines at *
  have unwrapped : (current + 5) % 2 ^ 64 = current + 5 := Nat.mod_eq_of_lt (by omega)
  unfold window
  rw [unwrapped]
  dsimp only
  refine ⟨?_, by omega, by omega⟩
  rw [Prod.mk.injEq]
  omega

theorem window_bounds (current total radius : Nat) : (window current total radius).1 ≤ (window current total radius).2 ∧
    (window current total radius).2 ≤ max total 1 := by
  unfold window
  dsimp only
  omega

theorem slice_eq (lines : List Text) (start stop : Nat) (order : start ≤ stop) (inside : stop ≤ lines.length) :
    slice lines start stop = some ((lines.drop start).take (stop - start)) := if_pos ⟨order, inside⟩

theorem embed_of_slice (state : RenderState snapshots) (truncated : Bool) (mode : ExcerptMode) (what : Text)
    {start stop : Nat} {shown : List Text} (cut : slice lines (start - 1) stop = some shown) :
    ∃ state', embed state lines truncated mode what start stop =
      some (.embedded ⟨start, stop, redact (Text.join ['\n'] shown), truncated && mode = .fullSpan⟩, state') := by
  have bounds : start - 1 ≤ stop ∧ stop ≤ lines.length := by
    unfold slice at cut
    split_ifs at cut with inside
    exact inside
  have same : min stop (max lines.length start) = stop := by omega
  unfold embed
  dsimp only
  rw [same]
  by_cases empty : lines.length = 0
  · rw [slice_eq lines _ _ bounds.1 bounds.2, List.length_eq_zero_iff.mp empty] at cut
    obtain rfl : [] = shown := by simpa using cut
    rw [if_pos empty]
    exact ⟨_, rfl⟩
  · rw [if_neg empty, cut]
    exact ⟨_, rfl⟩

/-- Whatever the window, an excerpt is embedded: nothing is cut out of range. -/
theorem embed_window (state : RenderState snapshots) (lines : List Text) (truncated : Bool) (mode : ExcerptMode)
    (what : Text) (current radius : Nat) :
    ∃ excerpt state', embed state lines truncated mode what (window current lines.length radius).1
        (window current lines.length radius).2 = some (.embedded excerpt, state') ∧
      excerpt.endLine ≤ max lines.length 1 := by
  obtain ⟨order, inside⟩ := window_bounds current lines.length radius
  by_cases empty : lines.length = 0
  · unfold embed
    dsimp only
    rw [if_pos empty]
    refine ⟨_, _, rfl, ?_⟩
    dsimp only
    omega
  · have cut := slice_eq lines ((window current lines.length radius).1 - 1) (window current lines.length radius).2
      (by omega) (by omega)
    obtain ⟨state', shown⟩ := embed_of_slice state truncated mode what cut
    exact ⟨_, state', shown, inside⟩

theorem embed_fullSpan (state : RenderState snapshots) (lines : List Text) (truncated : Bool) (what : Text) :
    ∃ state', embed state lines truncated .fullSpan what 1 (max lines.length 1) =
    some (.embedded ⟨1, max lines.length 1, redact (Text.join ['\n'] lines), truncated⟩, state') := by
  by_cases empty : lines.length = 0
  · have none := List.length_eq_zero_iff.mp empty
    subst none
    unfold embed
    cases truncated <;> exact ⟨_, rfl⟩
  · have whole : slice lines (1 - 1) (max lines.length 1) = some lines := by
      rw [slice_eq lines _ _ (by omega) (by omega)]
      have last : max lines.length 1 = lines.length := by omega
      simp [last]
    obtain ⟨state', shown⟩ := embed_of_slice state truncated .fullSpan what whole
    refine ⟨state', ?_⟩
    rw [shown]
    cases truncated <;> rfl

theorem CitesLine.of_reference {rendered : Option (LocationEvidence × RenderState snapshots)}
    (pointer : ∃ pointer state', rendered = some (.reference pointer, state')) :
    CitesLine snapshots side file line mode rendered := by
  obtain ⟨pointer, state', rfl⟩ := pointer
  constructor
  · rfl
  · intro excerpt state' same
    cases same
  · intro lines truncated cited _ _ _ location state' same
    cases same
    exact ⟨pointer, rfl⟩

theorem citesLine_window {cited : Nat} (read : readFileLines snapshots side file = some (lines, truncated))
    (first : 1 ≤ cited) (last : cited ≤ lines.length) : CitesLine snapshots side file (some cited) .controlled
      (embed state lines truncated .controlled what (window cited lines.length excerptRadiusLines).1
        (window cited lines.length excerptRadiusLines).2) := by
  obtain ⟨contents, bytes, opened, beginning, decoded, linesOf, noFeed, small⟩ := readFileLines_eq_some read
  obtain ⟨span, low, high⟩ := window_of_inside first last (by unfold excerptRadiusLines defaultShowMaxBytes at *; omega)
  rw [span]
  dsimp only
  generalize hstart : max (cited - excerptRadiusLines) 1 = start at *
  generalize hstop : min (cited + excerptRadiusLines) lines.length = stop at *
  have cut := slice_eq lines (start - 1) stop (by omega) (by omega)
  obtain ⟨state', shown⟩ := embed_of_slice state truncated .controlled what cut
  have many : stop + 1 - start ≤ 2 * excerptRadiusLines + 1 := by omega
  constructor
  · rw [shown]
    rfl
  · intro excerpt state'' rendered _
    cases shown.symm.trans rendered
    refine ⟨lines, truncated, contents, bytes, cited, read, opened, beginning, decoded, linesOf, rfl,
      by dsimp only; omega, low, high, by dsimp only; omega, ⟨_, cut, rfl⟩, many, ?_⟩
    have length := lines_length_le (redact (Text.join ['\n'] ((lines.drop (start - 1)).take (stop - (start - 1)))))
    have feeds := count_redact_le (Text.join ['\n'] ((lines.drop (start - 1)).take (stop - (start - 1))))
    rw [count_join fun line mem => noFeed line (List.mem_of_mem_drop (List.mem_of_mem_take mem)), List.length_take] at feeds
    dsimp only
    omega
  · intro lines' truncated' cited' read' same outside
    obtain ⟨rfl, rfl⟩ := Prod.mk.inj (Option.mem_unique read read')
    obtain rfl := Option.some.inj same
    exact absurd ⟨first, last⟩ outside

/-- Rendering cites the line unless an excerpt is asked for a line that was not read. -/
theorem renderLocation_cites_iff :
    CitesLine snapshots side file line mode (renderLocation state side commitSha file line mode what) ↔
      ¬ (mode ≠ .none ∧ ∃ lines truncated cited, readFileLines snapshots side file = some (lines, truncated) ∧
        line = some cited ∧ ¬ (1 ≤ cited ∧ cited ≤ lines.length)) := by
  constructor
  · rintro cites ⟨shown, lines, truncated, cited, read, rfl, outside⟩
    have refers := cites.unread lines truncated cited read rfl outside
    rcases renderLocation_of_read state commitSha what (some cited) mode shown read with ⟨none, -⟩ | ⟨start, stop, span, rendered⟩
    · cases mode <;> cases none
    · obtain ⟨excerpt, state', embedded⟩ : ∃ excerpt state', embed (state.lines side file).2 lines truncated mode what
          start stop = some (.embedded excerpt, state') := by
        cases mode with
        | none => exact absurd rfl shown
        | controlled =>
          obtain ⟨rfl, rfl⟩ := Prod.mk.inj (Option.some.inj span)
          obtain ⟨excerpt, state', embedded, -⟩ := embed_window (state.lines side file).2 lines truncated .controlled what
            cited excerptRadiusLines
          exact ⟨excerpt, state', embedded⟩
        | fullSpan =>
          obtain ⟨rfl, rfl⟩ := Prod.mk.inj (Option.some.inj span)
          obtain ⟨state', embedded⟩ := embed_fullSpan (state.lines side file).2 lines truncated what
          exact ⟨_, state', embedded⟩
      obtain ⟨pointer, same⟩ := refers _ _ (rendered.trans embedded)
      cases same
  · intro inside
    by_cases hidden : mode = .none
    · exact .of_reference (renderLocation_of_unread (.inl hidden))
    · cases read : readFileLines snapshots side file with
      | none => exact .of_reference (renderLocation_of_unread (.inr read))
      | some value =>
        obtain ⟨lines, truncated⟩ := value
        have within : ∀ cited, line = some cited → 1 ≤ cited ∧ cited ≤ lines.length := by
          intro cited same
          by_contra outside
          exact inside ⟨hidden, lines, truncated, cited, read, same, outside⟩
        rcases renderLocation_of_read state commitSha what line mode hidden read with ⟨-, pointer⟩ | ⟨start, stop, span, rendered⟩
        · exact .of_reference pointer
        · rw [rendered]
          cases mode with
          | none => exact absurd rfl hidden
          | controlled =>
            cases line with
            | none => cases span
            | some cited =>
              obtain ⟨rfl, rfl⟩ := Prod.mk.inj (Option.some.inj span)
              exact citesLine_window read (within cited rfl).1 (within cited rfl).2
          | fullSpan =>
            obtain ⟨rfl, rfl⟩ := Prod.mk.inj (Option.some.inj span)
            obtain ⟨state', shown⟩ := embed_fullSpan (state.lines side file).2 lines truncated what
            rw [shown]
            constructor
            · rfl
            · intro excerpt state'' _ controlled
              cases controlled
            · intro lines' truncated' cited read' same outside
              obtain ⟨rfl, rfl⟩ := Prod.mk.inj (Option.mem_unique read read')
              exact absurd (within cited same) outside

end Rendering

namespace Sample

def longFile : Utf8.Bytes := List.replicate 200000 10 ++ [102, 40, 41]

theorem longFile_length : longFile.length = 200003 := by
  unfold longFile
  rw [List.length_append, List.length_replicate]
  simp only [List.length_cons, List.length_nil, Nat.reduceAdd]

def longSnapshots : Snapshots where
  resolveFile _ _ := .ok (some 200003)
  opened _ _ := .ok longFile

theorem read_longFile : ∃ view, longSnapshots.showFile .head "a.rs" = .ok (some view) := by
  rcases readShowWindow_cases longFile "read source span for graph show" "a.rs" defaultShowMaxBytes 0
      longFile.length with ⟨outside, -⟩ | ⟨-, -, view, read, -⟩
  · exact absurd ⟨Nat.zero_le _, Nat.le_refl _⟩ outside
  rw [longFile_length] at read
  have row : longSnapshots.resolveFile .head "a.rs" = .ok (some ((200003 : Nat) : Int)) := rfl
  have opened : longSnapshots.opened .head "a.rs" = .ok longFile := rfl
  unfold Snapshots.showFile
  refine ⟨view, bind_eq_ok.mpr ⟨_, row, ?_⟩⟩
  rw [opened]
  exact bind_eq_ok.mpr ⟨view, read, rfl⟩

def newState : RenderState longSnapshots := .new

/-- The call on the last line is cited by an excerpt that ends before it. -/
theorem cited_line_not_shown :
    (∃ excerpt state, renderLocation newState .head "sha" "a.rs" (some 200001) .controlled "edge" =
        some (.embedded excerpt, state) ∧ excerpt.endLine < 200001) ∧
      ¬ CitesLine longSnapshots .head "a.rs" (some 200001) .controlled
        (renderLocation newState .head "sha" "a.rs" (some 200001) .controlled "edge") := by
  obtain ⟨view, shown⟩ := read_longFile
  have read := readFileLines_of_shown shown
  obtain ⟨contents, bytes, -, -, -, -, -, small⟩ := readFileLines_eq_some read
  have beyond : ¬ (1 ≤ 200001 ∧ 200001 ≤ (History.lines (fromUtf8Lossy view.bytes)).length) := by
    unfold defaultShowMaxBytes at small
    omega
  constructor
  · rcases renderLocation_of_read newState "sha" "edge" (some 200001) .controlled
        (by decide) read with
      ⟨none, -⟩ | ⟨start, stop, span, rendered⟩
    · cases none
    · obtain ⟨rfl, rfl⟩ := Prod.mk.inj (Option.some.inj span)
      obtain ⟨excerpt, state', embedded, ends⟩ := embed_window (newState.lines .head "a.rs").2
        (History.lines (fromUtf8Lossy view.bytes)) view.truncated .controlled "edge" 200001 excerptRadiusLines
      refine ⟨excerpt, state', rendered.trans embedded, ?_⟩
      unfold defaultShowMaxBytes at small
      omega
  · intro cites
    exact renderLocation_cites_iff.mp cites ⟨by decide, _, _, 200001, read, rfl, beyond⟩

end Sample

end OrbitGraph.Analysis
