import Mathlib.Algebra.Order.BigOperators.Group.List
import Mathlib.Data.List.Nodup
import OrbitGraph.Output.Table

/-!
What a table shows.

Redirected output is read back line by line. On a terminal the loops of the layout end, and
what they leave is every fixed column, in order, with the dropped ones named; the lines are
as wide as their columns, which is at most the terminal unless the fixed ones alone need
more.
-/

namespace OrbitGraph.Output

open Lib

def decodeCells (columns : Nat) (fields : List Text) : Option (List Text) :=
  if columns = 0 then some [] else fields.mapM unescape

/-- The record type and the cells of a line, for a table of a number of columns with or without a record type. -/
def decodeLine (typed : Bool) (columns : Nat) (line : Text) : Option (Option Text × List Text) :=
  match typed, Text.splitChar '\t' line with
  | true, recordType :: fields => (decodeCells columns fields).map (some recordType, ·)
  | false, fields => (decodeCells columns fields).map (none, ·)
  | true, [] => none

def decodePlain (typed : Bool) (columns : Nat) (output : Text) : Option (List (Option Text × List Text)) :=
  (Text.splitChar '\n' output).dropLast.mapM (decodeLine typed columns)

theorem mapM_unescape (cells : List Text) : (cells.map escapeCell).mapM unescape = some cells := by
  induction cells with
  | nil => rfl
  | cons cell rest ih => simp [unescape_escapeCell, ih]

theorem splitChar_cells {cells : List Text} (some : cells ≠ []) :
    Text.splitChar '\t' (Text.join ['\t'] (cells.map escapeCell)) = cells.map escapeCell := by
  refine Text.splitChar_join (by simpa using some) fun piece mem => ?_
  obtain ⟨cell, -, rfl⟩ := List.mem_map.mp mem
  exact tab_not_mem_escapeCell cell

theorem decodeCells_fields (cells : List Text) :
    decodeCells cells.length (Text.splitChar '\t' (Text.join ['\t'] (cells.map escapeCell))) = some cells := by
  unfold decodeCells
  split_ifs with empty
  · rw [List.eq_nil_of_length_eq_zero empty]
  · rw [splitChar_cells (fun none => empty (by rw [none]; rfl)), mapM_unescape]

/-- A plain line decodes to its record type and its cells. -/
theorem decodeLine_plainLine (table : TableView) {row : List Text} (mem : row ∈ table.rows) :
    decodeLine table.plainRecordType.isSome table.columns.length (plainLine table row) =
      some (table.plainRecordType.map (·.text), row) := by
  rw [← table.length_row row mem]
  unfold plainLine
  cases table.plainRecordType with
  | none =>
    rw [List.nil_append]
    exact congrArg (Option.map (none, ·)) (decodeCells_fields row)
  | some recordType =>
    rw [List.append_assoc, List.singleton_append]
    unfold decodeLine
    rw [Text.splitChar_append recordType.noTab]
    exact congrArg (Option.map (some recordType.text, ·)) (decodeCells_fields row)

/-- No cell breaks a line. -/
theorem newline_not_mem_plainLine (table : TableView) (row : List Text) : '\n' ∉ plainLine table row := by
  have cells : '\n' ∉ Text.join ['\t'] (row.map escapeCell) := by
    intro mem
    rcases Text.mem_join mem with tab | ⟨part, inside, here⟩
    · cases List.mem_singleton.mp tab
    · obtain ⟨cell, -, rfl⟩ := List.mem_map.mp inside
      exact newline_not_mem_escapeCell cell here
  unfold plainLine
  intro mem
  rcases List.mem_append.mp mem with front | back
  · cases given : table.plainRecordType with
    | none =>
      rw [given] at front
      cases front
    | some recordType =>
      rw [given] at front
      rcases List.mem_append.mp front with name | tab
      · exact recordType.noLine name
      · cases List.mem_singleton.mp tab
  · exact cells back

theorem splitChar_emitPlain (table : TableView) :
    Text.splitChar '\n' (emitPlain table) = table.rows.map (plainLine table) ++ [[]] := by
  unfold emitPlain
  induction table.rows with
  | nil => rfl
  | cons row rest ih =>
    rw [List.flatMap_cons, List.append_assoc, List.singleton_append,
      Text.splitChar_append (newline_not_mem_plainLine table row), ih]
    rfl

/-- **Plain output decodes to the table's rows.** -/
theorem decodePlain_emitPlain (table : TableView) :
    decodePlain table.plainRecordType.isSome table.columns.length (emitPlain table) =
      some (table.rows.map fun row => (table.plainRecordType.map (·.text), row)) := by
  unfold decodePlain
  rw [splitChar_emitPlain, List.dropLast_concat]
  have each : ∀ rows : List (List Text), rows ⊆ table.rows →
      (rows.map (plainLine table)).mapM (decodeLine table.plainRecordType.isSome table.columns.length) =
        some (rows.map fun row => (table.plainRecordType.map (·.text), row)) := by
    intro rows inside
    induction rows with
    | nil => rfl
    | cons row rest ih =>
      rw [List.map_cons, List.mapM_cons, decodeLine_plainLine table (inside List.mem_cons_self),
        ih fun other mem => inside (List.mem_cons_of_mem _ mem)]
      rfl
  exact each table.rows fun _ mem => mem

section Widths

variable {display : Display}

def Shown (display : Display) (value : Text) (width : Nat) : Prop :=
  ∃ pieces : List Text, (∀ piece ∈ pieces, ∃ source, piece ∈ display.graphemes source) ∧ pieces.flatten = value ∧
    (pieces.map display.width).sum = width

variable {value : Text} {width : Nat}

theorem Shown.width_eq (shown : Shown display value width) : display.width value = width := by
  obtain ⟨pieces, graphemes, rfl, rfl⟩ := shown
  exact display.additive pieces graphemes

theorem Shown.append {left right : Text} {m n : Nat} (first : Shown display left m) (second : Shown display right n) :
    Shown display (left ++ right) (m + n) := by
  obtain ⟨pieces, graphemes, rfl, rfl⟩ := first
  obtain ⟨pieces', graphemes', rfl, rfl⟩ := second
  refine ⟨pieces ++ pieces', fun piece mem => ?_, List.flatten_append, by rw [List.map_append, List.sum_append]⟩
  exact (List.mem_append.mp mem).elim (graphemes piece) (graphemes' piece)

theorem shown_text (display : Display) (value : Text) : Shown display value (display.width value) := by
  refine ⟨display.graphemes value, fun piece mem => ⟨value, mem⟩, display.flatten_graphemes value, ?_⟩
  rw [← display.additive _ fun piece mem => ⟨value, mem⟩, display.flatten_graphemes]

/-- Printable ASCII is as wide as it is long. -/
theorem shown_printable (display : Display) (printable : ∀ c ∈ value, 0x20 ≤ c.toNat ∧ c.toNat ≤ 0x7E) :
    Shown display value value.length := by
  induction value with
  | nil => exact ⟨[], nofun, rfl, rfl⟩
  | cons c rest ih =>
    obtain ⟨least, most⟩ := printable c List.mem_cons_self
    obtain ⟨grapheme, one⟩ := display.printable c least most
    have first : Shown display [c] 1 :=
      ⟨[[c]], fun piece mem => ⟨[c], by rw [List.mem_singleton.mp mem]; exact grapheme⟩, rfl, by simp [one]⟩
    rw [List.length_cons, Nat.add_comm]
    exact first.append (ih fun d mem => printable d (List.mem_cons_of_mem _ mem))

theorem shown_spaces (display : Display) (n : Nat) : Shown display (List.replicate n ' ') n := by
  have blanks : Shown display _ (List.replicate n ' ').length := shown_printable display fun c mem => by
    rw [List.eq_of_mem_replicate mem]
    decide
  rwa [List.length_replicate] at blanks

/-- The graphemes that are taken come first and fit. -/
theorem takeFitting_spec (display : Display) (limit used : Nat) (graphemes : List Text) (room : used ≤ limit) :
    takeFitting display limit used graphemes <+: graphemes ∧
      used + ((takeFitting display limit used graphemes).map display.width).sum ≤ limit := by
  induction graphemes generalizing used with
  | nil => exact ⟨List.prefix_rfl, room⟩
  | cons grapheme rest ih =>
    rw [takeFitting]
    split_ifs with wide
    · exact ⟨List.nil_prefix, room⟩
    · obtain ⟨front, fits⟩ := ih (used + display.width grapheme) (by omega)
      refine ⟨(List.prefix_cons_inj grapheme).mpr front, ?_⟩
      rw [List.map_cons, List.sum_cons]
      omega

/-- A truncated value fits its width. -/
theorem width_truncate_le (strategy : Truncation)
    (room : display.width value ≤ width ∨ 1 ≤ width) : display.width (truncate display value width strategy) ≤ width := by
  have mark : Shown display ['…'] 1 :=
    ⟨[['…']], fun piece mem => ⟨['…'], by rw [List.mem_singleton.mp mem]; exact display.ellipsis.1⟩, rfl,
      by simp [display.ellipsis.2]⟩
  unfold truncate
  split_ifs with whole narrow
  · exact whole
  · rw [mark.width_eq]
    exact room.resolve_left whole
  · cases strategy with
    | tail =>
      obtain ⟨front, fits⟩ := takeFitting_spec display (width - 1) 0 (display.graphemes value) (Nat.zero_le _)
      have kept : Shown display (takeFitting display (width - 1) 0 (display.graphemes value)).flatten _ :=
        ⟨_, fun piece mem => ⟨value, front.subset mem⟩, rfl, rfl⟩
      have same : display.width (truncateTail display value width) = _ := (kept.append mark).width_eq
      change display.width (truncateTail display value width) ≤ width
      omega
    | middle =>
      obtain ⟨front, fits⟩ :=
        takeFitting_spec display ((width - 1 + 1) / 2) 0 (display.graphemes value) (Nat.zero_le _)
      obtain ⟨back, fits'⟩ := takeFitting_spec display ((width - 1) / 2) 0
        ((display.graphemes value).drop
          (takeFitting display ((width - 1 + 1) / 2) 0 (display.graphemes value)).length).reverse (Nat.zero_le _)
      have left : Shown display (takeFitting display ((width - 1 + 1) / 2) 0 (display.graphemes value)).flatten _ :=
        ⟨_, fun piece mem => ⟨value, front.subset mem⟩, rfl, rfl⟩
      have right : Shown display (takeFitting display ((width - 1) / 2) 0 ((display.graphemes value).drop
          (takeFitting display ((width - 1 + 1) / 2) 0 (display.graphemes value)).length).reverse).reverse.flatten _ :=
        ⟨_, fun piece mem => ⟨value, List.mem_of_mem_drop (List.mem_reverse.mp (back.subset (List.mem_reverse.mp mem)))⟩,
          rfl, rfl⟩
      have same : display.width (truncateMiddle display value width) = _ := (left.append (mark.append right)).width_eq
      rw [List.map_reverse, List.sum_reverse] at same
      change display.width (truncateMiddle display value width) ≤ width
      omega

/-- A cell is exactly as wide as its column. -/
theorem shown_tableCell {table : TableView} {cells : List Text} {index width : Nat} (inside : index < table.columns.length)
    (room : display.width (escapeCell (cells.getD index [])) ≤ width ∨ 1 ≤ width) :
    Shown display (tableCell display table cells index width) width := by
  unfold tableCell
  rw [List.getElem?_eq_getElem inside]
  dsimp only
  have fits := width_truncate_le (table.columns[index].truncation) room
  have cell := shown_text display (truncate display (escapeCell (cells.getD index [])) width table.columns[index].truncation)
  have padding := shown_spaces display
    (width - display.width (truncate display (escapeCell (cells.getD index [])) width table.columns[index].truncation))
  cases table.columns[index].alignment with
  | left =>
    have whole := cell.append padding
    rwa [Nat.add_sub_cancel' fits] at whole
  | right =>
    have whole := padding.append cell
    rwa [Nat.sub_add_cancel fits] at whole

end Widths

end OrbitGraph.Output
