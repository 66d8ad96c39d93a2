import OrbitGraph.Lib.Loop
import OrbitGraph.Output.Escape

/-!
Tables as the commands print them.

On a terminal a table has a header and one line for each row. Its columns are made
narrower, or left out, until the lines fit. Redirected output has one line of escaped
cells for each row, which a tab separates.

How wide a text is shown is a parameter. The results of a writer that fails are left out.
-/

namespace OrbitGraph.Output

open Lib

inductive Alignment where
  | left
  | right
  deriving DecidableEq

inductive WidthPolicy where
  | fixed
  | flexible
  deriving DecidableEq

inductive Truncation where
  | tail
  | middle
  deriving DecidableEq

/-- A heading is a literal of the program, and all of these are printable ASCII. -/
structure Heading where
  text : Text
  printable : ∀ c ∈ text, 0x20 ≤ c.toNat ∧ c.toNat ≤ 0x7E

structure Column where
  heading : Heading
  alignment : Alignment
  widthPolicy : WidthPolicy
  truncation : Truncation

namespace Column

def text (heading : Heading) : Column := ⟨heading, .left, .flexible, .tail⟩

def fixed (heading : Heading) : Column := ⟨heading, .left, .fixed, .tail⟩

def path (heading : Heading) : Column := ⟨heading, .left, .flexible, .middle⟩

def number (heading : Heading) : Column := ⟨heading, .right, .fixed, .tail⟩

end Column

/-- A record type is a literal of the program, a name without blanks. -/
structure RecordType where
  text : Text
  noTab : '\t' ∉ text
  noLine : '\n' ∉ text

structure TableView where
  columns : List Column
  rows : List (List Text)
  plainRecordType : Option RecordType
  /-- The assertion of `push_row`. -/
  length_row : ∀ row ∈ rows, row.length = columns.length

/-- How a terminal shows text: in graphemes, over which the width is additive. -/
structure Display where
  graphemes : Text → List Text
  width : Text → Nat
  flatten_graphemes : ∀ value, (graphemes value).flatten = value
  /-- The width of graphemes in a row is the sum of their widths. -/
  additive : ∀ pieces : List Text, (∀ piece ∈ pieces, ∃ value, piece ∈ graphemes value) →
    width pieces.flatten = (pieces.map width).sum
  printable : ∀ c : Char, 0x20 ≤ c.toNat → c.toNat ≤ 0x7E → [c] ∈ graphemes [c] ∧ width [c] = 1
  ellipsis : ['…'] ∈ graphemes ['…'] ∧ width ['…'] = 1

/-- `str::to_uppercase` of a heading. -/
def Heading.toUppercase (heading : Heading) : Text := heading.text.map Char.toUpper

def plainLine (table : TableView) (row : List Text) : Text :=
  (match table.plainRecordType with
    | some recordType => recordType.text ++ ['\t']
    | none => []) ++ Text.join ['\t'] (row.map escapeCell)

def emitPlain (table : TableView) : Text := table.rows.flatMap fun row => plainLine table row ++ ['\n']

/-! ### Layout -/

structure TableLayout where
  indices : List Nat
  widths : List Nat
  dropped : List Text
  fixedWidthRequired : Option Nat

/-- The last element with the greatest key, as `max_by_key` chooses. -/
def maxByKey {α : Type} (key : α → Nat) : List α → Option α
  | [] => none
  | first :: rest =>
    match maxByKey key rest with
    | none => some first
    | some best => if key first ≤ key best then some best else some first

def renderedWidth (widths : List Nat) : Nat := widths.sum + 2 * (widths.length - 1)

section Layout

variable (display : Display)

def naturalWidths (table : TableView) : List Nat :=
  table.columns.zipIdx.map fun (column, index) =>
    table.rows.foldl (fun width row => max width (display.width (escapeCell (row.getD index []))))
      (display.width (escapeCell column.heading.text))

def isFlexible (table : TableView) (index : Nat) : Bool :=
  table.columns[index]?.any fun column => column.widthPolicy = .flexible

/-- What the two loops change: the columns that are left, their widths, and the headings of the others. -/
structure Fitting where
  indices : List Nat
  widths : List Nat
  dropped : List Text

/-- The position of the widest column that can be made narrower. -/
def shrinkable (table : TableView) (fitting : Fitting) : Option Nat :=
  (maxByKey Prod.fst (fitting.widths.zipIdx.filter fun (width, position) =>
    fitting.indices[position]?.any (isFlexible table) && decide (8 < width))).map Prod.snd

/-- The position of the last flexible column. -/
def droppable (table : TableView) (indices : List Nat) : Option Nat :=
  (indices.zipIdx.reverse.find? fun (index, _) => isFlexible table index).map Prod.snd

/-- One round of the two loops. The inner one takes a column off the widest, and where it finds none the outer one
drops a column and starts it again. -/
def fitBody (table : TableView) (natural : List Nat) (sinkWidth : Nat) (fitting : Fitting) : Fitting ⊕ Fitting :=
  if renderedWidth fitting.widths ≤ sinkWidth then .inr fitting
  else
    match shrinkable table fitting with
    | some position => .inl { fitting with widths := fitting.widths.modify position (· - 1) }
    | none =>
      match droppable table fitting.indices with
      | none => .inr fitting
      | some position =>
        let indices := fitting.indices.eraseIdx position
        let heading := (fitting.indices[position]?.bind (table.columns[·]?)).map (·.heading.toUppercase)
        .inl ⟨indices, indices.map (natural.getD · 0), fitting.dropped ++ heading.toList⟩

def tableLayout (table : TableView) (sinkWidth rounds : Nat) : Option TableLayout :=
  let natural := naturalWidths display table
  let indices := List.range natural.length
  if sinkWidth = 0 ∨ natural = [] then some ⟨indices, natural, [], none⟩
  else
    (runLoop (fitBody table natural sinkWidth) rounds ⟨indices, indices.map (natural.getD · 0), []⟩).map fun fitting =>
      let required := renderedWidth fitting.widths
      ⟨fitting.indices, fitting.widths, fitting.dropped.reverse, if required > sinkWidth then some required else none⟩

/-! ### Lines -/

/-- The graphemes that fit into a width, from the left, with what they need. -/
def takeFitting (limit : Nat) : Nat → List Text → List Text
  | _, [] => []
  | used, grapheme :: rest =>
    if used + display.width grapheme > limit then []
    else grapheme :: takeFitting limit (used + display.width grapheme) rest

def truncateTail (value : Text) (width : Nat) : Text :=
  (takeFitting display (width - 1) 0 (display.graphemes value)).flatten ++ ['…']

def truncateMiddle (value : Text) (width : Nat) : Text :=
  let graphemes := display.graphemes value
  let available := width - 1
  let left := takeFitting display ((available + 1) / 2) 0 graphemes
  let right := takeFitting display (available / 2) 0 (graphemes.drop left.length).reverse
  left.flatten ++ '…' :: right.reverse.flatten

def truncate (value : Text) (width : Nat) (strategy : Truncation) : Text :=
  if display.width value ≤ width then value
  else if width ≤ 1 then ['…']
  else
    match strategy with
    | .tail => truncateTail display value width
    | .middle => truncateMiddle display value width

def tableCell (table : TableView) (cells : List Text) (index width : Nat) : Text :=
  match table.columns[index]? with
  | none => []
  | some column =>
    let cell := truncate display (escapeCell (cells.getD index [])) width column.truncation
    let padding := List.replicate (width - display.width cell) ' '
    match column.alignment with
    | .left => cell ++ padding
    | .right => padding ++ cell

/-- A line of the table, without its line break. -/
def tableRow (table : TableView) (cells : List Text) (layout : TableLayout) : Text :=
  Text.join [' ', ' '] ((layout.indices.zip layout.widths).map fun (index, width) => tableCell display table cells index width)

def header (table : TableView) : List Text := table.columns.map (·.heading.toUppercase)

def tableLines (table : TableView) (layout : TableLayout) : List Text :=
  (header table :: table.rows).map fun cells => tableRow display table cells layout

end Layout

end OrbitGraph.Output
