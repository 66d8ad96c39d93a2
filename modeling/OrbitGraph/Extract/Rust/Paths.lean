import OrbitGraph.Extract.SyntaxTree
import OrbitGraph.Lib.Pieces
import OrbitGraph.Lib.Utf8Search
import OrbitGraph.Sync.Index

/-!
Paths of Rust as they are written, and as the extractor reads them.

A written path is its names with `::` between them, and around every `::` can stand white
space and comments. The extractor reads the text of the path: it splits it at `::` and trims
the pieces. Without a comment this gives the names. A comment stays in what is read, and no
name has a `/`.
-/

namespace OrbitGraph.Extract

open Lib

def nodeText (source : Text) (node : Node) : Text := (Utf8.getBytes source node.startByte node.endByte).getD []

namespace Rust

open Sync (RawImport RawRef colons)

/-! ### What the extractor reads -/

def normalizeQualifiedName (name : Text) : Text :=
  Text.join colons (((Text.splitPair ':' ':' name).map Text.trim).filter fun segment => !segment.isEmpty)

def pathSegments (source : Text) (node : Node) : List Text :=
  Sync.pathSegments (normalizeQualifiedName (nodeText source node))

def joinSegments (segments : List Text) : Option Text :=
  if segments.isEmpty then none else some (Text.join colons segments)

def importName (segments : List Text) : Text :=
  match segments.getLast? with
  | some last =>
    if last = "self" ∧ segments.length > 1 then segments.dropLast.getLast?.getD [] else last
  | none => []

def importTargetPath (segments : List Text) : Text :=
  if segments.length ≤ 1 then segments.head?.getD [] else Text.join colons segments.dropLast

def ignoredTypeNames : List Text :=
  ["Self", "self", "str", "bool", "char", "usize", "isize", "u8", "u16", "u32", "u64", "u128", "i8", "i16", "i32", "i64",
    "i128", "f32", "f64", "()"].map String.toList

def isIgnoredTypeName (name : Text) : Bool := name ∈ ignoredTypeNames

/-- The last name of a text, unless there is none or it is a `*`. -/
def lastName (text : Text) : Option Text :=
  let normalized := normalizeQualifiedName text
  let name := ((Text.rsplitOnce colons normalized).map Prod.snd).getD normalized
  if !name.isEmpty && name ≠ "*" then some name else none

def targetName (source : Text) (node : Node) : Option Text := do
  let text ←
    if node.kind ∈ ["generic_type".toList, "generic_type_with_turbofish".toList] then
      (node.childByFieldName "type").map (nodeText source)
    else some (nodeText source node)
  lastName text

/-! ### What is written -/

/-- A name: no white space, and none of the characters that end it. -/
structure Name where
  text : Text
  nonempty : text ≠ []
  clean : ∀ c ∈ text, Text.isWhitespace c = false ∧ c ≠ ':' ∧ c ≠ '/' ∧ c ≠ '*'

/-- A blank or a comment. A comment begins with a `/`. -/
inductive Trivium where
  | blank (c : Char) (white : Text.isWhitespace c = true)
  | comment (rest : Text)

def Trivium.text : Trivium → Text
  | .blank c _ => [c]
  | .comment rest => '/' :: rest

def Trivium.isComment : Trivium → Bool
  | .blank _ _ => false
  | .comment _ => true

abbrev Gap := List Trivium

namespace Gap

def text (gap : Gap) : Text := gap.flatMap Trivium.text

/-- Without a comment. -/
def Plain (gap : Gap) : Prop := ∀ trivium ∈ gap, trivium.isComment = false

/-- The comments, one behind the other. -/
def comments (gap : Gap) : List Text := (gap.filter Trivium.isComment).map Trivium.text

end Gap

/-- What stands in front of a path that begins with `::`. -/
def leadingText (leading : Option Gap) : Text := (leading.map fun gap => colons ++ gap.text).getD []

/-- Names behind a `::` each. -/
def partsText (parts : List (Gap × Gap × Text)) : Text :=
  parts.flatMap fun (before, after, name) => before.text ++ colons ++ after.text ++ name

/-- A path: `::` in front of it or not, a name, and more names behind a `::` each. -/
structure WrittenPath where
  leading : Option Gap
  first : Name
  rest : List (Gap × Gap × Name)

namespace WrittenPath

def parts (path : WrittenPath) : List (Gap × Gap × Text) := path.rest.map fun (before, after, name) => (before, after, name.text)

def text (path : WrittenPath) : Text := leadingText path.leading ++ (path.first.text ++ partsText path.parts)

def segments (path : WrittenPath) : List Text := path.first.text :: path.rest.map fun (_, _, name) => name.text

/-- No comment is inside it. -/
def Plain (path : WrittenPath) : Prop :=
  (∀ gap ∈ path.leading, gap.Plain) ∧ ∀ part ∈ path.rest, part.1.Plain ∧ part.2.1.Plain

/-- The kind of its node: a word of its own for the three keywords. -/
def kind (path : WrittenPath) : Text :=
  if path.leading.isSome ∨ path.rest ≠ [] then "scoped_identifier"
  else if path.first.text ∈ ["crate", "self", "super"].map String.toList then path.first.text
  else "identifier"

end WrittenPath

namespace Name

theorem bare (name : Name) : Text.Bare name.text :=
  ⟨fun c found => (name.clean c (List.mem_of_head? found)).1, fun c found => (name.clean c (List.mem_of_getLast? found)).1⟩

theorem no_colon (name : Name) : ':' ∉ name.text := fun mem => (name.clean _ mem).2.1 rfl

theorem no_slash (name : Name) : '/' ∉ name.text := fun mem => (name.clean _ mem).2.2.1 rfl

theorem ne_star (name : Name) : name.text ≠ "*" := fun same => (name.clean '*' (same ▸ List.mem_singleton_self _)).2.2.2 rfl

end Name

/-- Segments as names are: nonempty, without `:` and without white space at the ends. -/
structure Segment (segment : Text) : Prop where
  nonempty : segment ≠ []
  noColon : ':' ∉ segment
  bare : Text.Bare segment

theorem Name.segment (name : Name) : Segment name.text := ⟨name.nonempty, name.no_colon, name.bare⟩

variable {segments : List Text}

theorem join_concat (nonempty : segments ≠ []) (last : Text) :
    Text.join colons (segments ++ [last]) = Text.join colons segments ++ (colons ++ last) := by
  induction segments with
  | nil => exact (nonempty rfl).elim
  | cons first rest ih =>
    cases rest with
    | nil => exact List.append_assoc _ _ _
    | cons next rest =>
      have left : Text.join colons (first :: next :: rest ++ [last]) =
          first ++ colons ++ Text.join colons (next :: rest ++ [last]) := rfl
      have right : Text.join colons (first :: next :: rest) = first ++ colons ++ Text.join colons (next :: rest) := rfl
      rw [left, right, ih (List.cons_ne_nil _ _), List.append_assoc _ (Text.join colons _)]

theorem pathSegments_join (sound : ∀ segment ∈ segments, Segment segment) :
    Sync.pathSegments (Text.join colons segments) = segments := by
  rw [Sync.pathSegments]
  cases segments with
  | nil => rfl
  | cons first rest =>
    rw [show colons = [':', ':'] from rfl,
      Text.splitPair_join (List.cons_ne_nil _ _) fun segment mem => (sound segment mem).noColon]
    exact List.filter_eq_self.mpr fun segment mem => by simpa using (sound segment mem).nonempty

theorem join_injective {left right : List Text} (soundLeft : ∀ segment ∈ left, Segment segment)
    (soundRight : ∀ segment ∈ right, Segment segment) (same : Text.join colons left = Text.join colons right) :
    left = right := by
  rw [← pathSegments_join soundLeft, same, pathSegments_join soundRight]

theorem rsplitOnce_join {last : Text} (noColon : ':' ∉ last) (init : List Text) (eq : segments = init ++ [last]) :
    ((Text.rsplitOnce colons (Text.join colons segments)).map Prod.snd).getD (Text.join colons segments) = last := by
  subst eq
  cases init with
  | nil =>
    have none : Text.rsplitOnce colons last = none := by
      rw [Text.rsplitOnce, Option.map_eq_none_iff, Text.splitOnce_eq_none]
      rintro ⟨front, back, same⟩
      refine noColon (List.mem_reverse.mp (same ▸ ?_))
      simp [colons]
    show ((Text.rsplitOnce colons last).map Prod.snd).getD last = last
    rw [none]
    rfl
  | cons first init =>
    have shape : Text.join colons (first :: init ++ [last]) = Text.join colons (first :: init) ++ (colons ++ last) :=
      join_concat (List.cons_ne_nil _ _) last
    rw [shape, show colons = [':', ':'] from rfl, Text.rsplitOnce_append noColon]
    rfl

theorem normalizeQualifiedName_append {piece : Text} (absent : ':' ∉ piece) (rest : Text) :
    ((Text.splitPair ':' ':' (piece ++ (colons ++ rest))).map Text.trim).filter (fun segment => !segment.isEmpty) =
      [Text.trim piece].filter (fun segment => !segment.isEmpty) ++
        ((Text.splitPair ':' ':' rest).map Text.trim).filter fun segment => !segment.isEmpty := by
  rw [show colons ++ rest = ':' :: ':' :: rest from rfl, Text.splitPair_append absent, List.map_cons, ← List.singleton_append,
    List.filter_append]

section Blank

variable {gap : Gap}

theorem Gap.Plain.white (plain : gap.Plain) : ∀ c ∈ gap.text, Text.isWhitespace c = true := by
  intro c mem
  obtain ⟨trivium, inside, there⟩ := List.mem_flatMap.mp mem
  cases trivium with
  | blank d white => rwa [List.mem_singleton.mp there]
  | comment rest => cases plain _ inside

theorem Gap.Plain.no_colon (plain : gap.Plain) : ':' ∉ gap.text := fun mem => by
  have := plain.white _ mem
  revert this
  decide

theorem Gap.slash_of_not_plain (noted : ¬ gap.Plain) : '/' ∈ gap.text := by
  rw [Gap.Plain] at noted
  push Not at noted
  obtain ⟨trivium, inside, comment⟩ := noted
  refine List.mem_flatMap.mpr ⟨trivium, inside, ?_⟩
  cases trivium with
  | blank c white => cases comment rfl
  | comment rest => exact List.mem_cons_self

theorem Gap.comments_eq_nil_iff : gap.comments = [] ↔ gap.Plain := by
  rw [Gap.comments, List.map_eq_nil_iff, List.filter_eq_nil_iff]
  exact forall₂_congr fun trivium _ => by simp

end Blank

theorem segments_partsText {parts : List (Gap × Gap × Text)} (plain : ∀ part ∈ parts, part.1.Plain ∧ part.2.1.Plain)
    (sound : ∀ part ∈ parts, Segment part.2.2) {gap : Gap} (blank : gap.Plain) {name : Text} (segment : Segment name) :
    ((Text.splitPair ':' ':' ((gap.text ++ name) ++ partsText parts)).map Text.trim).filter (fun segment => !segment.isEmpty) =
      name :: parts.map fun part => part.2.2 := by
  have absent : ':' ∉ gap.text ++ name := fun mem => (List.mem_append.mp mem).elim blank.no_colon segment.noColon
  have kept : [name].filter (fun segment => !segment.isEmpty) = [name] :=
    List.filter_cons_of_pos (by simpa using segment.nonempty)
  induction parts generalizing gap name with
  | nil =>
    have trimmed : Text.trim (gap.text ++ name) = name := by
      rw [← List.append_nil (gap.text ++ name)]
      exact Text.trim_between segment.bare blank.white (fun _ mem => by cases mem)
    rw [partsText, List.flatMap_nil, List.append_nil, Text.splitPair_of_not_mem absent, List.map_singleton, trimmed, kept]
    rfl
  | cons part rest ih =>
    obtain ⟨before, after, next⟩ := part
    obtain ⟨plainBefore, plainAfter⟩ := plain _ List.mem_cons_self
    have nextSegment : Segment next := sound _ List.mem_cons_self
    have shape : (gap.text ++ name) ++ partsText ((before, after, next) :: rest) =
        ((gap.text ++ name) ++ before.text) ++ (colons ++ ((after.text ++ next) ++ partsText rest)) := by
      simp [partsText]
    have trimmed : Text.trim ((gap.text ++ name) ++ before.text) = name :=
      Text.trim_between segment.bare blank.white plainBefore.white
    rw [shape, normalizeQualifiedName_append fun mem => (List.mem_append.mp mem).elim absent plainBefore.no_colon, trimmed,
      kept, ih (fun part mem => plain part (List.mem_cons_of_mem _ mem)) (fun part mem => sound part (List.mem_cons_of_mem _ mem))
        plainAfter nextSegment (fun mem => (List.mem_append.mp mem).elim plainAfter.no_colon nextSegment.noColon)
        (List.filter_cons_of_pos (by simpa using nextSegment.nonempty))]
    rfl

theorem normalize_parts (leading : Option Gap) (plainLeading : ∀ gap ∈ leading, gap.Plain) {first : Text} (segment : Segment first)
    (parts : List (Gap × Gap × Text)) (plain : ∀ part ∈ parts, part.1.Plain ∧ part.2.1.Plain)
    (sound : ∀ part ∈ parts, Segment part.2.2) :
    normalizeQualifiedName (leadingText leading ++ (first ++ partsText parts)) =
      Text.join colons (first :: parts.map fun part => part.2.2) := by
  rw [normalizeQualifiedName]
  congr 1
  cases leading with
  | none => exact segments_partsText plain sound (nofun : Gap.Plain []) segment
  | some gap =>
    have blank : gap.Plain := plainLeading gap rfl
    have shape : leadingText (some gap) ++ (first ++ partsText parts) =
        [] ++ (colons ++ ((gap.text ++ first) ++ partsText parts)) := by simp [leadingText]
    rw [shape, normalizeQualifiedName_append List.not_mem_nil, segments_partsText plain sound blank segment]
    rfl

theorem lastName_eq {text last : Text} {init : List Text} (read : normalizeQualifiedName text = Text.join colons (init ++ [last]))
    (segment : Segment last) : lastName text = if last = "*" then none else some last := by
  have nonempty : last.isEmpty = false := by simpa using segment.nonempty
  rw [lastName, read, rsplitOnce_join segment.noColon init rfl]
  by_cases star : last = "*" <;> simp [star, nonempty]

namespace WrittenPath

variable {path : WrittenPath}

theorem segment_of_mem {segment : Text} (mem : segment ∈ path.segments) : Segment segment := by
  rcases List.mem_cons.mp mem with rfl | later
  · exact path.first.segment
  · obtain ⟨part, _, rfl⟩ := List.mem_map.mp later
    exact part.2.2.segment

theorem no_slash_of_mem {segment : Text} (mem : segment ∈ path.segments) : '/' ∉ segment := by
  rcases List.mem_cons.mp mem with rfl | later
  · exact path.first.no_slash
  · obtain ⟨part, _, rfl⟩ := List.mem_map.mp later
    exact part.2.2.no_slash

theorem map_parts (path : WrittenPath) : path.first.text :: path.parts.map (fun part => part.2.2) = path.segments := by
  rw [parts, List.map_map]
  rfl

theorem Plain.parts (plain : path.Plain) : ∀ part ∈ path.parts, part.1.Plain ∧ part.2.1.Plain := by
  intro part mem
  obtain ⟨triple, inside, rfl⟩ := List.mem_map.mp mem
  exact plain.2 triple inside

theorem segment_of_mem_parts : ∀ part ∈ path.parts, Segment part.2.2 := by
  intro part mem
  obtain ⟨triple, _, rfl⟩ := List.mem_map.mp mem
  exact triple.2.2.segment

theorem normalize_text (plain : path.Plain) : normalizeQualifiedName path.text = Text.join colons path.segments := by
  rw [text, normalize_parts _ plain.1 path.first.segment _ plain.parts segment_of_mem_parts, map_parts]

theorem pathSegments_text (plain : path.Plain) : Sync.pathSegments (normalizeQualifiedName path.text) = path.segments := by
  rw [normalize_text plain, pathSegments_join fun _ => segment_of_mem]

theorem lastName_text (plain : path.Plain) : lastName path.text = path.segments.getLast? := by
  have nonempty : path.segments ≠ [] := List.cons_ne_nil _ _
  have split := List.dropLast_append_getLast nonempty
  have star : path.segments.getLast nonempty ≠ "*" := by
    rcases List.mem_cons.mp (List.getLast_mem nonempty) with first | later
    · exact first ▸ path.first.ne_star
    · obtain ⟨part, _, same⟩ := List.mem_map.mp later
      exact same ▸ part.2.2.ne_star
  rw [lastName_eq ((normalize_text plain).trans (by rw [split])) (segment_of_mem (List.getLast_mem nonempty)), if_neg star,
    List.getLast?_eq_some_getLast nonempty]

theorem slash_of_not_plain (noted : ¬ path.Plain) : '/' ∈ path.text := by
  have inGap : ∀ gap : Gap, ¬ gap.Plain → (∀ c ∈ gap.text, c ∈ path.text) → '/' ∈ path.text :=
    fun gap noted sub => sub _ (Gap.slash_of_not_plain noted)
  rw [Plain, not_and_or] at noted
  rcases noted with front | behind
  · push Not at front
    obtain ⟨gap, found, noted⟩ := front
    refine inGap gap noted fun c mem => ?_
    rw [text, Option.mem_def.mp found, leadingText]
    simp [mem]
  · push Not at behind
    obtain ⟨part, inside, noted⟩ := behind
    have sub : ∀ c ∈ part.1.text ++ part.2.1.text, c ∈ path.text := fun c mem => by
      refine List.mem_append_right _ (List.mem_append_right _ (List.mem_flatMap.mpr
        ⟨(part.1, part.2.1, part.2.2.text), List.mem_map_of_mem inside, ?_⟩))
      rcases List.mem_append.mp mem with left | right
      · simp [left]
      · simp [right]
    by_cases first : part.1.Plain
    · exact inGap _ (noted first) fun c mem => sub c (List.mem_append_right _ mem)
    · exact inGap _ first fun c mem => sub c (List.mem_append_left _ mem)

end WrittenPath

theorem exists_segment_of_mem {c : Char} {text : Text} (mem : c ∈ text) (apart : c ≠ ':') (visible : Text.isWhitespace c = false) :
    ∃ segment ∈ Sync.pathSegments (normalizeQualifiedName text), c ∈ segment := by
  obtain ⟨piece, inside, there⟩ := Text.exists_mem_splitPair (a := ':') (b := ':') mem apart apart
  have trimmed := Text.mem_trim there visible
  have kept : Text.trim piece ∈ ((Text.splitPair ':' ':' text).map Text.trim).filter fun segment => !segment.isEmpty :=
    List.mem_filter.mpr ⟨List.mem_map_of_mem inside, by simpa using List.ne_nil_of_mem trimmed⟩
  obtain ⟨segment, again, found⟩ := Text.exists_mem_splitPair (a := ':') (b := ':') (Text.mem_join_of_mem kept trimmed) apart apart
  exact ⟨segment, List.mem_filter.mpr ⟨again, by simpa using List.ne_nil_of_mem found⟩, found⟩

end Rust

end OrbitGraph.Extract
