import OrbitGraph.Changes.Selector
import OrbitGraph.Lib.Command
import OrbitGraph.Lib.Pieces

/-!
Selectors that are printed and read again.

A parsed path is normal: its parts are names, with `..` only in front of them. Normalising
a normal path changes nothing, as long as its ends are not white space. A part may begin or
end with white space, and once the parts in front of it or behind it are gone the path does.
-/

namespace OrbitGraph.Changes

open Lib

def Selector.path : Selector → Text
  | .dir path | .file path | .symbol path _ _ => path
  | .module _ | .command _ => []

/-! ### Parts -/

/-- A part that is kept, whatever is in front of it, or `..`. -/
def IsPart (part : Text) : Prop := part ≠ [] ∧ part ≠ "." ∧ '/' ∉ part ∧ '\\' ∉ part

/-- Parts as they are kept: `..` stands only in front of the names, and not at all below the root. -/
structure NormalParts (isAbsolute : Bool) (parts : List Text) : Prop where
  clean : ∀ part ∈ parts, IsPart part
  dots : ∃ ups names, parts = List.replicate ups "..".toList ++ names ∧ "..".toList ∉ names ∧
    (isAbsolute = true → ups = 0)

theorem NormalParts.nil (isAbsolute : Bool) : NormalParts isAbsolute [] :=
  ⟨fun _ mem => (List.not_mem_nil mem).elim, 0, [], rfl, List.not_mem_nil, fun _ => rfl⟩

variable {isAbsolute : Bool}

theorem pushPart_skipped (parts : List Text) {part : Text} (skipped : part = [] ∨ part = ".") :
    pushPart isAbsolute parts part = parts := by
  rw [pushPart, if_pos skipped]

theorem pushPart_name (parts : List Text) {part : Text} (kept : ¬ (part = [] ∨ part = "."))
    (name : part ≠ "..") : pushPart isAbsolute parts part = parts ++ [part] := by
  rw [pushPart, if_neg kept, if_neg name]

theorem pushPart_parent_of_name {parts : List Text} {last : Text} (found : parts.getLast? = some last)
    (name : last ≠ "..") : pushPart isAbsolute parts ".." = parts.dropLast := by
  rw [pushPart, if_neg (by decide), if_pos rfl, found]
  exact if_pos name

theorem pushPart_parent {parts : List Text} (top : ∀ last ∈ parts.getLast?, last = "..") :
    pushPart isAbsolute parts "..".toList = if isAbsolute then parts else parts ++ ["..".toList] := by
  rw [pushPart, if_neg (by decide), if_pos rfl]
  cases found : parts.getLast? with
  | none => rfl
  | some last => exact if_neg (not_not.mpr (top last found))

theorem NormalParts.push {parts : List Text} {part : Text}
    (normal : NormalParts isAbsolute parts) (slash : '/' ∉ part) (backslash : '\\' ∉ part) :
    NormalParts isAbsolute (pushPart isAbsolute parts part) := by
  obtain ⟨clean, ups, names, same, free, root⟩ := normal
  by_cases skipped : part = [] ∨ part = ".".toList
  · rw [pushPart_skipped parts skipped]
    exact ⟨clean, ups, names, same, free, root⟩
  have isPart : IsPart part := ⟨(not_or.mp skipped).1, (not_or.mp skipped).2, slash, backslash⟩
  have clean' : ∀ p ∈ parts ++ [part], IsPart p := by
    intro p mem
    rcases List.mem_append.mp mem with before | here
    · exact clean p before
    · exact List.mem_singleton.mp here ▸ isPart
  by_cases parent : part = "..".toList
  · subst parent
    rcases List.eq_nil_or_concat names with rfl | ⟨front, name, rfl⟩
    · -- Nothing but `..` is in front: another `..` follows, except at the root.
      rw [List.append_nil] at same
      rw [pushPart_parent fun last found => List.eq_of_mem_replicate (same ▸ List.mem_of_getLast? found)]
      cases isAbsolute with
      | true => exact ⟨clean, ups, [], by rw [same, List.append_nil, if_pos rfl], free, root⟩
      | false =>
        rw [if_neg Bool.false_ne_true]
        exact ⟨clean', ups + 1, [], by rw [same, List.replicate_succ', List.append_nil], free, by simp⟩
    · -- The last name goes.
      rw [List.concat_eq_append] at same free
      have last : parts.getLast? = some name := by rw [same, ← List.append_assoc, List.getLast?_concat]
      have named : name ≠ "..".toList := fun eq => free (by simp [eq])
      rw [pushPart_parent_of_name last named]
      refine ⟨fun p mem => clean p (List.mem_of_mem_dropLast mem), ups, front, ?_, ?_, root⟩
      · rw [same, ← List.append_assoc, List.dropLast_concat]
      · exact fun mem => free (List.mem_append_left _ mem)
  · rw [pushPart_name parts skipped parent]
    refine ⟨clean', ups, names ++ [part], by rw [same, List.append_assoc], ?_, root⟩
    rw [List.mem_append, List.mem_singleton, not_or]
    exact ⟨free, Ne.symm parent⟩

theorem NormalParts.pushAll {pieces parts : List Text} (normal : NormalParts isAbsolute parts)
    (clean : ∀ piece ∈ pieces, '/' ∉ piece ∧ '\\' ∉ piece) :
    NormalParts isAbsolute (pieces.foldl (pushPart isAbsolute) parts) := by
  induction pieces generalizing parts with
  | nil => exact normal
  | cons piece pieces ih =>
    obtain ⟨slash, backslash⟩ := clean piece List.mem_cons_self
    exact ih (normal.push slash backslash) fun p mem => clean p (List.mem_cons_of_mem _ mem)

theorem NormalParts.again {parts : List Text} (normal : NormalParts isAbsolute parts) :
    parts.foldl (pushPart isAbsolute) [] = parts := by
  induction parts using List.reverseRecOn with
  | nil => rfl
  | append_singleton front part ih =>
    obtain ⟨clean, ups, names, same, free, root⟩ := normal
    obtain ⟨nonempty, dot, -, -⟩ := clean part (by simp)
    rw [List.foldl_append, List.foldl_cons, List.foldl_nil]
    have clean' : ∀ p ∈ front, IsPart p := fun p mem => clean p (List.mem_append_left _ mem)
    rcases List.eq_nil_or_concat names with rfl | ⟨names, name, rfl⟩
    · -- All parts are `..`, and the path is relative.
      rw [List.append_nil] at same
      have parent : part = "..".toList := List.eq_of_mem_replicate (same ▸ List.mem_append_right _ List.mem_cons_self)
      have before : front = List.replicate (ups - 1) "..".toList := by
        rw [← List.dropLast_replicate, ← same, List.dropLast_concat]
      have relative : isAbsolute = false := by
        cases isAbsolute with
        | false => rfl
        | true =>
          rw [root rfl] at same
          exact (List.cons_ne_nil _ _ (List.append_eq_nil_iff.mp same).2).elim
      rw [ih ⟨clean', ups - 1, [], by rw [before, List.append_nil], free, by simp [relative]⟩, parent,
        pushPart_parent fun last found => List.eq_of_mem_replicate (before ▸ List.mem_of_getLast? found), relative,
        if_neg Bool.false_ne_true]
    · rw [List.concat_eq_append, ← List.append_assoc] at same
      rw [List.concat_eq_append] at free
      obtain ⟨before, here⟩ := List.append_inj' same rfl
      obtain rfl := (List.cons.inj here).1
      rw [ih ⟨clean', ups, names, before, fun mem => free (List.mem_append_left _ mem), root⟩,
        pushPart_name front (not_or.mpr ⟨nonempty, dot⟩) fun eq => free (by simp [eq])]

theorem pushPart_sublist (isAbsolute : Bool) (parts : List Text) (part : Text) :
    (pushPart isAbsolute parts part).Sublist (parts ++ [part]) := by
  by_cases skipped : part = [] ∨ part = "."
  · rw [pushPart_skipped parts skipped]
    exact List.sublist_append_left _ _
  by_cases parent : part = ".."
  · subst parent
    by_cases top : ∀ last ∈ parts.getLast?, last = ".."
    · rw [pushPart_parent top]
      cases isAbsolute with
      | true => exact List.sublist_append_left _ _
      | false => exact List.Sublist.refl _
    · obtain ⟨last, found, name⟩ : ∃ last, parts.getLast? = some last ∧ last ≠ ".." := by
        by_contra none
        exact top fun last found => by_contra fun name => none ⟨last, found, name⟩
      rw [pushPart_parent_of_name found name]
      exact (List.dropLast_sublist parts).trans (List.sublist_append_left _ _)
  · rw [pushPart_name parts skipped parent]

theorem pushAll_sublist (isAbsolute : Bool) (pieces parts : List Text) :
    (pieces.foldl (pushPart isAbsolute) parts).Sublist (parts ++ pieces) := by
  induction pieces generalizing parts with
  | nil => exact List.sublist_append_left _ _
  | cons piece pieces ih =>
    refine (ih (pushPart isAbsolute parts piece)).trans ?_
    have := (pushPart_sublist isAbsolute parts piece).append_right pieces
    rwa [List.append_assoc, List.singleton_append] at this

/-! ### The text of a path -/

def pathText (isAbsolute : Bool) (parts : List Text) : Text :=
  if isAbsolute then "/" ++ Text.join "/" parts
  else if parts = [] then "." else Text.join "/" parts

def weight (parts : List Text) : Nat := (parts.map fun part => part.length + 1).sum

theorem weight_cons (part : Text) (parts : List Text) : weight (part :: parts) = part.length + 1 + weight parts := rfl

theorem length_join {parts : List Text} (some : parts ≠ []) : (Text.join "/" parts).length + 1 = weight parts := by
  induction parts with
  | nil => exact (some rfl).elim
  | cons part rest ih =>
    cases rest with
    | nil => rfl
    | cons next rest =>
      have later := ih (List.cons_ne_nil _ _)
      have slash : "/".toList.length = 1 := rfl
      rw [Text.join, List.length_append, List.length_append, slash, weight_cons]
      · omega
      · exact List.cons_ne_nil _ _

theorem weight_splitChar (sep : Char) (s : Text) : weight (Text.splitChar sep s) = s.length + 1 := by
  induction s with
  | nil => rfl
  | cons c s ih =>
    rw [Text.splitChar]
    split_ifs with here
    · rw [weight_cons, ih, List.length_nil, List.length_cons]
      omega
    · cases rest : Text.splitChar sep s with
      | nil =>
        rw [rest] at ih
        cases ih
      | cons piece pieces =>
        rw [rest, weight_cons] at ih
        rw [weight_cons, List.length_cons, List.length_cons]
        omega

theorem weight_le_of_sublist {front back : List Text} (sub : front.Sublist back) : weight front ≤ weight back := by
  induction sub with
  | slnil => exact le_refl _
  | cons part _ ih => exact ih.trans (Nat.le_add_left _ _)
  | cons_cons part _ ih => exact Nat.add_le_add_left ih _

/-! ### Normal paths -/

theorem mem_of_mem_splitChar {sep c : Char} {s piece : Text} (piece_mem : piece ∈ Text.splitChar sep s) (mem : c ∈ piece) :
    c ∈ s := by
  induction s generalizing piece with
  | nil =>
    rw [List.mem_singleton.mp piece_mem] at mem
    exact mem
  | cons d s ih =>
    rw [Text.splitChar] at piece_mem
    split_ifs at piece_mem with here
    · rcases List.mem_cons.mp piece_mem with rfl | later
      · exact (List.not_mem_nil mem).elim
      · exact List.mem_cons_of_mem _ (ih later mem)
    · cases rest : Text.splitChar sep s with
      | nil =>
        rw [rest] at piece_mem
        rw [List.mem_singleton.mp piece_mem] at mem
        exact List.mem_singleton.mp mem ▸ List.mem_cons_self
      | cons first others =>
        rw [rest] at piece_mem ih
        rcases List.mem_cons.mp piece_mem with rfl | later
        · rcases List.mem_cons.mp mem with rfl | inside
          · exact List.mem_cons_self
          · exact List.mem_cons_of_mem _ (ih List.mem_cons_self inside)
        · exact List.mem_cons_of_mem _ (ih (List.mem_cons_of_mem _ later) mem)

theorem normalizePathText_ok {raw path : Text} (read : normalizePathText raw = .ok path) :
    ∃ isAbsolute parts, NormalParts isAbsolute parts ∧ path = pathText isAbsolute parts ∧
      path.length ≤ (Text.trim raw).length ∧ ('#' ∈ path → '#' ∈ raw) := by
  unfold normalizePathText at read
  generalize same : (Text.trim raw).map (fun c => if c = '\\' then '/' else c) = normalized at read
  have noBackslash : '\\' ∉ normalized := by
    rw [← same]
    intro mem
    obtain ⟨c, -, eq⟩ := List.mem_map.mp mem
    split_ifs at eq with back
    · exact absurd eq (by decide)
    · exact back eq
  have length : normalized.length = (Text.trim raw).length := by rw [← same, List.length_map]
  have hash : '#' ∈ normalized → '#' ∈ raw := by
    rw [← same]
    intro mem
    obtain ⟨c, inside, eq⟩ := List.mem_map.mp mem
    split_ifs at eq
    · exact absurd eq (by decide)
    · exact eq ▸ (Text.trim_sublist raw).subset inside
  by_cases empty : normalized = []
  · rw [if_pos empty] at read
    cases read
  rw [if_neg empty] at read
  have positive := List.length_pos_iff.mpr empty
  have clean : ∀ piece ∈ Text.splitChar '/' normalized, '/' ∉ piece ∧ '\\' ∉ piece := fun piece mem =>
    ⟨Text.not_mem_of_mem_splitChar mem, fun inside => noBackslash (mem_of_mem_splitChar mem inside)⟩
  have normal : NormalParts (Text.startsWith "/".toList normalized)
      ((Text.splitChar '/' normalized).foldl (pushPart (Text.startsWith "/".toList normalized)) []) :=
    (NormalParts.nil _).pushAll clean
  have kept := pushAll_sublist (Text.startsWith "/".toList normalized) (Text.splitChar '/' normalized) []
  rw [List.nil_append] at kept
  have joined : ∀ parts : List Text, (∀ part ∈ parts, '#' ∈ part → '#' ∈ raw) → '#' ∈ Text.join "/".toList parts →
      '#' ∈ raw := fun parts hashes mem => by
    rcases Text.mem_join mem with between | ⟨part, inside, there⟩
    · exact absurd between (by decide)
    · exact hashes part inside there
  have hashes : ∀ part ∈ (Text.splitChar '/' normalized).foldl (pushPart (Text.startsWith "/".toList normalized)) [],
      '#' ∈ part → '#' ∈ raw := fun part mem inside => hash (mem_of_mem_splitChar (kept.subset mem) inside)
  have weights := weight_le_of_sublist kept
  rw [weight_splitChar] at weights
  cases absolute : Text.startsWith "/".toList normalized with
  | true =>
    rw [absolute] at normal hashes weights
    rw [absolute, if_pos rfl] at read
    obtain rfl := Except.ok.inj read
    -- The first piece of an absolute path is empty, and not kept.
    obtain ⟨rest, rfl⟩ : ∃ rest, normalized = '/' :: rest := by
      obtain ⟨rest, found⟩ := Option.isSome_iff_exists.mp absolute
      exact ⟨rest, Text.stripPrefix_eq_some.mp found⟩
    have first : Text.splitChar '/' ('/' :: rest) = [] :: Text.splitChar '/' rest := Text.splitChar_append List.not_mem_nil rest
    rw [first, List.foldl_cons, pushPart_skipped [] (.inl rfl)] at normal hashes
    rw [first, List.foldl_cons, pushPart_skipped [] (.inl rfl)]
    have kept := pushAll_sublist true (Text.splitChar '/' rest) []
    rw [List.nil_append] at kept
    have weights := weight_le_of_sublist kept
    rw [weight_splitChar] at weights
    generalize (Text.splitChar '/' rest).foldl (pushPart true) [] = parts at normal hashes weights
    refine ⟨true, parts, normal, rfl, ?_, fun mem => ?_⟩
    · rcases eq_or_ne parts [] with rfl | some
      · exact length ▸ positive
      · have := length_join some
        rw [← length, List.length_append, List.length_cons]
        have slash : "/".toList.length = 1 := rfl
        omega
    · rcases List.mem_append.mp mem with slash | inside
      · exact absurd slash (by decide)
      · exact joined parts hashes inside
  | false =>
    rw [absolute] at normal hashes weights
    rw [absolute, if_neg Bool.false_ne_true] at read
    obtain rfl := Except.ok.inj read
    generalize (Text.splitChar '/' normalized).foldl (pushPart false) [] = parts at normal hashes weights
    refine ⟨false, parts, normal, rfl, ?_, fun mem => ?_⟩
    · rcases eq_or_ne parts [] with rfl | some
      · exact length ▸ positive
      · have := length_join some
        rw [if_neg some]
        omega
    · rcases eq_or_ne parts [] with rfl | some
      · exact absurd mem (by decide)
      · rw [if_neg some] at mem
        exact joined parts hashes mem

theorem head_join {part : Text} (nonempty : part ≠ []) (rest : List Text) :
    (Text.join "/" (part :: rest)).head? = part.head? := by
  cases rest with
  | nil => rfl
  | cons next rest =>
    rw [Text.join, List.append_assoc, List.head?_append_of_ne_nil part nonempty]
    exact List.cons_ne_nil _ _

theorem startsWith_slash {s : Text} : Text.startsWith "/" s = true ↔ s.head? = some '/' := by
  unfold Text.startsWith
  rw [Option.isSome_iff_exists]
  constructor
  · rintro ⟨rest, found⟩
    rw [Text.stripPrefix_eq_some.mp found]
    rfl
  · intro head
    cases s with
    | nil => cases head
    | cons c rest =>
      obtain rfl := Option.some.inj head
      exact ⟨rest, Text.stripPrefix_eq_some.mpr rfl⟩

theorem NormalParts.head {parts : List Text} (normal : NormalParts isAbsolute parts) :
    (pathText isAbsolute parts).head? = some '/' ↔ isAbsolute = true := by
  cases isAbsolute with
  | true => exact iff_of_true rfl rfl
  | false =>
    refine iff_of_false (fun slash => ?_) Bool.false_ne_true
    cases parts with
    | nil => exact absurd slash (by decide)
    | cons part rest =>
      obtain ⟨nonempty, -, noSlash, -⟩ := normal.clean part List.mem_cons_self
      rw [pathText, if_neg Bool.false_ne_true, if_neg (List.cons_ne_nil _ _), head_join nonempty] at slash
      exact noSlash (List.mem_of_head? slash)

theorem NormalParts.pathText_ne_nil {parts : List Text} (normal : NormalParts isAbsolute parts) :
    pathText isAbsolute parts ≠ [] := by
  intro empty
  cases isAbsolute with
  | true => cases empty
  | false =>
    cases parts with
    | nil => cases empty
    | cons part rest =>
      have nonempty := (normal.clean part List.mem_cons_self).1
      rw [pathText, if_neg Bool.false_ne_true, if_neg (List.cons_ne_nil _ _)] at empty
      have head := head_join nonempty rest
      rw [empty] at head
      exact nonempty (List.head?_eq_none_iff.mp head.symm)

theorem NormalParts.not_mem {parts : List Text} (normal : NormalParts isAbsolute parts) :
    '\\' ∉ pathText isAbsolute parts := by
  have inside : '\\' ∉ Text.join "/".toList parts := fun mem => by
    rcases Text.mem_join mem with between | ⟨part, inside, there⟩
    · exact absurd between (by decide)
    · exact (normal.clean part inside).2.2.2 there
  unfold pathText
  split_ifs
  · exact fun mem => (List.mem_append.mp mem).elim (fun slash => absurd slash (by decide)) inside
  · decide
  · exact inside

theorem NormalParts.pushSplit {parts : List Text} (normal : NormalParts isAbsolute parts) :
    (Text.splitChar '/' (pathText isAbsolute parts)).foldl (pushPart isAbsolute) [] = parts := by
  have pieces (some : parts ≠ []) : Text.splitChar '/' (Text.join "/".toList parts) = parts :=
    Text.splitChar_join some fun part mem => (normal.clean part mem).2.2.1
  cases isAbsolute with
  | true =>
    have first : Text.splitChar '/' (pathText true parts) = [] :: Text.splitChar '/' (Text.join "/".toList parts) :=
      Text.splitChar_append List.not_mem_nil _
    rw [first, List.foldl_cons, pushPart_skipped [] (.inl rfl)]
    rcases eq_or_ne parts [] with rfl | some
    · rfl
    · rw [pieces some, normal.again]
  | false =>
    rcases eq_or_ne parts [] with rfl | some
    · rfl
    · rw [pathText, if_neg Bool.false_ne_true, if_neg some, pieces some, normal.again]

theorem normalizePathText_pathText {parts : List Text} (normal : NormalParts isAbsolute parts)
    (bare : Text.Bare (pathText isAbsolute parts)) :
    normalizePathText (pathText isAbsolute parts) = .ok (pathText isAbsolute parts) := by
  have kept : (pathText isAbsolute parts).map (fun c => if c = '\\' then '/' else c) = pathText isAbsolute parts := by
    refine (List.map_congr_left fun c mem => ?_).trans (List.map_id _)
    exact if_neg fun back : c = '\\' => normal.not_mem (back ▸ mem)
  have starts : Text.startsWith "/".toList (pathText isAbsolute parts) = isAbsolute := by
    rw [Bool.eq_iff_iff, ← normal.head, startsWith_slash]
  unfold normalizePathText
  rw [Text.trim_of_bare bare, kept]
  simp only [starts, normal.pushSplit, if_neg normal.pathText_ne_nil]
  unfold pathText
  split_ifs <;> rfl

theorem normalizePathText_again {raw path s : Text} (read : normalizePathText raw = .ok path) (sub : s.Sublist path) :
    normalizePathText s = .ok path ↔ s = path ∧ Text.Bare path := by
  obtain ⟨isAbsolute, parts, normal, rfl, -, -⟩ := normalizePathText_ok read
  constructor
  · intro again
    obtain ⟨-, -, -, -, short, -⟩ := normalizePathText_ok again
    have trimmed := Text.trim_sublist s
    have whole := sub.eq_of_length (le_antisymm sub.length_le (short.trans trimmed.length_le))
    have bare : Text.trim s = s := trimmed.eq_of_length (le_antisymm trimmed.length_le (whole ▸ short))
    exact ⟨whole, whole ▸ Text.trim_eq_self_iff.mp bare⟩
  · rintro ⟨rfl, bare⟩
    exact normalizePathText_pathText normal bare

/-! ### Selectors -/

/-- What a parsed selector is made of. -/
def Selector.WellRead : Selector → Prop
  | .dir path | .file path => ∃ raw, normalizePathText raw = .ok path
  | .symbol path name kind => (∃ raw, normalizePathText raw = .ok path ∧ '#' ∉ raw) ∧
      (Text.Bare name ∧ name ≠ []) ∧ Text.Bare kind ∧ kind ≠ [] ∧ ':' ∉ kind
  | .module qualified => Text.Bare qualified ∧ qualified ≠ []
  | .command name => Text.Bare name ∧ name ≠ []

theorem normalizeSelectorPath_ok {input path normal : Text} :
    normalizeSelectorPath input path = .ok normal ↔ normalizePathText path = .ok normal := by
  unfold normalizeSelectorPath
  cases normalizePathText path with
  | error reason => exact iff_of_false nofun nofun
  | ok text => exact ⟨fun eq => congrArg Except.ok (Except.ok.inj eq), fun eq => congrArg Except.ok (Except.ok.inj eq)⟩

theorem parseSymbol_ok {input remainder : Text} {s : Selector} (read : parseSymbol input remainder = .ok s) :
    s.WellRead := by
  unfold parseSymbol at read
  cases cut : Text.rsplitOnce ":" remainder with
  | none =>
    rw [cut] at read
    cases read
  | some parts =>
    obtain ⟨location, kind⟩ := parts
    obtain ⟨-, noColon⟩ := Text.rsplitOnce_eq_some cut
    rw [cut] at read
    dsimp only at read
    cases located : Text.splitOnce "#" location with
    | none =>
      rw [located] at read
      cases read
    | some pieces =>
      obtain ⟨raw, symbol⟩ := pieces
      obtain ⟨-, noHash⟩ := Text.splitOnce_eq_some located
      rw [located] at read
      obtain ⟨path, normalized, read⟩ := bind_eq_ok.mp read
      split_ifs at read with empty
      obtain rfl := Except.ok.inj read
      rw [not_or] at empty
      exact ⟨⟨raw, normalizeSelectorPath_ok.mp normalized, noHash⟩, ⟨Text.bare_trim _, empty.1⟩, Text.bare_trim _,
        empty.2, fun mem => noColon ((Text.trim_sublist kind).subset mem)⟩

theorem parse_ok {raw : Text} {s : Selector} (read : Selector.parse raw = .ok s) : s.WellRead := by
  unfold Selector.parse at read
  dsimp only at read
  split at read
  · obtain ⟨path, normalized, rfl⟩ := map_eq_ok.mp read
    exact ⟨_, normalizeSelectorPath_ok.mp normalized⟩
  split at read
  · obtain ⟨path, normalized, rfl⟩ := map_eq_ok.mp read
    exact ⟨_, normalizeSelectorPath_ok.mp normalized⟩
  split at read
  · exact parseSymbol_ok read
  split at read
  · split_ifs at read with empty
    obtain rfl := Except.ok.inj read
    exact ⟨Text.bare_trim _, empty⟩
  split at read
  · split_ifs at read with empty
    obtain rfl := Except.ok.inj read
    exact ⟨Text.bare_trim _, empty⟩
  · cases read

/-! ### Displays -/

theorem trim_display (front : Text) (named : front ≠ []) (bare : Text.trim front = front) (rest : Text) :
    Text.trim (front ++ rest) = front ++ Text.trimEnd rest :=
  Text.trim_append named (Text.trim_eq_self_iff.mp bare) rest

theorem parse_display_dir (path : Text) : Selector.parse (Selector.dir path).display =
    (normalizeSelectorPath (Selector.dir path).display (Text.trimEnd path)).map .dir := by
  have trimmed : Text.trim (Selector.dir path).display = "dir:" ++ Text.trimEnd path :=
    trim_display "dir:" (by decide) rfl path
  unfold Selector.parse
  simp only [trimmed, Text.stripPrefix_append]

theorem parse_display_file (path : Text) : Selector.parse (Selector.file path).display =
    (normalizeSelectorPath (Selector.file path).display (Text.trimEnd path)).map .file := by
  have trimmed : Text.trim (Selector.file path).display = "file:" ++ Text.trimEnd path :=
    trim_display "file:" (by decide) rfl path
  have other : Text.stripPrefix "dir:" ("file:" ++ Text.trimEnd path) = none := rfl
  unfold Selector.parse
  simp only [trimmed, other, Text.stripPrefix_append]

theorem parse_display_module {qualified : Text} (bare : Text.Bare qualified) (some : qualified ≠ []) :
    Selector.parse (Selector.module qualified).display = .ok (.module qualified) := by
  have last := Text.trimEnd_of_last bare.2
  have trimmed : Text.trim (Selector.module qualified).display = "module:" ++ Text.trimEnd qualified :=
    trim_display "module:" (by decide) rfl qualified
  rw [last] at trimmed
  have dir : Text.stripPrefix "dir:" ("module:" ++ qualified) = none := rfl
  have file : Text.stripPrefix "file:" ("module:" ++ qualified) = none := rfl
  have symbol : Text.stripPrefix "symbol:" ("module:" ++ qualified) = none := rfl
  unfold Selector.parse
  simp only [trimmed, dir, file, symbol, Text.stripPrefix_append, Text.trim_of_bare bare]
  exact if_neg some

theorem parse_display_command {name : Text} (bare : Text.Bare name) (some : name ≠ []) :
    Selector.parse (Selector.command name).display = .ok (.command name) := by
  have last := Text.trimEnd_of_last bare.2
  have trimmed : Text.trim (Selector.command name).display = "command:" ++ Text.trimEnd name :=
    trim_display "command:" (by decide) rfl name
  rw [last] at trimmed
  have dir : Text.stripPrefix "dir:" ("command:" ++ name) = none := rfl
  have file : Text.stripPrefix "file:" ("command:" ++ name) = none := rfl
  have symbol : Text.stripPrefix "symbol:" ("command:" ++ name) = none := rfl
  have module : Text.stripPrefix "module:" ("command:" ++ name) = none := rfl
  unfold Selector.parse
  simp only [trimmed, dir, file, symbol, module, Text.stripPrefix_append, Text.trim_of_bare bare]
  exact if_neg some

/-- The last colon of the display of a symbol is in front of its kind, and the first `#` behind its path. -/
theorem parse_display_symbol {path name kind : Text} (noHash : '#' ∉ path) (bareName : Text.Bare name) (named : name ≠ [])
    (bareKind : Text.Bare kind) (someKind : kind ≠ []) (noColon : ':' ∉ kind) :
    Selector.parse (Selector.symbol path name kind).display =
      (normalizeSelectorPath (Selector.symbol path name kind).display path).map fun path => .symbol path name kind := by
  have split : (Selector.symbol path name kind).display = "symbol:" ++ ((path ++ '#' :: name) ++ ':' :: kind) := by
    change "symbol:" ++ path ++ ['#'] ++ name ++ [':'] ++ kind = _
    simp only [List.append_assoc, List.cons_append, List.nil_append]
  have last : Text.trimEnd ((path ++ '#' :: name) ++ ':' :: kind) = (path ++ '#' :: name) ++ ':' :: kind := by
    refine Text.trimEnd_of_last fun c found => bareKind.2 c ?_
    rw [List.getLast?_append_of_ne_nil _ (List.cons_ne_nil _ _)] at found
    cases kind with
    | nil => exact (someKind rfl).elim
    | cons d kind => rwa [List.getLast?_cons_cons] at found
  have trimmed : Text.trim (Selector.symbol path name kind).display =
      "symbol:" ++ Text.trimEnd ((path ++ '#' :: name) ++ ':' :: kind) :=
    (congrArg Text.trim split).trans (trim_display "symbol:" (by decide) rfl _)
  rw [last] at trimmed
  have dir : Text.stripPrefix "dir:" ("symbol:" ++ ((path ++ '#' :: name) ++ ':' :: kind)) = none := rfl
  have file : Text.stripPrefix "file:" ("symbol:" ++ ((path ++ '#' :: name) ++ ':' :: kind)) = none := rfl
  have cut : Text.rsplitOnce ":" ((path ++ '#' :: name) ++ ':' :: kind) = some (path ++ '#' :: name, kind) :=
    Text.rsplitOnce_of_not_mem noColon _
  have located : Text.splitOnce "#" (path ++ '#' :: name) = some (path, name) := Text.splitOnce_of_not_mem noHash _
  unfold Selector.parse
  simp only [trimmed, dir, file, Text.stripPrefix_append]
  unfold parseSymbol
  simp only [cut, located, Text.trim_of_bare bareName, Text.trim_of_bare bareKind]
  cases normalizeSelectorPath (Selector.symbol path name kind).display path with
  | error e => rfl
  | ok text => exact if_neg (not_or.mpr ⟨named, someKind⟩)

/-- A selector that was read is read again from its display exactly if its anchor path does not begin or end with
white space. -/
theorem parse_display_iff {raw : Text} {s : Selector} (read : Selector.parse raw = .ok s) :
    Selector.parse s.display = .ok s ↔ Text.Bare s.path := by
  have wellRead := parse_ok read
  cases s with
  | dir path =>
    obtain ⟨raw, read⟩ := wellRead
    have again := normalizePathText_again read (Text.trimEnd_sublist path)
    rw [parse_display_dir]
    constructor
    · intro same
      obtain ⟨_, normalized, eq⟩ := map_eq_ok.mp same
      cases eq
      exact (again.mp (normalizeSelectorPath_ok.mp normalized)).2
    · intro bare
      rw [normalizeSelectorPath_ok.mpr (again.mpr ⟨Text.trimEnd_of_last bare.2, bare⟩)]
      rfl
  | file path =>
    obtain ⟨raw, read⟩ := wellRead
    have again := normalizePathText_again read (Text.trimEnd_sublist path)
    rw [parse_display_file]
    constructor
    · intro same
      obtain ⟨_, normalized, eq⟩ := map_eq_ok.mp same
      cases eq
      exact (again.mp (normalizeSelectorPath_ok.mp normalized)).2
    · intro bare
      rw [normalizeSelectorPath_ok.mpr (again.mpr ⟨Text.trimEnd_of_last bare.2, bare⟩)]
      rfl
  | symbol path name kind =>
    obtain ⟨⟨raw, read, noHash⟩, ⟨bareName, named⟩, bareKind, someKind, noColon⟩ := wellRead
    have again := normalizePathText_again read (List.Sublist.refl path)
    obtain ⟨-, -, -, -, -, hash⟩ := normalizePathText_ok read
    rw [parse_display_symbol (fun mem => noHash (hash mem)) bareName named bareKind someKind noColon]
    constructor
    · intro same
      obtain ⟨_, normalized, eq⟩ := map_eq_ok.mp same
      obtain ⟨rfl, -, -⟩ := Selector.symbol.inj eq
      exact (again.mp (normalizeSelectorPath_ok.mp normalized)).2
    · intro bare
      rw [normalizeSelectorPath_ok.mpr (again.mpr ⟨rfl, bare⟩)]
      rfl
  | module qualified =>
    exact iff_of_true (parse_display_module wellRead.1 wellRead.2) (Text.trim_eq_self_iff.mp rfl)
  | command name =>
    exact iff_of_true (parse_display_command wellRead.1 wellRead.2) (Text.trim_eq_self_iff.mp rfl)

theorem parse_display_iff_src : Selector.parse "dir:src" = .ok (.dir "src") ∧
    (Selector.parse (Selector.dir "src").display = .ok (.dir "src") ↔ Text.Bare "src") :=
  have read : Selector.parse " dir:./src/" = .ok (.dir "src") := by decide +kernel
  ⟨by decide +kernel, parse_display_iff read⟩

/-- The blank in front of a file name shows when `./` is gone, and is not read. -/
theorem display_loses_blank : Selector.parse "file:./ a.rs" = .ok (.file " a.rs") ∧
    Selector.parse (Selector.file " a.rs").display = .ok (.file "a.rs") ∧
    Selector.parse (Selector.file " a.rs").display ≠ .ok (.file " a.rs") := by
  have again : Selector.parse (Selector.file " a.rs").display = .ok (.file "a.rs") := by decide +kernel
  refine ⟨by decide +kernel, again, fun same => ?_⟩
  exact absurd (Selector.file.inj (Except.ok.inj (again.symm.trans same))) (by decide)

end OrbitGraph.Changes
