import OrbitGraph.Extract.Rust.UseTrees

/-!
The import rows of a use declaration against its leaves.

Each leaf should have one row. It has, whatever the tree is, unless a path on the way has a
comment in it, a glob has no path, two leaves are the same item under the same name, or more
than one blank is between `pub` and `use`.
-/

namespace OrbitGraph.Extract.Rust

open Lib
open Sync (RawImport RawRef colons)

/-! ### What the rows should be -/

/-- The path of a row: that of what it is in, and its own name, if it has one. -/
def joined (row : RawImport) : Text :=
  match row.sourceSymbol with
  | some (c :: symbol) => row.targetPath ++ (colons ++ c :: symbol)
  | _ => row.targetPath

structure Describes (scope : ModuleScope) (visibility : Visibility) (leaf : Leaf) (row : RawImport) : Prop where
  path : joined row = Text.join colons leaf.target
  name : row.targetSymbol = leaf.bound
  /-- It is a re-export of the module around just if the declaration is public. -/
  marked : row.reexportModule = if visibility.isPublic then some (Text.join colons scope.segments) else none

/-- Rows and leaves correspond to one another, and every reference names a path as it is written. -/
structure Flattens (scope : ModuleScope) (declaration : UseDeclaration) (state : ExtractionState) : Prop where
  rows : ∃ rows, rows.Perm (dedupImports state.imports) ∧
    List.Forall₂ (Describes scope declaration.visibility) declaration.leaves rows
  targets : state.refs.map RawRef.targetQualified = (declaration.leaves.filterMap Leaf.reference).map some

/-- Whether the path names all of what is imported: it has one name, or ends in `self`. -/
def Whole (path : List Text) : Prop := path.length = 1 ∨ path.getLast? = some "self".toList

instance (path : List Text) : Decidable (Whole path) := inferInstanceAs (Decidable (_ ∨ _))

/-- Two leaves import the same under the same name. -/
structure Leaf.Alike (left right : Leaf) : Prop where
  bound : left.bound = right.bound
  target : left.target = right.target
  whole : Whole left.path ↔ Whole right.path

/-- The declarations that are flattened exactly. -/
structure UseDeclaration.Regular (declaration : UseDeclaration) : Prop where
  spaced : declaration.leaves ≠ [] → ∀ gap, declaration.visibility = .plain gap → gap.text = [' ']
  plain : ∀ leaf ∈ declaration.leaves, leaf.Plain
  /-- A glob is behind a path. -/
  named : ∀ leaf ∈ declaration.leaves, leaf.paths ≠ []
  apart : declaration.leaves.Pairwise fun left right => ¬ left.Alike right

/-! ### Splitting a path at its last name -/

/-- The ways a path can end. -/
inductive Ending : List Text → Prop where
  | single (name : Text) : Ending [name]
  | grouped {path : List Text} : path ≠ [] → Ending (path ++ ["self".toList])
  | named {path : List Text} {name : Text} : path ≠ [] → name ≠ "self" → Ending (path ++ [name])

theorem Ending.of_ne_nil {path : List Text} (nonempty : path ≠ []) : Ending path := by
  rw [← List.dropLast_append_getLast nonempty]
  by_cases only : path.dropLast = []
  · rw [only]
    exact .single _
  · by_cases last : path.getLast nonempty = "self"
    · rw [last]
      exact .grouped only
    · exact .named only last

section Endings

variable {path : List Text} {name : Text}

theorem length_concat (nonempty : path ≠ []) (name : Text) : 1 < (path ++ [name]).length := by
  have := List.length_pos_of_ne_nil nonempty
  rw [List.length_append, List.length_singleton]
  omega

theorem importTargetPath_concat (nonempty : path ≠ []) (name : Text) :
    importTargetPath (path ++ [name]) = Text.join colons path := by
  rw [importTargetPath, if_neg (Nat.not_le.mpr (length_concat nonempty name)), List.dropLast_concat]

theorem importName_grouped (nonempty : path ≠ []) : importName (path ++ ["self".toList]) = path.getLast?.getD [] := by
  rw [importName, List.getLast?_concat]
  exact (if_pos ⟨rfl, length_concat nonempty _⟩).trans (by rw [List.dropLast_concat])

theorem importName_named (other : name ≠ "self") : importName (path ++ [name]) = name := by
  rw [importName, List.getLast?_concat]
  exact if_neg fun both => other both.1

theorem withoutSelf_grouped (nonempty : path ≠ []) : withoutSelf (path ++ ["self".toList]) = path := by
  rw [withoutSelf, if_pos ⟨length_concat nonempty _, List.getLast?_concat⟩, List.dropLast_concat]

theorem withoutSelf_named (other : name ≠ "self") : withoutSelf (path ++ [name]) = path ++ [name] := by
  rw [withoutSelf, if_neg fun both => other (Option.some.inj (List.getLast?_concat.symm.trans both.2))]

theorem whole_grouped : Whole (path ++ ["self".toList]) := .inr List.getLast?_concat

theorem not_whole_named (nonempty : path ≠ []) (other : name ≠ "self") : ¬ Whole (path ++ [name]) := by
  rintro (single | last)
  · exact absurd single (length_concat nonempty name).ne'
  · exact other (Option.some.inj (List.getLast?_concat.symm.trans last))

theorem importName_eq (nonempty : path ≠ []) : importName path = (withoutSelf path).getLast?.getD [] := by
  cases Ending.of_ne_nil nonempty with
  | single name => simp [importName, withoutSelf]
  | grouped some => rw [importName_grouped some, withoutSelf_grouped some]
  | named some other => rw [importName_named other, withoutSelf_named other, List.getLast?_concat, Option.getD_some]

end Endings

/-! ### The row of a leaf -/

/-- A row for what a path names: of a glob, of what is imported whole, and of a member of something. -/
inductive RowOf (publicModule : Option Text) : LeafForm → List Text → RawImport → Prop where
  | glob {gap : Gap} {path : List Text} : RowOf publicModule (.glob gap) path ⟨Text.join colons path, none, none, publicModule⟩
  | whole {form : LeafForm} {path : List Text} {name : Text} : form.bound (form.target path) = some name → Whole path →
      RowOf publicModule form path ⟨Text.join colons (form.target path), some name, some [], publicModule⟩
  | member {form : LeafForm} {path init : List Text} {name last : Text} : form.bound (form.target path) = some name →
      ¬ Whole path → init ≠ [] → form.target path = init ++ [last] →
      RowOf publicModule form path ⟨Text.join colons init, some name, some last, publicModule⟩

section Row

variable {publicModule : Option Text} {leaf : Leaf} {row : RawImport}

variable {path : List Text} {form : LeafForm}

theorem RowOf.of_path {name : Text} (target : form.target path = withoutSelf path)
    (bound : form.bound (form.target path) = some name) (nonempty : path ≠ []) :
    RowOf publicModule form path ⟨importTargetPath path, some name,
      some (if path.length = 1 ∨ path.getLast? = some "self".toList then [] else importName path), publicModule⟩ := by
  cases Ending.of_ne_nil nonempty with
  | single only =>
    have alone : form.target [only] = [only] := target.trans (if_neg fun both => Nat.lt_irrefl 1 both.1)
    have row : RowOf publicModule form _ _ := .whole bound (.inl rfl)
    rwa [alone] at row
  | @grouped init some =>
    have row : RowOf publicModule form _ _ := .whole bound whole_grouped
    rw [target, withoutSelf_grouped some] at row
    have whole : (init ++ ["self".toList]).length = 1 ∨ (init ++ ["self".toList]).getLast? = Option.some "self".toList :=
      whole_grouped
    rwa [importTargetPath_concat some, if_pos whole]
  | @named init last some other =>
    have member : ¬ ((init ++ [last]).length = 1 ∨ (init ++ [last]).getLast? = Option.some "self".toList) :=
      not_whole_named some other
    rw [importTargetPath_concat some, if_neg member, importName_named other]
    exact .member bound member some (target.trans (withoutSelf_named other))

theorem read_ne_nil (found : leaf.row publicModule = some row) : leaf.read ≠ [] := by
  intro none
  rw [Leaf.row, none] at found
  cases found

theorem rowOf (found : leaf.row publicModule = some row) : RowOf publicModule leaf.form leaf.read row := by
  have nonempty := read_ne_nil found
  rw [Leaf.row, joinSegments_of_ne_nil nonempty] at found
  rw [← Option.some.inj found]
  obtain ⟨paths, form⟩ := leaf
  cases form with
  | name => exact .of_path rfl (congrArg some (importName_eq nonempty).symm) nonempty
  | rename newName => exact .of_path rfl rfl nonempty
  | glob gap => exact .glob

theorem segment_of_mem_path {segment : Text} (mem : segment ∈ leaf.path) : Segment segment ∧ '/' ∉ segment := by
  obtain ⟨path, _, inside⟩ := List.mem_flatMap.mp mem
  exact ⟨WrittenPath.segment_of_mem inside, WrittenPath.no_slash_of_mem inside⟩

theorem withoutSelf_subset (path : List Text) : withoutSelf path ⊆ path := by
  rw [withoutSelf]
  split_ifs
  · exact List.dropLast_subset _
  · exact List.Subset.refl _

theorem target_subset (form : LeafForm) (path : List Text) : form.target path ⊆ path := by
  cases form with
  | glob gap => exact List.Subset.refl _
  | _ => exact withoutSelf_subset path

theorem segment_of_mem_target {segment : Text} (mem : segment ∈ leaf.target) : Segment segment ∧ '/' ∉ segment :=
  segment_of_mem_path (target_subset _ _ mem)

theorem joined_of_ne_nil {path symbol : Text} {name marked : Option Text} (nonempty : symbol ≠ []) :
    joined ⟨path, name, some symbol, marked⟩ = path ++ (colons ++ symbol) := by
  cases symbol with
  | nil => exact (nonempty rfl).elim
  | cons c rest => rfl

theorem RowOf.joined (rowOf : RowOf publicModule form path row)
    (nonempty : ∀ segment ∈ path, segment ≠ []) : joined row = Text.join colons (form.target path) := by
  cases rowOf with
  | glob => rfl
  | whole _ _ => rfl
  | @member _ _ init name last bound member some split =>
    have inside : last ∈ path := target_subset form path (split ▸ List.mem_append_right _ (List.mem_singleton_self _))
    rw [joined_of_ne_nil (nonempty last inside), split, join_concat some]

theorem RowOf.symbol (rowOf : RowOf publicModule form path row) :
    row.targetSymbol = form.bound (form.target path) := by
  cases rowOf with
  | glob => rfl
  | whole bound _ | member bound _ _ _ => exact bound.symm

theorem RowOf.marked (rowOf : RowOf publicModule form path row) : row.reexportModule = publicModule := by
  cases rowOf <;> rfl

theorem RowOf.source (rowOf : RowOf publicModule form path row)
    (nonempty : ∀ segment ∈ path, segment ≠ []) (bound : row.targetSymbol ≠ none) :
    row.sourceSymbol = some [] ↔ Whole path := by
  cases rowOf with
  | glob => exact (bound rfl).elim
  | whole _ whole => exact ⟨fun _ => whole, fun _ => rfl⟩
  | @member _ _ init name last _ member _ split =>
    have inside : last ∈ path := target_subset form path (split ▸ List.mem_append_right _ (List.mem_singleton_self _))
    exact ⟨fun empty => (nonempty last inside (Option.some.inj empty)).elim, fun whole => (member whole).elim⟩

theorem RowOf.path_of_unbound (rowOf : RowOf publicModule form path row)
    (unbound : row.targetSymbol = none) : form.target path = path := by
  cases rowOf with
  | glob => rfl
  | whole _ _ | member _ _ _ _ => cases unbound

variable {row' : RawImport}

/-- The row is known from what is bound to what, and whether it is imported whole. -/
theorem RowOf.unique {form form' : LeafForm} {path path' : List Text}
    (first : RowOf publicModule form path row) (second : RowOf publicModule form' path' row')
    (bound : form.bound (form.target path) = form'.bound (form'.target path')) (target : form.target path = form'.target path')
    (whole : Whole path ↔ Whole path') : row = row' := by
  cases first with
  | glob =>
    cases second with
    | glob => rw [show path = path' from target]
    | whole bound' _ | member bound' _ _ _ => cases bound.trans bound'
  | whole named isWhole =>
    cases second with
    | glob => cases named.symm.trans bound
    | whole named' _ => rw [target, Option.mem_unique named (bound.trans named')]
    | member _ member _ _ => exact (member (whole.mp isWhole)).elim
  | member named member _ split =>
    cases second with
    | glob => cases named.symm.trans bound
    | whole _ isWhole => exact (member (whole.mpr isWhole)).elim
    | member named' _ _ split' =>
      obtain ⟨rfl, last⟩ := List.append_inj' (split.symm.trans (target.trans split')) rfl
      rw [List.singleton_inj.mp last, Option.mem_unique named (bound.trans named')]

theorem row_eq_iff {left right : Leaf} (rowLeft : RowOf publicModule left.form left.path row)
    (rowRight : RowOf publicModule right.form right.path row') : row = row' ↔ left.Alike right := by
  have nonempty : ∀ leaf : Leaf, ∀ segment ∈ leaf.path, segment ≠ [] := fun _ _ mem => (segment_of_mem_path mem).1.nonempty
  constructor
  · rintro rfl
    have target : left.target = right.target := join_injective (fun _ mem => (segment_of_mem_target mem).1)
      (fun _ mem => (segment_of_mem_target mem).1)
      ((rowLeft.joined (nonempty left)).symm.trans (rowRight.joined (nonempty right)))
    refine ⟨rowLeft.symbol.symm.trans rowRight.symbol, target, ?_⟩
    by_cases bound : row.targetSymbol = none
    · have paths : left.path = right.path :=
        (rowLeft.path_of_unbound bound).symm.trans (target.trans (rowRight.path_of_unbound bound))
      rw [paths]
    · exact (rowLeft.source (nonempty left) bound).symm.trans (rowRight.source (nonempty right) bound)
  · intro alike
    exact rowLeft.unique rowRight alike.bound alike.target alike.whole

/-- What is read with a comment has a `/` in what is imported. -/
theorem exists_slash (noted : ¬ leaf.Plain) : ∃ segment ∈ leaf.form.target leaf.read, '/' ∈ segment := by
  have kept : ∀ segment ∈ leaf.read, '/' ∈ segment → segment ∈ leaf.form.target leaf.read := by
    intro segment mem slash
    have other : segment ≠ "self" := by
      rintro rfl
      revert slash
      decide
    have within : segment ∈ withoutSelf leaf.read := by
      rw [withoutSelf]
      split_ifs with both
      · have nonempty : leaf.read ≠ [] := List.ne_nil_of_mem mem
        rw [← List.dropLast_append_getLast nonempty, List.mem_append] at mem
        refine mem.resolve_right fun last => other ?_
        rw [List.mem_singleton.mp last]
        exact Option.mem_unique (List.getLast?_eq_some_getLast nonempty) both.2
      · exact mem
    cases leaf.form with
    | glob gap => exact mem
    | _ => exact within
  have read : ∃ segment ∈ leaf.read, '/' ∈ segment := by
    rw [Leaf.Plain, not_and_or] at noted
    rcases noted with inPath | inGap
    · push Not at inPath
      obtain ⟨path, mem, noted⟩ := inPath
      obtain ⟨segment, read, slash⟩ := exists_segment_of_mem (path.slash_of_not_plain noted) (by decide) (by decide)
      exact ⟨segment, List.mem_append_left _ (List.mem_flatMap.mpr ⟨path, mem, read⟩), slash⟩
    · obtain ⟨paths, form⟩ := leaf
      cases form with
      | name | rename newName => exact (inGap trivial).elim
      | glob gap =>
        obtain ⟨comment, mem⟩ := List.exists_mem_of_ne_nil _ fun none => inGap (Gap.comments_eq_nil_iff.mp none)
        obtain ⟨trivium, isComment, rfl⟩ := List.mem_map.mp mem
        have slash : '/' ∈ trivium.text := by
          cases trivium with
          | blank c white => cases (List.mem_filter.mp isComment).2
          | comment rest => exact List.mem_cons_self
        obtain ⟨segment, read, slash⟩ := exists_segment_of_mem slash (by decide) (by decide)
        exact ⟨segment, List.mem_append_right _ (List.mem_flatMap.mpr ⟨_, mem, read⟩), slash⟩
  obtain ⟨segment, mem, slash⟩ := read
  exact ⟨segment, kept segment mem slash, slash⟩

theorem ne_nil_of_mem_read {segment : Text} (mem : segment ∈ leaf.read) : segment ≠ [] := by
  have filtered : ∀ text : Text, segment ∈ Sync.pathSegments text → segment ≠ [] := fun text mem => by
    simpa using (List.mem_filter.mp mem).2
  rcases List.mem_append.mp mem with inPath | inGap
  · obtain ⟨path, _, read⟩ := List.mem_flatMap.mp inPath
    exact filtered _ read
  · obtain ⟨paths, form⟩ := leaf
    cases form with
    | name => cases inGap
    | rename newName => cases inGap
    | glob gap =>
      obtain ⟨comment, _, read⟩ := List.mem_flatMap.mp inGap
      exact filtered _ read

theorem exists_row (publicModule : Option Text) (nonempty : leaf.read ≠ []) : ∃ row, leaf.row publicModule = some row := by
  rw [Leaf.row, joinSegments_of_ne_nil nonempty]
  exact ⟨_, rfl⟩

theorem path_ne_nil (paths : leaf.paths ≠ []) : leaf.path ≠ [] := by
  obtain ⟨path, mem⟩ := List.exists_mem_of_ne_nil _ paths
  exact List.ne_nil_of_mem (List.mem_flatMap.mpr ⟨path, mem, List.mem_cons_self⟩)

end Row

/-! ### Whether a declaration is public -/

theorem gap_eq_blank {gap : Gap} {first : Char} {text rest : Text} (apart : first ≠ ' ')
    (same : gap.text ++ first :: text = ' ' :: 'u' :: rest) : gap.text = [' '] ∧ first = 'u' := by
  cases gap with
  | nil => exact (apart (List.cons.inj same).1).elim
  | cons trivium gap =>
    cases trivium with
    | comment comment => cases (List.cons.inj same).1
    | blank c white =>
      have same' : c :: (Gap.text gap ++ first :: text) = ' ' :: 'u' :: rest := same
      obtain ⟨rfl, behind⟩ := List.cons.inj same'
      cases gap with
      | nil => exact ⟨rfl, (List.cons.inj behind).1⟩
      | cons next gap =>
        cases next with
        | comment comment => cases (List.cons.inj behind).1
        | blank d white' =>
          have blank : Text.isWhitespace 'u' = true := (List.cons.inj behind).1 ▸ white'
          exact absurd blank (by decide)

/-- What the extractor takes for public: one blank is behind the `pub`. -/
def Visibility.taken : Visibility → Bool
  | .plain gap => gap.text = [' ']
  | _ => false

theorem startsWith_pub (visibility : Visibility) (rest : Text) :
    Text.startsWith "pub use" (Text.trimStart (visibility.text ++ rest)) = visibility.taken := by
  have untrimmed : Text.trimStart (visibility.text ++ rest) = visibility.text ++ rest := by
    refine Text.trimStart_of_head fun c found => ?_
    cases visibility <;> (cases found; decide)
  have front : ∀ behind : Text, "pub use" ++ behind = "pub" ++ (' ' :: 'u' :: ("se" ++ behind)) := fun _ => rfl
  rw [untrimmed, Bool.eq_iff_iff, Text.startsWith_iff]
  constructor
  · rintro ⟨behind, same⟩
    cases visibility with
    | inherited | crate => cases (List.cons.inj same).1
    | plain gap =>
      have shape : Visibility.text (.plain gap) ++ rest = "pub" ++ (gap.text ++ 'u' :: ("se" ++ rest)) := by
        rw [Visibility.text, List.append_assoc, List.append_assoc]
        rfl
      exact decide_eq_true
        (gap_eq_blank (by decide) (List.append_cancel_left (shape.symm.trans (same.trans (front behind))))).1
    | restricted gap =>
      have shape : Visibility.text (.restricted gap) ++ rest = "pub" ++ (gap.text ++ '(' :: rest) := by
        rw [Visibility.text, List.append_assoc, List.append_assoc]
        rfl
      exact absurd (gap_eq_blank (by decide) (List.append_cancel_left (shape.symm.trans (same.trans (front behind))))).2 (by decide)
  · intro taken
    cases visibility with
    | plain gap =>
      have blank : gap.text = [' '] := of_decide_eq_true taken
      exact ⟨rest, by rw [Visibility.text, blank]; rfl⟩
    | _ => cases taken

section Declaration

variable {source : Text} {node : Node} {declaration : UseDeclaration} {scope : ModuleScope}

/-- The module whose re-export the rows are, as the extractor sees it. -/
def publicModule (scope : ModuleScope) (visibility : Visibility) : Option Text :=
  if visibility.taken then some (Text.join colons scope.segments) else none

theorem extractUse_eq (parsed : declaration.Parsed source node) (scope : ModuleScope) :
    Collects (publicModule scope declaration.visibility) declaration.leaves (extractUse source scope node) := by
  obtain ⟨⟨rest, text⟩, argument, found, parsed⟩ := parsed
  refine .congr (fun state => ?_) (collects_tree declaration.tree [] parsed)
  rw [extractUse, found, text, startsWith_pub]
  rfl

theorem describes_of_regular (regular : declaration.Regular) {leaf : Leaf} (mem : leaf ∈ declaration.leaves) :
    ∃ row, leaf.row (publicModule scope declaration.visibility) = some row ∧
      Describes scope declaration.visibility leaf row := by
  have reads := Leaf.read_of_plain (regular.plain leaf mem)
  have nonempty : leaf.read ≠ [] := reads ▸ path_ne_nil (regular.named leaf mem)
  obtain ⟨row, found⟩ := exists_row (publicModule scope declaration.visibility) nonempty
  have rowOf := rowOf found
  have target : leaf.form.target leaf.read = leaf.target := by rw [reads]; rfl
  refine ⟨row, found, ?_, ?_, ?_⟩
  · rw [rowOf.joined fun _ => ne_nil_of_mem_read, target]
  · rw [rowOf.symbol, target]
    rfl
  · rw [rowOf.marked, publicModule]
    have taken : declaration.visibility.taken = declaration.visibility.isPublic := by
      cases visibility : declaration.visibility with
      | plain gap => exact decide_eq_true (regular.spaced (List.ne_nil_of_mem mem) gap visibility)
      | _ => rfl
    rw [taken]

theorem forall₂_filterMap {α β : Type} {R : α → β → Prop} {f : α → Option β} {xs : List α}
    (all : ∀ x ∈ xs, ∃ y, f x = some y ∧ R x y) : List.Forall₂ R xs (xs.filterMap f) := by
  induction xs with
  | nil => exact .nil
  | cons x xs ih =>
    obtain ⟨y, found, related⟩ := all x List.mem_cons_self
    rw [List.filterMap_cons_some found]
    exact .cons related (ih fun x mem => all x (List.mem_cons_of_mem _ mem))

theorem nodup_of_regular (regular : declaration.Regular) (publicModule : Option Text) :
    (declaration.leaves.filterMap fun leaf => leaf.row publicModule).Nodup := by
  refine List.pairwise_filterMap.mpr (regular.apart.imp_of_mem fun {left right} memLeft memRight apart row found row' found' same => ?_)
  have rowLeft := rowOf found
  have rowRight := rowOf found'
  rw [Leaf.read_of_plain (regular.plain _ memLeft)] at rowLeft
  rw [Leaf.read_of_plain (regular.plain _ memRight)] at rowRight
  exact apart ((row_eq_iff rowLeft rowRight).mp same)

theorem flattens_of_regular (parsed : declaration.Parsed source node) (regular : declaration.Regular) (scope : ModuleScope) :
    Flattens scope declaration (extractUse source scope node ⟨[], []⟩) := by
  obtain ⟨refs, same, targets⟩ := extractUse_eq parsed scope ⟨[], []⟩
  rw [same]
  refine ⟨⟨_, ?_, forall₂_filterMap fun leaf => describes_of_regular regular⟩, targets regular.plain⟩
  have nodup := nodup_of_regular regular (publicModule scope declaration.visibility)
  have perm := dedupImports_perm (declaration.leaves.filterMap fun leaf => leaf.row (publicModule scope declaration.visibility))
  rw [nodup.dedup] at perm
  exact perm.symm

theorem regular_of_flattens (parsed : declaration.Parsed source node)
    (flattens : Flattens scope declaration (extractUse source scope node ⟨[], []⟩)) : declaration.Regular := by
  obtain ⟨refs, same, -⟩ := extractUse_eq parsed scope ⟨[], []⟩
  rw [same] at flattens
  obtain ⟨⟨rows, perm, describes⟩, -⟩ := flattens
  rw [List.nil_append] at perm
  have perm := perm.trans (dedupImports_perm _)
  have mem_rows : ∀ {row}, row ∈ rows ↔ ∃ leaf ∈ declaration.leaves, leaf.row (publicModule scope declaration.visibility) = some row := by
    intro row
    rw [perm.mem_iff, List.mem_dedup, List.mem_filterMap]
  -- a comment would be in a row, and is in what no leaf imports
  have plain : ∀ leaf ∈ declaration.leaves, leaf.Plain := by
    intro leaf mem
    by_contra noted
    obtain ⟨segment, inside, slash⟩ := exists_slash noted
    obtain ⟨row, found⟩ := exists_row (publicModule scope declaration.visibility)
      (List.ne_nil_of_mem (target_subset _ _ inside))
    obtain ⟨other, _, row_other⟩ := exists_of_forall₂ describes (mem_rows.mpr ⟨leaf, mem, found⟩)
    have there : '/' ∈ Text.join colons other.target :=
      row_other.path ▸ ((rowOf found).joined fun _ => ne_nil_of_mem_read) ▸ Text.mem_join_of_mem inside slash
    rcases Text.mem_join there with colon | ⟨name, inside, slash⟩
    · revert colon
      decide
    · exact (segment_of_mem_target inside).2 slash
  -- no row is lost and none is merged, since there are as many rows as leaves
  have length : (declaration.leaves.filterMap fun leaf => leaf.row (publicModule scope declaration.visibility)).dedup.length =
      declaration.leaves.length := by rw [← perm.length_eq, ← describes.length_eq]
  have shorter := (List.dedup_sublist
    (declaration.leaves.filterMap fun leaf => leaf.row (publicModule scope declaration.visibility))).length_le
  have atMost := List.length_filterMap_le (fun leaf : Leaf => leaf.row (publicModule scope declaration.visibility)) declaration.leaves
  have every := List.filterMap_length_eq_length.mp (Nat.le_antisymm atMost (length ▸ shorter))
  have nodup : (declaration.leaves.filterMap fun leaf => leaf.row (publicModule scope declaration.visibility)).Nodup := by
    rw [← (List.dedup_sublist _).eq_of_length_le (atMost.trans length.ge)]
    exact List.nodup_dedup _
  refine ⟨?_, plain, ?_, ?_⟩
  · intro some gap visibility
    obtain ⟨leaf, mem⟩ := List.exists_mem_of_ne_nil _ some
    obtain ⟨row, found⟩ := Option.isSome_iff_exists.mp (every leaf mem)
    obtain ⟨_, _, other⟩ := exists_of_forall₂ describes (mem_rows.mpr ⟨leaf, mem, found⟩)
    have marked := other.marked.symm.trans (rowOf found).marked
    rw [publicModule, visibility] at marked
    by_contra more
    have untaken : Visibility.taken (.plain gap) = false := decide_eq_false more
    rw [untaken] at marked
    cases marked
  · rintro leaf mem none
    obtain ⟨row, found⟩ := Option.isSome_iff_exists.mp (every leaf mem)
    refine read_ne_nil found ?_
    rw [Leaf.read_of_plain (plain leaf mem), Leaf.path, none]
    rfl
  · refine (List.pairwise_filterMap.mp nodup).imp_of_mem fun {left right} memLeft memRight apart alike => ?_
    obtain ⟨row, found⟩ := Option.isSome_iff_exists.mp (every left memLeft)
    obtain ⟨row', found'⟩ := Option.isSome_iff_exists.mp (every right memRight)
    have rowLeft := rowOf found
    have rowRight := rowOf found'
    rw [Leaf.read_of_plain (plain left memLeft)] at rowLeft
    rw [Leaf.read_of_plain (plain right memRight)] at rowRight
    exact apart row found row' found' ((row_eq_iff rowLeft rowRight).mpr alike)

/-- A declaration is flattened exactly if and only if it is regular. -/
theorem flattens_iff_regular (parsed : declaration.Parsed source node) (scope : ModuleScope) :
    Flattens scope declaration (extractUse source scope node ⟨[], []⟩) ↔ declaration.Regular :=
  ⟨regular_of_flattens parsed, fun regular => flattens_of_regular parsed regular scope⟩

end Declaration

namespace Sample

def name (letter : Char) (clean : Text.isWhitespace letter = false ∧ letter ≠ ':' ∧ letter ≠ '/' ∧ letter ≠ '*') : Name :=
  ⟨[letter], List.cons_ne_nil _ _, fun _ mem => List.mem_singleton.mp mem ▸ clean⟩

def selfName : Name := ⟨"self", by decide, List.forall_iff_forall_mem.mp (by decide)⟩

def a : Name := name 'a' (by decide)

def b : Name := name 'b' (by decide)

def c : Name := name 'c' (by decide)

def node (kind : String) (startByte endByte : Nat) (field : Option String) (children : List Node) : Node :=
  .node ⟨kind.toList, startByte, endByte, true, field.map String.toList⟩ children

def grouped : UseDeclaration :=
  ⟨.plain [.blank ' ' rfl], .group (some ⟨none, a, []⟩) [.name ⟨none, selfName, []⟩, .rename ⟨none, b, []⟩ c]⟩

def groupedSource : Text := "pub use a::{self, b as c};"

def groupedNode : Node :=
  node "use_declaration" 0 26 none [node "visibility_modifier" 0 3 none [],
    node "scoped_use_list" 8 25 (some "argument") [node "identifier" 8 9 (some "path") [],
      node "use_list" 11 25 (some "list") [node "self" 12 16 none [],
        node "use_as_clause" 18 24 none [node "identifier" 18 19 (some "path") [], node "identifier" 23 24 (some "alias") []]]]]

theorem grouped_parsed : grouped.Parsed groupedSource groupedNode := by
  refine ⟨⟨" a::{self, b as c};", rfl⟩, _, rfl, .inr ⟨rfl, ⟨_, rfl, rfl, rfl⟩, _, rfl, rfl, ?_⟩⟩
  refine ⟨[], _, _, rfl, nofun, ⟨rfl, rfl⟩, [], _, _, rfl, nofun, ?_,
    nofun⟩
  exact ⟨rfl, ⟨_, rfl, rfl, rfl⟩, _, rfl, rfl, rfl⟩

theorem flattens_iff_regular_grouped :
    Flattens ⟨["api"]⟩ grouped (extractUse groupedSource ⟨["api"]⟩ groupedNode ⟨[], []⟩) ↔ grouped.Regular :=
  flattens_iff_regular grouped_parsed _

def spacedOut : UseDeclaration := ⟨.plain [.blank ' ' rfl, .blank ' ' rfl], .name ⟨none, a, [([], [], b)]⟩⟩

def spacedOutSource : Text := "pub  use a::b;"

def spacedOutNode : Node :=
  node "use_declaration" 0 14 none [node "visibility_modifier" 0 3 none [],
    node "scoped_identifier" 9 13 (some "argument") [node "identifier" 9 10 (some "path") [], node "identifier" 12 13 (some "name") []]]

theorem spacedOut_not_flattened : spacedOut.Parsed spacedOutSource spacedOutNode ∧
    ¬ Flattens ⟨["api"]⟩ spacedOut (extractUse spacedOutSource ⟨["api"]⟩ spacedOutNode ⟨[], []⟩) := by
  have parsed : spacedOut.Parsed spacedOutSource spacedOutNode := ⟨⟨" a::b;", rfl⟩, _, rfl, rfl, rfl⟩
  refine ⟨parsed, fun flattens => ?_⟩
  have blank := (regular_of_flattens parsed flattens).spaced (List.cons_ne_nil _ _) _ rfl
  revert blank
  decide

end Sample

end OrbitGraph.Extract.Rust
