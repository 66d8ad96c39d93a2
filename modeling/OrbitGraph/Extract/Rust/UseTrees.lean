import OrbitGraph.Extract.Common
import OrbitGraph.Extract.Rust.Paths

/-!
Flattening a use declaration.

A use tree is a path, a path with a new name, a glob, or a group of trees behind a path. Its
leaves are the items that it imports. The extractor walks the tree with the segments of the
groups around, and adds a row for every leaf, from the segments as it reads them.
-/

namespace OrbitGraph.Extract.Rust

open Lib
open Sync (RawImport RawRef colons)

/-! ### The extractor -/

/-- The rows that a use declaration adds to. -/
structure ExtractionState where
  imports : List RawImport
  refs : List RawRef

/-- The names of the inline modules around an item. -/
structure ModuleScope where
  segments : List Text

namespace ExtractionState

def pushRef (source : Text) (node : Node) (targetQualified : Option Text) (kind confidence : Text) (state : ExtractionState) :
    ExtractionState :=
  match targetName source node with
  | none => state
  | some name =>
    if name.isEmpty ∨ isIgnoredTypeName name then state
    else { state with refs := state.refs ++
      [⟨node.startByte, node.endByte, name, targetQualified, kind, none, confidence = "import_resolved"⟩] }

def pushImport (row : RawImport) (state : ExtractionState) : ExtractionState := { state with imports := state.imports ++ [row] }

end ExtractionState

section Collect

variable (source : Text)

def pushUseRows (spanNode : Node) (sourceSegments : List Text) (renamed publicModule : Option Text) (state : ExtractionState) :
    ExtractionState :=
  match joinSegments sourceSegments with
  | none => state
  | some sourcePath =>
    let importedName := renamed.getD (importName sourceSegments)
    let sourceSymbol :=
      if sourceSegments.length = 1 ∨ sourceSegments.getLast? = some "self".toList then [] else importName sourceSegments
    (state.pushImport ⟨importTargetPath sourceSegments, some importedName, some sourceSymbol, publicModule⟩).pushRef
      source spanNode (some sourcePath) "use".toList "import_resolved".toList

variable (publicModule : Option Text)

mutual

def collectUse : Node → List Text → ExtractionState → ExtractionState
  | .node info children, stem, state =>
    let node : Node := .node info children
    if info.kind = "scoped_use_list" then
      let next :=
        match node.childByFieldName "path" with
        | some path => stem ++ pathSegments source path
        | none => stem
      collectListField children next state
    else if info.kind = "use_list" then collectUses children stem state
    else if info.kind = "use_as_clause" then
      match node.childByFieldName "alias", node.childByFieldName "path" with
      | some renamed, some path =>
        pushUseRows source renamed (stem ++ pathSegments source path) (some (nodeText source renamed)) publicModule state
      | _, _ => state
    else if info.kind = "use_wildcard" then
      match joinSegments (stem ++ node.namedChildren.flatMap (pathSegments source)) with
      | some targetPath =>
        (state.pushImport ⟨targetPath, none, none, publicModule⟩).pushRef source node none "use"
          "import_resolved"
      | none => state
    else if info.kind ∈ ["identifier", "crate", "self", "super", "scoped_identifier"].map String.toList then
      pushUseRows source node (stem ++ pathSegments source node) none publicModule state
    else collectUses children stem state

/-- The child in the field `list`. -/
def collectListField : List Node → List Text → ExtractionState → ExtractionState
  | [], _, state => state
  | child :: rest, stem, state =>
    if child.info.field = some "list".toList then collectUse child stem state else collectListField rest stem state

/-- The named children. -/
def collectUses : List Node → List Text → ExtractionState → ExtractionState
  | [], _, state => state
  | child :: rest, stem, state => collectUses rest stem (if child.info.named then collectUse child stem state else state)

end

end Collect

def extractUse (source : Text) (scope : ModuleScope) (node : Node) (state : ExtractionState) : ExtractionState :=
  match node.childByFieldName "argument" with
  | none => state
  | some argument =>
    let publicModule :=
      if Text.startsWith "pub use" (Text.trimStart (nodeText source node)) then some (Text.join colons scope.segments)
      else none
    collectUse source publicModule argument [] state

/-! ### Use trees -/

/-- A glob: `*` alone, behind `::`, or behind a path. -/
inductive GlobPath where
  | bare
  | rooted (after : Gap)
  | below (path : WrittenPath) (before after : Gap)

namespace GlobPath

def text : GlobPath → Text
  | .bare => ['*']
  | .rooted after => colons ++ (after.text ++ ['*'])
  | .below path before after => path.text ++ before.text ++ (colons ++ (after.text ++ ['*']))

def paths : GlobPath → List WrittenPath
  | .below path _ _ => [path]
  | _ => []

/-- What stands between its tokens. -/
def gap : GlobPath → Gap
  | .bare => []
  | .rooted after => after
  | .below _ before after => before ++ after

end GlobPath

inductive UseTree where
  | name (path : WrittenPath)
  | rename (path : WrittenPath) (newName : Name)
  | glob (path : GlobPath)
  | group (path : Option WrittenPath) (trees : List UseTree)

inductive Visibility where
  | inherited
  | plain (gap : Gap)
  /-- `pub` with a parenthesis behind it. -/
  | restricted (gap : Gap)
  | crate

/-- What the text of a declaration begins with. -/
def Visibility.text : Visibility → Text
  | .inherited => "use"
  | .plain gap => "pub" ++ (gap.text ++ "use")
  | .restricted gap => "pub" ++ (gap.text ++ ['('])
  | .crate => "crate"

/-- Whether it is `pub`, without a restriction. -/
def Visibility.isPublic : Visibility → Bool
  | .plain _ => true
  | _ => false

structure UseDeclaration where
  visibility : Visibility
  tree : UseTree

section Parsed

variable (source : Text)

/-- Comments can stand everywhere; their children say what documentation is in them. -/
def IsComment (node : Node) : Prop :=
  node.kind ∈ ["line_comment", "block_comment"].map String.toList ∧ ∀ child ∈ node.namedChildren,
    child.kind ∈ ["outer_doc_comment_marker", "inner_doc_comment_marker", "doc_comment"].map String.toList ∧
      child.namedChildren = []

def WrittenPath.Parsed (path : WrittenPath) (node : Node) : Prop := node.kind = path.kind ∧ nodeText source node = path.text

mutual

def UseTree.Parsed : UseTree → Node → Prop
  | .name path, node => path.Parsed source node
  | .rename path newName, node =>
    node.kind = "use_as_clause" ∧
      (∃ child, node.childByFieldName "path" = some child ∧ path.Parsed source child) ∧
      ∃ child, node.childByFieldName "alias" = some child ∧ child.kind = "identifier" ∧
        nodeText source child = newName.text
  | .glob path, node =>
    node.kind = "use_wildcard" ∧ nodeText source node = path.text ∧
      node.namedChildren.map (nodeText source) = path.paths.map WrittenPath.text ++ path.gap.comments
  | .group path trees, node =>
    (node.kind = "use_list" ∧ path = none ∧ parsedAll trees node.namedChildren) ∨
      (node.kind = "scoped_use_list" ∧
        (match path with
          | none => node.childByFieldName "path" = none
          | some path => ∃ child, node.childByFieldName "path" = some child ∧ path.Parsed source child) ∧
        ∃ list, node.childByFieldName "list" = some list ∧ list.kind = "use_list" ∧
          parsedAll trees list.namedChildren)

def parsedAll : List UseTree → List Node → Prop
  | [], nodes => ∀ node ∈ nodes, IsComment node
  | tree :: trees, nodes => ∃ comments node rest, nodes = comments ++ node :: rest ∧ (∀ node ∈ comments, IsComment node) ∧
      tree.Parsed node ∧ parsedAll trees rest

end

def UseDeclaration.Parsed (declaration : UseDeclaration) (node : Node) : Prop :=
  (∃ rest, nodeText source node = declaration.visibility.text ++ rest) ∧
    ∃ argument, node.childByFieldName "argument" = some argument ∧ declaration.tree.Parsed source argument

end Parsed

/-! ### Leaves -/

inductive LeafForm where
  | name
  | rename (newName : Name)
  | glob (gap : Gap)

/-- What a use tree imports: the paths that lead to it, from the outermost group inwards, and what it is imported as. -/
structure Leaf where
  paths : List WrittenPath
  form : LeafForm

mutual

def UseTree.leaves (around : List WrittenPath) : UseTree → List Leaf
  | .name path => [⟨around ++ [path], .name⟩]
  | .rename path newName => [⟨around ++ [path], .rename newName⟩]
  | .glob path => [⟨around ++ path.paths, .glob path.gap⟩]
  | .group path trees => leavesAll (around ++ path.toList) trees

def leavesAll (around : List WrittenPath) : List UseTree → List Leaf
  | [] => []
  | tree :: trees => tree.leaves around ++ leavesAll around trees

end

def UseDeclaration.leaves (declaration : UseDeclaration) : List Leaf := declaration.tree.leaves []

/-- A path without the `self` that it ends in. -/
def withoutSelf (path : List Text) : List Text :=
  if path.length > 1 ∧ path.getLast? = some "self".toList then path.dropLast else path

def LeafForm.target (form : LeafForm) (path : List Text) : List Text :=
  match form with
  | .glob _ => path
  | _ => withoutSelf path

/-- The name that is bound to what is imported. -/
def LeafForm.bound (form : LeafForm) (target : List Text) : Option Text :=
  match form with
  | .name => some (target.getLast?.getD [])
  | .rename newName => some newName.text
  | .glob _ => none

def readPaths (paths : List WrittenPath) : List Text :=
  paths.flatMap fun path => Sync.pathSegments (normalizeQualifiedName path.text)

namespace Leaf

variable (leaf : Leaf)

/-- The names that are written on the way to it. -/
def path : List Text := leaf.paths.flatMap WrittenPath.segments

/-- What it imports. -/
def target : List Text := leaf.form.target leaf.path

/-- The name it binds. -/
def bound : Option Text := leaf.form.bound leaf.target

/-- The name at the leaf, under which it is referred to. -/
def spelled : Option Text :=
  match leaf.form with
  | .name => leaf.path.getLast?
  | .rename newName => some newName.text
  | .glob _ => none

def reference : Option Text :=
  (leaf.spelled.filter fun name => !isIgnoredTypeName name).map fun _ => Text.join colons leaf.path

/-- No comment is inside what leads to it. -/
def Plain : Prop :=
  (∀ path ∈ leaf.paths, path.Plain) ∧
    match leaf.form with
    | .glob gap => gap.Plain
    | _ => True

/-- The segments that the extractor reads. -/
def read : List Text :=
  readPaths leaf.paths ++
    match leaf.form with
    | .glob gap => gap.comments.flatMap fun comment => Sync.pathSegments (normalizeQualifiedName comment)
    | _ => []

/-- The row that the extractor adds. -/
def row (publicModule : Option Text) : Option RawImport :=
  (joinSegments leaf.read).map fun joined =>
    match leaf.form with
    | .glob _ => ⟨joined, none, none, publicModule⟩
    | form =>
      ⟨importTargetPath leaf.read,
        some (match form with | .rename newName => newName.text | _ => importName leaf.read),
        some (if leaf.read.length = 1 ∨ leaf.read.getLast? = some "self".toList then [] else importName leaf.read),
        publicModule⟩

end Leaf

/-! ### What a walk adds -/

/-- A step that adds the rows of some leaves, and their references where no comment is on the way. -/
def Collects (publicModule : Option Text) (leaves : List Leaf) (step : ExtractionState → ExtractionState) : Prop :=
  ∀ state, ∃ refs, step state = ⟨state.imports ++ leaves.filterMap (fun leaf => leaf.row publicModule), state.refs ++ refs⟩ ∧
    ((∀ leaf ∈ leaves, leaf.Plain) → refs.map RawRef.targetQualified = (leaves.filterMap Leaf.reference).map some)

section Collects

variable {source : Text} {publicModule : Option Text}

theorem Collects.none : Collects publicModule [] id := fun state => ⟨[], by simp, fun _ => rfl⟩

variable {f g : ExtractionState → ExtractionState}

theorem Collects.append {first later : List Leaf}
    (left : Collects publicModule first f) (right : Collects publicModule later g) :
    Collects publicModule (first ++ later) fun state => g (f state) := by
  intro state
  obtain ⟨refs, same, targets⟩ := left state
  obtain ⟨refs', same', targets'⟩ := right (f state)
  refine ⟨refs ++ refs', ?_, fun plain => ?_⟩
  · show g (f state) = _
    rw [same', same, List.filterMap_append, List.append_assoc, List.append_assoc]
  · rw [List.map_append, targets fun leaf mem => plain leaf (List.mem_append_left _ mem),
      targets' fun leaf mem => plain leaf (List.mem_append_right _ mem), List.filterMap_append, List.map_append]

def referenceName (source : Text) (node : Node) : Option Text :=
  (targetName source node).filter fun name => !(name.isEmpty || isIgnoredTypeName name)

theorem pushRef_eq (source : Text) (node : Node) (target : Option Text) (kind confidence : Text) (state : ExtractionState) :
    ∃ refs, state.pushRef source node target kind confidence = ⟨state.imports, state.refs ++ refs⟩ ∧
      refs.map RawRef.targetQualified = (referenceName source node).toList.map fun _ => target := by
  rw [ExtractionState.pushRef, referenceName]
  cases targetName source node with
  | none => exact ⟨[], by rw [List.append_nil], rfl⟩
  | some name =>
    dsimp only
    by_cases skipped : name.isEmpty ∨ isIgnoredTypeName name = true
    · have dropped : (name.isEmpty || isIgnoredTypeName name) = true := Bool.or_eq_true_iff.mpr skipped
      rw [if_pos skipped, Option.filter, dropped]
      exact ⟨[], by rw [List.append_nil], rfl⟩
    · have kept : (name.isEmpty || isIgnoredTypeName name) = false := by
        rw [Bool.eq_false_iff, Ne, Bool.or_eq_true_iff]
        exact skipped
      rw [if_neg skipped, Option.filter, kept]
      exact ⟨_, rfl, rfl⟩

theorem referenceName_eq {node : Node} {spelled : Option Text} (named : targetName source node = spelled)
    (nonempty : ∀ name ∈ spelled, name ≠ []) :
    referenceName source node = spelled.filter fun name => !isIgnoredTypeName name := by
  rw [referenceName, named]
  cases spelled with
  | none => rfl
  | some name =>
    have : name.isEmpty = false := by simpa using nonempty name rfl
    rw [Option.filter, Option.filter, this, Bool.false_or]

theorem Collects.rows {node : Node} {leaf : Leaf} {renamed : Option Text} (read : leaf.read ≠ [])
    (row : leaf.row publicModule = some ⟨importTargetPath leaf.read, some (renamed.getD (importName leaf.read)),
      some (if leaf.read.length = 1 ∨ leaf.read.getLast? = some "self".toList then [] else importName leaf.read), publicModule⟩)
    (target : leaf.Plain → leaf.read = leaf.path ∧ referenceName source node = leaf.spelled.filter fun name => !isIgnoredTypeName name) :
    Collects publicModule [leaf] (pushUseRows source node leaf.read renamed publicModule) := by
  intro state
  have joined : joinSegments leaf.read = some (Text.join colons leaf.read) := if_neg (by simpa using read)
  rw [pushUseRows, joined]
  obtain ⟨refs, same, targets⟩ := pushRef_eq source node (some (Text.join colons leaf.read)) "use".toList
    "import_resolved".toList (state.pushImport ⟨importTargetPath leaf.read, some (renamed.getD (importName leaf.read)),
      some (if leaf.read.length = 1 ∨ leaf.read.getLast? = some "self".toList then [] else importName leaf.read), publicModule⟩)
  refine ⟨refs, ?_, fun plain => ?_⟩
  · have rows : [leaf].filterMap (fun leaf => leaf.row publicModule) = _ := List.filterMap_cons_some row
    rw [rows]
    exact same
  · obtain ⟨reads, named⟩ := target (plain leaf (List.mem_singleton_self _))
    rw [targets, named, reads, List.filterMap_cons, Leaf.reference]
    cases leaf.spelled.filter fun name => !isIgnoredTypeName name <;> rfl

/-! ### Nodes of each kind -/

/-- The kinds of nodes that spell a path. -/
abbrev pathKinds : List Text := ["identifier", "crate", "self", "super", "scoped_identifier"].map String.toList

variable (source publicModule) in
/-- The walk of some nodes, one after another. -/
def collectNodes (nodes : List Node) (stem : List Text) (state : ExtractionState) : ExtractionState :=
  nodes.foldl (fun state child => collectUse source publicModule child stem state) state

section Kinds

variable {node : Node} {stem : List Text} {state : ExtractionState}

theorem collectUses_eq (children : List Node) :
    collectUses source publicModule children stem state = collectNodes source publicModule (children.filter fun child => child.info.named) stem state := by
  induction children generalizing state with
  | nil => rw [collectUses]; rfl
  | cons child rest ih =>
    rw [collectUses, ih]
    cases named : child.info.named with
    | false => rw [List.filter_cons_of_neg (by simp [named]), if_neg Bool.false_ne_true]
    | true => rw [List.filter_cons_of_pos (by simp [named]), if_pos rfl]; rfl

theorem collectListField_eq {info : NodeInfo} {children : List Node} {list : Node}
    (found : Node.childByFieldName "list" (.node info children) = some list) :
    collectListField source publicModule children stem state = collectUse source publicModule list stem state := by
  rw [Node.childByFieldName, Node.children] at found
  induction children with
  | nil => cases found
  | cons child rest ih =>
    rw [collectListField]
    by_cases here : child.info.field = some "list".toList
    · rw [List.find?_cons_of_pos (by simpa using here)] at found
      rw [if_pos here, Option.some.inj found]
    · rw [List.find?_cons_of_neg (by simpa using here)] at found
      rw [if_neg here, ih found]

/-- The kinds of nodes that the walk knows. -/
def useKinds : List Text :=
  ["scoped_use_list", "use_list", "use_as_clause", "use_wildcard", "identifier", "crate", "self", "super",
    "scoped_identifier"].map String.toList

theorem collectUse_other (other : node.kind ∉ useKinds) :
    collectUse source publicModule node stem state = collectNodes source publicModule node.namedChildren stem state := by
  obtain ⟨info, children⟩ := node
  have other' : info.kind ∉ useKinds := other
  have apart : ∀ kind ∈ useKinds, info.kind ≠ kind := fun kind mem same => other' (same ▸ mem)
  have path : info.kind ∉ pathKinds :=
    fun mem => other' (List.mem_append_right (useKinds.take 4) mem)
  rw [collectUse, if_neg (apart _ (by decide)), if_neg (apart _ (by decide)), if_neg (apart _ (by decide)),
    if_neg (apart _ (by decide)), if_neg path]
  exact collectUses_eq children

theorem collectUse_comment (comment : IsComment node) :
    collectUse source publicModule node stem state = state := by
  obtain ⟨kind, children⟩ := comment
  have apart : ∀ kind ∈ ["line_comment", "block_comment"].map String.toList, kind ∉ useKinds := by decide
  have apart' : ∀ kind ∈ ["outer_doc_comment_marker", "inner_doc_comment_marker", "doc_comment"].map String.toList,
      kind ∉ useKinds := by decide
  rw [collectUse_other (apart _ kind)]
  unfold collectNodes
  generalize node.namedChildren = nodes at children
  induction nodes generalizing state with
  | nil => rfl
  | cons child rest ih =>
    obtain ⟨childKind, leaf⟩ := children child List.mem_cons_self
    rw [List.foldl_cons, collectUse_other (apart' _ childKind), leaf]
    exact ih fun other mem => children other (List.mem_cons_of_mem _ mem)

theorem collectUse_list (kind : node.kind = "use_list") :
    collectUse source publicModule node stem state = collectNodes source publicModule node.namedChildren stem state := by
  obtain ⟨info, children⟩ := node
  have kind' : info.kind = "use_list" := kind
  rw [collectUse, if_neg (by rw [kind']; decide), if_pos kind']
  exact collectUses_eq children

theorem collectUse_scoped {list : Node} (kind : node.kind = "scoped_use_list")
    (found : node.childByFieldName "list" = some list) :
    collectUse source publicModule node stem state = collectUse source publicModule list
      (match node.childByFieldName "path" with
        | some path => stem ++ pathSegments source path
        | none => stem) state := by
  obtain ⟨info, children⟩ := node
  have kind' : info.kind = "scoped_use_list" := kind
  rw [collectUse, if_pos kind']
  exact collectListField_eq found

theorem collectUse_rename {path renamed : Node} (kind : node.kind = "use_as_clause")
    (foundPath : node.childByFieldName "path" = some path)
    (foundName : node.childByFieldName "alias" = some renamed) :
    collectUse source publicModule node stem state =
      pushUseRows source renamed (stem ++ pathSegments source path) (some (nodeText source renamed)) publicModule state := by
  obtain ⟨info, children⟩ := node
  have kind' : info.kind = "use_as_clause" := kind
  rw [collectUse, if_neg (by rw [kind']; decide), if_neg (by rw [kind']; decide), if_pos kind', foundPath, foundName]

theorem collectUse_glob (kind : node.kind = "use_wildcard") :
    collectUse source publicModule node stem state =
      match joinSegments (stem ++ node.namedChildren.flatMap (pathSegments source)) with
      | some targetPath =>
        (state.pushImport ⟨targetPath, none, none, publicModule⟩).pushRef source node none "use"
          "import_resolved"
      | none => state := by
  obtain ⟨info, children⟩ := node
  have kind' : info.kind = "use_wildcard" := kind
  rw [collectUse, if_neg (by rw [kind']; decide), if_neg (by rw [kind']; decide), if_neg (by rw [kind']; decide), if_pos kind']

theorem WrittenPath.kind_mem (path : WrittenPath) :
    path.kind ∈ pathKinds := by
  have words : ∀ kind ∈ ["crate", "self", "super"].map String.toList,
      kind ∈ pathKinds := by decide
  rw [WrittenPath.kind]
  split_ifs with several word
  · decide
  · exact words _ word
  · decide

theorem collectUse_path {path : WrittenPath} (kind : node.kind = path.kind) : collectUse source publicModule node stem state =
      pushUseRows source node (stem ++ pathSegments source node) none publicModule state := by
  obtain ⟨info, children⟩ := node
  have kind' : info.kind = path.kind := kind
  have mem : info.kind ∈ pathKinds :=
    kind' ▸ path.kind_mem
  have apart : ∀ kind ∈ pathKinds,
      ∀ other ∈ useKinds.take 4, kind ≠ other := by decide
  have apart' := apart _ mem
  rw [collectUse, if_neg (apart' _ (by decide)), if_neg (apart' _ (by decide)), if_neg (apart' _ (by decide)),
    if_neg (apart' _ (by decide)), if_pos mem]

end Kinds

/-! ### The rows of a tree -/

theorem Collects.congr {leaves : List Leaf} (same : ∀ state, f state = g state)
    (collects : Collects publicModule leaves g) : Collects publicModule leaves f := funext same ▸ collects

theorem readPaths_append (paths later : List WrittenPath) : readPaths (paths ++ later) = readPaths paths ++ readPaths later :=
  List.flatMap_append

variable {paths : List WrittenPath}

theorem readPaths_ne_nil {path : WrittenPath} (mem : path ∈ paths) : readPaths paths ≠ [] := by
  obtain ⟨c, rest, name⟩ := List.exists_cons_of_ne_nil path.first.nonempty
  have inside : c ∈ path.first.text := name ▸ List.mem_cons_self
  obtain ⟨white, colon, -⟩ := path.first.clean c inside
  obtain ⟨segment, read, -⟩ := exists_segment_of_mem
    (List.mem_append_right _ (List.mem_append_left _ inside) : c ∈ path.text) colon white
  exact List.ne_nil_of_mem (List.mem_flatMap.mpr ⟨path, mem, read⟩)

theorem readPaths_of_plain (plain : ∀ path ∈ paths, path.Plain) :
    readPaths paths = paths.flatMap WrittenPath.segments :=
  List.flatMap_congr fun path mem => WrittenPath.pathSegments_text (plain path mem)

theorem WrittenPath.Parsed.pathSegments_eq {path : WrittenPath} {node : Node} (parsed : path.Parsed source node) :
    pathSegments source node = readPaths [path] := by
  rw [pathSegments, parsed.2, readPaths, List.flatMap_singleton]

theorem targetName_of_kind {node : Node} {kind : Text} (same : node.kind = kind)
    (apart : kind ∉ ["generic_type".toList, "generic_type_with_turbofish".toList]) :
    targetName source node = lastName (nodeText source node) := by
  rw [targetName, if_neg (same ▸ apart)]
  rfl

theorem WrittenPath.Parsed.targetName_eq {path : WrittenPath} {node : Node} (parsed : path.Parsed source node) (plain : path.Plain) :
    targetName source node = path.segments.getLast? := by
  have apart : ∀ kind ∈ pathKinds,
      kind ∉ ["generic_type".toList, "generic_type_with_turbofish".toList] := by decide
  rw [targetName_of_kind parsed.1 (apart _ path.kind_mem), parsed.2, path.lastName_text plain]

theorem Leaf.read_of_plain {leaf : Leaf} (plain : leaf.Plain) : leaf.read = leaf.path := by
  obtain ⟨paths, form⟩ := leaf
  rw [Leaf.read, Leaf.path, readPaths_of_plain plain.1]
  cases form with
  | name | rename newName => exact List.append_nil _
  | glob gap =>
    have none : gap.comments = [] := Gap.comments_eq_nil_iff.mpr plain.2
    dsimp only
    rw [none, List.flatMap_nil, List.append_nil]

theorem joinSegments_of_ne_nil {segments : List Text} (nonempty : segments ≠ []) :
    joinSegments segments = some (Text.join colons segments) := if_neg (by simpa using nonempty)

theorem getLast?_path (around : List WrittenPath) (path : WrittenPath) (form : LeafForm) :
    (Leaf.path ⟨around ++ [path], form⟩).getLast? = path.segments.getLast? := by
  have nonempty : path.segments ≠ [] := List.cons_ne_nil _ _
  rw [Leaf.path, List.flatMap_append, List.flatMap_singleton, List.getLast?_append_of_ne_nil _ nonempty]

theorem collects_name {path : WrittenPath} {node : Node} (parsed : path.Parsed source node) (around : List WrittenPath) :
    Collects publicModule [⟨around ++ [path], .name⟩] (collectUse source publicModule node (readPaths around)) := by
  have read : readPaths around ++ pathSegments source node = Leaf.read ⟨around ++ [path], .name⟩ := by
    rw [parsed.pathSegments_eq, ← readPaths_append]
    exact (List.append_nil _).symm
  have nonempty : Leaf.read ⟨around ++ [path], .name⟩ ≠ [] :=
    List.append_ne_nil_of_left_ne_nil (readPaths_ne_nil (List.mem_append_right _ (List.mem_singleton_self path))) _
  refine .congr (fun state => by rw [collectUse_path parsed.1, read]) (.rows nonempty ?_ fun plain => ⟨Leaf.read_of_plain plain, ?_⟩)
  · rw [Leaf.row, joinSegments_of_ne_nil nonempty]
    rfl
  · have last := getLast?_path around path .name
    refine referenceName_eq ?_ fun name found => ?_
    · rw [parsed.targetName_eq (plain.1 path (List.mem_append_right _ (List.mem_singleton_self path))), Leaf.spelled, last]
    · rw [Leaf.spelled, last] at found
      exact (WrittenPath.segment_of_mem (List.mem_of_getLast? found)).nonempty

theorem Name.lastName_text (name : Name) : lastName name.text = some name.text := by
  have alone : WrittenPath.text ⟨none, name, []⟩ = name.text := List.append_nil _
  have plain : WrittenPath.Plain ⟨none, name, []⟩ := ⟨nofun, nofun⟩
  rw [← alone, WrittenPath.lastName_text plain, alone]
  rfl

theorem collects_rename {path : WrittenPath} {newName : Name} {node : Node} (parsed : (UseTree.rename path newName).Parsed source node)
    (around : List WrittenPath) :
    Collects publicModule [⟨around ++ [path], .rename newName⟩] (collectUse source publicModule node (readPaths around)) := by
  obtain ⟨kind, ⟨child, foundPath, parsedPath⟩, renamed, foundName, renamedKind, renamedText⟩ := parsed
  have read : readPaths around ++ pathSegments source child = Leaf.read ⟨around ++ [path], .rename newName⟩ := by
    rw [parsedPath.pathSegments_eq, ← readPaths_append]
    exact (List.append_nil _).symm
  have nonempty : Leaf.read ⟨around ++ [path], .rename newName⟩ ≠ [] :=
    List.append_ne_nil_of_left_ne_nil (readPaths_ne_nil (List.mem_append_right _ (List.mem_singleton_self path))) _
  refine .congr (fun state => by rw [collectUse_rename kind foundPath foundName, read, renamedText])
    (.rows nonempty ?_ fun plain => ⟨Leaf.read_of_plain plain, ?_⟩)
  · rw [Leaf.row, joinSegments_of_ne_nil nonempty]
    rfl
  · refine referenceName_eq ?_ fun name found => ?_
    · rw [targetName_of_kind renamedKind (by decide), renamedText, newName.lastName_text]
      rfl
    · rw [← Option.some.inj found]
      exact newName.nonempty

theorem GlobPath.lastName_text {path : GlobPath} (plainPaths : ∀ inner ∈ path.paths, inner.Plain) (plainGap : path.gap.Plain) :
    lastName path.text = none := by
  have star : Segment ['*'] := ⟨by decide, by decide, fun c found => by cases found; decide, fun c found => by cases found; decide⟩
  have last : ∀ init : List Text, normalizeQualifiedName path.text = Text.join colons (init ++ [['*']]) → lastName path.text = none :=
    fun _ read => (lastName_eq read star).trans (if_pos rfl)
  cases path with
  | bare => exact last [] (normalize_parts none nofun star []
      nofun nofun)
  | rooted after =>
    refine last [] (Eq.trans ?_ (normalize_parts (some after) (fun gap found => ?_) star []
      nofun nofun))
    · simp [GlobPath.text, leadingText, partsText]
    · exact Option.some.inj found ▸ plainGap
  | below inner before after =>
    have plain : inner.Plain := plainPaths inner (List.mem_singleton_self _)
    have shape : GlobPath.text (.below inner before after) =
        leadingText inner.leading ++ (inner.first.text ++ partsText (inner.parts ++ [(before, after, ['*'])])) := by
      simp [GlobPath.text, WrittenPath.text, partsText]
    refine last inner.segments ?_
    rw [shape, normalize_parts _ plain.1 inner.first.segment, List.map_append, ← List.cons_append, inner.map_parts]
    · rfl
    · intro part mem
      rcases List.mem_append.mp mem with inside | behind
      · exact plain.parts part inside
      · rw [List.mem_singleton.mp behind]
        exact ⟨fun t mem => plainGap t (List.mem_append_left _ mem), fun t mem => plainGap t (List.mem_append_right _ mem)⟩
    · intro part mem
      rcases List.mem_append.mp mem with inside | behind
      · exact WrittenPath.segment_of_mem_parts part inside
      · rw [List.mem_singleton.mp behind]
        exact star

theorem collects_glob {path : GlobPath} {node : Node} (parsed : (UseTree.glob path).Parsed source node) (around : List WrittenPath) :
    Collects publicModule [⟨around ++ path.paths, .glob path.gap⟩] (collectUse source publicModule node (readPaths around)) := by
  obtain ⟨kind, text, children⟩ := parsed
  have read : readPaths around ++ node.namedChildren.flatMap (pathSegments source) =
      Leaf.read ⟨around ++ path.paths, .glob path.gap⟩ := by
    have texts : node.namedChildren.flatMap (pathSegments source) =
        (node.namedChildren.map (nodeText source)).flatMap fun text => Sync.pathSegments (normalizeQualifiedName text) := by
      rw [List.flatMap_map]
      rfl
    rw [texts, children, List.flatMap_append, List.flatMap_map, ← List.append_assoc]
    exact congrArg (· ++ _) (readPaths_append around path.paths).symm
  refine .congr (fun state => by rw [collectUse_glob kind, read]) fun state => ?_
  rw [List.filterMap_cons, Leaf.row]
  cases joinSegments (Leaf.read ⟨around ++ path.paths, .glob path.gap⟩) with
  | none => exact ⟨[], by simp, fun _ => rfl⟩
  | some joined =>
    obtain ⟨refs, same, targets⟩ := pushRef_eq source node none "use" "import_resolved"
      (state.pushImport ⟨joined, none, none, publicModule⟩)
    refine ⟨refs, same, fun plain => ?_⟩
    have plain := plain _ (List.mem_singleton_self _)
    have unnamed : targetName source node = none := by
      rw [targetName_of_kind kind (by decide), text]
      exact GlobPath.lastName_text (fun inner mem => plain.1 inner (List.mem_append_right _ mem)) plain.2
    rw [targets, referenceName, unnamed]
    rfl

theorem foldl_comments {comments : List Node} (all : ∀ node ∈ comments, IsComment node) (stem : List Text) (state : ExtractionState) :
    collectNodes source publicModule comments stem state = state := by
  induction comments with
  | nil => rfl
  | cons comment rest ih =>
    rw [collectNodes, List.foldl_cons, collectUse_comment (all comment List.mem_cons_self)]
    exact ih fun node mem => all node (List.mem_cons_of_mem _ mem)

mutual

theorem collects_tree : ∀ (tree : UseTree) {node : Node} (around : List WrittenPath), tree.Parsed source node →
    Collects publicModule (tree.leaves around) (collectUse source publicModule node (readPaths around))
  | .name path, _, around, parsed => by
    rw [UseTree.Parsed] at parsed
    exact collects_name parsed around
  | .rename path newName, _, around, parsed => collects_rename parsed around
  | .glob path, _, around, parsed => collects_glob parsed around
  | .group path trees, node, around, parsed => by
    unfold UseTree.Parsed at parsed
    rw [UseTree.leaves]
    rcases parsed with ⟨kind, rfl, parsed⟩ | ⟨kind, stem, list, found, listKind, parsed⟩
    · rw [Option.toList_none, List.append_nil]
      exact .congr (fun _ => collectUse_list kind) (collects_all trees around parsed)
    · refine .congr (fun state => ?_) (collects_all trees (around ++ path.toList) parsed)
      rw [collectUse_scoped kind found, collectUse_list listKind]
      cases path with
      | none =>
        dsimp only at stem
        rw [stem, Option.toList_none, List.append_nil]
      | some path =>
        obtain ⟨child, foundPath, parsedPath⟩ := stem
        rw [foundPath, Option.toList_some, readPaths_append, ← parsedPath.pathSegments_eq]

theorem collects_all : ∀ (trees : List UseTree) {nodes : List Node} (around : List WrittenPath), parsedAll source trees nodes →
    Collects publicModule (leavesAll around trees) (collectNodes source publicModule nodes (readPaths around))
  | [], nodes, around, parsed => by
    rw [parsedAll] at parsed
    exact .congr (foldl_comments parsed _) .none
  | tree :: trees, nodes, around, parsed => by
    rw [parsedAll] at parsed
    obtain ⟨comments, node, rest, rfl, before, here, later⟩ := parsed
    rw [leavesAll]
    refine .congr (fun state => ?_) ((collects_tree tree around here).append (collects_all trees around later))
    rw [collectNodes, List.foldl_append, show List.foldl _ state comments = state from foldl_comments before _ state]
    rfl

end

end Collects

end OrbitGraph.Extract.Rust
