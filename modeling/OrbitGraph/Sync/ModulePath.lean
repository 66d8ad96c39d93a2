import OrbitGraph.Lib.Text
import Mathlib.Data.Finset.Basic
import Mathlib.Data.Finset.Image

/-!
Module paths: the `::`-joined names that reference resolution compares.

A file lives under the suffixes of its own path (`file_module_parts`), and a
symbol under the prefix of its qualified name. `module_prefixes` collects both.
All names are texts; the separators of the other languages (`.`) are read as
`::` by `normalize_module_path`.
-/

namespace OrbitGraph

open Lib

/-- The Unicode tables the standard library brings: which characters are
alphanumeric. Nothing depends on what they say beyond ASCII. -/
class CharTables where
  isAlphanumeric : Char → Bool
  isAlphanumeric_ascii : ∀ c : Char, c.toNat < 128 → isAlphanumeric c = c.isAlphanum

@[reducible]
def CharTables.ascii : CharTables := ⟨Char.isAlphanum, fun _ _ => rfl⟩

namespace Sync

/-- The separator `::`. -/
def colons : Text := "::"

/-- `path.split("::")` without the empty parts. -/
def pathSegments (path : Text) : List Text :=
  (Text.splitPair ':' ':' path).filter fun part => !part.isEmpty

def normalizeModulePath (path : Text) : Text :=
  Text.join colons (pathSegments (Text.replaceChar '.' colons path))

def joinModuleSymbol (module symbol : Text) : Text :=
  if module.isEmpty then symbol else module ++ colons ++ symbol

/-- Whether `target` is `symbol` inside `module`, without building the joined
text. Lengths are in bytes; the middle is read after the prefix `module`. -/
def isModuleSymbol (target module symbol : Text) : Bool :=
  if module.isEmpty then target == symbol
  else
    Text.byteLen target == Text.byteLen module + 2 + Text.byteLen symbol &&
      (match Text.stripPrefix module target with
        | some rest => Text.startsWith colons rest
        | none => false) &&
      Text.endsWith symbol target

/-- Whether `path` ends with `::{module}`, without building the suffix. -/
def isModuleSuffix (path module : Text) : Bool :=
  decide (Text.byteLen module + 2 ≤ Text.byteLen path) &&
    (match Text.stripSuffix module path with
      | some rest => Text.endsWith colons rest
      | none => false)

/-- The module path of a file, as parts: its directories and stem, without
`src` and without the stems that name the enclosing module. -/
def fileModuleParts (filePath : Text) : List Text :=
  let isRust := Text.endsWith ".rs" filePath
  let stem :=
    match Text.stripSuffix ".rs" filePath with
    | some stem => stem
    | none => (Text.stripSuffix ".py" filePath).getD filePath
  let parts := (Text.splitChar '/' stem).filter fun part => !part.isEmpty && part != "src".toList
  match parts.getLast? with
  | none => parts
  | some last =>
    if (isRust && (last == "lib" || last == "main" || last == "mod")) ||
        (!isRust && last == "__init__") then
      parts.dropLast
    else parts

/-- Drop the leading `super` parts of `parts`, popping one part of `base` for
each. -/
def popSupers (base : List Text) : List Text → List Text × List Text
  | part :: parts =>
    if part = "super" then popSupers base.dropLast parts else (base, part :: parts)
  | [] => (base, [])

/-- The absolute module path an import of `from_file` spells as `path`. -/
def resolveImportPath (fromFile path : Text) : Text :=
  match pathSegments (normalizeModulePath path) with
  | [] => []
  | first :: rest =>
    if first = "crate" then Text.join colons rest
    else if first = "self" ∨ first = "super" then
      let (base, parts) := popSupers (fileModuleParts fromFile) (first :: rest)
      let parts :=
        match parts with
        | part :: rest => if part = "self" then rest else part :: rest
        | [] => []
      Text.join colons (base ++ parts)
    else Text.join colons (first :: rest)

/-- The absolute path that a re-export in the module `module` of `from_file`
takes its item from. -/
def resolveReexportPath (fromFile module path : Text) : Text :=
  let normalized := normalizeModulePath path
  match pathSegments normalized with
  | [] => []
  | first :: rest =>
    if first = "crate" then Text.join colons rest
    else if first = "self" ∨ first = "super" then
      let base := fileModuleParts fromFile ++ pathSegments module
      let (base, rest) :=
        if first = "super" then popSupers base.dropLast rest else (base, rest)
      Text.join colons (base ++ rest)
    else normalized

section Prefixes

variable [CharTables]

def isQualifiedWord (c : Char) : Bool :=
  CharTables.isAlphanumeric c || c == '_' || c == '-'

/-- `prefix` without the separators it ends in. -/
def normalizeQualifiedPrefix (pre : Text) : Text :=
  (pre.reverse.dropWhile fun c => !isQualifiedWord c).reverse

/-- The path before `name` in its qualified form; `none` when no separator
stands between them. -/
def qualifiedPrefixBeforeName (qualified name : Text) : Option Text :=
  if qualified = name then some []
  else
    match Text.stripSuffix name qualified with
    | none => none
    | some pre =>
      let trimmed := normalizeQualifiedPrefix pre
      if trimmed.length = pre.length then none else some trimmed

/-- Module prefixes of a file defining symbols with these `(qualified, name)`
pairs: the prefix of every qualified name, and each suffix of the file's own
module path. -/
def modulePrefixes (filePath : Text) (symbols : List (Text × Text)) : Finset Text :=
  (symbols.filterMap fun s => (qualifiedPrefixBeforeName s.1 s.2).map normalizeModulePath).toFinset ∪
    (((fileModuleParts filePath).tails.filter fun parts => !parts.isEmpty).map (Text.join colons)).toFinset

end Prefixes

end Sync

end OrbitGraph
