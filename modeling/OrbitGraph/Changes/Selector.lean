import OrbitGraph.Lib.Text

/-!
Graph selectors, their display form and their parser.
-/

namespace OrbitGraph.Changes

open Lib

inductive Selector where
  | dir (path : Text)
  | file (path : Text)
  | symbol (path symbol kind : Text)
  | module (qualified : Text)
  | command (name : Text)
  deriving DecidableEq

structure SelectorParseError where
  input : Text
  reason : Text
  deriving DecidableEq

/-- The canonical form. -/
def Selector.display : Selector → Text
  | .dir path => "dir:" ++ path
  | .file path => "file:" ++ path
  | .symbol path name kind => "symbol:" ++ path ++ "#" ++ name ++ ":" ++ kind
  | .module qualified => "module:" ++ qualified
  | .command name => "command:" ++ name

/-- One component of a path, after the others. -/
def pushPart (isAbsolute : Bool) (parts : List Text) (part : Text) : List Text :=
  if part = [] ∨ part = "." then parts
  else if part = ".." then
    match parts.getLast? with
    | some last => if last ≠ ".." then parts.dropLast else if isAbsolute then parts else parts ++ [part]
    | none => if isAbsolute then parts else parts ++ [part]
  else parts ++ [part]

def normalizePathText (raw : Text) : Except Text Text :=
  let normalized := (Text.trim raw).map fun c => if c = '\\' then '/' else c
  if normalized = [] then .error "selector path must not be empty"
  else
    let isAbsolute := Text.startsWith "/" normalized
    let parts := (Text.splitChar '/' normalized).foldl (pushPart isAbsolute) []
    if isAbsolute then .ok ("/" ++ Text.join "/" parts)
    else .ok (if parts = [] then "." else Text.join "/" parts)

def normalizeSelectorPath (input path : Text) : Except SelectorParseError Text :=
  (normalizePathText path).mapError fun reason => ⟨input, reason⟩

/-- A `symbol:` selector, after its prefix. -/
def parseSymbol (input remainder : Text) : Except SelectorParseError Selector := do
  match Text.rsplitOnce ":" remainder with
  | none => .error ⟨input, "symbol selectors must use `symbol:<path>#<symbol>:<kind>`"⟩
  | some (location, kind) =>
    match Text.splitOnce "#" location with
    | none => .error ⟨input, "symbol selectors must include `#<symbol>`"⟩
    | some (path, symbol) =>
      let path ← normalizeSelectorPath input path
      let symbol := Text.trim symbol
      let kind := Text.trim kind
      if symbol = [] ∨ kind = [] then
        .error ⟨input, "symbol selectors must include non-empty path, symbol, and kind"⟩
      else .ok (.symbol path symbol kind)

/-- `Selector::from_str`. -/
def Selector.parse (selector : Text) : Except SelectorParseError Selector :=
  let trimmed := Text.trim selector
  if let some path := Text.stripPrefix "dir:" trimmed then
    (normalizeSelectorPath selector path).map .dir
  else if let some path := Text.stripPrefix "file:" trimmed then
    (normalizeSelectorPath selector path).map .file
  else if let some remainder := Text.stripPrefix "symbol:" trimmed then parseSymbol selector remainder
  else if let some qualified := Text.stripPrefix "module:" trimmed then
    let qualified := Text.trim qualified
    if qualified = [] then .error ⟨selector, "module selectors must include a qualified module"⟩
    else .ok (.module qualified)
  else if let some name := Text.stripPrefix "command:" trimmed then
    let name := Text.trim name
    if name = [] then .error ⟨selector, "command selectors must include a command name"⟩
    else .ok (.command name)
  else
    .error ⟨selector,
      "selectors must start with `dir:`, `file:`, `symbol:`, `module:`, or `command:`"⟩

example : Selector.parse " symbol:./src/../a.rs#A::f:method" =
    .ok (.symbol "a.rs" "A::f" "method") := by decide +kernel

end OrbitGraph.Changes
