import OrbitGraph.Changes.Pairer

/-!
Presentation filters, and the account of what they removed.

A filter never changes the pairing. What it hides is counted by reason, with a few examples.
-/

namespace OrbitGraph.Changes

open Lib

def FILTERED_EXAMPLE_CAP : Nat := 5

inductive FilterReason where
  | confidence
  | language
  | changeKind
  | scope
  | unindexed
  deriving DecidableEq, Ord

namespace FilterReason

def label : FilterReason → Text
  | confidence => "confidence"
  | language => "language"
  | changeKind => "change_kind"
  | scope => "scope"
  | unindexed => "unindexed"

def explanation : FilterReason → Text
  | confidence => ("Excluded by the `confidence` floor. Lower the floor to see these candidates; " ++
      "they are weaker evidence, not absent evidence.").toList
  | language => ("Excluded by the `language` filter. The underlying evidence is unchanged; only " ++
      "this response hides it.").toList
  | changeKind => ("Excluded by the `change_kind` filter, which keeps only items whose symbol " ++
      "changed in one of the requested ways.").toList
  | scope => "Excluded by the `scope` path prefix. Widen or drop `scope` to see these items."
  | unindexed => ("The item's file is not indexed in this snapshot, so it carries no symbol " ++
      "evidence; it is reported as out of scope rather than as absent.").toList

end FilterReason

structure FilteredOut where
  reason : Text
  explanation : Text
  count : Nat
  examples : List Text

abbrev FilterLog := List (FilterReason × Nat × List Text)

namespace FilterLog

/-- `record`: one more item. -/
def record (log : FilterLog) (reason : FilterReason) (item : Text) : FilterLog :=
  if log.any fun entry => entry.1 = reason then
    log.map fun entry =>
      if entry.1 = reason then
        (reason, entry.2.1 + 1,
          if entry.2.2.length < FILTERED_EXAMPLE_CAP then entry.2.2 ++ [item] else entry.2.2)
      else entry
  else log ++ [(reason, 1, [item])]

/-- `record_count`: items without examples. -/
def recordCount (log : FilterLog) (reason : FilterReason) (count : Nat) : FilterLog :=
  if count = 0 then log
  else if log.any fun entry => entry.1 = reason then
    log.map fun entry => if entry.1 = reason then (reason, entry.2.1 + count, entry.2.2) else entry
  else log ++ [(reason, count, [])]

def intoFilteredOut (log : FilterLog) : List FilteredOut :=
  (log.mergeSort fun a b => (compare a.1 b.1).isLE).map fun (reason, count, examples) =>
    ⟨reason.label, reason.explanation, count, examples⟩

end FilterLog

def eqIgnoreAsciiCase (a b : Text) : Bool := a.map Char.toLower = b.map Char.toLower

def languageOf (path : Text) : Option Text :=
  let file := (Text.splitChar '/' path).getLast?.getD path
  (Text.rsplitOnce "." file).bind fun (_, extension) =>
    let extension := extension.map Char.toLower
    if extension = "rs" then some "rust"
    else if extension ∈ ["c".toList, "h".toList] then some "c".toList
    else if extension = "cs" then some "csharp"
    else if extension = "go" then some "go"
    else if extension = "java" then some "java"
    else if extension ∈ ["js".toList, "jsx".toList, "mjs".toList, "cjs".toList] then some "javascript".toList
    else if extension ∈ ["ts".toList, "tsx".toList] then some "typescript".toList
    else if extension ∈ ["kt".toList, "kts".toList] then some "kotlin".toList
    else if extension = "py" then some "python"
    else if extension = "rb" then some "ruby"
    else if extension ∈ ["md".toList, "markdown".toList] then some "markdown".toList
    else if extension ∈ ["json".toList, "yaml".toList, "yml".toList, "toml".toList, "env".toList] then
      some "config"
    else none

structure FilterSet where
  language : Option Text
  changeKind : List Text
  scope : Option Text

namespace FilterSet

def none : FilterSet := ⟨.none, [], .none⟩

variable (filters : FilterSet)

def isEmpty : Bool := filters.language.isNone && filters.changeKind.isEmpty && filters.scope.isNone

def languageAdmits (path : Text) : Bool :=
  match filters.language with
  | .none => true
  | .some requested => (languageOf path).any fun language => eqIgnoreAsciiCase language requested

/-- A prefix of whole segments. -/
def scopeAdmits (path : Text) : Bool :=
  match filters.scope with
  | .none => true
  | .some scope =>
    let scope := trimEndSlashes (trimStartDots scope)
    scope = [] || path = scope || Text.startsWith (scope ++ "/") path
where
  /-- `trim_start_matches("./")` -/
  trimStartDots : Text → Text
    | '.' :: '/' :: rest => trimStartDots rest
    | rest => rest
  trimEndSlashes (s : Text) : Text := (s.reverse.dropWhile (· = '/')).reverse

/-- `none` is a symbol that did not change, which no kind matches. -/
def changeKindAdmits (status : Option Text) : Bool :=
  filters.changeKind.isEmpty ||
    status.any fun status => filters.changeKind.any fun kind => eqIgnoreAsciiCase kind status

end FilterSet

def ChangeStatus.label : ChangeStatus → Text
  | .added => "added"
  | .removed => "removed"
  | .modified => "modified"
  | .signatureChanged => "signature_changed"
  | .moved => "moved"
  | .renamed => "renamed"
  | .uncertain => "uncertain"

def FilterSet.hides (filters : FilterSet) (symbol : ChangedSymbol) : Option FilterReason :=
  let paths := symbol.headPath.toList ++ symbol.basePath.toList
  if paths ≠ [] ∧ !paths.any filters.languageAdmits then some .language
  else if paths ≠ [] ∧ !paths.any filters.scopeAdmits then some .scope
  else if !filters.changeKindAdmits (some symbol.status.label) then some .changeKind
  else Option.none

/-- The entries that the filters keep, and the account of the others. -/
def ChangedSymbols.filtered (changed : ChangedSymbols) (filters : FilterSet) : ChangedSymbols × List FilteredOut :=
  if filters.isEmpty then (changed, FilterLog.intoFilteredOut [])
  else
    let (symbols, log) := changed.symbols.foldl (fun (symbols, log) symbol =>
      match filters.hides symbol with
      | some reason => (symbols, FilterLog.record log reason symbol.primarySelector)
      | none => (symbols ++ [symbol], log)) ([], [])
    ({ changed with symbols }, FilterLog.intoFilteredOut log)

def ChangedSymbols.entriesFor (changed : ChangedSymbols) (selector : Text) : List ChangedSymbol :=
  changed.symbols.filter fun symbol =>
    symbol.base.any (fun entry => entry.selector = selector) || symbol.head.any fun entry => entry.selector = selector

end OrbitGraph.Changes
