import OrbitGraph.Changes.Source

/-!
The pairing ladder: the symbols of the changed files of both sides are paired, rung by
rung, strongest evidence first, and what is left is added or removed.

A rung groups what is unpaired by a key, and pairs the groups of one key: a group of one
with a group of one, and anything else as one uncertain entry.
-/

namespace OrbitGraph.Changes

open Lib

attribute [local instance] lexOrd

inductive ChangeStatus where
  | added
  | removed
  | modified
  | signatureChanged
  | moved
  | renamed
  | uncertain
  deriving DecidableEq, Ord

inductive Pairing where
  | sameSelector
  | signatureChanged
  | moved
  | renamed
  | uncertain
  deriving DecidableEq

inductive PairingEvidence where
  | selector
  | signature
  | gitRename
  | gitCopy
  | bodyHash
  | none
  deriving DecidableEq

structure UncertainCandidate where
  symbol : SymbolRef
  reason : Text

structure ChangedSymbol where
  status : ChangeStatus
  pairing : Pairing
  pairingEvidence : PairingEvidence
  base : Option SymbolRef
  head : Option SymbolRef
  supportingSnapshots : List Text
  fileChange : FileChangeKind
  basePath : Option Text
  headPath : Option Text
  uncertainCandidates : List UncertainCandidate
  note : Option Text

def ChangedSymbol.primarySelector (symbol : ChangedSymbol) : Text :=
  ((symbol.head.orElse fun _ => symbol.base).map SymbolRef.selector).getD []

abbrev FileChange := FileChangeKind × Option Text × Option Text

def bothSnapshots : List Text := ["base", "head"]

/-- An entry with both sides, each of them a candidate. -/
def uncertainPair (base head : SymbolRef) (pairingEvidence : PairingEvidence) (fileChange : FileChange)
    (candidateReason note : Text) : ChangedSymbol where
  status := .uncertain
  pairing := .uncertain
  pairingEvidence
  base := some base
  head := some head
  supportingSnapshots := bothSnapshots
  fileChange := fileChange.1
  basePath := fileChange.2.1
  headPath := fileChange.2.2
  uncertainCandidates := [⟨base, candidateReason⟩, ⟨head, candidateReason⟩]
  note := some note

structure Pairer where
  comparison : Comparison
  files : ChangedFiles
  base : SideInventory
  head : SideInventory
  unpairedBase : Std.TreeSet Text
  unpairedHead : Std.TreeSet Text
  symbols : List ChangedSymbol

namespace Pairer

def new (comparison : Comparison) (files : ChangedFiles) (base head : SideInventory) : Pairer where
  comparison
  files
  base
  head
  unpairedBase := candidateSelectors base files.basePaths
  unpairedHead := candidateSelectors head files.headPaths
  symbols := []

variable (p : Pairer)

def push (symbol : ChangedSymbol) : Pairer := { p with symbols := p.symbols ++ [symbol] }

def fileChangeForBase (selector : Text) : FileChange :=
  match p.base.symbols[selector]? with
  | none => (.other, none, none)
  | some symbol =>
    match p.files.forBase symbol.path with
    | some delta => (delta.kind, delta.basePath, delta.headPath)
    | none => (.other, some symbol.path, some symbol.path)

def fileChangeForHead (selector : Text) : FileChange :=
  match p.head.symbols[selector]? with
  | none => (.other, none, none)
  | some symbol =>
    match p.files.forHead symbol.path with
    | some delta => (delta.kind, delta.basePath, delta.headPath)
    | none => (.other, some symbol.path, some symbol.path)

def sourceOf (side : SnapshotSide) (selector : Text) : Except ChangesError (Option SymbolSource) :=
  match Selector.parse selector with
  | .error _ => .ok none
  | .ok parsed =>
    match (p.comparison.snapshot side).showNode parsed DEFAULT_SHOW_MAX_BYTES with
    | .error reason => .error (.query "read changed symbol source" side reason)
    | .ok view => .ok (view.map fun view => ⟨view.bytes, signatureLine view.bytes, view.truncated⟩)

def unpairedIn (inventory : SideInventory) (path : Text) : List Text :=
  let pending := if inventory.side = .base then p.unpairedBase else p.unpairedHead
  (inventory.selectorsIn path).filter fun selector => selector ∈ pending

def changedOnBothSides (baseRef headRef : SymbolRef) (fileChange : FileChange) (baseSource headSource : SymbolSource) :
    ChangedSymbol :=
  let signatureChanged := baseSource.signature ≠ headSource.signature
  { status := if signatureChanged then .signatureChanged else .modified
    pairing := if signatureChanged then .signatureChanged else .sameSelector
    pairingEvidence := if signatureChanged then .signature else .selector
    base := some baseRef
    head := some headRef
    supportingSnapshots := bothSnapshots
    fileChange := fileChange.1
    basePath := fileChange.2.1
    headPath := fileChange.2.2
    uncertainCandidates := []
    note := some (if signatureChanged then
        "signature changed: `" ++ baseSource.signature ++ "` -> `" ++ headSource.signature ++ "`"
      else "body changed; signature line is unchanged") }

def emitMoved (baseSelector headSelector : Text) (kind : FileChangeKind) (evidence : PairingEvidence) :
    Except ChangesError Pairer := do
  let p := { p with
    unpairedBase := p.unpairedBase.erase baseSelector
    unpairedHead := p.unpairedHead.erase headSelector }
  let baseSource ← p.sourceOf .base baseSelector
  let headSource ← p.sourceOf .head headSelector
  let body := match baseSource, headSource with
    | some base, some head =>
      if base.bytes ≠ head.bytes then "content also changed across the move".toList
      else if base.truncated || head.truncated then
        ("available source prefixes match, but at least one was truncated; full content " ++
          "equality could not be established").toList
      else "content is byte-identical across the move".toList
    | _, _ => "content could not be compared across the move".toList
  let (_, basePath, headPath) := p.fileChangeForBase baseSelector
  .ok (p.push
    { status := .moved
      pairing := .moved
      pairingEvidence := evidence
      base := some (p.base.symbolRef baseSelector)
      head := some (p.head.symbolRef headSelector)
      supportingSnapshots := bothSnapshots
      fileChange := kind
      basePath
      headPath
      uncertainCandidates := []
      note := some ("Paired by Git ".toList ++ kind.noun ++
        (" detection for the containing file; the index carries no " ++
          "cross-path symbol identity of its own. ").toList ++ body ++ ".".toList) })

def emitRenamed (baseSelector headSelector : Text) (kind : FileChangeKind) (evidence : PairingEvidence) : Pairer :=
  let p := { p with
    unpairedBase := p.unpairedBase.erase baseSelector
    unpairedHead := p.unpairedHead.erase headSelector }
  let (_, basePath, headPath) := p.fileChangeForBase baseSelector
  p.push
    { status := .renamed
      pairing := .renamed
      pairingEvidence := evidence
      base := some (p.base.symbolRef baseSelector)
      head := some (p.head.symbolRef headSelector)
      supportingSnapshots := bothSnapshots
      fileChange := kind
      basePath
      headPath
      uncertainCandidates := []
      note := some (if evidence = .bodyHash then
          ("Paired by a unique same-file normalized body hash after replacing each identifier. " ++
            "A pairing label is evidence about identity, not about behavior.").toList
        else
          "Sole remaining symbol of this kind on each side of a Git ".toList ++ kind.noun ++
            (" of the containing file. A pairing label is evidence about identity, not about " ++
              "behavior.").toList) }

/-- Those of a group that are unpaired, as candidates. -/
def takeCandidates (inventory : SideInventory) (reason : Text) (pending : Std.TreeSet Text) (selectors : List Text) :
    Std.TreeSet Text × List UncertainCandidate :=
  selectors.foldl (fun (pending, candidates) selector =>
    if selector ∈ pending then (pending.erase selector, candidates ++ [⟨inventory.symbolRef selector, reason⟩])
    else (pending, candidates)) (pending, [])

/-- One uncertain entry for those of two groups that are unpaired, if there are any. -/
def emitUncertainGroup (baseSelectors headSelectors : List Text) (kind : FileChangeKind) (reason : Text) : Pairer :=
  let (unpairedBase, baseCandidates) := takeCandidates p.base reason p.unpairedBase baseSelectors
  let (unpairedHead, headCandidates) := takeCandidates p.head reason p.unpairedHead headSelectors
  let candidates := baseCandidates ++ headCandidates
  let p := { p with unpairedBase, unpairedHead }
  if candidates = [] then p
  else p.push
    { status := .uncertain
      pairing := .uncertain
      pairingEvidence := .none
      base := none
      head := none
      supportingSnapshots := bothSnapshots
      fileChange := kind
      basePath := (baseSelectors.head?.bind (p.base.symbols[·]?)).map IndexedSymbol.path
      headPath := (headSelectors.head?.bind (p.head.symbols[·]?)).map IndexedSymbol.path
      uncertainCandidates := candidates
      note := some (reason ++ ". Every candidate is listed and none is chosen.") }

def pairShared (selector : Text) : Except ChangesError Pairer := do
  let p := { p with
    unpairedBase := p.unpairedBase.erase selector
    unpairedHead := p.unpairedHead.erase selector }
  let baseRef := p.base.symbolRef selector
  let headRef := p.head.symbolRef selector
  let fileChange := p.fileChangeForBase selector
  if selector ∈ p.base.ambiguousSelectors ∨ selector ∈ p.head.ambiguousSelectors then
    .ok (p.push (uncertainPair baseRef headRef .none fileChange
      "the selector addresses more than one indexed symbol on this side".toList
      ("Several indexed symbols share this canonical selector; the index collapses " ++
        "them, so no candidate is chosen.").toList))
  else
    let baseSource ← p.sourceOf .base selector
    let headSource ← p.sourceOf .head selector
    match baseSource, headSource with
    | some baseSource, some headSource =>
      if baseSource.bytes = headSource.bytes then
        if !baseSource.truncated && !headSource.truncated then .ok p
        else
          -- only the prefixes are known to be equal
          let bound := Nat.toDigits 10 DEFAULT_SHOW_MAX_BYTES
          .ok (p.push (uncertainPair baseRef headRef .selector fileChange
            ("source comparison was bounded to ".toList ++ bound ++ " bytes".toList)
            ("The first ".toList ++ bound ++ (" bytes are identical on both sides, " ++
              "but at least one side was truncated by that bound, so whether the symbol " ++
              "changed is undetermined.").toList)))
      else .ok (p.push (changedOnBothSides baseRef headRef fileChange baseSource headSource))
    | _, _ =>
      .ok (p.push (uncertainPair baseRef headRef .selector fileChange
        "source for this selector could not be read on this side".toList
        ("The index lists this selector on both sides but its source span could not be " ++
          "read, so no body or signature comparison was made.").toList))

/-- Rungs 1 and 2. -/
def pairSameSelector : Except ChangesError Pairer :=
  (p.unpairedBase.toList.filter fun selector => selector ∈ p.unpairedHead).foldlM pairShared p

/-- The groups of one key on the two sides. -/
def overGroups {κ : Type} [Ord κ] (emit : Pairer → κ → List Text → List Text → Except ChangesError Pairer)
    (baseGroups headGroups : Std.TreeMap κ (List Text)) : Except ChangesError Pairer :=
  baseGroups.toList.foldlM (fun p group =>
    match headGroups[group.1]? with
    | none => .ok p
    | some headSelectors => emit p group.1 group.2 headSelectors) p

def emitGroup (pairOne : Text → Text → Except ChangesError Pairer) (kind : FileChangeKind) (reason : Text) :
    List Text → List Text → Except ChangesError Pairer
  | [baseSelector], [headSelector] => pairOne baseSelector headSelector
  | baseSelectors, headSelectors => .ok (p.emitUncertainGroup baseSelectors headSelectors kind reason)

def nameAndKind (inventory : SideInventory) (selector : Text) : Option (Text × Text) :=
  inventory.symbols[selector]?.map fun symbol => (symbol.name, symbol.kind)

def kindOf (inventory : SideInventory) (selector : Text) : Option Text :=
  inventory.symbols[selector]?.map IndexedSymbol.kind

def pairMovedInFile (basePath headPath : Text) (kind : FileChangeKind) (evidence : PairingEvidence) :
    Except ChangesError Pairer :=
  p.overGroups (fun p identity => p.emitGroup (fun base head => p.emitMoved base head kind evidence) kind
        ("`" ++ identity.1 ++ "` occurs more than once on one side of this file rename"))
    (groups (nameAndKind p.base) (p.unpairedIn p.base basePath))
    (groups (nameAndKind p.head) (p.unpairedIn p.head headPath))

def pairRenamedInFile (basePath headPath : Text) (kind : FileChangeKind) (evidence : PairingEvidence) :
    Except ChangesError Pairer :=
  p.overGroups (fun p symbolKind => p.emitGroup (fun base head => .ok (p.emitRenamed base head kind evidence)) kind
        ("several `" ++ symbolKind ++ "` symbols are unpaired on both sides of this file rename"))
    (groups (kindOf p.base) (p.unpairedIn p.base basePath))
    (groups (kindOf p.head) (p.unpairedIn p.head headPath))

def gitEvidence (kind : FileChangeKind) : PairingEvidence := if kind = .copied then .gitCopy else .gitRename

/-- Rungs 3 and 4. -/
def pairAcrossRenamedFiles : Except ChangesError Pairer :=
  p.files.renamedPairs.foldlM (fun p (basePath, headPath, kind) => do
    let p ← p.pairMovedInFile basePath headPath kind (gitEvidence kind)
    p.pairRenamedInFile basePath headPath kind (gitEvidence kind)) p

/-- The kind, the parent and the body of a symbol, if its source is complete. -/
def bodyKey (inventory : SideInventory) (selector : Text) :
    Except ChangesError (Option (Text × Text × UInt64 × List UInt8)) :=
  match inventory.symbols[selector]? with
  | none => .ok none
  | some symbol => do
      let some source ← p.sourceOf inventory.side selector | .ok none
      .ok ((normalizedBodyHash source symbol.name).map fun hashed =>
        (symbol.kind, parentQualified symbol.qualified, hashed))

def bodyGroups (inventory : SideInventory) (path : Text) :
    Except ChangesError (Std.TreeMap (Text × Text × UInt64 × List UInt8) (List Text)) := do
  let selectors := p.unpairedIn inventory path
  let keys ← selectors.mapM (p.bodyKey inventory)
  .ok ((groups Prod.snd (selectors.zip keys)).map fun _ group => group.map Prod.fst)

/-- Rung 5, in one file that keeps its path. -/
def pairBodiesInFile (path : Text) (fileChange : FileChangeKind) : Except ChangesError Pairer := do
  let baseGroups ← p.bodyGroups p.base path
  let headGroups ← p.bodyGroups p.head path
  p.overGroups (fun p identity =>
      p.emitGroup (fun base head => .ok (p.emitRenamed base head fileChange .bodyHash)) fileChange
        ("ambiguous same-file body-hash rename: " ++ identity.1 ++ " `" ++ identity.2.1 ++
          "` symbols share the same parent and normalized body"))
    baseGroups headGroups

/-- Rung 5. -/
def pairRenamedByBodyHash : Except ChangesError Pairer :=
  p.files.sameFilePaths.foldlM (fun p (path, fileChange) => p.pairBodiesInFile path fileChange) p

/-- One name and kind at different paths, without evidence from Git: never a pair. -/
def pairUncertainCrossPath : Except ChangesError Pairer :=
  p.overGroups (fun p identity bases heads => .ok (p.emitUncertainGroup bases heads .other
      ("`" ++ identity.1 ++ ("` disappears at one path and appears at another, with no Git rename or " ++
        "copy evidence linking the two files").toList)))
    (groups (nameAndKind p.base) p.unpairedBase.toList)
    (groups (nameAndKind p.head) p.unpairedHead.toList)

/-- An entry for a symbol of one side only. -/
def removedSymbol (selector : Text) : ChangedSymbol :=
  let (fileChange, basePath, headPath) := p.fileChangeForBase selector
  { status := .removed
    pairing := .sameSelector
    pairingEvidence := .selector
    base := some (p.base.symbolRef selector)
    head := none
    supportingSnapshots := ["base".toList]
    fileChange
    basePath
    headPath
    uncertainCandidates := []
    note := some ("Present in base and absent from head. This is not a claim that nothing replaced it.".toList) }

def addedSymbol (selector : Text) : ChangedSymbol :=
  let (fileChange, basePath, headPath) := p.fileChangeForHead selector
  { status := .added
    pairing := .sameSelector
    pairingEvidence := .selector
    base := none
    head := some (p.head.symbolRef selector)
    supportingSnapshots := ["head".toList]
    fileChange
    basePath
    headPath
    uncertainCandidates := []
    note := some (("Present in head and absent from base. This is not a claim that it did not " ++
      "exist under another identity.").toList) }

/-- What is left is removed or added. -/
def emitUnpaired : Pairer :=
  { p with
    unpairedBase := ∅
    unpairedHead := ∅
    symbols := p.symbols ++ p.unpairedBase.toList.map p.removedSymbol ++ p.unpairedHead.toList.map p.addedSymbol }

/-- The rungs before the last. -/
def pairAll : Except ChangesError Pairer := do
  let p ← p.pairSameSelector
  let p ← p.pairAcrossRenamedFiles
  let p ← p.pairRenamedByBodyHash
  p.pairUncertainCrossPath

end Pairer

def CHANGED_SYMBOLS_SCHEMA_VERSION : Nat := 1

/-- The payload for a comparison. -/
structure ChangedSymbols where
  schemaVersion : Nat
  symbols : List ChangedSymbol
  outOfScope : List OutOfScopeEntry

def entryBefore (left right : ChangedSymbol) : Bool :=
  ((compare left.primarySelector right.primarySelector).then (compare left.status right.status)).isLE

def ChangedSymbols.compute (comparison : Comparison) : Except ChangesError ChangedSymbols := do
  let files := changedFiles (← comparison.deltas)
  let base ← SideInventory.load .base comparison.base
  let head ← SideInventory.load .head comparison.head
  let unseen := Changes.outOfScope comparison files base head
  let pairer ← (Pairer.new comparison files base head).pairAll
  .ok ⟨CHANGED_SYMBOLS_SCHEMA_VERSION, pairer.emitUnpaired.symbols.mergeSort entryBefore, unseen⟩

end OrbitGraph.Changes
