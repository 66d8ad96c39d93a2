import OrbitGraph.Lib.Agreement
import OrbitGraph.Lib.Search
import OrbitGraph.Sync.TypeMember

/-!
The resolver of pass 2: the confidence ladder that turns a raw reference into
the row it is stored as.

A resolver reads the symbol, import and file rows pass 1 left and the packages
of the worktree; it writes nothing. The source memoizes five of its lookups,
each a read of rows that are fixed for the whole pass, so the functions below
compute them where they are asked. The one memo that is not a plain cache, the
per-file memo keyed by what the ladder reads of a reference, is kept
(`resolveFile`).

The queries' `ORDER BY` clauses are dropped: every rung asks only whether
exactly one candidate is left.
-/

namespace OrbitGraph.Sync

open Lib

/-! ### Candidates -/

/-- The columns the ladder reads of a symbol row. -/
structure SymbolCandidate where
  id : Nat
  filePath : Text
  name : Text
  qualified : Text
  deriving DecidableEq

def SymbolRow.candidate (s : SymbolRow) : SymbolCandidate :=
  ⟨s.id, s.filePath, s.name, s.qualified⟩

/-- A cross-file candidate and the language of its file. -/
structure NamedCandidate where
  symbol : SymbolCandidate
  language : Text
  deriving DecidableEq

structure ImportCandidate where
  targetPath : Text
  targetSymbol : Option Text

structure ReexportCandidate where
  fromFile : Text
  targetPath : Text
  targetSymbol : Option Text
  sourceSymbol : Option Text
  module : Text

/-- What a map of matches keyed by symbol id holds: one, several or none. -/
inductive ImportResolution where
  | unique (candidate : SymbolCandidate)
  | ambiguous
  | none

/-- The entries of the id-keyed map that the matches were inserted in. -/
def ImportResolution.ofMatches : List SymbolCandidate → ImportResolution
  | [] => .none
  | c :: rest => if rest.all fun d => d.id == c.id then .unique c else .ambiguous

structure ResolvedRef where
  targetQualified : Option Text
  targetSymbolHint : Option Nat
  confidence : Confidence
  deriving DecidableEq

namespace ResolvedRef

def fuzzy : ResolvedRef := ⟨none, none, .fuzzyName⟩

def candidate (c : SymbolCandidate) (confidence : Confidence) : ResolvedRef :=
  ⟨some c.qualified, some c.id, confidence⟩

end ResolvedRef

def trimStartColons : Text → Text
  | ':' :: ':' :: rest => trimStartColons rest
  | text => text

def enclosingModules (path : Text) : List Text :=
  [] :: (((Text.splitPair ':' ':' path).inits.drop 1).dropLast.map (Text.join colons))

def ReexportCandidate.exposingModule (row : ReexportCandidate) : Text :=
  let fileModule := Text.join colons (fileModuleParts row.fromFile)
  if row.module.isEmpty then fileModule else joinModuleSymbol fileModule row.module

/-- Where one re-export of `module` leads the path to, if it applies to it. -/
def ReexportCandidate.mapped (row : ReexportCandidate) (module path : Text) : Option Text :=
  let target := resolveReexportPath row.fromFile row.module row.targetPath
  match row.targetSymbol with
  | some exposed => do
      let rest ← Text.stripPrefix (joinModuleSymbol module exposed) path
      let source := row.sourceSymbol.getD exposed
      let sourcePath := if source.isEmpty then target else joinModuleSymbol target source
      if rest.isEmpty || Text.startsWith colons rest then some (sourcePath ++ rest) else none
  | none => do
      let rest ← Text.stripPrefix module path
      if Text.startsWith colons rest then some (target ++ rest) else none

/-- The paths that the re-exports of the modules above `path` map it to. An
explicit re-export of the exposed name hides the glob re-exports beside it. -/
def reexportTargets (reexports : Text → List ReexportCandidate) (path : Text) : List Text :=
  (enclosingModules path).flatMap fun module =>
    let rows := reexports module
    let exposedName :=
      ((Text.splitPair ':' ':'
        (trimStartColons ((Text.stripPrefix module path).getD []))).head?).getD []
    let hasExplicit := rows.any fun row => row.targetSymbol == some exposedName
    rows.filterMap fun row =>
      if hasExplicit && row.targetSymbol.isNone then none else row.mapped module path

def runtimeInvocationKind : Text := "runtime_invocation"

/-- Whether a reference may be matched on its short name alone. -/
def resolvesByNameOnly (raw : RawRef) : Bool := raw.unresolvedReceiver.isNone

def importLocalName (targetPath : Text) : Text :=
  let parts := (Text.splitChar ':' targetPath).flatMap (Text.splitChar '.')
  (parts.reverse.find? fun part => !part.isEmpty).getD []

/-- The module an import takes a reference's target from, if the reference goes
through it. -/
def importModuleForRef (fromFile : Text) (imp : ImportCandidate) (raw : RawRef) : Option Text :=
  if imp.targetSymbol = some raw.targetName then
    some (resolveImportPath fromFile imp.targetPath)
  else do
    let qualifier ←
      Text.stripSuffix (colons ++ raw.targetName)
        (normalizeModulePath (raw.targetQualified.getD []))
    let localName := imp.targetSymbol.getD (importLocalName imp.targetPath)
    if lastSegment qualifier ≠ localName then none
    else
      let module := resolveImportPath fromFile imp.targetPath
      if Text.endsWith ".rs" fromFile && imp.targetSymbol.isSome then
        some (joinModuleSymbol module localName)
      else some module

def bestTier (members : List (Tier × NamedCandidate)) : List NamedCandidate :=
  match [Tier.inherent, .traitImpl, .traitDeclaration].find? fun tier =>
    members.any fun member => member.1 == tier with
  | none => []
  | some best => (members.filter fun member => member.1 == best).map Prod.snd

def isOneFile : List Text → Bool
  | [] => false
  | file :: rest => rest.all fun other => other == file

section Ladder

variable [CharTables]

namespace NamedCandidate

def normalizedQualified (c : NamedCandidate) : Text := normalizeModulePath c.symbol.qualified

def ownPrefix (c : NamedCandidate) : Option Text :=
  (qualifiedPrefixBeforeName c.symbol.qualified c.symbol.name).map normalizeModulePath

def ownTypePath (c : NamedCandidate) : Text :=
  ((MemberTarget.parse c.symbol.qualified).map fun parsed => normalizeModulePath parsed.typePath).getD []

end NamedCandidate

/-- A module that can hold a type, in the library of one package if the path
names it. -/
structure ScopedModule where
  module : Text
  packageDir : Option FsPath

/-- Resolves references against the rows pass 1 wrote: the symbols, the imports
and the languages of the files. -/
structure Resolver where
  symbols : List SymbolRow
  imports : List ImportRow
  langOf : Text → Option Text
  packageForFile : Text → Option PackageIdentity

/-- The resolver of a pass over an index, in a worktree with these packages. -/
def Resolver.of (packages : PackageFiles) (idx : Index) : Resolver :=
  ⟨idx.symbols, idx.imports, idx.langOf, PackageIdentity.read packages⟩

namespace Resolver

variable (R : Resolver)

/-! ### Queries -/

def symbolsOf (file : Text) : List SymbolRow := R.symbols.filter fun s => s.filePath = file

/-- The symbols of a file that a textual reference can name; `impl` blocks are
stored under their type's name and are never a target. -/
def symbolsInFileByName (fromFile name : Text) : List SymbolCandidate :=
  ((R.symbolsOf fromFile).filter fun s =>
    s.name == name && s.kind != "impl".toList).map SymbolRow.candidate

def namedCandidate (s : SymbolRow) : Option NamedCandidate :=
  (R.langOf s.filePath).map fun language => ⟨s.candidate, language⟩

def symbolsByName (name : Text) : List NamedCandidate :=
  (R.symbols.filter fun s => s.name == name && s.kind != "impl".toList).filterMap
    R.namedCandidate

def modulePrefixesForFile (file : Text) : Finset Text :=
  modulePrefixes file ((R.symbolsOf file).map fun s => (s.qualified, s.name))

def importsForFile (fromFile : Text) : List ImportCandidate :=
  (R.imports.filter fun row => row.fromFile = fromFile).map fun row =>
    ⟨row.targetPath, row.targetSymbol⟩

def reexportCandidate (row : ImportRow) : Option ReexportCandidate :=
  if R.langOf row.fromFile = some "rust".toList then
    row.reexportModule.map fun inner =>
      ⟨row.fromFile, row.targetPath, row.targetSymbol, row.sourceSymbol, inner⟩
  else none

def reexports (module : Text) : List ReexportCandidate :=
  (R.imports.filterMap R.reexportCandidate).filter fun row => row.exposingModule == module

def traitImplOf (typeName : Text) (s : SymbolRow) : Option (Text × NamedCandidate) :=
  match implTypeAndTrait s.qualified with
  | some (selfName, traitName) =>
    if selfName = typeName then some (traitName, ⟨s.candidate, "rust"⟩) else none
  | none => none

/-- The `impl Trait for T` blocks whose type's last segment is `typeName`:
`LIKE '<% as %>'` and `impl_type_and_trait`. -/
def traitImplsOf (typeName : Text) : List (Text × NamedCandidate) :=
  (R.symbols.filter fun s => s.kind == "impl".toList).filterMap (traitImplOf typeName)

/-- Whether `p` holds of one of the candidate's module prefixes: the prefix of
its own name, or one of its file's. -/
def anyPrefix (c : NamedCandidate) (p : Text → Bool) : Bool :=
  (match c.ownPrefix with
    | some own => p own
    | none => false) ||
    decide (∃ pre ∈ R.modulePrefixesForFile c.symbol.filePath, p pre = true)

def candidateMatchesQualified (c : NamedCandidate) (target : Text) : Bool :=
  c.normalizedQualified == target ||
    R.anyPrefix c fun pre => isModuleSymbol target pre c.normalizedQualified

def candidateMatchesModule (c : NamedCandidate) (module : Text) : Bool :=
  R.anyPrefix c fun pre => pre == module || isModuleSuffix pre module

def candidateSharesModule (c : NamedCandidate) (prefixes : Finset Text) : Bool :=
  R.anyPrefix c fun pre => decide (pre ∈ prefixes)

def candidateWithinModule (c : NamedCandidate) (qualifier : Text) : Bool :=
  R.anyPrefix c fun pre => prefixWithinModule pre qualifier

/-! ### The generic rungs -/

/-- The symbols of the calling file a reference can name; a free item is never
a member. -/
def exactCandidates (fromFile : Text) (raw : RawRef) : List SymbolCandidate :=
  let candidates := R.symbolsInFileByName fromFile raw.targetName
  if namesFreeItem fromFile raw then candidates.filter fun c => !isMemberSymbol c.qualified
  else candidates

def resolveExact (fromFile : Text) (raw : RawRef) : Option SymbolCandidate :=
  let candidates := R.exactCandidates fromFile raw
  let qualifiedMatch :=
    raw.targetQualified.bind fun target =>
      uniqueElem (candidates.filter fun c => c.qualified == target)
  match qualifiedMatch with
  | some c => some c
  | none =>
    if (callModuleQualifier fromFile raw).isSome || !resolvesByNameOnly raw then none
    else uniqueElem candidates

/-- The one candidate named `name` that `target`, already normalized, names. -/
def uniqueQualifiedMatch (language name target : Text) : Option SymbolCandidate :=
  (uniqueElem ((R.symbolsByName name).filter fun c =>
    c.language == language && R.candidateMatchesQualified c target)).map NamedCandidate.symbol

/-- The candidates that imports can bring, where `explicit` tells whether an
entry must name the target itself. A candidate that two imports bring counts
once, as in the source's map keyed by id. -/
def importMatches (fromFile language : Text) (imports : List ImportCandidate) (raw : RawRef)
    (explicit : Bool) : List NamedCandidate :=
  (R.symbolsByName raw.targetName).filter fun c =>
    c.language == language &&
      !(namesFreeItem fromFile raw && isMemberSymbol c.symbol.qualified) &&
      imports.any fun imp =>
        (imp.targetSymbol == some raw.targetName) == explicit &&
          match importModuleForRef fromFile imp raw with
          | some module => R.candidateMatchesModule c (normalizeModulePath module)
          | none => false

def resolveImport (fromFile language : Text) (imports : List ImportCandidate) (raw : RawRef) :
    ImportResolution :=
  match R.importMatches fromFile language imports raw true with
  | [c] => .unique c.symbol
  | _ :: _ :: _ => .ambiguous
  | [] =>
    match R.importMatches fromFile language imports raw false with
    | [c] => .unique c.symbol
    | _ :: _ :: _ => .ambiguous
    | [] => .none

def resolveQualified (language : Text) (raw : RawRef) : Option SymbolCandidate :=
  if raw.kind = "use".toList then none
  else
    raw.targetQualified.bind fun target =>
      if !Text.contains colons target && !Text.contains ['.'] target then none
      else R.uniqueQualifiedMatch language raw.targetName (normalizeModulePath target)

/-- How many paths the search through re-exports may visit. -/
def reexportBudget : Nat := 64

/-- The match of one path the search through re-exports visited. The spelled
path itself was matched by the qualified rung. -/
def reexportMatch (initial path : Text) : Option SymbolCandidate :=
  if path = initial then none else R.uniqueQualifiedMatch "rust".toList (lastSegment path) path

/-- Follows public re-exports from a spelled path to the named symbol. -/
def resolveReexport (fromFile : Text) (raw : RawRef) : ImportResolution :=
  match raw.targetQualified with
  | none => .none
  | some spelled =>
    let initial := resolveImportPath fromFile spelled
    if !Text.contains colons initial then .none
    else
      match explore (reexportTargets R.reexports) reexportBudget [] [initial] with
      | none => .ambiguous
      | some visited => ImportResolution.ofMatches (visited.filterMap (R.reexportMatch initial))

def resolveSameModule (fromFile language : Text) (raw : RawRef) : Option SymbolCandidate :=
  let prefixes := R.modulePrefixesForFile fromFile
  if !resolvesByNameOnly raw || decide (prefixes = ∅) then none
  else
    (uniqueElem ((R.symbolsByName raw.targetName).filter fun c =>
      c.language == language && c.symbol.filePath != fromFile &&
        !(namesFreeItem fromFile raw && isMemberSymbol c.symbol.qualified) &&
        (match callModuleQualifier fromFile raw with
          | some qualifier => R.candidateWithinModule c qualifier
          | none => true) &&
        R.candidateSharesModule c prefixes)).map NamedCandidate.symbol

/-! ### The type-member rung -/

/-- Modules that can hold the type named by a written path or an import. Only
its emptiness and its members are asked. -/
def typeScope (fromFile : Text) (imports : List ImportCandidate) (target : MemberTarget) :
    List ScopedModule :=
  let paths :=
    if target.typePath.isEmpty then
      (imports.filter fun imp => imp.targetSymbol == some target.typeName).map
        ImportCandidate.targetPath
    else [target.typePath]
  paths.filterMap fun path =>
    let normalized := Text.replaceChar '-' "_" (normalizeModulePath path)
    let (root, rest) := (Text.splitOnce colons normalized).getD (normalized, [])
    let inPackage : Option ScopedModule :=
      match R.packageForFile fromFile with
      | some package =>
        if root ∈ package.aliases then some ⟨rest, some package.manifestDir⟩ else none
      | none => none
    match inPackage with
    | some item => some item
    | none =>
      let module := Text.replaceChar '-' "_" (resolveImportPath fromFile path)
      if module.isEmpty then none else some ⟨module, none⟩

def withinScopedModule (c : NamedCandidate) (item : ScopedModule) : Bool :=
  let underModule :=
    (!c.ownTypePath.isEmpty && prefixWithinModule c.ownTypePath item.module) ||
      R.candidateWithinModule c item.module
  match item.packageDir with
  | none => underModule
  | some dir =>
    match R.packageForFile c.symbol.filePath with
    | none => false
    | some package =>
      if package.manifestDir ≠ dir || !package.containsLibraryFile package.sourcePath then false
      else item.module.isEmpty || underModule

def memberWithinScope (c : NamedCandidate) (scope : List ScopedModule) : Bool :=
  scope.any (R.withinScopedModule c)

/-- Several in-scope members of the best tier: the calling file's own, then the
one sharing the calling file's module. -/
def pickNearest (fromFile : Text) (pool : List NamedCandidate) : Option ResolvedRef :=
  match uniqueElem (pool.filter fun c => c.symbol.filePath == fromFile) with
  | some only => some (.candidate only.symbol .exact)
  | none =>
    let prefixes := R.modulePrefixesForFile fromFile
    (uniqueElem (pool.filter fun c => R.candidateSharesModule c prefixes)).map fun only =>
      .candidate only.symbol .sameModule

/-- Picks among members of a type the file names through a written path or
through an import. `total` counts the same-named members before scoping. -/
def pickScoped (fromFile : Text) (inScope : List (Tier × NamedCandidate)) (total : Nat) :
    Option ResolvedRef :=
  match uniqueElem (bestTier inScope) with
  | some only => some (.candidate only.symbol (if total = 1 then .exact else .importResolved))
  | none => R.pickNearest fromFile (bestTier inScope)

/-- Picks among members of a type the file names without a path or an import,
in the calling file, then in its module, then anywhere. -/
def pickUnscoped (fromFile : Text) (members : List (Tier × NamedCandidate)) :
    Option ResolvedRef :=
  match uniqueElem members with
  | some (_, only) => some (.candidate only.symbol .exact)
  | none =>
    let sameFile := members.filter fun member => member.2.symbol.filePath == fromFile
    if !sameFile.isEmpty then
      (uniqueElem (bestTier sameFile)).map fun only => .candidate only.symbol .exact
    else
      let prefixes := R.modulePrefixesForFile fromFile
      let nearby := members.filter fun member => R.candidateSharesModule member.2 prefixes
      if !nearby.isEmpty then
        (uniqueElem (bestTier nearby)).map fun only => .candidate only.symbol .sameModule
      else
        (uniqueElem (bestTier members)).bind fun only =>
          if members.all fun member => member.2.symbol.filePath == only.symbol.filePath then
            some (.candidate only.symbol .exact)
          else none

/-- The trait impl blocks of the target's type, inside the scope if there is
one. -/
def relevantImpls (target : MemberTarget) (scope : List ScopedModule) :
    List (Text × NamedCandidate) :=
  (R.traitImplsOf target.typeName).filter fun impl =>
    (match target.traitName with
      | some wanted => wanted == impl.1
      | none => true) &&
      (scope.isEmpty || R.memberWithinScope impl.2 scope)

def declaresMemberOf (traits : List Text) (c : NamedCandidate) : Bool :=
  match MemberTarget.parse c.symbol.qualified with
  | some parsed => !parsed.bracketed && decide (parsed.typeName ∈ traits)
  | none => false

def resolveTraitDefault (target : MemberTarget) (scope : List ScopedModule) :
    Option ResolvedRef :=
  if target.traitObject then none
  else
    let impls := R.relevantImpls target scope
    (uniqueElem ((R.symbolsByName target.member).filter (declaresMemberOf (impls.map Prod.fst)))).bind fun only =>
        if !scope.isEmpty || isOneFile (impls.map fun impl => impl.2.symbol.filePath) then
          some (.candidate only.symbol .exact)
        else none

def membersOf (target : MemberTarget) : List (Tier × NamedCandidate) :=
  (R.symbolsByName target.member).filterMap fun c =>
    ((MemberTarget.parse c.symbol.qualified).bind target.tierOf).map fun tier => (tier, c)

def pickMember (fromFile : Text) (scope : List ScopedModule) (target : MemberTarget) :
    Option ResolvedRef :=
  let members := R.membersOf target
  if scope.isEmpty then R.pickUnscoped fromFile members
  else
    R.pickScoped fromFile (members.filter fun member => R.memberWithinScope member.2 scope)
      members.length

/-- Resolves a reference whose target names a member of a known type; `none`
sends it down the generic ladder. -/
def resolveTypeMember (fromFile : Text) (imports : List ImportCandidate)
    (target : MemberTarget) : Option ResolvedRef :=
  let scope := R.typeScope fromFile imports target
  match R.pickMember fromFile scope target with
  | some resolved => some resolved
  | none =>
    match R.resolveTraitDefault target scope with
    | some resolved => some resolved
    | none =>
      -- A receiver's member may come through `Deref`: back to the ladder.
      if (R.membersOf target).isEmpty && scope.isEmpty then
        if target.bracketed then none else some .fuzzy
      else some .fuzzy

/-! ### The ladder -/

/-- The type-member rung, for the references that name a member. -/
def resolveMember (fromFile : Text) (imports : List ImportCandidate) (raw : RawRef) :
    Option ResolvedRef :=
  (MemberTarget.ofRef fromFile raw).bind (R.resolveTypeMember fromFile imports)

/-- Whether the reference spells a path relative to the calling module. -/
def spellsRelativePath (language : Text) (raw : RawRef) : Bool :=
  language == "rust" && raw.spelledPath &&
    match raw.targetQualified with
    | some target =>
      Text.startsWith "self::" target || Text.startsWith "super::" target
    | none => false

def resolveReexportRung (fromFile language : Text) (raw : RawRef) : ImportResolution :=
  if language == "rust".toList && raw.spelledPath then R.resolveReexport fromFile raw else .none

/-- The rungs above the re-exports: `none` when none of them decides. -/
def resolveDirect (fromFile language : Text) (imports : List ImportCandidate) (raw : RawRef) :
    Option ResolvedRef :=
  -- A runtime invocation names a program and never climbs the ladder.
  if raw.kind = runtimeInvocationKind then some .fuzzy
  else
    match R.resolveMember fromFile imports raw with
    | some resolved => some resolved
    | none =>
      match R.resolveExact fromFile raw with
      | some c => some (.candidate c .exact)
      | none =>
        match R.resolveImport fromFile language imports raw with
        | .unique c => some (.candidate c .importResolved)
        | .ambiguous => some .fuzzy
        | .none =>
          match R.resolveQualified language raw with
          | some c => some (.candidate c .exact)
          | none =>
            -- `self` and `super` name the calling module before any alias.
            (if spellsRelativePath language raw then
                R.resolveSameModule fromFile language raw
              else none).map (.candidate · .sameModule)

def resolveRef (fromFile language : Text) (imports : List ImportCandidate) (raw : RawRef) :
    ResolvedRef :=
  match R.resolveDirect fromFile language imports raw with
  | some resolved => resolved
  | none =>
    match R.resolveReexportRung fromFile language raw with
    | .unique c => .candidate c .importResolved
    | .ambiguous => .fuzzy
    | .none =>
      match R.resolveSameModule fromFile language raw with
      | some c => .candidate c .sameModule
      | none => .fuzzy

end Resolver

end Ladder

/-! ### The per-file memo -/

/-- Everything a reference's resolution depends on besides the file it sits
in. -/
structure RefKey where
  isRuntimeInvocation : Bool
  isUse : Bool
  nameOnly : Bool
  spelledPath : Bool
  targetName : Text
  targetQualified : Option Text
  deriving DecidableEq

def RefKey.of (raw : RawRef) : RefKey where
  isRuntimeInvocation := raw.kind == runtimeInvocationKind
  isUse := raw.kind == "use"
  nameOnly := resolvesByNameOnly raw
  spelledPath := raw.spelledPath
  targetName := raw.targetName
  targetQualified := raw.targetQualified

/-- `resolve` applied to each reference in order, looking a key up in `memo`
before it resolves. -/
def resolveMemoized (resolve : RawRef → ResolvedRef) :
    List (RefKey × ResolvedRef) → List RawRef → List ResolvedRef
  | _, [] => []
  | memo, raw :: rest =>
    match memo.find? fun entry => entry.1 = RefKey.of raw with
    | some known => known.2 :: resolveMemoized resolve memo rest
    | none => resolve raw :: resolveMemoized resolve ((RefKey.of raw, resolve raw) :: memo) rest

/-- A memo keyed by what `resolve` reads changes no result. -/
theorem resolveMemoized_eq_map {resolve : RawRef → ResolvedRef}
    (reads : ∀ raw raw', RefKey.of raw = RefKey.of raw' → resolve raw = resolve raw')
    {memo : List (RefKey × ResolvedRef)}
    (sound : ∀ entry ∈ memo, ∀ raw, RefKey.of raw = entry.1 → resolve raw = entry.2)
    (refs : List RawRef) : resolveMemoized resolve memo refs = refs.map resolve := by
  induction refs generalizing memo with
  | nil => rfl
  | cons raw rest ih =>
    cases found : memo.find? fun entry => entry.1 = RefKey.of raw with
    | some known =>
      have same : known.1 = RefKey.of raw := by
        have := List.find?_some found
        exact of_decide_eq_true this
      have value := sound known (List.mem_of_find?_eq_some found) raw same.symm
      simp [resolveMemoized, found, ih sound, value]
    | none =>
      have sound' : ∀ entry ∈ (RefKey.of raw, resolve raw) :: memo,
          ∀ raw', RefKey.of raw' = entry.1 → resolve raw' = entry.2 := by
        intro entry mem raw' key
        rcases List.mem_cons.mp mem with rfl | mem
        · exact reads raw' raw key
        · exact sound entry mem raw' key
      simp [resolveMemoized, found, ih sound']

section

variable [CharTables]

namespace Resolver

variable (R : Resolver)

/-- `SELECT lang FROM files WHERE path = ?1`. The file of a reference always has
its row, which the reference's foreign key points at. -/
def languageOf (fromFile : Text) : Text := (R.langOf fromFile).getD []

def resolveFile (fromFile : Text) (refs : List RawRef) : List ResolvedRef :=
  resolveMemoized
    (R.resolveRef fromFile (R.languageOf fromFile) (R.importsForFile fromFile)) [] refs

/-- The resolution of one reference of a file. -/
def resolveIn (fromFile : Text) (raw : RawRef) : ResolvedRef :=
  R.resolveRef fromFile (R.languageOf fromFile) (R.importsForFile fromFile) raw

/-- The ladder reads no more of a reference than its key holds. -/
theorem resolveRef_congr_key {fromFile language : Text} {imports : List ImportCandidate}
    {raw raw' : RawRef} (key : RefKey.of raw = RefKey.of raw') :
    R.resolveRef fromFile language imports raw = R.resolveRef fromFile language imports raw' := by
  simp only [RefKey.of, RefKey.mk.injEq, resolvesByNameOnly] at key
  obtain ⟨runtime, use, nameOnly, spelled, name, qualified⟩ := key
  have runtime' : raw.kind = runtimeInvocationKind ↔ raw'.kind = runtimeInvocationKind := by
    rw [← beq_iff_eq, runtime, beq_iff_eq]
  have use' : raw.kind = "use" ↔ raw'.kind = "use" := by
    rw [← beq_iff_eq, use, beq_iff_eq]
  have receiver : raw.unresolvedReceiver.isSome = raw'.unresolvedReceiver.isSome := by
    rw [← Option.not_isNone, ← Option.not_isNone, nameOnly]
  have freeItem : namesFreeItem fromFile raw = namesFreeItem fromFile raw' := by
    simp only [namesFreeItem, use, receiver, qualified]
  have qualifier : callModuleQualifier fromFile raw = callModuleQualifier fromFile raw' := by
    simp only [callModuleQualifier, spelled, freeItem, qualified]
  have member : R.resolveMember fromFile imports raw = R.resolveMember fromFile imports raw' := by
    simp only [resolveMember, MemberTarget.ofRef, use', qualified, name]
  have exact_ : R.resolveExact fromFile raw = R.resolveExact fromFile raw' := by
    simp only [resolveExact, exactCandidates, resolvesByNameOnly, nameOnly, name, qualified, freeItem, qualifier]
    rfl
  have modules : ∀ imp, importModuleForRef fromFile imp raw = importModuleForRef fromFile imp raw' := by
    intro imp
    simp only [importModuleForRef, name, qualified]
  have importRung : R.resolveImport fromFile language imports raw =
      R.resolveImport fromFile language imports raw' := by
    simp only [resolveImport, importMatches, name, freeItem, modules]
  have sameModule : R.resolveSameModule fromFile language raw =
      R.resolveSameModule fromFile language raw' := by
    simp only [resolveSameModule, resolvesByNameOnly, nameOnly, name, freeItem, qualifier]
    rfl
  have qualifiedRung : R.resolveQualified language raw = R.resolveQualified language raw' := by
    simp only [resolveQualified, use', name, qualified]
  have relative : spellsRelativePath language raw = spellsRelativePath language raw' := by
    simp only [spellsRelativePath, spelled, qualified]
  have reexport : R.resolveReexportRung fromFile language raw =
      R.resolveReexportRung fromFile language raw' := by
    simp only [resolveReexportRung, resolveReexport, spelled, qualified]
  simp only [resolveRef, resolveDirect, runtime', member, exact_, importRung, qualifiedRung,
    relative, reexport, sameModule]

theorem resolveFile_eq_map (fromFile : Text) (refs : List RawRef) :
    R.resolveFile fromFile refs = refs.map (R.resolveIn fromFile) :=
  resolveMemoized_eq_map (fun _ _ key => R.resolveRef_congr_key key) (by simp) refs

end Resolver

end

end OrbitGraph.Sync
