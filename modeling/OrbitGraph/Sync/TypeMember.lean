import OrbitGraph.Sync.Index

/-!
Reading a reference target, or a symbol's qualified name, as the member of a
type, and the package a Rust file belongs to.

Rust symbols are qualified `<T>::m` (inherent impl), `<T as Trait>::m` (trait
impl) or `Trait::m` (trait declaration). `MemberTarget.parse` reads all three,
and the paths a reference writes.
-/

namespace OrbitGraph.Sync

open Lib

variable [CharTables]

/-- `Foo<T>` to `Foo`, `a::Foo::<T>` to `a::Foo`. -/
def stripGenerics (text : Text) : Text :=
  let text := Text.trim (text.takeWhile fun c => c != '<')
  (Text.stripSuffix colons text).getD text

def isFunctionName (name : Text) : Bool :=
  (match name.head? with
    | some c => c.isLower || c == '_'
    | none => false) &&
    name.all fun c => CharTables.isAlphanumeric c || c == '_'

/-- The text before and after the `>` closing the `<` that `text` follows, at
nesting depth `depth`. -/
def matchingAngle : Nat → Text → Option (Text × Text)
  | _, [] => none
  | depth, c :: cs =>
    if c = '<' then (matchingAngle (depth + 1) cs).map fun (inner, rest) => (c :: inner, rest)
    else if c = '>' then
      if depth = 1 then some ([], cs)
      else (matchingAngle (depth - 1) cs).map fun (inner, rest) => (c :: inner, rest)
    else (matchingAngle depth cs).map fun (inner, rest) => (c :: inner, rest)

/-- The last `::` segment of a path. -/
def lastSegment (path : Text) : Text :=
  match Text.rsplitOnce colons path with
  | some (_, last) => last
  | none => path

/-- A target or a qualified name read as `Type::member`. -/
structure MemberTarget where
  /-- Module path written before the type; empty when not written. -/
  typePath : Text
  /-- Last path segment of the Self type, generics removed. -/
  typeName : Text
  /-- Last path segment of the trait for `<T as Trait>::m`. -/
  traitName : Option Text
  /-- Whether the text was bracketed (`<T>::m`). -/
  bracketed : Bool
  /-- Whether the Self type is a trait object (`<dyn Trait>::m`). -/
  traitObject : Bool
  member : Text

/-- The Self type, trait, member and bracketing of a qualified text, before any
of them is checked. -/
def splitMember (qualified : Text) : Option (Text × Option Text × Text × Bool) :=
  match qualified with
  | '<' :: inner => do
      let (self, rest) ← matchingAngle 1 inner
      let member ← Text.stripPrefix colons rest
      match Text.splitOnce " as " self with
      | some (self, trait) => some (Text.trim self, some (Text.trim trait), member, true)
      | none => some (Text.trim self, none, member, true)
  | qualified => do
      let (self, member) ← Text.rsplitOnce colons qualified
      some (self, none, member, false)

namespace MemberTarget

/-- Parses `<T>::m`, `<path::T as Trait>::m` or `path::T::m`, where `T` is
spelled like a type and `m` like a function. -/
def parse (qualified : Text) : Option MemberTarget := do
  let (self, trait, member, bracketed) ← splitMember qualified
  if Text.contains colons member || !isFunctionName member then none
  else
    let (self, traitObject) :=
      match Text.stripPrefix "dyn " self with
      | some object => (Text.trim object, true)
      | none => (self, false)
    let self := stripGenerics self
    let (typePath, typeName) := (Text.rsplitOnce colons self).getD ([], self)
    let upper :=
      match typeName.head? with
      | some c => c.isUpper
      | none => false
    if typeName = "Self" || !upper then none
    else
      some
        { typePath, typeName, bracketed, traitObject, member
          traitName := trait.map fun name => lastSegment (stripGenerics name) }

/-- The member target of a Rust reference, if its `targetQualified` names
one. -/
def ofRef (fromFile : Text) (raw : RawRef) : Option MemberTarget :=
  if !Text.endsWith ".rs" fromFile || raw.kind = "use" then none
  else do
    let target ← parse (← raw.targetQualified)
    if target.member = raw.targetName then some target else none

theorem ofRef_member {fromFile : Text} {raw : RawRef} {target : MemberTarget}
    (h : ofRef fromFile raw = some target) : target.member = raw.targetName := by
  unfold ofRef at h
  split at h
  · cases h
  · simp only [Option.bind_eq_bind, Option.bind_eq_some_iff] at h
    obtain ⟨_, _, parsed, _, h⟩ := h
    split at h
    · next same => cases h; exact same
    · cases h

end MemberTarget

/-- Rust's method lookup tries inherent methods before trait methods; a trait
declaration is the target only when nothing implements the member. -/
inductive Tier where
  | inherent
  | traitImpl
  | traitDeclaration
  deriving DecidableEq

/-- How a candidate symbol relates to a target, or `none` when it is another
type's member. -/
def MemberTarget.tierOf (target candidate : MemberTarget) : Option Tier :=
  if candidate.member ≠ target.member ∨ candidate.typeName ≠ target.typeName then none
  else
    let tier :=
      match candidate.bracketed, candidate.traitName with
      | true, none => Tier.inherent
      | true, some _ => Tier.traitImpl
      | false, _ => Tier.traitDeclaration
    if target.traitObject && tier != Tier.traitDeclaration && !candidate.traitObject then none
    else
      match target.traitName, candidate.traitName with
      | some wanted, some found => if wanted = found then some tier else none
      | some _, none => if tier = Tier.inherent then none else some tier
      | none, _ => some tier

/-- Whether a symbol's qualified name makes it a type's or trait's member. -/
def isMemberSymbol (qualified : Text) : Bool := (MemberTarget.parse qualified).isSome

/-- Whether a Rust reference names a free item: a plain or module-path call, or
a type. Such a path never denotes an impl or trait member. -/
def namesFreeItem (fromFile : Text) (raw : RawRef) : Bool :=
  if !Text.endsWith ".rs" fromFile || raw.kind == "use" ||
      raw.unresolvedReceiver.isSome then false
  else
    match raw.targetQualified with
    | none => false
    | some target =>
      !Text.startsWith "<" target && !Text.startsWith "Self::" target &&
        !isMemberSymbol target

/-- The module path a Rust module-path call spells before its name, with `-`
read as `_`; `none` for a path rooted at `crate`, `self` or `super`. -/
def callModuleQualifier (fromFile : Text) (raw : RawRef) : Option Text :=
  if !raw.spelledPath || !namesFreeItem fromFile raw then none
  else do
    let target := normalizeModulePath (← raw.targetQualified)
    let (qualifier, _) ← Text.rsplitOnce colons target
    let root ← (Text.splitPair ':' ':' qualifier).head?
    if root = "crate" ∨ root = "self" ∨ root = "super" then none
    else some (Text.replaceChar '-' "_" qualifier)

/-- Whether a module prefix is the module `qualifier` names or lies inside
it. -/
def prefixWithinModule (modulePrefix qualifier : Text) : Bool :=
  let modulePrefix := Text.replaceChar '-' "_" modulePrefix
  modulePrefix == qualifier || Text.endsWith (colons ++ qualifier) modulePrefix ||
    Text.startsWith (qualifier ++ colons) modulePrefix ||
    Text.contains (colons ++ qualifier ++ colons) modulePrefix

/-- `("Foo", "Greet")` for an impl block qualified `<a::Foo<T> as b::Greet>`. -/
def implTypeAndTrait (qualified : Text) : Option (Text × Text) := do
  let inner ← Text.stripPrefix "<" qualified
  let inner ← Text.stripSuffix ">" inner
  let (self, trait) ← Text.splitOnce " as " inner
  let last := fun path => lastSegment (stripGenerics (Text.trim path))
  some (last self, last trait)

def implTraitName (qualified : Text) : Option Text := (implTypeAndTrait qualified).map Prod.snd

abbrev FsPath := List Text

/-- The manifest owning a Rust file and the source tree of its library
target. -/
structure PackageIdentity where
  sourcePath : FsPath
  manifestDir : FsPath
  libraryRoot : FsPath
  aliases : List Text

/-- Whether `file` belongs to the package's library target. -/
def PackageIdentity.containsLibraryFile (package : PackageIdentity) (file : FsPath) : Bool :=
  if !package.manifestDir.isPrefixOf file then false
  else
    let relative := file.drop package.manifestDir.length
    let targets : List FsPath :=
      [["tests".toList], ["examples".toList], ["benches".toList], ["src".toList, "bin".toList]]
    if (targets.any fun target => target.isPrefixOf relative) ||
        relative == ["src".toList, "main.rs".toList] then false
    else
      file == package.libraryRoot || (package.libraryRoot.dropLast).isPrefixOf file

/-- The parts of a `Cargo.toml` that name its package and library target. -/
structure Manifest where
  packageName : Option Text
  libName : Option Text
  libPath : Option Text

/-- What the resolver reads of the worktree's file system, with no symbolic
links: the manifests that parse, and which paths are files. -/
structure PackageFiles where
  manifest : FsPath → Option Manifest
  isFile : FsPath → Bool

def pathComponents (path : Text) : FsPath :=
  (Text.splitChar '/' path).filter fun part => !part.isEmpty

/-- The identity a directory's manifest gives to `path`: `none` when the
directory has no package manifest, `some none` when it has one whose library
target is missing. -/
def PackageIdentity.ofDirectory (fs : PackageFiles) (path directory : FsPath) :
    Option (Option PackageIdentity) := do
  let manifest ← fs.manifest directory
  let name ← manifest.packageName
  let underscore := Text.replaceChar '-' "_"
  let libraryRoot := directory ++ pathComponents (manifest.libPath.getD "src/lib.rs")
  some <|
    if fs.isFile libraryRoot then
      some
        { sourcePath := path, manifestDir := directory, libraryRoot
          aliases := underscore name :: (manifest.libName.map underscore).toList }
    else none

/-- The nearest package manifest at or above `directory`, given reversed. A
virtual workspace manifest has no package and lets the search continue. -/
def PackageIdentity.search (fs : PackageFiles) (path : FsPath) :
    FsPath → Option PackageIdentity
  | [] => (PackageIdentity.ofDirectory fs path []).join
  | part :: above =>
    match PackageIdentity.ofDirectory fs path (part :: above).reverse with
    | some identity => identity
    | none => PackageIdentity.search fs path above

/-- The package identity of a file: `PackageIdentity::read`. -/
def PackageIdentity.read (fs : PackageFiles) (file : Text) : Option PackageIdentity :=
  let path := pathComponents file
  if fs.isFile path then PackageIdentity.search fs path path.reverse.tail else none

end OrbitGraph.Sync
