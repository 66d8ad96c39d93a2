import OrbitGraph.Sync.Equivalence

/-!
When a reference that a sync keeps as it is resolves as before.

The sync resolves nothing anew for a reference outside the files it rewrites
whose name no change names and whose hint keeps its meaning. `Undisturbed` is
what such a reference needs besides: four reads of the ladder that its name does
not cover.
-/

namespace OrbitGraph.Sync

open Lib

variable [CharTables]

/-- The re-export search of a reference reads the definitions of names other
than its own; these are the same rows under the same module prefixes. -/
def SameCandidates (R R' : Resolver) (name : Text) : Prop :=
  Agree (Twin R R' fun c d => c = d) (R.symbolsByName name) (R'.symbolsByName name)

/-- What a kept reference reads besides the definitions of its own name. -/
structure Undisturbed (R R' : Resolver) (fromFile : Text) (raw : RawRef) : Prop where
  /-- The packages that narrow a member's type are the same. -/
  scope : ∀ target, MemberTarget.ofRef fromFile raw = some target →
    { R with packageForFile := R'.packageForFile }.typeScope fromFile
        (R.importsForFile fromFile) target =
      R.typeScope fromFile (R.importsForFile fromFile) target
  inScope : ∀ target, MemberTarget.ofRef fromFile raw = some target →
    ∀ c, (c ∈ R.symbolsByName target.member ∨ ∃ trait, (trait, c) ∈ R.traitImplsOf target.typeName) →
      { R with packageForFile := R'.packageForFile }.memberWithinScope c
          (R.typeScope fromFile (R.importsForFile fromFile) target) =
        R.memberWithinScope c (R.typeScope fromFile (R.importsForFile fromFile) target)
  /-- A member from a trait's default body: its type's impl blocks lie in one
  file as before. -/
  oneFile : ∀ target, MemberTarget.ofRef fromFile raw = some target →
    R.typeScope fromFile (R.importsForFile fromFile) target = [] →
    R.pickMember fromFile [] target = none →
    (∃ c ∈ R.symbolsByName target.member,
      Resolver.declaresMemberOf ((R.relevantImpls target []).map Prod.fst) c = true) →
      isOneFile ((R.relevantImpls target []).map fun impl => impl.2.symbol.filePath) =
        isOneFile ((R'.relevantImpls target []).map fun impl => impl.2.symbol.filePath)
  /-- A trait's member whose qualified name does not spell `Trait::`: the type
  implements the trait as before. -/
  spelled : ∀ target, MemberTarget.ofRef fromFile raw = some target →
    ∀ c ∈ R'.symbolsByName target.member, ∀ parsed,
      MemberTarget.parse c.symbol.qualified = some parsed → parsed.bracketed = false →
      Text.contains (parsed.typeName ++ colons) c.symbol.qualified = false →
      (parsed.typeName ∈ (R.relevantImpls target
          (R.typeScope fromFile (R.importsForFile fromFile) target)).map Prod.fst ↔
        parsed.typeName ∈ (R'.relevantImpls target
          (R.typeScope fromFile (R.importsForFile fromFile) target)).map Prod.fst)
  /-- A path that re-exports lead to ends in the reference's own name, or in a
  name whose definitions are the same rows. -/
  reexports : R.resolveDirect fromFile (R.languageOf fromFile) (R.importsForFile fromFile) raw = none →
    R.languageOf fromFile = "rust" → raw.spelledPath = true →
    ∀ spelledPath, raw.targetQualified = some spelledPath →
    ∀ visited, explore (reexportTargets R.reexports) Resolver.reexportBudget []
        [resolveImportPath fromFile spelledPath] = some visited →
      ∀ path ∈ visited, path ≠ resolveImportPath fromFile spelledPath →
        lastSegment path ≠ raw.targetName → SameCandidates R R' (lastSegment path)

theorem Undisturbed.of_unqualified {R R' : Resolver} {fromFile : Text} {raw : RawRef}
    (h : raw.targetQualified = none) : Undisturbed R R' fromFile raw := by
  have noTarget : MemberTarget.ofRef fromFile raw = none := by
    unfold MemberTarget.ofRef
    split
    · rfl
    · rw [h]
      rfl
  constructor
  · simp [noTarget]
  · simp [noTarget]
  · simp [noTarget]
  · simp [noTarget]
  · simp [h]

namespace Resolver

variable {R : Resolver} (packageForFile : Text → Option PackageIdentity) {fromFile : Text}

variable {target : MemberTarget}

variable {scope : List ScopedModule}

/-- The impl blocks inside a scope are the same where the scope holds the same
ones. -/
theorem relevantImpls_packages (inScope : ∀ c, (∃ trait, (trait, c) ∈ R.traitImplsOf target.typeName) →
      { R with packageForFile }.memberWithinScope c scope = R.memberWithinScope c scope) :
    { R with packageForFile }.relevantImpls target scope = R.relevantImpls target scope := by
  refine List.filter_congr fun impl himpl => ?_
  have := inScope impl.2 ⟨impl.1, himpl⟩
  simp only [this]

theorem pickMember_packages (inScope : ∀ c ∈ R.symbolsByName target.member,
      { R with packageForFile }.memberWithinScope c scope = R.memberWithinScope c scope) :
    { R with packageForFile }.pickMember fromFile scope target = R.pickMember fromFile scope target := by
  have members : { R with packageForFile }.membersOf target = R.membersOf target := rfl
  have filtered : (R.membersOf target).filter
      (fun m => { R with packageForFile }.memberWithinScope m.2 scope) =
      (R.membersOf target).filter fun m => R.memberWithinScope m.2 scope := by
    refine List.filter_congr fun m hm => ?_
    obtain ⟨c, hc, hEq⟩ := List.mem_filterMap.mp hm
    obtain ⟨tier, -, rfl⟩ := Option.map_eq_some_iff.mp hEq
    exact inScope c hc
  simp only [pickMember, members, filtered]
  rfl

theorem resolveTypeMember_packages {imports : List ImportCandidate}
    (scope : { R with packageForFile }.typeScope fromFile imports target = R.typeScope fromFile imports target)
    (inScope : ∀ c, (c ∈ R.symbolsByName target.member ∨ ∃ trait, (trait, c) ∈ R.traitImplsOf target.typeName) →
      { R with packageForFile }.memberWithinScope c (R.typeScope fromFile imports target) =
        R.memberWithinScope c (R.typeScope fromFile imports target)) :
    { R with packageForFile }.resolveTypeMember fromFile imports target =
      R.resolveTypeMember fromFile imports target := by
  have members : { R with packageForFile }.membersOf target = R.membersOf target := rfl
  generalize hScope : R.typeScope fromFile imports target = s at scope inScope
  have impls : { R with packageForFile }.relevantImpls target s = R.relevantImpls target s :=
    relevantImpls_packages packageForFile fun c hc => inScope c (.inr hc)
  have picked : { R with packageForFile }.pickMember fromFile s target =
      R.pickMember fromFile s target :=
    pickMember_packages packageForFile fun c hc => inScope c (.inl hc)
  have byDefault : { R with packageForFile }.resolveTraitDefault target s =
      R.resolveTraitDefault target s := by
    simp only [resolveTraitDefault, impls]
    rfl
  simp only [resolveTypeMember, scope, hScope, members, picked, byDefault]

end Resolver

section

variable {R R' : Resolver} {fromFile : Text} {raw : RawRef}

/-- With the same packages in a member's scope, the packages of other files do
not matter to the direct rungs. -/
theorem Undisturbed.resolveDirect_packages (h : Undisturbed R R' fromFile raw) :
    { R with packageForFile := R'.packageForFile }.resolveDirect fromFile (R.languageOf fromFile)
        (R.importsForFile fromFile) raw =
      R.resolveDirect fromFile (R.languageOf fromFile) (R.importsForFile fromFile) raw := by
  have member : { R with packageForFile := R'.packageForFile }.resolveMember fromFile
      (R.importsForFile fromFile) raw =
      R.resolveMember fromFile (R.importsForFile fromFile) raw := by
    unfold Resolver.resolveMember
    cases hTarget : MemberTarget.ofRef fromFile raw with
    | none => rfl
    | some target =>
      exact Resolver.resolveTypeMember_packages _ (h.scope target hTarget) (h.inScope target hTarget)
  simp only [Resolver.resolveDirect, member]
  rfl

theorem Undisturbed.resolveIn_packages (h : Undisturbed R R' fromFile raw) :
    { R with packageForFile := R'.packageForFile }.resolveIn fromFile raw =
      R.resolveIn fromFile raw := by
  have imports : { R with packageForFile := R'.packageForFile }.importsForFile fromFile =
      R.importsForFile fromFile := rfl
  have language : { R with packageForFile := R'.packageForFile }.languageOf fromFile =
      R.languageOf fromFile := rfl
  simp only [Resolver.resolveIn, Resolver.resolveRef, imports, language, h.resolveDirect_packages]
  rfl

end

end OrbitGraph.Sync
