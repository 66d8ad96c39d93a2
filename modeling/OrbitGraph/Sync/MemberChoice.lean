import OrbitGraph.Sync.ResolverAgreement

/-!
Whose member the type-member rung chooses.

The rung looks up the members of a type by the type's name: inside the modules that the file names it by, or else in
the calling file, in its module, or anywhere. Of what it looks at it takes the only symbol on the best tier. The others
may be of another type of that name, and the symbol in a file of another language.

Which type a name stands for is not in the index; it is a parameter here.
-/

namespace OrbitGraph.Sync

open Lib

/-- What the names of an index stand for, and which type a receiver has. -/
structure Meaning (τ : Type) where
  /-- The type of the block that a symbol is in; a trait for its declarations. -/
  typeOf : SymbolCandidate → τ
  /-- The trait of an `impl` block. -/
  traitOf : SymbolCandidate → τ
  receiver : τ

variable {τ : Type}

def Meaning.Member (M : Meaning τ) (symbols : List SymbolRow) (c : SymbolCandidate) : Prop :=
  M.typeOf c = M.receiver ∨
    ∃ row ∈ symbols, row.kind = "impl".toList ∧ M.typeOf row.candidate = M.receiver ∧
      M.traitOf row.candidate = M.typeOf c

namespace Resolver

variable [CharTables] (R : Resolver) (fromFile : Text)

/-! ### What the rung looks at -/

/-- Those of the calling file. -/
def ownFile (members : List (Tier × NamedCandidate)) : List (Tier × NamedCandidate) :=
  members.filter fun member => member.2.symbol.filePath == fromFile

def ownModule (members : List (Tier × NamedCandidate)) : List (Tier × NamedCandidate) :=
  members.filter fun member => R.candidateSharesModule member.2 (R.modulePrefixesForFile fromFile)

/-- The members that the rung looks at: those in the scope, or else the nearest. -/
def considered (scope : List ScopedModule) (target : MemberTarget) : List (Tier × NamedCandidate) :=
  if scope = [] then
    if ownFile fromFile (R.membersOf target) ≠ [] then ownFile fromFile (R.membersOf target)
    else if R.ownModule fromFile (R.membersOf target) ≠ [] then R.ownModule fromFile (R.membersOf target)
    else R.membersOf target
  else (R.membersOf target).filter fun member => R.memberWithinScope member.2 scope

/-- The only one of several in the calling file, or else in its module. -/
def Nearest (pool : List NamedCandidate) (c : NamedCandidate) : Prop :=
  pool.filter (fun d => d.symbol.filePath == fromFile) = [c] ∨
    (∀ d, pool.filter (fun d => d.symbol.filePath == fromFile) ≠ [d]) ∧
      pool.filter (fun d => R.candidateSharesModule d (R.modulePrefixesForFile fromFile)) = [c]

/-- What stands alone on the best tier. Without a scope it is near, or no other file has such a member; in a scope it
may also be the nearest of several. -/
def Settled (scope : List ScopedModule) (target : MemberTarget) (c : NamedCandidate) : Prop :=
  (bestTier (R.considered fromFile scope target) = [c] ∧ (scope = [] → c.symbol.filePath = fromFile ∨
      R.candidateSharesModule c (R.modulePrefixesForFile fromFile) = true ∨
      ∀ member ∈ R.membersOf target, member.2.symbol.filePath = c.symbol.filePath)) ∨
  scope ≠ [] ∧ (∀ d, bestTier (R.considered fromFile scope target) ≠ [d]) ∧
    R.Nearest fromFile (bestTier (R.considered fromFile scope target)) c

/-- The declarations of the member in the traits that the type's blocks name. -/
def declarations (scope : List ScopedModule) (target : MemberTarget) : List NamedCandidate :=
  (R.symbolsByName target.member).filter (declaresMemberOf ((R.relevantImpls target scope).map Prod.fst))

/-- The only declaration, for a type that is certain. -/
def Declared (scope : List ScopedModule) (target : MemberTarget) (c : NamedCandidate) : Prop :=
  target.traitObject = false ∧ R.declarations scope target = [c] ∧
    (scope ≠ [] ∨ isOneFile ((R.relevantImpls target scope).map fun impl => impl.2.symbol.filePath) = true)

def Claims (scope : List ScopedModule) (target : MemberTarget) (c : NamedCandidate) : Confidence → Prop
  | .exact => c.symbol.filePath = fromFile ∨
      ∀ member ∈ R.membersOf target, member.2.symbol.filePath = c.symbol.filePath
  | .importResolved => R.memberWithinScope c scope = true
  | .sameModule => R.candidateSharesModule c (R.modulePrefixesForFile fromFile) = true
  | .fuzzyName => False

section

variable {R fromFile} {scope : List ScopedModule} {target : MemberTarget} {c : NamedCandidate} {resolved : ResolvedRef}
  {pool : List NamedCandidate} {members : List (Tier × NamedCandidate)}

omit [CharTables] in
theorem not_nonempty (empty : members = []) : ¬ (!members.isEmpty) = true := by
  rw [empty]
  exact Bool.false_ne_true

omit [CharTables] in
theorem nonempty_of_ne_nil (some : members ≠ []) : (!members.isEmpty) = true := by
  rw [Bool.not_eq_true', List.isEmpty_eq_false_iff]
  exact some

omit [CharTables] in
theorem mem_of_mem_bestTier (mem : c ∈ bestTier members) : ∃ tier, (tier, c) ∈ members := by
  unfold bestTier at mem
  cases found : [Tier.inherent, .traitImpl, .traitDeclaration].find? fun tier =>
      members.any fun member => member.1 == tier with
  | none =>
    rw [found] at mem
    exact (List.not_mem_nil mem).elim
  | some best =>
    rw [found] at mem
    obtain ⟨⟨tier, d⟩, inside, rfl⟩ := List.mem_map.mp mem
    exact ⟨tier, (List.mem_filter.mp inside).1⟩

omit [CharTables] in
theorem bestTier_singleton (tier : Tier) (c : NamedCandidate) : bestTier [(tier, c)] = [c] := by
  cases tier <;> rfl

theorem considered_subset : R.considered fromFile scope target ⊆ R.membersOf target := by
  unfold considered
  split_ifs
  · exact List.filter_sublist.subset
  · exact List.filter_sublist.subset
  · exact List.Subset.refl _
  · exact List.filter_sublist.subset

theorem considered_singleton {member : Tier × NamedCandidate} (unscoped : scope = [])
    (sole : R.membersOf target = [member]) : R.considered fromFile scope target = [member] := by
  have kept : ∀ {xs : List (Tier × NamedCandidate)}, xs.Sublist [member] → xs ≠ [] → xs = [member] := fun sub some =>
    (List.sublist_singleton.mp sub).resolve_left some
  unfold considered
  rw [if_pos unscoped, sole]
  split_ifs with own near
  · exact kept List.filter_sublist own
  · exact kept List.filter_sublist near
  · rfl

theorem mem_membersOf {tier : Tier} (mem : (tier, c) ∈ R.membersOf target) :
    c ∈ R.symbolsByName target.member ∧ ∃ parsed, MemberTarget.parse c.symbol.qualified = some parsed ∧
      parsed.typeName = target.typeName := by
  obtain ⟨d, inside, found⟩ := List.mem_filterMap.mp mem
  obtain ⟨_, tiered, same⟩ := Option.map_eq_some_iff.mp found
  obtain ⟨rfl, rfl⟩ := Prod.mk.inj same
  obtain ⟨parsed, read, placed⟩ := Option.bind_eq_some_iff.mp tiered
  refine ⟨inside, parsed, read, ?_⟩
  unfold MemberTarget.tierOf at placed
  by_cases other : parsed.member ≠ target.member ∨ parsed.typeName ≠ target.typeName
  · rw [if_pos other] at placed
    cases placed
  · exact not_not.mp (not_or.mp other).2

theorem Settled.mem (settled : R.Settled fromFile scope target c) :
    ∃ tier, (tier, c) ∈ R.considered fromFile scope target := by
  rcases settled with ⟨alone, -⟩ | ⟨-, -, own | ⟨-, near⟩⟩
  · exact mem_of_mem_bestTier (alone ▸ List.mem_singleton_self c)
  · exact mem_of_mem_bestTier (List.mem_of_mem_filter (own ▸ List.mem_singleton_self c))
  · exact mem_of_mem_bestTier (List.mem_of_mem_filter (near ▸ List.mem_singleton_self c))

/-! ### What the rung takes -/

theorem pickNearest_eq_some (found : R.pickNearest fromFile pool = some resolved) :
    ∃ c confidence, resolved = .candidate c.symbol confidence ∧ R.Nearest fromFile pool c ∧
      R.Claims fromFile scope target c confidence := by
  unfold pickNearest at found
  cases own : uniqueElem (pool.filter fun c => c.symbol.filePath == fromFile) with
  | some only =>
    rw [own] at found
    have alone := uniqueElem_eq_some.mp own
    have inside : only ∈ pool.filter fun c => c.symbol.filePath == fromFile := alone ▸ List.mem_singleton_self only
    exact ⟨only, .exact, (Option.some.inj found).symm, .inl alone, .inl (eq_of_beq (List.mem_filter.mp inside).2)⟩
  | none =>
    rw [own] at found
    obtain ⟨only, near, same⟩ := Option.map_eq_some_iff.mp found
    have alone := uniqueElem_eq_some.mp near
    have inside : only ∈ pool.filter fun c => R.candidateSharesModule c (R.modulePrefixesForFile fromFile) :=
      alone ▸ List.mem_singleton_self only
    refine ⟨only, .sameModule, same.symm, .inr ⟨fun d several => ?_, alone⟩, (List.mem_filter.mp inside).2⟩
    rw [uniqueElem_eq_some.mpr several] at own
    cases own

theorem exists_pickNearest (nearest : R.Nearest fromFile pool c) :
    ∃ confidence, R.pickNearest fromFile pool = some (.candidate c.symbol confidence) := by
  unfold pickNearest
  rcases nearest with own | ⟨several, near⟩
  · exact ⟨.exact, by rw [own]; rfl⟩
  · cases own : uniqueElem (pool.filter fun c => c.symbol.filePath == fromFile) with
    | some only => exact (several only (uniqueElem_eq_some.mp own)).elim
    | none => exact ⟨.sameModule, by dsimp only; rw [near]; rfl⟩

theorem pickScoped_eq_some (inScope : scope ≠ [])
    (found : R.pickScoped fromFile (R.considered fromFile scope target) (R.membersOf target).length = some resolved) :
    ∃ c confidence, resolved = .candidate c.symbol confidence ∧ R.Settled fromFile scope target c ∧
      R.Claims fromFile scope target c confidence := by
  unfold pickScoped at found
  cases best : uniqueElem (bestTier (R.considered fromFile scope target)) with
  | none =>
    rw [best] at found
    obtain ⟨c, confidence, same, nearest, claims⟩ := pickNearest_eq_some found
    refine ⟨c, confidence, same, .inr ⟨inScope, fun d alone => ?_, nearest⟩, claims⟩
    rw [uniqueElem_eq_some.mpr alone] at best
    cases best
  | some only =>
    rw [best] at found
    have alone := uniqueElem_eq_some.mp best
    obtain ⟨tier, inside⟩ := mem_of_mem_bestTier (alone ▸ List.mem_singleton_self only)
    refine ⟨only, _, (Option.some.inj found).symm, .inl ⟨alone, fun unscoped => (inScope unscoped).elim⟩, ?_⟩
    split_ifs with single
    · obtain ⟨member, sole⟩ := List.length_eq_one_iff.mp single
      refine .inr fun other mem => ?_
      have here := considered_subset inside
      rw [sole, List.mem_singleton] at mem here
      rw [mem, ← here]
    · rw [considered, if_neg inScope] at inside
      exact (List.mem_filter.mp inside).2

theorem pickUnscoped_of_several (several : uniqueElem members = none) :
    R.pickUnscoped fromFile members =
      if (!(ownFile fromFile members).isEmpty) = true then
        (uniqueElem (bestTier (ownFile fromFile members))).map fun only => .candidate only.symbol .exact
      else if (!(R.ownModule fromFile members).isEmpty) = true then
        (uniqueElem (bestTier (R.ownModule fromFile members))).map fun only => .candidate only.symbol .sameModule
      else
        (uniqueElem (bestTier members)).bind fun only =>
          if (members.all fun member => member.2.symbol.filePath == only.symbol.filePath) = true then
            some (.candidate only.symbol .exact)
          else none := by
  rw [pickUnscoped, several]
  rfl

theorem pickUnscoped_eq_some (unscoped : scope = [])
    (found : R.pickUnscoped fromFile (R.membersOf target) = some resolved) :
    ∃ c confidence, resolved = .candidate c.symbol confidence ∧ R.Settled fromFile scope target c ∧
      R.Claims fromFile scope target c confidence := by
  cases single : uniqueElem (R.membersOf target) with
  | some member =>
    obtain ⟨tier, only⟩ := member
    rw [pickUnscoped, single] at found
    have sole := uniqueElem_eq_some.mp single
    have everywhere : ∀ member ∈ R.membersOf target, member.2.symbol.filePath = only.symbol.filePath := by
      intro member mem
      rw [sole, List.mem_singleton] at mem
      rw [mem]
    refine ⟨only, .exact, (Option.some.inj found).symm, .inl ⟨?_, fun _ => .inr (.inr everywhere)⟩, .inr everywhere⟩
    rw [considered_singleton unscoped sole, bestTier_singleton]
  | none =>
    rw [pickUnscoped_of_several single] at found
    by_cases own : ownFile fromFile (R.membersOf target) = []
    · rw [if_neg (not_nonempty own)] at found
      by_cases near : R.ownModule fromFile (R.membersOf target) = []
      · have all : R.considered fromFile scope target = R.membersOf target := by
          rw [considered, if_pos unscoped, if_neg (not_not.mpr own), if_neg (not_not.mpr near)]
        rw [if_neg (not_nonempty near)] at found
        obtain ⟨only, best, found⟩ := Option.bind_eq_some_iff.mp found
        split_ifs at found with oneFile
        have everywhere : ∀ member ∈ R.membersOf target, member.2.symbol.filePath = only.symbol.filePath :=
          fun member mem => eq_of_beq (List.all_eq_true.mp oneFile member mem)
        refine ⟨only, .exact, (Option.some.inj found).symm, .inl ⟨?_, fun _ => .inr (.inr everywhere)⟩, .inr everywhere⟩
        rw [all]
        exact uniqueElem_eq_some.mp best
      · have nearby : R.considered fromFile scope target = R.ownModule fromFile (R.membersOf target) := by
          rw [considered, if_pos unscoped, if_neg (not_not.mpr own), if_pos near]
        rw [if_pos (nonempty_of_ne_nil near)] at found
        obtain ⟨only, best, same⟩ := Option.map_eq_some_iff.mp found
        have alone := uniqueElem_eq_some.mp best
        obtain ⟨tier, inside⟩ := mem_of_mem_bestTier (alone ▸ List.mem_singleton_self only)
        have shares := (List.mem_filter.mp inside).2
        refine ⟨only, .sameModule, same.symm, .inl ⟨?_, fun _ => .inr (.inl shares)⟩, shares⟩
        rw [nearby]
        exact alone
    · have inFile : R.considered fromFile scope target = ownFile fromFile (R.membersOf target) := by
        rw [considered, if_pos unscoped, if_pos own]
      rw [if_pos (nonempty_of_ne_nil own)] at found
      obtain ⟨only, best, same⟩ := Option.map_eq_some_iff.mp found
      have alone := uniqueElem_eq_some.mp best
      obtain ⟨tier, inside⟩ := mem_of_mem_bestTier (alone ▸ List.mem_singleton_self only)
      have here : only.symbol.filePath = fromFile := eq_of_beq (List.mem_filter.mp inside).2
      refine ⟨only, .exact, same.symm, .inl ⟨?_, fun _ => .inl here⟩, .inl here⟩
      rw [inFile]
      exact alone

theorem pickMember_of_scope (inScope : scope ≠ []) : R.pickMember fromFile scope target =
    R.pickScoped fromFile (R.considered fromFile scope target) (R.membersOf target).length := by
  rw [pickMember, considered, if_neg inScope]
  exact if_neg fun empty => inScope (List.isEmpty_iff.mp empty)

theorem pickMember_eq_some (found : R.pickMember fromFile scope target = some resolved) :
    ∃ c confidence, resolved = .candidate c.symbol confidence ∧ R.Settled fromFile scope target c ∧
      R.Claims fromFile scope target c confidence := by
  rcases eq_or_ne scope [] with unscoped | inScope
  · refine pickUnscoped_eq_some unscoped ?_
    rwa [pickMember, unscoped] at found
  · rw [pickMember_of_scope inScope] at found
    exact pickScoped_eq_some inScope found

theorem exists_pickUnscoped (unscoped : scope = []) (alone : bestTier (R.considered fromFile scope target) = [c])
    (near : c.symbol.filePath = fromFile ∨ R.candidateSharesModule c (R.modulePrefixesForFile fromFile) = true ∨
      ∀ member ∈ R.membersOf target, member.2.symbol.filePath = c.symbol.filePath) :
    ∃ confidence, R.pickUnscoped fromFile (R.membersOf target) = some (.candidate c.symbol confidence) := by
  obtain ⟨tier, inside⟩ := mem_of_mem_bestTier (alone ▸ List.mem_singleton_self c)
  have mem := considered_subset inside
  cases single : uniqueElem (R.membersOf target) with
  | some member =>
    obtain ⟨tier', only⟩ := member
    rw [pickUnscoped, single]
    rw [considered_singleton unscoped (uniqueElem_eq_some.mp single), bestTier_singleton] at alone
    obtain rfl := (List.cons.inj alone).1
    exact ⟨.exact, rfl⟩
  | none =>
    rw [pickUnscoped_of_several single]
    by_cases own : ownFile fromFile (R.membersOf target) = []
    · rw [if_neg (not_nonempty own)]
      by_cases others : R.ownModule fromFile (R.membersOf target) = []
      · rw [considered, if_pos unscoped, if_neg (not_not.mpr own), if_neg (not_not.mpr others)] at alone
        rw [if_neg (not_nonempty others), uniqueElem_eq_some.mpr alone]
        have everywhere : ∀ member ∈ R.membersOf target, member.2.symbol.filePath = c.symbol.filePath := by
          rcases near with here | shares | everywhere
          · have kept : (tier, c) ∈ ownFile fromFile (R.membersOf target) :=
              List.mem_filter.mpr ⟨mem, beq_iff_eq.mpr here⟩
            exact (List.not_mem_nil (own ▸ kept)).elim
          · have kept : (tier, c) ∈ R.ownModule fromFile (R.membersOf target) := List.mem_filter.mpr ⟨mem, shares⟩
            exact (List.not_mem_nil (others ▸ kept)).elim
          · exact everywhere
        exact ⟨.exact, if_pos (List.all_eq_true.mpr fun member mem => beq_iff_eq.mpr (everywhere member mem))⟩
      · rw [considered, if_pos unscoped, if_neg (not_not.mpr own), if_pos others] at alone
        rw [if_pos (nonempty_of_ne_nil others)]
        exact ⟨.sameModule, congrArg (Option.map _) (uniqueElem_eq_some.mpr alone)⟩
    · rw [considered, if_pos unscoped, if_pos own] at alone
      rw [if_pos (nonempty_of_ne_nil own)]
      exact ⟨.exact, congrArg (Option.map _) (uniqueElem_eq_some.mpr alone)⟩

theorem exists_pickMember (settled : R.Settled fromFile scope target c) :
    ∃ confidence, R.pickMember fromFile scope target = some (.candidate c.symbol confidence) := by
  rcases eq_or_ne scope [] with unscoped | inScope
  · rcases settled with ⟨alone, near⟩ | ⟨inScope, -⟩
    · obtain ⟨confidence, picked⟩ := exists_pickUnscoped unscoped alone (near unscoped)
      refine ⟨confidence, ?_⟩
      rwa [pickMember, unscoped]
    · exact (inScope unscoped).elim
  · rw [pickMember_of_scope inScope, pickScoped]
    rcases settled with ⟨alone, -⟩ | ⟨-, several, nearest⟩
    · rw [uniqueElem_eq_some.mpr alone]
      exact ⟨_, rfl⟩
    · cases best : uniqueElem (bestTier (R.considered fromFile scope target)) with
      | some only => exact (several only (uniqueElem_eq_some.mp best)).elim
      | none => exact exists_pickNearest nearest

theorem resolveTraitDefault_eq_some_iff : R.resolveTraitDefault target scope = some resolved ↔
      ∃ c, R.Declared scope target c ∧ resolved = .candidate c.symbol .exact := by
  have certain : (!scope.isEmpty || isOneFile ((R.relevantImpls target scope).map fun impl => impl.2.symbol.filePath)) =
      true ↔ scope ≠ [] ∨ isOneFile ((R.relevantImpls target scope).map fun impl => impl.2.symbol.filePath) = true := by
    rw [Bool.or_eq_true, Bool.not_eq_true', List.isEmpty_eq_false_iff]
  unfold resolveTraitDefault
  cases object : target.traitObject with
  | true =>
    refine iff_of_false nofun ?_
    rintro ⟨c, ⟨notObject, -⟩, -⟩
    exact Bool.false_ne_true (notObject.symm.trans object)
  | false =>
    rw [if_neg Bool.false_ne_true]
    dsimp only
    rw [Option.bind_eq_some_iff]
    constructor
    · rintro ⟨only, found, picked⟩
      split_ifs at picked with sure
      exact ⟨only, ⟨object, uniqueElem_eq_some.mp found, certain.mp sure⟩, (Option.some.inj picked).symm⟩
    · rintro ⟨c, ⟨-, alone, sure⟩, rfl⟩
      exact ⟨c, uniqueElem_eq_some.mpr alone, if_pos (certain.mpr sure)⟩

/-- A symbol that the rung returns was picked, or declared where none was. -/
theorem resolveTypeMember_candidate_iff {imports : List ImportCandidate} {symbol : SymbolCandidate}
    {confidence : Confidence} : R.resolveTypeMember fromFile imports target = some (.candidate symbol confidence) ↔
      R.pickMember fromFile (R.typeScope fromFile imports target) target = some (.candidate symbol confidence) ∨
        R.pickMember fromFile (R.typeScope fromFile imports target) target = none ∧
          R.resolveTraitDefault target (R.typeScope fromFile imports target) = some (.candidate symbol confidence) := by
  unfold resolveTypeMember
  dsimp only
  cases picked : R.pickMember fromFile (R.typeScope fromFile imports target) target with
  | some found => simp
  | none =>
    cases byDefault : R.resolveTraitDefault target (R.typeScope fromFile imports target) with
    | some found => simp
    | none =>
      -- What is left is fuzzy, and names no symbol.
      dsimp only
      split_ifs <;> simp [ResolvedRef.fuzzy, ResolvedRef.candidate]

end

/-! ### The claim of a choice -/

/-- A symbol that the rung returns is a member of the receiver's type and in a file of the calling file's language, no
other type's members were chosen from, and it is where its confidence says. -/
structure Stays (M : Meaning τ) (scope : List ScopedModule) (target : MemberTarget) (row : SymbolRow)
    (confidence : Confidence) : Prop where
  spelled : row.name = target.member ∧ ∃ parsed, MemberTarget.parse row.qualified = some parsed ∧
    (parsed.typeName = target.typeName ∨ parsed.bracketed = false)
  member : M.Member R.symbols row.candidate
  oneType : (R.pickMember fromFile scope target).isSome = true →
    ∀ other ∈ R.considered fromFile scope target, M.typeOf other.2.symbol = M.receiver
  oneTypeByDefault : R.pickMember fromFile scope target = none →
    ∀ impl ∈ R.relevantImpls target scope, M.typeOf impl.2.symbol = M.receiver
  language : R.langOf row.filePath = some "rust".toList
  tier : ∃ c, c.symbol = row.candidate ∧ (R.Claims fromFile scope target c confidence ∨
    confidence = .exact ∧ R.declarations scope target = [c])

/-- Every symbol that the rung returns for a reference stays in its type and language. -/
def StaysInType (M : Meaning τ) (imports : List ImportCandidate) (raw : RawRef) : Prop :=
  ∀ target, MemberTarget.ofRef fromFile raw = some target → ∀ row ∈ R.symbols, ∀ confidence,
    R.resolveMember fromFile imports raw = some (.candidate row.candidate confidence) →
      R.Stays fromFile M (R.typeScope fromFile imports target) target row confidence

/-- The names that the rung goes by have one meaning where it looks: the members are of the receiver's type and in Rust
files, the blocks are that type's, and the declarations are in Rust files and in traits that these blocks implement. -/
structure OneMeaning (M : Meaning τ) (scope : List ScopedModule) (target : MemberTarget) : Prop where
  members : ∀ member ∈ R.considered fromFile scope target,
    M.typeOf member.2.symbol = M.receiver ∧ member.2.language = "rust".toList
  blocks : ∀ impl ∈ R.relevantImpls target scope, M.typeOf impl.2.symbol = M.receiver
  declared : ∀ c ∈ R.declarations scope target, c.language = "rust".toList ∧
    ∃ impl ∈ R.relevantImpls target scope, M.traitOf impl.2.symbol = M.typeOf c.symbol

/-- A member stands out among some that are not all of the receiver's type, or it is not in a Rust file. -/
def StandsOutAmiss (M : Meaning τ) (scope : List ScopedModule) (target : MemberTarget) : Prop :=
  ∃ c, R.Settled fromFile scope target c ∧
    ((∃ other ∈ R.considered fromFile scope target, M.typeOf other.2.symbol ≠ M.receiver) ∨ c.language ≠ "rust".toList)

section

variable {R fromFile} {M : Meaning τ} {imports : List ImportCandidate} {raw : RawRef} {scope : List ScopedModule}
  {target : MemberTarget} {c : NamedCandidate} {row : SymbolRow} {confidence confidence' : Confidence}

omit [CharTables] in
theorem candidate_inj (ids : (R.symbols.map SymbolRow.id).Nodup) (mem : row ∈ R.symbols)
    {name : Text} (named : c ∈ R.symbolsByName name)
    (same : ResolvedRef.candidate row.candidate confidence = ResolvedRef.candidate c.symbol confidence') :
    c.symbol = row.candidate ∧ confidence' = confidence ∧ row.name = name ∧ R.langOf row.filePath = some c.language := by
  obtain ⟨stored, inside, name, -, symbol, language⟩ := mem_symbolsByName.mp named
  obtain ⟨-, hint, sure⟩ := ResolvedRef.mk.inj same
  have id : stored.id = row.id := by
    rw [symbol] at hint
    exact (Option.some.inj hint).symm
  obtain rfl := List.inj_on_of_nodup_map ids inside mem id
  exact ⟨symbol, sure.symm, name, language⟩

theorem Declared.mem (declared : R.Declared scope target c) : c ∈ R.symbolsByName target.member ∧
    ∃ parsed, MemberTarget.parse c.symbol.qualified = some parsed ∧ parsed.bracketed = false := by
  have inside : c ∈ R.declarations scope target := declared.2.1 ▸ List.mem_singleton_self c
  obtain ⟨named, declares⟩ := List.mem_filter.mp inside
  refine ⟨named, ?_⟩
  unfold declaresMemberOf at declares
  cases read : MemberTarget.parse c.symbol.qualified with
  | none =>
    rw [read] at declares
    cases declares
  | some parsed =>
    rw [read] at declares
    rw [Bool.and_eq_true, Bool.not_eq_true'] at declares
    exact ⟨parsed, rfl, declares.1⟩

theorem mem_relevantImpls {impl : Text × NamedCandidate} (mem : impl ∈ R.relevantImpls target scope) :
    ∃ row ∈ R.symbols, row.kind = "impl".toList ∧ row.candidate = impl.2.symbol := by
  obtain ⟨row, inside, found⟩ := List.mem_filterMap.mp (List.mem_filter.mp mem).1
  obtain ⟨stored, kind⟩ := List.mem_filter.mp inside
  refine ⟨row, stored, eq_of_beq kind, ?_⟩
  unfold traitImplOf at found
  split at found
  next selfName traitName _ =>
    split_ifs at found
    obtain rfl := Option.some.inj found
    rfl
  next => cases found

theorem stays_of_picked (ids : (R.symbols.map SymbolRow.id).Nodup) (clear : R.OneMeaning fromFile M scope target)
    (mem : row ∈ R.symbols)
    (picked : R.pickMember fromFile scope target = some (.candidate row.candidate confidence)) :
    R.Stays fromFile M scope target row confidence := by
  obtain ⟨c, confidence', same, settled, claims⟩ := pickMember_eq_some picked
  obtain ⟨tier, inside⟩ := settled.mem
  obtain ⟨named, parsed, read, typed⟩ := mem_membersOf (considered_subset inside)
  obtain ⟨symbol, rfl, name, language⟩ := candidate_inj ids mem named same
  obtain ⟨own, rust⟩ := clear.members _ inside
  refine ⟨⟨name, parsed, ?_, .inl typed⟩, .inl ?_, fun _ other mem => (clear.members other mem).1, fun unpicked => ?_,
    rust ▸ language, c, symbol, .inl claims⟩
  · rw [← read, symbol]
    rfl
  · rw [← symbol]
    exact own
  · rw [picked] at unpicked
    cases unpicked

theorem stays_of_declared (ids : (R.symbols.map SymbolRow.id).Nodup) (clear : R.OneMeaning fromFile M scope target)
    (mem : row ∈ R.symbols) (unpicked : R.pickMember fromFile scope target = none)
    (found : R.resolveTraitDefault target scope = some (.candidate row.candidate confidence)) :
    R.Stays fromFile M scope target row confidence := by
  obtain ⟨c, declared, same⟩ := resolveTraitDefault_eq_some_iff.mp found
  obtain ⟨named, parsed, read, bare⟩ := Declared.mem declared
  obtain ⟨symbol, rfl, name, language⟩ := candidate_inj ids mem named same
  obtain ⟨rust, impl, block, implements⟩ := clear.declared c (declared.2.1 ▸ List.mem_singleton_self c)
  obtain ⟨blockRow, stored, kind, isBlock⟩ := mem_relevantImpls block
  have member : M.Member R.symbols row.candidate := by
    refine .inr ⟨blockRow, stored, kind, ?_, ?_⟩
    · rw [isBlock]
      exact clear.blocks impl block
    · rw [isBlock, implements, symbol]
  refine ⟨⟨name, parsed, ?_, .inr bare⟩, member, fun some => ?_, fun _ => clear.blocks, rust ▸ language, c, symbol,
    .inr ⟨rfl, declared.2.1⟩⟩
  · rw [← read, symbol]
    rfl
  · rw [unpicked] at some
    cases some

end

end Resolver

namespace Sample

local instance memberTables : CharTables := CharTables.ascii

def memberRow (id : Nat) (path qualified : Text) : SymbolRow :=
  ⟨id, path, "send".toList, qualified, "method".toList, 0, 1⟩

def clients : Resolver where
  symbols := [memberRow 1 "web/client.ts".toList "Client::send".toList,
    memberRow 2 "src/pipes.rs".toList "<a::Pipe>::send".toList,
    memberRow 3 "src/pipes.rs".toList "<b::Pipe as Transport>::send".toList]
  imports := []
  langOf path := if path = "web/client.ts".toList then some "typescript".toList else some "rust".toList
  packageForFile _ := none

theorem clients_ids : (clients.symbols.map SymbolRow.id).Nodup := by decide

def byPath (receiver : Text) : Meaning Text where
  typeOf c := ((MemberTarget.parse c.qualified).map fun parsed => parsed.typePath).getD []
  traitOf _ := []
  receiver := receiver

def sendTo (target : Text) : RawRef := ⟨0, 1, "send".toList, some target, "call".toList, none, false⟩

def glob (module : Text) : ImportCandidate := ⟨module, none⟩

def pipes : Resolver := { clients with symbols := clients.symbols.take 2 }

end Sample

end OrbitGraph.Sync
