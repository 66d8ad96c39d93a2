import OrbitGraph.Sync.Resolver

/-!
Two resolvers whose rows agree up to row ids resolve a reference alike.

`Twin` pairs a candidate of one resolver with one of the other: the same
definition, under the same module prefixes. Each rung looks at its candidates
only through what twins share, so each takes agreeing candidates to related
answers; `resolveRef_same` puts the rungs together. The relation `ρ` on the
candidates' rows is a parameter: it says which rows an answer may name in place
of one another.
-/

namespace OrbitGraph.Sync

open Lib

/-- Two candidates of one file, name and qualified name. -/
structure SameKey (c d : SymbolCandidate) : Prop where
  filePath : c.filePath = d.filePath
  name : c.name = d.name
  qualified : c.qualified = d.qualified

/-- Two candidates with the same key whose rows may stand for each other. -/
structure Paired (ρ : SymbolCandidate → SymbolCandidate → Prop) (c d : SymbolCandidate) :
    Prop where
  key : SameKey c d
  row : ρ c d

/-- The same resolution, up to paired rows. -/
inductive ResolvedRef.Same (ρ : SymbolCandidate → SymbolCandidate → Prop) :
    ResolvedRef → ResolvedRef → Prop where
  | fuzzy : ResolvedRef.Same ρ .fuzzy .fuzzy
  | candidate {c d : SymbolCandidate} (confidence : Confidence) :
      Paired ρ c d → ResolvedRef.Same ρ (.candidate c confidence) (.candidate d confidence)

inductive ImportResolution.Same (ρ : SymbolCandidate → SymbolCandidate → Prop) :
    ImportResolution → ImportResolution → Prop where
  | unique {c d : SymbolCandidate} :
      Paired ρ c d → ImportResolution.Same ρ (.unique c) (.unique d)
  | ambiguous : ImportResolution.Same ρ .ambiguous .ambiguous
  | none : ImportResolution.Same ρ .none .none

variable [CharTables] {ρ : SymbolCandidate → SymbolCandidate → Prop} {R R' : Resolver}

/-- Candidates of two resolvers that no rung can tell apart. -/
structure Twin (R R' : Resolver) (ρ : SymbolCandidate → SymbolCandidate → Prop)
    (a b : NamedCandidate) : Prop where
  symbol : Paired ρ a.symbol b.symbol
  language : a.language = b.language
  prefixes : R.modulePrefixesForFile a.symbol.filePath = R'.modulePrefixesForFile b.symbol.filePath

namespace Twin

variable {a b : NamedCandidate} (h : Twin R R' ρ a b)

include h

theorem filePath_eq : a.symbol.filePath = b.symbol.filePath := h.symbol.key.filePath

theorem qualified_eq : a.symbol.qualified = b.symbol.qualified := h.symbol.key.qualified

theorem anyPrefix_eq (p : Text → Bool) : R.anyPrefix a p = R'.anyPrefix b p := by
  have own : a.ownPrefix = b.ownPrefix := by
    simp only [NamedCandidate.ownPrefix, h.symbol.key.qualified, h.symbol.key.name]
  simp only [Resolver.anyPrefix, own, h.prefixes]

theorem matchesQualified_eq (target : Text) :
    R.candidateMatchesQualified a target = R'.candidateMatchesQualified b target := by
  have normalized : a.normalizedQualified = b.normalizedQualified := by
    simp only [NamedCandidate.normalizedQualified, h.qualified_eq]
  simp only [Resolver.candidateMatchesQualified, normalized, h.anyPrefix_eq]

theorem matchesModule_eq (module : Text) :
    R.candidateMatchesModule a module = R'.candidateMatchesModule b module := h.anyPrefix_eq _

theorem sharesModule_eq (prefixes : Finset Text) :
    R.candidateSharesModule a prefixes = R'.candidateSharesModule b prefixes := h.anyPrefix_eq _

theorem withinModule_eq (qualifier : Text) :
    R.candidateWithinModule a qualifier = R'.candidateWithinModule b qualifier := h.anyPrefix_eq _

theorem withinScope_eq (packages : R.packageForFile = R'.packageForFile)
    (scope : List ScopedModule) : R.memberWithinScope a scope = R'.memberWithinScope b scope := by
  have own : a.ownTypePath = b.ownTypePath := by
    simp only [NamedCandidate.ownTypePath, h.qualified_eq]
  have item : R.withinScopedModule a = R'.withinScopedModule b := by
    funext item
    simp only [Resolver.withinScopedModule, own, h.withinModule_eq, packages, h.filePath_eq]
  simp only [Resolver.memberWithinScope, item]

end Twin

namespace Resolver

variable {fromFile language : Text} {imports : List ImportCandidate} {raw : RawRef}

theorem resolveExact_same (inFile : Agree (Paired ρ) (R.symbolsInFileByName fromFile raw.targetName)
      (R'.symbolsInFileByName fromFile raw.targetName)) :
    Option.Rel (Paired ρ) (R.resolveExact fromFile raw) (R'.resolveExact fromFile raw) := by
  have kept : Agree (Paired ρ) (R.exactCandidates fromFile raw)
      (R'.exactCandidates fromFile raw) := by
    unfold exactCandidates
    by_cases free : namesFreeItem fromFile raw
    · simp only [free, if_true]
      exact inFile.filter fun a b ab => by rw [ab.key.qualified]
    · simpa only [if_neg free] using inFile
  unfold resolveExact
  generalize R.exactCandidates fromFile raw = left at kept
  generalize R'.exactCandidates fromFile raw = right at kept
  have qualifiedMatch : Option.Rel (Paired ρ)
      (raw.targetQualified.bind fun target => uniqueElem (left.filter (·.qualified == target)))
      (raw.targetQualified.bind fun target => uniqueElem (right.filter (·.qualified == target))) := by
    cases raw.targetQualified with
    | none => exact .none
    | some target =>
      exact (kept.filter fun a b ab => by rw [ab.key.qualified]).uniqueElem
  simp only
  rcases optionRel_cases qualifiedMatch with ⟨noLeft, noRight⟩ | ⟨c, d, left', right', paired⟩
  · rw [noLeft, noRight]
    by_cases skip : (callModuleQualifier fromFile raw).isSome || !resolvesByNameOnly raw
    · simp only [skip, if_true]
      exact .none
    · simp only [skip]
      exact kept.uniqueElem
  · rw [left', right']
    exact .some paired

theorem uniqueQualifiedMatch_same {name : Text}
    (named : Agree (Twin R R' ρ) (R.symbolsByName name) (R'.symbolsByName name)) (target : Text) :
    Option.Rel (Paired ρ) (R.uniqueQualifiedMatch language name target)
      (R'.uniqueQualifiedMatch language name target) := by
  refine optionRel_map (Agree.uniqueElem (named.filter ?_)) fun a b ab => ab.symbol
  intro a b ab
  rw [ab.language, ab.matchesQualified_eq]

theorem resolveQualified_same (language : Text)
    (named : Agree (Twin R R' ρ) (R.symbolsByName raw.targetName) (R'.symbolsByName raw.targetName)) :
    Option.Rel (Paired ρ) (R.resolveQualified language raw) (R'.resolveQualified language raw) := by
  unfold resolveQualified
  by_cases use : raw.kind = "use"
  · rw [if_pos use, if_pos use]
    exact .none
  · rw [if_neg use, if_neg use]
    cases raw.targetQualified with
    | none => exact .none
    | some target =>
      simp only [Option.bind_some]
      split
      · exact .none
      · exact uniqueQualifiedMatch_same named _

theorem resolveImport_same (fromFile language : Text) (imports : List ImportCandidate)
    (named : Agree (Twin R R' ρ) (R.symbolsByName raw.targetName) (R'.symbolsByName raw.targetName)) :
    ImportResolution.Same ρ (R.resolveImport fromFile language imports raw)
      (R'.resolveImport fromFile language imports raw) := by
  have step : ∀ explicit, Agree (Twin R R' ρ) (R.importMatches fromFile language imports raw explicit)
      (R'.importMatches fromFile language imports raw explicit) := by
    intro explicit
    refine named.filter fun a b ab => ?_
    simp only [ab.language, ab.qualified_eq, ab.matchesModule_eq]
  have first := step true
  have second := step false
  unfold resolveImport
  generalize R.importMatches fromFile language imports raw true = xs at first
  generalize R'.importMatches fromFile language imports raw true = ys at first
  generalize R.importMatches fromFile language imports raw false = xs' at second
  generalize R'.importMatches fromFile language imports raw false = ys' at second
  have oneOrMore : ∀ {xs ys : List NamedCandidate}, Agree (Twin R R' ρ) xs ys →
      (xs = [] ∧ ys = []) ∨ (∃ a b, xs = [a] ∧ ys = [b] ∧ Twin R R' ρ a b) ∨
        ∃ a a' as b b' bs, xs = a :: a' :: as ∧ ys = b :: b' :: bs := by
    intro xs ys agree
    have len := agree.length_eq
    rcases xs with _ | ⟨a, _ | ⟨a', as⟩⟩
    · exact .inl ⟨rfl, List.length_eq_zero_iff.mp len.symm⟩
    · obtain ⟨b, rfl⟩ := List.length_eq_one_iff.mp len.symm
      have twin := agree.uniqueElem
      simp only [uniqueElem] at twin
      cases twin with
      | some twin => exact .inr (.inl ⟨a, b, rfl, rfl, twin⟩)
    · rcases ys with _ | ⟨b, _ | ⟨b', bs⟩⟩
      · cases len
      · cases len
      · exact .inr (.inr ⟨a, a', as, b, b', bs, rfl, rfl⟩)
  rcases oneOrMore first with ⟨rfl, rfl⟩ | ⟨a, b, rfl, rfl, twin⟩ | ⟨a, a', as, b, b', bs, rfl, rfl⟩
  · rcases oneOrMore second with
      ⟨rfl, rfl⟩ | ⟨a, b, rfl, rfl, twin⟩ | ⟨a, a', as, b, b', bs, rfl, rfl⟩
    · exact .none
    · exact .unique twin.symbol
    · exact .ambiguous
  · exact .unique twin.symbol
  · exact .ambiguous

theorem resolveSameModule_same (language : Text)
    (named : Agree (Twin R R' ρ) (R.symbolsByName raw.targetName) (R'.symbolsByName raw.targetName))
    (own : R.modulePrefixesForFile fromFile = R'.modulePrefixesForFile fromFile) :
    Option.Rel (Paired ρ) (R.resolveSameModule fromFile language raw)
      (R'.resolveSameModule fromFile language raw) := by
  unfold resolveSameModule
  simp only [own]
  split
  · exact .none
  · refine optionRel_map (Agree.uniqueElem (named.filter ?_)) fun a b ab => ab.symbol
    intro a b ab
    simp only [ab.language, ab.filePath_eq, ab.qualified_eq, ab.sharesModule_eq, ab.withinModule_eq]

/-! ### The type-member rung -/

def MemberTwin (R R' : Resolver) (ρ : SymbolCandidate → SymbolCandidate → Prop)
    (m m' : Tier × NamedCandidate) : Prop :=
  m.1 = m'.1 ∧ Twin R R' ρ m.2 m'.2

variable {ms ms' : List (Tier × NamedCandidate)}

theorem bestTier_agree (members : Agree (MemberTwin R R' ρ) ms ms') :
    Agree (Twin R R' ρ) (bestTier ms) (bestTier ms') := by
  have anyTier : ∀ tier : Tier, (ms.any fun m => m.1 == tier) = ms'.any fun m => m.1 == tier := by
    intro tier
    exact members.any_eq fun a b ab => by rw [ab.1]
  unfold bestTier
  simp only [anyTier]
  split
  · exact Agree.nil
  · next best _ =>
      refine Agree.map (R := MemberTwin R R' ρ) (fun a b ab => ab.2) ?_
      exact members.filter fun a b ab => by rw [ab.1]

theorem pickNearest_same {pool pool' : List NamedCandidate} (agree : Agree (Twin R R' ρ) pool pool')
    (own : R.modulePrefixesForFile fromFile = R'.modulePrefixesForFile fromFile) :
    Option.Rel (ResolvedRef.Same ρ) (R.pickNearest fromFile pool) (R'.pickNearest fromFile pool') := by
  have sameFile := (agree.filter (p := fun c => c.symbol.filePath == fromFile)
    (q := fun c => c.symbol.filePath == fromFile) fun a b ab => by rw [ab.filePath_eq]).uniqueElem
  unfold pickNearest
  rcases optionRel_cases sameFile with ⟨left, right⟩ | ⟨a, b, left, right, twin⟩
  · simp only [left, right]
    refine optionRel_map (Agree.uniqueElem (agree.filter ?_))
      fun a b ab => .candidate .sameModule ab.symbol
    intro a b ab
    rw [ab.sharesModule_eq, own]
  · simp only [left, right]
    exact .some (.candidate .exact twin.symbol)

theorem pickScoped_same {total total' : Nat} (members : Agree (MemberTwin R R' ρ) ms ms') (count : total = total')
    (own : R.modulePrefixesForFile fromFile = R'.modulePrefixesForFile fromFile) :
    Option.Rel (ResolvedRef.Same ρ) (R.pickScoped fromFile ms total) (R'.pickScoped fromFile ms' total') := by
  subst count
  have best := bestTier_agree members
  have only := best.uniqueElem
  unfold pickScoped
  rcases optionRel_cases only with ⟨left, right⟩ | ⟨a, b, left, right, twin⟩
  · simp only [left, right]
    exact pickNearest_same best own
  · simp only [left, right]
    exact .some (.candidate _ twin.symbol)

theorem pickUnscoped_same (members : Agree (MemberTwin R R' ρ) ms ms')
    (own : R.modulePrefixesForFile fromFile = R'.modulePrefixesForFile fromFile) :
    Option.Rel (ResolvedRef.Same ρ) (R.pickUnscoped fromFile ms) (R'.pickUnscoped fromFile ms') := by
  have candidateOf : ∀ {pool pool' : List NamedCandidate} (confidence : Confidence),
      Agree (Twin R R' ρ) pool pool' →
        Option.Rel (ResolvedRef.Same ρ)
          ((uniqueElem pool).map fun only => ResolvedRef.candidate only.symbol confidence)
          ((uniqueElem pool').map fun only => ResolvedRef.candidate only.symbol confidence) := by
    intro pool pool' confidence agree
    exact optionRel_map agree.uniqueElem fun a b ab => .candidate confidence ab.symbol
  have sameFile := members.filter (p := fun m => m.2.symbol.filePath == fromFile)
    (q := fun m => m.2.symbol.filePath == fromFile) fun a b ab => by rw [ab.2.filePath_eq]
  have nearby := members.filter
    (p := fun m => R.candidateSharesModule m.2 (R.modulePrefixesForFile fromFile))
    (q := fun m => R'.candidateSharesModule m.2 (R'.modulePrefixesForFile fromFile))
    fun a b ab => by rw [ab.2.sharesModule_eq, own]
  have single := members.uniqueElem
  unfold pickUnscoped
  rcases optionRel_cases single with ⟨left, right⟩ | ⟨a, b, left, right, twin⟩
  · simp only [left, right, sameFile.isEmpty_eq, nearby.isEmpty_eq]
    split
    · exact candidateOf .exact (bestTier_agree sameFile)
    · split
      · exact candidateOf .sameModule (bestTier_agree nearby)
      · refine optionRel_bind (bestTier_agree members).uniqueElem fun a b ab => ?_
        have everywhere : (ms.all fun m => m.2.symbol.filePath == a.symbol.filePath) =
            ms'.all fun m => m.2.symbol.filePath == b.symbol.filePath :=
          members.all_eq fun m m' mm => by rw [mm.2.filePath_eq, ab.filePath_eq]
        rw [everywhere]
        split
        · exact .some (.candidate .exact ab.symbol)
        · exact .none
  · simp only [left, right]
    exact .some (.candidate .exact twin.2.symbol)

theorem membersOf_agree {target : MemberTarget}
    (named : Agree (Twin R R' ρ) (R.symbolsByName target.member) (R'.symbolsByName target.member)) :
    Agree (MemberTwin R R' ρ) (R.membersOf target) (R'.membersOf target) := by
  refine named.filterMap fun a b ab => ?_
  rw [ab.qualified_eq]
  cases (MemberTarget.parse b.symbol.qualified).bind target.tierOf with
  | none => exact .none
  | some tier => exact .some ⟨rfl, ab⟩

theorem pickMember_same {target : MemberTarget} (scope : List ScopedModule)
    (named : Agree (Twin R R' ρ) (R.symbolsByName target.member) (R'.symbolsByName target.member))
    (packages : R.packageForFile = R'.packageForFile)
    (own : R.modulePrefixesForFile fromFile = R'.modulePrefixesForFile fromFile) :
    Option.Rel (ResolvedRef.Same ρ) (R.pickMember fromFile scope target) (R'.pickMember fromFile scope target) := by
  have members := membersOf_agree named
  unfold pickMember
  simp only
  split
  · exact pickUnscoped_same members own
  · refine pickScoped_same (members.filter fun a b ab => ?_) members.length_eq own
    exact ab.2.withinScope_eq packages scope

/-- A trait default resolves alike where the same candidates declare the member
for the type's traits, and the type lies in one file in both or in neither. -/
theorem resolveTraitDefault_same {target : MemberTarget} {scope : List ScopedModule}
    (named : Agree (Twin R R' ρ) (R.symbolsByName target.member) (R'.symbolsByName target.member))
    (declares : ∀ a ∈ R.symbolsByName target.member, ∀ b ∈ R'.symbolsByName target.member, Twin R R' ρ a b →
        declaresMemberOf ((R.relevantImpls target scope).map Prod.fst) a =
          declaresMemberOf ((R'.relevantImpls target scope).map Prod.fst) b)
    (oneFile : scope = [] → (∃ c ∈ R.symbolsByName target.member,
        declaresMemberOf ((R.relevantImpls target scope).map Prod.fst) c = true) →
      isOneFile ((R.relevantImpls target scope).map fun impl => impl.2.symbol.filePath) =
        isOneFile ((R'.relevantImpls target scope).map fun impl => impl.2.symbol.filePath)) :
    Option.Rel (ResolvedRef.Same ρ) (R.resolveTraitDefault target scope) (R'.resolveTraitDefault target scope) := by
  unfold resolveTraitDefault
  by_cases object : target.traitObject
  · simp only [object, if_true]
    exact .none
  · simp only [object]
    have inBoth : Agree (fun a b => Twin R R' ρ a b ∧ a ∈ R.symbolsByName target.member ∧
        b ∈ R'.symbolsByName target.member) (R.symbolsByName target.member)
        (R'.symbolsByName target.member) :=
      named.mono fun a ha b hb ab => ⟨ab, ha, hb⟩
    have declared := inBoth.filter
      (p := declaresMemberOf ((R.relevantImpls target scope).map Prod.fst))
      (q := declaresMemberOf ((R'.relevantImpls target scope).map Prod.fst))
      fun a b ab => declares a ab.2.1 b ab.2.2 ab.1
    refine optionRel_bind (Agree.uniqueElem (R := fun a b => Twin R R' ρ a b ∧
      ∃ c ∈ R.symbolsByName target.member,
        declaresMemberOf ((R.relevantImpls target scope).map Prod.fst) c = true)
      (declared.mono fun a ha b _ ab => ⟨ab.1, a, (List.mem_filter.mp ha)⟩)) fun a b ab => ?_
    have certain :
        (!scope.isEmpty || isOneFile ((R.relevantImpls target scope).map fun impl =>
          impl.2.symbol.filePath)) =
        (!scope.isEmpty || isOneFile ((R'.relevantImpls target scope).map fun impl =>
          impl.2.symbol.filePath)) := by
      cases scope with
      | nil => simp [oneFile rfl ab.2]
      | cons => simp
    rw [certain]
    split
    · exact .some (.candidate .exact ab.1.symbol)
    · exact .none

/-! ### Re-exports -/

omit [CharTables] in
theorem explore_reexports (table : ∀ module, (R.reexports module).Perm (R'.reexports module)) (initial : Text) :
    Option.Rel List.Perm (explore (reexportTargets R.reexports) reexportBudget [] [initial])
      (explore (reexportTargets R'.reexports) reexportBudget [] [initial]) := by
  refine explore_congr (fun path next => ?_) _ _
  simp only [reexportTargets, List.mem_flatMap, List.mem_filterMap]
  have anyRow : ∀ module p, (R.reexports module).any p = (R'.reexports module).any p := by
    intro module p
    rw [Bool.eq_iff_iff, List.any_eq_true, List.any_eq_true]
    simp only [(table module).mem_iff]
  simp only [anyRow, (table _).mem_iff]

/-- The ids of the candidates a resolver reads tell their rows apart. -/
def IdsDistinct (R : Resolver) : Prop := (R.symbols.map SymbolRow.id).Nodup

omit [CharTables] in
theorem mem_symbolsByName {name : Text} {c : NamedCandidate} :
    c ∈ R.symbolsByName name ↔
      ∃ s ∈ R.symbols, s.name = name ∧ s.kind ≠ "impl" ∧ c.symbol = s.candidate ∧
        R.langOf s.filePath = some c.language := by
  simp only [symbolsByName, List.mem_filterMap, List.mem_filter, namedCandidate,
    Option.map_eq_some_iff, Bool.and_eq_true, beq_iff_eq, bne_iff_ne]
  constructor
  · rintro ⟨s, ⟨mem, name, kind⟩, lang, hLang, rfl⟩
    exact ⟨s, mem, name, kind, rfl, hLang⟩
  · rintro ⟨s, mem, name, kind, symbol, hLang⟩
    refine ⟨s, ⟨mem, name, kind⟩, c.language, hLang, ?_⟩
    cases c
    simp_all

omit [CharTables] in
theorem candidate_eq_of_id (distinct : IdsDistinct R) {n m : Text} {c d : NamedCandidate}
    (hc : c ∈ R.symbolsByName n) (hd : d ∈ R.symbolsByName m) (id : c.symbol.id = d.symbol.id) :
    c.symbol = d.symbol := by
  obtain ⟨s, hs, -, -, cs, -⟩ := mem_symbolsByName.mp hc
  obtain ⟨t, ht, -, -, dt, -⟩ := mem_symbolsByName.mp hd
  have : s.id = t.id := by simpa [cs, dt, SymbolRow.candidate] using id
  have same : s = t := List.inj_on_of_nodup_map distinct hs ht this
  rw [cs, dt, same]

theorem uniqueQualifiedMatch_spec {name target : Text} {c : SymbolCandidate}
    (h : R.uniqueQualifiedMatch language name target = some c) : (∃ d ∈ R.symbolsByName name, d.symbol = c) ∧
      ∀ d ∈ R.symbolsByName name, SameKey d.symbol c → d.symbol = c := by
  unfold uniqueQualifiedMatch at h
  obtain ⟨only, unique, rfl⟩ := Option.map_eq_some_iff.mp h
  have singleton := uniqueElem_eq_some.mp unique
  have memOnly : only ∈ (R.symbolsByName name).filter fun c =>
      c.language == language && R.candidateMatchesQualified c target := by
    rw [singleton]
    exact List.mem_singleton_self _
  obtain ⟨inNamed, holds⟩ := List.mem_filter.mp memOnly
  refine ⟨⟨only, inNamed, rfl⟩, fun d hd key => ?_⟩
  have sameLanguage : d.language = only.language := by
    obtain ⟨s, -, -, -, ds, sl⟩ := mem_symbolsByName.mp hd
    obtain ⟨t, -, -, -, ot, tl⟩ := mem_symbolsByName.mp inNamed
    have file : s.filePath = t.filePath := by simpa [ds, ot, SymbolRow.candidate] using key.filePath
    rw [file, tl] at sl
    exact (Option.some.inj sl).symm
  have twin : Twin R R (fun _ _ => True) d only :=
    ⟨⟨key, trivial⟩, sameLanguage, by rw [key.filePath]⟩
  have memD : d ∈ (R.symbolsByName name).filter fun c =>
      c.language == language && R.candidateMatchesQualified c target := by
    refine List.mem_filter.mpr ⟨hd, ?_⟩
    rw [sameLanguage, twin.matchesQualified_eq]
    exact holds
  rw [singleton, List.mem_singleton] at memD
  rw [memD]

/-- Among unique matches, the id and the key tell the same candidates apart. -/
theorem match_id_iff (distinct : IdsDistinct R) {language' n m p q : Text} {c d : SymbolCandidate}
    (hc : R.uniqueQualifiedMatch language n p = some c)
    (hd : R.uniqueQualifiedMatch language' m q = some d) : c.id = d.id ↔ SameKey c d := by
  obtain ⟨⟨cn, cnMem, rfl⟩, onlyC⟩ := uniqueQualifiedMatch_spec hc
  obtain ⟨⟨dn, dnMem, rfl⟩, -⟩ := uniqueQualifiedMatch_spec hd
  constructor
  · intro id
    rw [candidate_eq_of_id distinct cnMem dnMem id]
    exact ⟨rfl, rfl, rfl⟩
  · intro key
    have sameName : n = m := by
      obtain ⟨s, -, sn, -, cs, -⟩ := mem_symbolsByName.mp cnMem
      obtain ⟨t, -, tn, -, dt, -⟩ := mem_symbolsByName.mp dnMem
      have := key.name
      rw [cs, dt] at this
      exact sn.symm.trans (this.trans tn)
    subst sameName
    rw [onlyC dn dnMem ⟨key.filePath.symm, key.name.symm, key.qualified.symm⟩]

omit [CharTables] in
/-- Agreeing matches resolve alike: their ids repeat where their keys do. -/
theorem ofMatches_same {xs ys : List SymbolCandidate} (agree : Agree (Paired ρ) xs ys)
    (left : ∀ c ∈ xs, ∀ d ∈ xs, c.id = d.id ↔ SameKey c d) (right : ∀ c ∈ ys, ∀ d ∈ ys, c.id = d.id ↔ SameKey c d) :
    ImportResolution.Same ρ (ImportResolution.ofMatches xs) (ImportResolution.ofMatches ys) := by
  have transfer : ∀ c c' d d' : SymbolCandidate, Paired ρ c d → Paired ρ c' d' →
      (SameKey c c' ↔ SameKey d d') := by
    intro c c' d d' cd cd'
    constructor
    · intro h
      exact ⟨cd.key.filePath.symm.trans (h.filePath.trans cd'.key.filePath),
        cd.key.name.symm.trans (h.name.trans cd'.key.name),
        cd.key.qualified.symm.trans (h.qualified.trans cd'.key.qualified)⟩
    · intro h
      exact ⟨cd.key.filePath.trans (h.filePath.trans cd'.key.filePath.symm),
        cd.key.name.trans (h.name.trans cd'.key.name.symm),
        cd.key.qualified.trans (h.qualified.trans cd'.key.qualified.symm)⟩
  match xs, ys, agree.length_eq with
  | [], [], _ => exact .none
  | c :: xs', d :: ys', _ =>
    have ids : ((c :: xs').all fun e => e.id == c.id) = (d :: ys').all fun e => e.id == d.id := by
      obtain ⟨c₀, c₀Mem, pairD⟩ := agree.exists_left (List.mem_cons_self (a := d) (l := ys'))
      rw [Bool.eq_iff_iff, List.all_eq_true, List.all_eq_true]
      simp only [beq_iff_eq]
      constructor
      · intro all e he
        obtain ⟨e₀, e₀Mem, pairE⟩ := agree.exists_left he
        have same : e₀.id = c₀.id := (all e₀ e₀Mem).trans (all c₀ c₀Mem).symm
        have key := (left e₀ e₀Mem c₀ c₀Mem).mp same
        exact (right e he d List.mem_cons_self).mpr ((transfer _ _ _ _ pairE pairD).mp key)
      · intro all e he
        obtain ⟨e₁, e₁Mem, pairE⟩ := agree.exists_right he
        obtain ⟨d₁, d₁Mem, pairC⟩ := agree.exists_right (List.mem_cons_self (a := c) (l := xs'))
        have same : e₁.id = d₁.id := (all e₁ e₁Mem).trans (all d₁ d₁Mem).symm
        have key := (right e₁ e₁Mem d₁ d₁Mem).mp same
        exact (left e he c List.mem_cons_self).mpr ((transfer _ _ _ _ pairE pairC).mpr key)
    simp only [List.all_cons, beq_self_eq_true, Bool.true_and] at ids
    simp only [ImportResolution.ofMatches, ids]
    split
    · next all =>
        refine .unique ?_
        obtain ⟨d₁, d₁Mem, pair⟩ := agree.exists_right (List.mem_cons_self (a := c) (l := xs'))
        have sameId : d₁.id = d.id := by
          rcases List.mem_cons.mp d₁Mem with rfl | mem
          · rfl
          · exact beq_iff_eq.mp (List.all_eq_true.mp all d₁ mem)
        have key := (right d₁ d₁Mem d List.mem_cons_self).mp sameId
        have samePoint : d₁ = d := by
          cases d₁
          cases d
          obtain ⟨h1, h2, h3⟩ := key
          simp_all
        exact samePoint ▸ pair
    · exact .ambiguous

/-- The re-export rung answers alike where the tables hold the same re-exports
and the candidates agree that the visited paths end in. -/
theorem resolveReexport_same (table : ∀ module, (R.reexports module).Perm (R'.reexports module))
    (distinct : IdsDistinct R) (distinct' : IdsDistinct R') (named : ∀ spelled, raw.targetQualified = some spelled →
      ∀ visited, explore (reexportTargets R.reexports) reexportBudget []
        [resolveImportPath fromFile spelled] = some visited →
      ∀ path ∈ visited, path ≠ resolveImportPath fromFile spelled →
        Agree (Twin R R' ρ) (R.symbolsByName (lastSegment path)) (R'.symbolsByName (lastSegment path))) :
    ImportResolution.Same ρ (R.resolveReexport fromFile raw) (R'.resolveReexport fromFile raw) := by
  unfold resolveReexport
  cases spelled : raw.targetQualified with
  | none => exact .none
  | some spelledPath =>
    replace named := named spelledPath spelled
    simp only
    generalize resolveImportPath fromFile spelledPath = initial at named
    by_cases top : (!Text.contains colons initial) = true
    · rw [if_pos top, if_pos top]
      exact .none
    · rw [if_neg top, if_neg top]
      have search := explore_reexports table initial
      cases found : explore (reexportTargets R.reexports) reexportBudget [] [initial] with
      | none =>
        rw [found] at search
        cases h : explore (reexportTargets R'.reexports) reexportBudget [] [initial] with
        | none => exact .ambiguous
        | some _ => rw [h] at search; cases search
      | some visited =>
        rw [found] at search
        cases h : explore (reexportTargets R'.reexports) reexportBudget [] [initial] with
        | none => rw [h] at search; cases search
        | some visited' =>
          rw [h] at search
          cases search with
          | some perm =>
            simp only
            have isMatch : ∀ (Q : Resolver) (paths : List Text) (c : SymbolCandidate),
                c ∈ paths.filterMap (Q.reexportMatch initial) →
                ∃ n p, Q.uniqueQualifiedMatch "rust" n p = some c := by
              intro Q paths c mem
              obtain ⟨path, -, hpath⟩ := List.mem_filterMap.mp mem
              unfold reexportMatch at hpath
              split at hpath
              · cases hpath
              · exact ⟨_, _, hpath⟩
            refine ofMatches_same ?_ ?_ ?_
            · have paths : Agree (fun p q => p = q ∧ p ∈ visited) visited visited' :=
                (Agree.of_perm perm).mono fun p hp q _ eq => ⟨eq, hp⟩
              refine paths.filterMap ?_
              rintro path _ ⟨rfl, mem⟩
              unfold reexportMatch
              by_cases start : path = initial
              · rw [if_pos start, if_pos start]
                exact .none
              · rw [if_neg start, if_neg start]
                exact uniqueQualifiedMatch_same (named visited found path mem start) path
            · intro c hc d hd
              obtain ⟨n, p, hn⟩ := isMatch R _ c hc
              obtain ⟨m, q, hm⟩ := isMatch R _ d hd
              exact match_id_iff distinct hn hm
            · intro c hc d hd
              obtain ⟨n, p, hn⟩ := isMatch R' _ c hc
              obtain ⟨m, q, hm⟩ := isMatch R' _ d hd
              exact match_id_iff distinct' hn hm

/-! ### The ladder -/

/-- What a reference reads of two resolvers agrees. -/
structure ReadsAlike (R R' : Resolver) (ρ : SymbolCandidate → SymbolCandidate → Prop)
    (fromFile language : Text) (imports : List ImportCandidate) (raw : RawRef) : Prop where
  inFile : Agree (Paired ρ) (R.symbolsInFileByName fromFile raw.targetName)
    (R'.symbolsInFileByName fromFile raw.targetName)
  named : Agree (Twin R R' ρ) (R.symbolsByName raw.targetName) (R'.symbolsByName raw.targetName)
  own : R.modulePrefixesForFile fromFile = R'.modulePrefixesForFile fromFile
  packages : R.packageForFile = R'.packageForFile
  traitDefault : ∀ target, MemberTarget.ofRef fromFile raw = some target →
    R.pickMember fromFile (R.typeScope fromFile imports target) target = none →
    Option.Rel (ResolvedRef.Same ρ)
      (R.resolveTraitDefault target (R.typeScope fromFile imports target))
      (R'.resolveTraitDefault target (R.typeScope fromFile imports target))
  reexport : R.resolveDirect fromFile language imports raw = none →
    ImportResolution.Same ρ (R.resolveReexportRung fromFile language raw)
      (R'.resolveReexportRung fromFile language raw)

omit [CharTables] in
theorem typeScope_eq (packages : R.packageForFile = R'.packageForFile) (target : MemberTarget) :
    R.typeScope fromFile imports target = R'.typeScope fromFile imports target := by
  simp only [typeScope, packages]

theorem resolveMember_same (reads : ReadsAlike R R' ρ fromFile language imports raw) :
    Option.Rel (ResolvedRef.Same ρ) (R.resolveMember fromFile imports raw)
      (R'.resolveMember fromFile imports raw) := by
  unfold resolveMember
  cases hTarget : MemberTarget.ofRef fromFile raw with
  | none => exact .none
  | some target =>
    have named := reads.named
    rw [← MemberTarget.ofRef_member hTarget] at named
    have picked := pickMember_same (R.typeScope fromFile imports target) named reads.packages
      reads.own
    simp only [Option.bind_some, resolveTypeMember, ← typeScope_eq reads.packages]
    rcases optionRel_cases picked with ⟨left, right⟩ | ⟨a, b, left, right, same⟩
    · have byDefault := reads.traitDefault target hTarget left
      simp only [left, right]
      rcases optionRel_cases byDefault with ⟨left', right'⟩ | ⟨a, b, left', right', same⟩
      · simp only [left', right', (membersOf_agree named).isEmpty_eq]
        split
        · split
          · exact .none
          · exact .some .fuzzy
        · exact .some .fuzzy
      · simp only [left', right']
        exact .some same
    · simp only [left, right]
      exact .some same

theorem resolveDirect_same (reads : ReadsAlike R R' ρ fromFile language imports raw) :
    Option.Rel (ResolvedRef.Same ρ) (R.resolveDirect fromFile language imports raw)
      (R'.resolveDirect fromFile language imports raw) := by
  have member := resolveMember_same reads
  have inFile := resolveExact_same reads.inFile
  have imported := resolveImport_same fromFile language imports reads.named
  have qualified := resolveQualified_same language reads.named
  have sameModule := resolveSameModule_same language reads.named reads.own
  unfold resolveDirect
  split
  · exact .some .fuzzy
  · rcases optionRel_cases member with ⟨left, right⟩ | ⟨a, b, left, right, same⟩
    · simp only [left, right]
      rcases optionRel_cases inFile with ⟨left, right⟩ | ⟨c, d, left, right, pair⟩
      · simp only [left, right]
        generalize R.resolveImport fromFile language imports raw = x at imported
        generalize R'.resolveImport fromFile language imports raw = y at imported
        cases imported with
        | unique pair => exact .some (.candidate .importResolved pair)
        | ambiguous => exact .some .fuzzy
        | none =>
          rcases optionRel_cases qualified with ⟨left, right⟩ | ⟨c, d, left, right, pair⟩
          · simp only [left, right]
            split
            · exact optionRel_map sameModule fun c d pair => .candidate .sameModule pair
            · exact .none
          · simp only [left, right]
            exact .some (.candidate .exact pair)
      · simp only [left, right]
        exact .some (.candidate .exact pair)
    · simp only [left, right]
      exact .some same

theorem resolveRef_same (reads : ReadsAlike R R' ρ fromFile language imports raw) :
    ResolvedRef.Same ρ (R.resolveRef fromFile language imports raw)
      (R'.resolveRef fromFile language imports raw) := by
  have direct := resolveDirect_same reads
  have sameModule := resolveSameModule_same language reads.named reads.own
  unfold resolveRef
  rcases optionRel_cases direct with ⟨left, right⟩ | ⟨a, b, left, right, same⟩
  · have exported := reads.reexport left
    simp only [left, right]
    generalize R.resolveReexportRung fromFile language raw = x at exported
    generalize R'.resolveReexportRung fromFile language raw = y at exported
    cases exported with
    | unique pair => exact .candidate .importResolved pair
    | ambiguous => exact .fuzzy
    | none =>
      rcases optionRel_cases sameModule with ⟨left, right⟩ | ⟨c, d, left, right, pair⟩
      · simp only [left, right]
        exact .fuzzy
      · simp only [left, right]
        exact .candidate .sameModule pair
  · simp only [left, right]
    exact same

end Resolver

end OrbitGraph.Sync
