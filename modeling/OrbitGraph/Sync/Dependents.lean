import OrbitGraph.Sync.Undisturbed

/-!
What an incremental sync may leave alone.

`Step` relates the indexes before and after pass 1: the files outside `touched`
have the same rows. `Covers` says what the dependents of the change hold: every
changed name, the members of every trait whose impl blocks changed, every row
whose id lost its meaning. A reference that no dependent selects and that is
`Undisturbed` resolves to the row its hint already names.
-/

namespace OrbitGraph.Sync

open Lib

variable [CharTables]

/-- A name under which a file defines the same before and after, among the same
module prefixes if it defines anything. -/
structure FileSettled (before after : Index) (path name : Text) : Prop where
  definitions : (definitionsNamed (definedSymbols before path) name).Perm
    (definitionsNamed (definedSymbols after path) name)
  prefixes : name ∈ (definedSymbols before path ++ definedSymbols after path).map DefinedSymbol.name →
    prefixesOf path (definedSymbols before path) = prefixesOf path (definedSymbols after path)

namespace FileSettled

variable {before after : Index} {path name : Text}

theorem symm (h : FileSettled before after path name) : FileSettled after before path name where
  definitions := h.definitions.symm
  prefixes mem := by
    refine (h.prefixes ?_).symm
    simp only [List.map_append, List.mem_append] at mem ⊢
    exact mem.symm

theorem of_eq (h : after.symbolsOf path = before.symbolsOf path) : FileSettled before after path name := by
  have same : definedSymbols after path = definedSymbols before path := congrArg (List.map _) h
  exact ⟨by rw [same], fun _ => by rw [same]⟩

theorem of_unchanged (h : name ∉ changedNames path (definedSymbols before path) (definedSymbols after path)) :
    FileSettled before after path name := by
  have absent : name ∉ (definedSymbols before path ++ definedSymbols after path).map
      DefinedSymbol.name →
      definitionsNamed (definedSymbols before path) name = [] ∧
        definitionsNamed (definedSymbols after path) name = [] := by
    intro notMem
    simp only [List.map_append, List.mem_append, not_or, List.mem_map, not_exists, not_and]
      at notMem
    simp only [definitionsNamed, List.map_eq_nil_iff, List.filter_eq_nil_iff, beq_iff_eq]
    exact ⟨fun s hs => notMem.1 s hs, fun s hs => notMem.2 s hs⟩
  by_cases mem : name ∈ (definedSymbols before path ++ definedSymbols after path).map
      DefinedSymbol.name
  · unfold changedNames at h
    by_cases moved : prefixesOf path (definedSymbols before path) ≠
        prefixesOf path (definedSymbols after path)
    · rw [if_pos moved] at h
      exact absurd mem h
    · rw [if_neg moved] at h
      refine ⟨?_, fun _ => not_not.mp moved⟩
      by_contra notPerm
      exact h (List.mem_filter.mpr ⟨mem, decide_eq_true notPerm⟩)
  · obtain ⟨old, new⟩ := absent mem
    exact ⟨by rw [old, new], fun inNames => absurd inNames mem⟩

theorem counterpart (h : FileSettled before after path name) {s : SymbolRow}
    (mem : s ∈ before.symbols) (file : s.filePath = path) (named : s.name = name) :
    ∃ s' ∈ after.symbols, s'.filePath = path ∧ s'.name = name ∧ s'.qualified = s.qualified ∧ s'.kind = s.kind := by
  have defined : (s.qualified, s.kind) ∈ definitionsNamed (definedSymbols before path) name := by
    refine List.mem_map.mpr ⟨s.defined, List.mem_filter.mpr ⟨?_, ?_⟩, rfl⟩
    · exact List.mem_map_of_mem (List.mem_filter.mpr ⟨mem, by simp [file]⟩)
    · simp [SymbolRow.defined, named]
  have found := h.definitions.mem_iff.mp defined
  obtain ⟨d, hd, eq⟩ := List.mem_map.mp found
  obtain ⟨inFile, hName⟩ := List.mem_filter.mp hd
  obtain ⟨s', hs', rfl⟩ := List.mem_map.mp inFile
  obtain ⟨mem', file'⟩ := List.mem_filter.mp hs'
  simp only [SymbolRow.defined, Prod.mk.injEq] at eq
  exact ⟨s', mem', by simpa using file', by simpa [SymbolRow.defined] using hName, eq.1, eq.2⟩

theorem resolver_prefixes (h : FileSettled before after path name) (packages packages' : PackageFiles)
    {s : SymbolRow} (mem : s ∈ before.symbols) (file : s.filePath = path) (named : s.name = name) :
    (Resolver.of packages before).modulePrefixesForFile path =
      (Resolver.of packages' after).modulePrefixesForFile path := by
  have reads : ∀ (packages : PackageFiles) (i : Index),
      (Resolver.of packages i).modulePrefixesForFile path =
        prefixesOf path (definedSymbols i path) := by
    intro packages i
    simp [Resolver.modulePrefixesForFile, Resolver.symbolsOf, Resolver.of, prefixesOf,
      definedSymbols, Index.symbolsOf, SymbolRow.defined, Function.comp_def]
  rw [reads, reads]
  refine h.prefixes ?_
  simp only [List.map_append, List.mem_append]
  refine .inl (List.mem_map.mpr ⟨s.defined, ?_, named⟩)
  exact List.mem_map_of_mem (List.mem_filter.mpr ⟨mem, by simp [file]⟩)

end FileSettled

/-- The indexes before and after pass 1, which changed only the rows of the
files in `touched`, none of which has re-exports. -/
structure Step (before after : Index) (touched : List Text) : Prop where
  symbols : ∀ path, path ∉ touched → after.symbolsOf path = before.symbolsOf path
  imports : ∀ path, path ∉ touched → after.importsOf path = before.importsOf path
  langOf : ∀ path, path ∉ touched → after.langOf path = before.langOf path
  lang : ∀ path l l', before.langOf path = some l → after.langOf path = some l' → l = l'
  inFile : ∀ s ∈ before.symbols, (before.langOf s.filePath).isSome
  inFile' : ∀ s ∈ after.symbols, (after.langOf s.filePath).isSome
  noReexports : ∀ path ∈ touched, before.hasReexports path = false ∧
    after.hasReexports path = false
  ids : (before.symbols.map SymbolRow.id).Nodup
  ids' : (after.symbols.map SymbolRow.id).Nodup

structure Covers (d : Dependents) (before after : Index) (touched : List Text) : Prop where
  names : ∀ path ∈ touched, ∀ name ∈ changedNames path (definedSymbols before path)
    (definedSymbols after path), name ∈ d.names
  traits : ∀ path ∈ touched, ∀ s ∈ definedSymbols before path ++ definedSymbols after path,
    s.kind = "impl" →
    s.name ∈ changedNames path (definedSymbols before path) (definedSymbols after path) →
    ∀ trait, implTraitName s.qualified = some trait →
      ∀ name ∈ Dependents.traitMemberNames after trait, name ∈ d.names
  replaced : ∀ path ∈ touched, ∀ s ∈ definedSymbols before path,
    keepsMeaning s (definedSymbols before path) (definedSymbols after path) = false →
      (s.id, s.name) ∈ d.replaced

/-- The rows an unselected reference may find in place of one another: a row of
its name that is the same row if its file is untouched, or the same row. -/
structure KeptRow (before after : Index) (touched : List Text) (name : Text)
    (c d : SymbolCandidate) : Prop where
  left : ∃ s ∈ before.symbols, s.candidate = c
  right : ∃ s ∈ after.symbols, s.candidate = d
  row : (c.name = name ∧ (c.filePath ∉ touched → c.id = d.id)) ∨ c = d

namespace Step

variable {before after : Index} {touched : List Text} {packages packages' : PackageFiles}

theorem named (step : Step before after touched) {name : Text}
    (settled : ∀ path, FileSettled before after path name) :
    Agree (Twin (Resolver.of packages before) (Resolver.of packages' after) (KeptRow before after touched name))
      ((Resolver.of packages before).symbolsByName name) ((Resolver.of packages' after).symbolsByName name) := by
  -- A row's tag shows its id only where the file is untouched.
  let tag : SymbolRow → Text × Text × Text × Option Nat := fun s =>
    (s.filePath, s.qualified, s.kind, if s.filePath ∈ touched then none else some s.id)
  have ofFile : ∀ (i : Index) (path : Text),
      (((i.symbols.filter fun s => s.name = name).map tag).filter fun t => t.1 = path) =
        ((i.symbolsOf path).filter fun s => s.name = name).map tag := by
    intro i path
    rw [List.filter_map, Index.symbolsOf, List.filter_filter, List.filter_filter]
    congr 1
    refine List.filter_congr fun s _ => ?_
    simp [tag, Bool.and_comm]
  have touchedTags : ∀ (i : Index) (path : Text), path ∈ touched →
      ((i.symbolsOf path).filter fun s => s.name = name).map tag =
        (definitionsNamed (definedSymbols i path) name).map fun d => (path, d.1, d.2, none) := by
    intro i path mem
    simp only [definitionsNamed, definedSymbols, List.filter_map, List.map_map]
    have keep : ((i.symbolsOf path).filter fun s => s.name = name) =
        (i.symbolsOf path).filter ((fun s => s.name == name) ∘ SymbolRow.defined) := by
      refine List.filter_congr fun s _ => ?_
      simp only [Function.comp_apply, SymbolRow.defined]
      exact Bool.eq_iff_iff.mpr (by simp)
    rw [keep]
    refine List.map_congr_left fun s hs => ?_
    have file : s.filePath = path := by
      have := (List.mem_filter.mp (List.mem_filter.mp hs).1).2
      simpa using this
    simp [tag, file, mem, SymbolRow.defined]
  have perm : ((before.symbols.filter fun s => s.name = name).map tag).Perm
      ((after.symbols.filter fun s => s.name = name).map tag) := by
    refine perm_of_keyed Prod.fst fun path => ?_
    rw [ofFile, ofFile]
    by_cases mem : path ∈ touched
    · rw [touchedTags before path mem, touchedTags after path mem]
      exact (settled path).definitions.map _
    · rw [step.symbols path mem]
  have rows := ((Agree.of_perm_map perm).mono fun s hs s' hs' eq =>
    (⟨eq, hs, hs'⟩ : tag s = tag s' ∧ s ∈ before.symbols.filter (fun s => s.name = name) ∧
      s' ∈ after.symbols.filter fun s => s.name = name)).filter
    (p := fun s => s.kind != "impl".toList) (q := fun s => s.kind != "impl".toList)
    fun s s' h => by
      simp only [tag, Prod.mk.injEq] at h
      rw [h.1.2.2.1]
  have byName : ∀ (packages : PackageFiles) (i : Index),
      (Resolver.of packages i).symbolsByName name =
        ((i.symbols.filter fun s => s.name = name).filter fun s =>
          s.kind != "impl".toList).filterMap (Resolver.of packages i).namedCandidate := by
    intro packages i
    simp only [Resolver.symbolsByName, List.filter_filter]
    congr 1
    refine List.filter_congr fun s _ => ?_
    rw [Bool.and_comm]
    congr 1
    exact Bool.eq_iff_iff.mpr (by simp)
  rw [byName, byName]
  refine rows.filterMap fun s s' h => ?_
  obtain ⟨eq, hs, hs'⟩ := h
  obtain ⟨mem, sName⟩ := List.mem_filter.mp hs
  obtain ⟨mem', sName'⟩ := List.mem_filter.mp hs'
  have sName : s.name = name := by simpa using sName
  have sName' : s'.name = name := by simpa using sName'
  simp only [tag, Prod.mk.injEq] at eq
  obtain ⟨file, qualified, -, id⟩ := eq
  obtain ⟨l, hl⟩ := Option.isSome_iff_exists.mp (step.inFile s mem)
  obtain ⟨l', hl'⟩ := Option.isSome_iff_exists.mp (step.inFile' s' mem')
  have language : l = l' := step.lang s.filePath l l' hl (file ▸ hl')
  simp only [Resolver.namedCandidate, Resolver.of, hl, hl', Option.map_some]
  refine .some ⟨⟨⟨file, sName.trans sName'.symm, qualified⟩, ?_⟩, language, ?_⟩
  · refine ⟨⟨s, mem, rfl⟩, ⟨s', mem', rfl⟩, .inl ⟨sName, fun untouched => ?_⟩⟩
    have untouched' : s'.filePath ∉ touched := file ▸ untouched
    rw [if_neg (show s.filePath ∉ touched from untouched), if_neg untouched',
      Option.some.injEq] at id
    exact id
  · have prefixes := (settled s.filePath).resolver_prefixes packages packages' mem rfl sName
    exact prefixes.trans (congrArg _ file)

omit [CharTables] in
/-- The re-exports of an index are those of its untouched files. -/
theorem reexports (step : Step before after touched) (module : Text) :
    ((Resolver.of packages before).reexports module).Perm ((Resolver.of packages' after).reexports module) := by
  have ofFile : ∀ (packages : PackageFiles) (i : Index) (path : Text),
      (((Resolver.of packages i).imports.filterMap (Resolver.of packages i).reexportCandidate).filter
        fun row => row.fromFile = path) =
        (i.importsOf path).filterMap (Resolver.of packages i).reexportCandidate := by
    intro packages i path
    rw [show (Resolver.of packages i).imports = i.imports from rfl, Index.importsOf]
    induction i.imports with
    | nil => rfl
    | cons row rest ih =>
      have from_ : ∀ c, (Resolver.of packages i).reexportCandidate row = some c →
          c.fromFile = row.fromFile := by
        intro c hc
        unfold Resolver.reexportCandidate at hc
        split at hc
        · obtain ⟨_, -, rfl⟩ := Option.map_eq_some_iff.mp hc
          rfl
        · cases hc
      cases hc : (Resolver.of packages i).reexportCandidate row with
      | none =>
        by_cases file : row.fromFile = path
        · simp [hc, file, ih]
        · simp [hc, file, ih]
      | some c =>
        by_cases file : row.fromFile = path
        · simp [hc, file, from_ c hc, ih]
        · simp [hc, file, from_ c hc, ih]
  have none : ∀ (packages : PackageFiles) (i : Index) (path : Text), i.hasReexports path = false →
      (i.importsOf path).filterMap (Resolver.of packages i).reexportCandidate = [] := by
    intro packages i path h
    refine List.filterMap_eq_nil_iff.mpr fun row hrow => ?_
    have := List.any_eq_false.mp h row hrow
    unfold Resolver.reexportCandidate
    split
    · simpa using this
    · rfl
  refine (perm_of_keyed ReexportCandidate.fromFile fun path => ?_).filter _
  rw [ofFile, ofFile]
  by_cases mem : path ∈ touched
  · obtain ⟨old, new⟩ := step.noReexports path mem
    rw [none packages before path old, none packages' after path new]
  · rw [step.imports path mem]
    refine List.Perm.of_eq (List.filterMap_congr fun row hrow => ?_)
    have file : row.fromFile = path := by simpa using (List.mem_filter.mp hrow).2
    simp only [Resolver.reexportCandidate, Resolver.of, file, step.langOf path mem]

theorem implements {trait : Text} (impls : ∀ s ∈ before.symbols, s.kind = "impl" →
      implTraitName s.qualified = some trait → FileSettled before after s.filePath s.name)
    {target : MemberTarget} {scope : List ScopedModule}
    (h : trait ∈ ((Resolver.of packages before).relevantImpls target scope).map Prod.fst) :
    trait ∈ ((Resolver.of packages after).relevantImpls target scope).map Prod.fst := by
  obtain ⟨⟨t, c⟩, relevant, same⟩ := List.mem_map.mp h
  obtain rfl : trait = t := same.symm
  obtain ⟨isImpl, holds⟩ := List.mem_filter.mp relevant
  obtain ⟨s, hs, hImpl⟩ := List.mem_filterMap.mp isImpl
  obtain ⟨mem, kind⟩ := List.mem_filter.mp hs
  have kind : s.kind = "impl" := by simpa using kind
  have named : ∀ s' : SymbolRow, s'.qualified = s.qualified →
      Resolver.traitImplOf target.typeName s' = some (trait, ⟨s'.candidate, "rust"⟩) ∧
        implTraitName s.qualified = some trait ∧ c = ⟨s.candidate, "rust"⟩ := by
    intro s' same
    unfold Resolver.traitImplOf at hImpl ⊢
    rw [same]
    cases hParts : implTypeAndTrait s.qualified with
    | none => simp [hParts] at hImpl
    | some parts =>
      obtain ⟨selfName, traitName⟩ := parts
      simp only [hParts] at hImpl ⊢
      split at hImpl
      · next own =>
          simp only [Option.some.injEq, Prod.mk.injEq] at hImpl
          obtain ⟨rfl, rfl⟩ := hImpl
          simp [own, implTraitName, hParts]
      · cases hImpl
  obtain ⟨-, traitName, rfl⟩ := named s rfl
  have settled := impls s mem kind traitName
  obtain ⟨s', mem', file, name, qualified, kind'⟩ := settled.counterpart mem rfl rfl
  have twin : Twin (Resolver.of packages before) (Resolver.of packages after) (fun _ _ => True)
      ⟨s.candidate, "rust"⟩ ⟨s'.candidate, "rust"⟩ := by
    refine ⟨⟨⟨file.symm, name.symm, qualified.symm⟩, trivial⟩, rfl, ?_⟩
    exact (settled.resolver_prefixes packages packages mem rfl rfl).trans (congrArg _ file.symm)
  refine List.mem_map.mpr ⟨(trait, ⟨s'.candidate, "rust"⟩), ?_, rfl⟩
  refine List.mem_filter.mpr ⟨?_, ?_⟩
  · refine List.mem_filterMap.mpr ⟨s', List.mem_filter.mpr ⟨mem', ?_⟩, (named s' qualified).1⟩
    simp [kind', kind]
  · rw [← twin.withinScope_eq rfl]
    exact holds

end Step

section Kept

variable {d : Dependents} {before after : Index} {touched : List Text}
  {packages packages' : PackageFiles} {fromFile : Text} {raw : RawRef}

theorem Covers.settled (covers : Covers d before after touched) (step : Step before after touched)
    {name : Text} (h : name ∉ d.names) (path : Text) : FileSettled before after path name := by
  by_cases mem : path ∈ touched
  · exact .of_unchanged fun changed => h (covers.names path mem name changed)
  · exact .of_eq (step.symbols path mem)

theorem Covers.implSettled (covers : Covers d before after touched)
    (step : Step before after touched) {name trait : Text} (h : name ∉ d.names)
    (declared : name ∈ Dependents.traitMemberNames after trait) {i : Index}
    (side : i = before ∨ i = after) {s : SymbolRow} (mem : s ∈ i.symbols)
    (kind : s.kind = "impl") (traitName : implTraitName s.qualified = some trait) :
    FileSettled before after s.filePath s.name := by
  by_cases inTouched : s.filePath ∈ touched
  · refine .of_unchanged fun changed => h ?_
    refine covers.traits s.filePath inTouched s.defined ?_ kind changed trait traitName name declared
    have inFile : s.defined ∈ definedSymbols i s.filePath :=
      List.mem_map_of_mem (List.mem_filter.mpr ⟨mem, by simp⟩)
    rcases side with rfl | rfl
    · exact List.mem_append_left _ inFile
    · exact List.mem_append_right _ inFile
  · exact .of_eq (step.symbols _ inTouched)

/-- What an unselected, undisturbed reference reads is the same before and
after. -/
theorem Covers.readsAlike (covers : Covers d before after touched)
    (step : Step before after touched) (unnamed : raw.targetName ∉ d.names) (own : fromFile ∉ touched)
    (undisturbed : Undisturbed (Resolver.of packages before) (Resolver.of packages' after) fromFile raw) :
    Resolver.ReadsAlike (Resolver.of packages' before) (Resolver.of packages' after)
      (KeptRow before after touched raw.targetName) fromFile ((Resolver.of packages before).languageOf fromFile)
      ((Resolver.of packages before).importsForFile fromFile) raw where
  inFile := by
    have same : (Resolver.of packages' after).symbolsInFileByName fromFile raw.targetName =
        (Resolver.of packages' before).symbolsInFileByName fromFile raw.targetName := by
      have := step.symbols fromFile own
      simp only [Resolver.symbolsInFileByName, Resolver.symbolsOf, Resolver.of, Index.symbolsOf]
        at this ⊢
      rw [this]
    rw [same]
    refine Agree.of_forall₂ (List.forall₂_same.mpr fun c hc => ?_)
    obtain ⟨s, hs, rfl⟩ := List.mem_map.mp hc
    obtain ⟨inFile, keep⟩ := List.mem_filter.mp hs
    have file : s.filePath = fromFile := by simpa using (List.mem_filter.mp inFile).2
    have after' : s ∈ after.symbols := by
      have : s ∈ after.symbolsOf fromFile := by
        rw [step.symbols fromFile own]
        exact inFile
      exact (List.mem_filter.mp this).1
    refine ⟨⟨rfl, rfl, rfl⟩, ⟨s, (List.mem_filter.mp inFile).1, rfl⟩, ⟨s, after', rfl⟩, .inr rfl⟩
  named := step.named (covers.settled step unnamed)
  own := by
    have same := step.symbols fromFile own
    simp only [Resolver.modulePrefixesForFile, Resolver.symbolsOf, Resolver.of, Index.symbolsOf]
      at same ⊢
    rw [same]
  packages := rfl
  traitDefault target hTarget unpicked := by
    have member := MemberTarget.ofRef_member hTarget
    have settled := covers.settled step unnamed
    rw [← member] at settled unnamed ⊢
    have scope : (Resolver.of packages' before).typeScope fromFile
        ((Resolver.of packages before).importsForFile fromFile) target = _ :=
      undisturbed.scope target hTarget
    have inScope := undisturbed.inScope target hTarget
    have oneFile := undisturbed.oneFile target hTarget
    have spelled := undisturbed.spelled target hTarget
    rw [scope] at unpicked ⊢
    generalize (Resolver.of packages before).typeScope fromFile
      ((Resolver.of packages before).importsForFile fromFile) target = scope
      at unpicked inScope oneFile spelled
    have impls : (Resolver.of packages' before).relevantImpls target scope =
        (Resolver.of packages before).relevantImpls target scope :=
      Resolver.relevantImpls_packages (R := Resolver.of packages before)
        (PackageIdentity.read packages') fun c hc => inScope c (.inr hc)
    refine Resolver.resolveTraitDefault_same (step.named settled) ?_ ?_
    · intro a ha b hb twin
      simp only [Resolver.declaresMemberOf, twin.qualified_eq]
      cases hParsed : MemberTarget.parse b.symbol.qualified with
      | none => rfl
      | some parsed =>
        cases bracketed : parsed.bracketed with
        | true => simp [bracketed]
        | false =>
          have sameTrait : parsed.typeName ∈
              ((Resolver.of packages' before).relevantImpls target scope).map Prod.fst ↔
              parsed.typeName ∈
                ((Resolver.of packages' after).relevantImpls target scope).map Prod.fst := by
            cases contains : Text.contains (parsed.typeName ++ colons) b.symbol.qualified with
            | false =>
              rw [impls]
              exact spelled b hb parsed hParsed bracketed contains
            | true =>
              obtain ⟨s, mem, name, kind, symbol, -⟩ := Resolver.mem_symbolsByName.mp hb
              have qualified : b.symbol.qualified = s.qualified := by rw [symbol]; rfl
              rw [qualified] at hParsed contains
              have declared : target.member ∈
                  Dependents.traitMemberNames after parsed.typeName := by
                have notImpl : (s.kind != "impl") = true := bne_iff_ne.mpr kind
                refine List.mem_map.mpr ⟨s, List.mem_filter.mpr ⟨mem, ?_⟩, name⟩
                simp only [notImpl, contains, hParsed, bracketed, Bool.not_false, Bool.true_and, beq_self_eq_true]
              constructor
              · refine Step.implements fun s' mem' kind' traitName => ?_
                exact covers.implSettled step unnamed declared (.inl rfl) mem' kind' traitName
              · refine Step.implements fun s' mem' kind' traitName => ?_
                exact (covers.implSettled step unnamed declared (.inr rfl) mem' kind' traitName).symm
          simp only [sameTrait]
    · intro empty declared
      subst empty
      rw [impls] at declared ⊢
      have unpicked' : (Resolver.of packages before).pickMember fromFile [] target = none := by
        rw [← unpicked]
        exact (Resolver.pickMember_packages (R := Resolver.of packages before)
          (PackageIdentity.read packages') fun c hc => inScope c (.inl hc)).symm
      exact oneFile rfl unpicked' declared
  reexport undecided := by
    have unchanged : (Resolver.of packages' before).resolveDirect fromFile
        ((Resolver.of packages before).languageOf fromFile)
        ((Resolver.of packages before).importsForFile fromFile) raw = _ :=
      undisturbed.resolveDirect_packages
    rw [unchanged] at undecided
    unfold Resolver.resolveReexportRung
    split
    · next rung =>
        obtain ⟨rust, spelledPath⟩ := Bool.and_eq_true_iff.mp rung
        refine Resolver.resolveReexport_same step.reexports step.ids step.ids' ?_
        intro spelled hSpelled visited found path mem notInitial
        by_cases sameName : lastSegment path = raw.targetName
        · rw [sameName]
          exact step.named (covers.settled step unnamed)
        · have candidates := undisturbed.reexports undecided (beq_iff_eq.mp rust) spelledPath
            spelled hSpelled visited found path mem notInitial sameName
          refine candidates.mono fun a ha b hb twin => ?_
          obtain ⟨s, hs, -, -, as, -⟩ := Resolver.mem_symbolsByName.mp ha
          obtain ⟨s', hs', -, -, bs, -⟩ := Resolver.mem_symbolsByName.mp hb
          exact ⟨⟨twin.symbol.key, ⟨s, hs, as.symm⟩, ⟨s', hs', bs.symm⟩, .inr twin.symbol.row⟩,
            twin.language, twin.prefixes⟩
    · exact .none

/-- A hint that no dependent selects names the same definition after as
before. -/
theorem Covers.hint_eq (covers : Covers d before after touched) {row : RefRow}
    (unselected : d.selects row = false) {c c' : SymbolCandidate}
    (pair : Paired (KeptRow before after touched row.raw.targetName) c c')
    (hint : row.targetSymbolHint = some c.id) : c.id = c'.id := by
  rcases pair.row.row with ⟨name, untouched⟩ | same
  · by_cases mem : c.filePath ∈ touched
    · obtain ⟨s, hs, rfl⟩ := pair.row.left
      obtain ⟨s', hs', rfl⟩ := pair.row.right
      have defined : ∀ {i : Index} {r : SymbolRow}, r ∈ i.symbols → r.filePath = s.filePath →
          r.defined ∈ definedSymbols i s.filePath := by
        intro i r hr file
        exact List.mem_map_of_mem (List.mem_filter.mpr ⟨hr, by simp [file]⟩)
      have keeps : keepsMeaning s.defined (definedSymbols before s.filePath)
          (definedSymbols after s.filePath) = true := by
        by_contra lost
        have replaced := covers.replaced s.filePath mem s.defined (defined hs rfl)
          (Bool.eq_false_iff.mpr lost)
        have isName : row.raw.targetName ∈ d.replaced.map Prod.snd :=
          List.mem_map.mpr ⟨_, replaced, name⟩
        have isHint : s.id ∈ d.replaced.map Prod.fst := List.mem_map.mpr ⟨_, replaced, rfl⟩
        have isSelected : d.selects row = true := by
          simp only [Dependents.selects, hint, SymbolRow.candidate, Bool.and_eq_true,
            Bool.or_eq_true, decide_eq_true_eq, List.mem_append]
          exact ⟨.inr isName, .inr isHint⟩
        rw [unselected] at isSelected
        cases isSelected
      unfold keepsMeaning at keeps
      split at keeps
      · cases keeps
      · next now found =>
          simp only [Bool.and_eq_true, beq_iff_eq] at keeps
          obtain ⟨⟨⟨⟨nowName, nowQualified⟩, -⟩, -⟩, unique⟩ := keeps
          obtain ⟨only, single⟩ := List.length_eq_one_iff.mp unique
          have isOnly : ∀ e ∈ definedSymbols after s.filePath, e.name = s.defined.name →
              e.qualified = s.defined.qualified → e = only := by
            intro e he eName eQualified
            have : e ∈ (definedSymbols after s.filePath).filter fun other =>
                other.name == s.defined.name && other.qualified == s.defined.qualified :=
              List.mem_filter.mpr ⟨he, by simp [eName, eQualified]⟩
            rw [single] at this
            exact List.mem_singleton.mp this
          have nowOnly := isOnly now (List.mem_of_find?_eq_some found) nowName nowQualified
          have otherOnly := isOnly s'.defined (defined hs' pair.key.filePath.symm)
            pair.key.name.symm pair.key.qualified.symm
          have nowId : now.id = s.id := by simpa [SymbolRow.defined] using List.find?_some found
          have : s'.id = now.id := congrArg DefinedSymbol.id (otherOnly.trans nowOnly.symm)
          exact nowId.symm.trans this.symm
    · exact untouched mem
  · rw [same]

/-- **A reference that no dependent selects, and that is undisturbed, resolves
as it is stored.** -/
theorem Covers.keeps (covers : Covers d before after touched) (step : Step before after touched)
    {row : RefRow} (own : row.fromFile ∉ touched) (unselected : d.selects row = false)
    (undisturbed : Undisturbed (Resolver.of packages before) (Resolver.of packages' after) row.fromFile row.raw)
    (fresh : row = row.withResolution ((Resolver.of packages before).resolveIn row.fromFile row.raw)) :
    row = row.withResolution ((Resolver.of packages' after).resolveIn row.fromFile row.raw) := by
  have unnamed : row.raw.targetName ∉ d.names := by
    intro mem
    have isSelected : d.selects row = true := by simp [Dependents.selects, mem]
    rw [unselected] at isSelected
    cases isSelected
  have reads := covers.readsAlike step unnamed own undisturbed
  have same := Resolver.resolveRef_same reads
  have language : (Resolver.of packages before).languageOf row.fromFile =
      (Resolver.of packages' after).languageOf row.fromFile := by
    simp only [Resolver.languageOf, Resolver.of, step.langOf row.fromFile own]
  have imports : (Resolver.of packages before).importsForFile row.fromFile =
      (Resolver.of packages' after).importsForFile row.fromFile :=
    congrArg (List.map _) (step.imports row.fromFile own).symm
  have packagesOnly : (Resolver.of packages' before).resolveRef row.fromFile
      ((Resolver.of packages before).languageOf row.fromFile)
      ((Resolver.of packages before).importsForFile row.fromFile) row.raw =
      (Resolver.of packages before).resolveIn row.fromFile row.raw :=
    undisturbed.resolveIn_packages
  rw [packagesOnly, language, imports] at same
  change ResolvedRef.Same _ _ ((Resolver.of packages' after).resolveIn row.fromFile row.raw) at same
  generalize (Resolver.of packages before).resolveIn row.fromFile row.raw = r at same fresh
  generalize (Resolver.of packages' after).resolveIn row.fromFile row.raw = r' at same
  cases same with
  | fuzzy => exact fresh
  | @candidate c c' confidence pair =>
    have hint : row.targetSymbolHint = some c.id := by rw [fresh]; rfl
    have sameId := covers.hint_eq unselected pair hint
    have sameResolution : ResolvedRef.candidate c confidence =
        ResolvedRef.candidate c' confidence := by
      simp only [ResolvedRef.candidate, pair.key.qualified, sameId]
    rw [← sameResolution]
    exact fresh

end Kept

end OrbitGraph.Sync
