import Mathlib.Data.Prod.Lex
import OrbitGraph.Lib.Loop
import OrbitGraph.Sync.ResolverAgreement

/-!
The search through public re-exports, round by round.

Each round takes one path from a stack, and the stack can grow with paths that have been
visited. The search ends since at most so many paths are visited and the other rounds
make the stack smaller. Where more paths can be reached than may be visited the answer
is that the target is ambiguous, whichever of them come first.
-/

namespace OrbitGraph.Sync

open Lib

variable [CharTables]

namespace Resolver

/-- The variables of `resolve_reexport`'s loop. -/
structure ReexportState where
  pending : List Text
  visited : List Text
  matched : List SymbolCandidate

/-- One round of `resolve_reexport`. -/
def reexportRound (R : Resolver) (initial : Text) (s : ReexportState) : ReexportState ⊕ ImportResolution :=
  match s.pending with
  | [] => .inr (ImportResolution.ofMatches s.matched)
  | path :: rest =>
    if path ∈ s.visited then .inl { s with pending := rest }
    else if reexportBudget < s.visited.length + 1 then .inr .ambiguous
    else
      .inl
        { pending := (reexportTargets R.reexports path).reverse ++ rest
          visited := path :: s.visited
          matched := s.matched ++ (R.reexportMatch initial path).toList }

/-- The loop of `resolve_reexport` ends with an answer, if the path is not refused before it. -/
def ReexportYields (R : Resolver) (fromFile : Text) (raw : RawRef) (answer : ImportResolution) : Prop :=
  match raw.targetQualified with
  | none => answer = .none
  | some spelled =>
    let initial := resolveImportPath fromFile spelled
    if !Text.contains colons initial then answer = .none
    else Yields (R.reexportRound initial) ⟨[initial], [], []⟩ answer

/-! ### The answer of a set of matches -/

omit [CharTables] in
/-- What matches resolve to depends on which there are, if their ids tell them apart. -/
theorem ofMatches_eq {found others : List SymbolCandidate} (ids : ∀ c ∈ found, ∀ d ∈ found, c.id = d.id → c = d)
    (same : ∀ c, c ∈ found ↔ c ∈ others) : ImportResolution.ofMatches found = ImportResolution.ofMatches others := by
  cases found with
  | nil =>
    have none : others = [] := List.eq_nil_iff_forall_not_mem.mpr fun c mem => by cases (same c).mpr mem
    rw [none]
  | cons c rest =>
    cases others with
    | nil => cases (same c).mp List.mem_cons_self
    | cons d rest' =>
      have memD : d ∈ c :: rest := (same d).mpr List.mem_cons_self
      by_cases only : ∀ e ∈ c :: rest, e.id = c.id
      · have eqC : ∀ e ∈ c :: rest, e = c := fun e mem => ids e mem c List.mem_cons_self (only e mem)
        obtain rfl := eqC d memD
        have left : (rest.all fun e => e.id == d.id) = true :=
          List.all_eq_true.mpr fun e mem => beq_iff_eq.mpr (only e (List.mem_cons_of_mem _ mem))
        have right : (rest'.all fun e => e.id == d.id) = true :=
          List.all_eq_true.mpr fun e mem =>
            beq_iff_eq.mpr (only e ((same e).mpr (List.mem_cons_of_mem _ mem)))
        rw [ImportResolution.ofMatches, ImportResolution.ofMatches, if_pos left, if_pos right]
      · have left : ¬ (rest.all fun e => e.id == c.id) = true := by
          intro all
          refine only fun e mem => ?_
          rcases List.mem_cons.mp mem with rfl | mem
          · rfl
          · exact beq_iff_eq.mp (List.all_eq_true.mp all e mem)
        have right : ¬ (rest'.all fun e => e.id == d.id) = true := by
          intro all
          have allD : ∀ e ∈ d :: rest', e.id = d.id := by
            intro e mem
            rcases List.mem_cons.mp mem with rfl | mem
            · rfl
            · exact beq_iff_eq.mp (List.all_eq_true.mp all e mem)
          have idC := allD c ((same c).mp List.mem_cons_self)
          exact only fun e mem => (allD e ((same e).mp mem)).trans idC.symm
        rw [ImportResolution.ofMatches, ImportResolution.ofMatches, if_neg left, if_neg right]

variable {R : Resolver} {initial : Text}

theorem exists_match {path : Text} {c : SymbolCandidate} (found : R.reexportMatch initial path = some c) :
    ∃ name, ∃ d ∈ R.symbolsByName name, d.symbol = c := by
  unfold reexportMatch at found
  split at found
  next => cases found
  next => exact ⟨_, (uniqueQualifiedMatch_spec found).1⟩

theorem matches_ids (distinct : IdsDistinct R) (paths : List Text) :
    ∀ c ∈ paths.filterMap (R.reexportMatch initial), ∀ d ∈ paths.filterMap (R.reexportMatch initial),
      c.id = d.id → c = d := by
  intro c memC d memD same
  obtain ⟨_, -, foundC⟩ := List.mem_filterMap.mp memC
  obtain ⟨_, -, foundD⟩ := List.mem_filterMap.mp memD
  obtain ⟨_, c', namedC, rfl⟩ := exists_match foundC
  obtain ⟨_, d', namedD, rfl⟩ := exists_match foundD
  exact candidate_eq_of_id distinct namedC namedD same

/-! ### The rounds -/

/-- What holds between two rounds. -/
structure ReexportInvariant (R : Resolver) (initial : Text) (s : ReexportState) : Prop where
  search : SearchInvariant (reexportTargets R.reexports) initial s.visited s.pending
  within : s.visited.length ≤ reexportBudget
  matched : ∀ c, c ∈ s.matched ↔ c ∈ s.visited.filterMap (R.reexportMatch initial)

/-- A round visits a path or makes the stack smaller. -/
def reexportMeasure (s : ReexportState) : Nat ×ₗ Nat := toLex (reexportBudget - s.visited.length, s.pending.length)

theorem round_goesOn {s t : ReexportState} (inv : ReexportInvariant R initial s)
    (round : R.reexportRound initial s = .inl t) :
    ReexportInvariant R initial t ∧ reexportMeasure t < reexportMeasure s := by
  obtain ⟨pending, visited, matched⟩ := s
  cases pending with
  | nil => cases round
  | cons path rest =>
    simp only [reexportRound] at round
    split_ifs at round with seen spent
    · obtain rfl := Sum.inl.inj round
      exact ⟨⟨inv.search.skip seen, inv.within, inv.matched⟩, Prod.Lex.right _ (Nat.lt_succ_self _)⟩
    · obtain rfl := Sum.inl.inj round
      refine ⟨⟨inv.search.visit seen, Nat.not_lt.mp spent, fun c => ?_⟩, Prod.Lex.left _ _ ?_⟩
      · have before := inv.matched c
        simp only [List.mem_append, Option.mem_toList, List.mem_filterMap, List.mem_cons] at before ⊢
        rw [before]
        constructor
        · rintro (⟨visitedPath, mem, found⟩ | found)
          · exact ⟨visitedPath, .inr mem, found⟩
          · exact ⟨path, .inl rfl, found⟩
        · rintro ⟨visitedPath, rfl | mem, found⟩
          · exact .inr found
          · exact .inl ⟨visitedPath, mem, found⟩
      · simp only [List.length_cons]
        omega

def reexportAnswer (R : Resolver) (initial : Text) : ImportResolution :=
  match explore (reexportTargets R.reexports) reexportBudget [] [initial] with
  | none => .ambiguous
  | some visited => ImportResolution.ofMatches (visited.filterMap (R.reexportMatch initial))

theorem resolveReexport_of_some {fromFile spelled : Text} {raw : RawRef} (target : raw.targetQualified = some spelled)
    (nested : Text.contains colons (resolveImportPath fromFile spelled) = true) :
    R.resolveReexport fromFile raw = R.reexportAnswer (resolveImportPath fromFile spelled) := by
  unfold resolveReexport
  rw [target]
  dsimp only
  rw [nested, if_neg (by decide)]
  rfl

theorem round_ends (distinct : IdsDistinct R) {s : ReexportState} {answer : ImportResolution}
    (inv : ReexportInvariant R initial s) (round : R.reexportRound initial s = .inr answer) :
    answer = R.reexportAnswer initial := by
  obtain ⟨pending, visited, matched⟩ := s
  unfold reexportAnswer
  cases pending with
  | nil =>
    have ends : ImportResolution.ofMatches matched = answer := Sum.inr.inj round
    have all : ∀ path, path ∈ visited ↔ Reach (reexportTargets R.reexports) initial path := fun path =>
      inv.search.mem_visited_iff
    cases searched : explore (reexportTargets R.reexports) reexportBudget [] [initial] with
    | none =>
      -- The rounds have visited all that can be reached, so this is no more than the budget.
      obtain ⟨found, nodup, reach, length⟩ := explore_none .initial searched
      have fits := (nodup.subperm fun path mem => (all path).mpr (reach path mem)).length_le
      have within := inv.within
      simp only [List.length_nil] at length
      exact absurd (fits.trans within) (by omega)
    | some found =>
      obtain ⟨-, reach, -⟩ := explore_some .initial searched
      have paths : ∀ path, path ∈ visited ↔ path ∈ found := fun path => (all path).trans (reach path).symm
      rw [← ends]
      have mem : ∀ c, c ∈ visited.filterMap (R.reexportMatch initial) ↔
          c ∈ found.filterMap (R.reexportMatch initial) := by
        intro c
        simp only [List.mem_filterMap, paths]
      refine (ofMatches_eq (matches_ids distinct visited) fun c => (inv.matched c).symm).symm.trans ?_
      exact ofMatches_eq (matches_ids distinct visited) mem
  | cons path rest =>
    simp only [reexportRound] at round
    split_ifs at round with seen spent
    obtain rfl := Sum.inr.inj round
    cases searched : explore (reexportTargets R.reexports) reexportBudget [] [initial] with
    | none => rfl
    | some found =>
      -- One path more than the budget has been reached.
      obtain ⟨nodup, reach, length⟩ := explore_some .initial searched
      have more : (path :: visited).Nodup := List.nodup_cons.mpr ⟨seen, inv.search.nodup⟩
      have fits := (more.subperm fun other mem => (reach other).mpr <| by
        rcases List.mem_cons.mp mem with rfl | mem
        · exact inv.search.pending_reach _ List.mem_cons_self
        · exact inv.search.visited_reach other mem).length_le
      simp only [List.length_cons, List.length_nil] at fits length
      exact absurd (fits.trans length) (by omega)

theorem rounds_yield (distinct : IdsDistinct R) (initial : Text) :
    Yields (R.reexportRound initial) ⟨[initial], [], []⟩ (R.reexportAnswer initial) := by
  have start : ReexportInvariant R initial ⟨[initial], [], []⟩ := ⟨.initial, Nat.zero_le _, by simp⟩
  obtain ⟨answer, yields, rfl⟩ := Yields.of_invariant (InvImage.wf reexportMeasure wellFounded_lt)
    (fun _ _ inv round => round_goesOn inv round) (fun _ _ inv round => round_ends distinct inv round) start
  exact yields

theorem reexportYields_iff (distinct : IdsDistinct R) (fromFile : Text) (raw : RawRef) (answer : ImportResolution) :
    R.ReexportYields fromFile raw answer ↔ answer = R.resolveReexport fromFile raw := by
  cases target : raw.targetQualified with
  | none =>
    unfold ReexportYields resolveReexport
    rw [target]
  | some spelled =>
    by_cases nested : Text.contains colons (resolveImportPath fromFile spelled) = true
    · rw [resolveReexport_of_some target nested]
      unfold ReexportYields
      rw [target]
      dsimp only
      rw [nested, if_neg (by decide)]
      have yields := rounds_yield distinct (resolveImportPath fromFile spelled)
      exact ⟨fun found => found.unique yields, fun same => same ▸ yields⟩
    · unfold ReexportYields resolveReexport
      rw [target]
      dsimp only
      rw [Bool.not_eq_true] at nested
      rw [nested, if_pos (by decide), if_pos (by decide)]

/-! ### Sets of re-exports -/

def withImports (R : Resolver) (imports : List ImportRow) : Resolver := { R with imports }

variable {imports : List ImportRow}

omit [CharTables] in
/-- The successors of a path are those that the re-exports lead to, however they are listed. -/
theorem mem_reexportTargets
    (same : ∀ row : ImportRow, row.reexportModule.isSome → (row ∈ imports ↔ row ∈ R.imports)) (path next : Text) :
    next ∈ reexportTargets (R.withImports imports).reexports path ↔ next ∈ reexportTargets R.reexports path := by
  have rows : ∀ module row, row ∈ (R.withImports imports).reexports module ↔ row ∈ R.reexports module := by
    intro module row
    simp only [reexports, List.mem_filter, List.mem_filterMap]
    refine and_congr_left fun _ => exists_congr fun stored => and_congr_left fun candidate => same stored ?_
    rw [reexportCandidate] at candidate
    split at candidate
    next =>
      obtain ⟨inner, isReexport, -⟩ := Option.map_eq_some_iff.mp candidate
      exact isReexport ▸ rfl
    next => cases candidate
  have anyRow : ∀ module p, ((R.withImports imports).reexports module).any p = (R.reexports module).any p := by
    intro module p
    rw [Bool.eq_iff_iff, List.any_eq_true, List.any_eq_true]
    simp only [rows]
  simp only [reexportTargets, List.mem_flatMap, List.mem_filterMap, anyRow, rows]

theorem reexportAnswer_withImports (distinct : IdsDistinct R)
    (same : ∀ row : ImportRow, row.reexportModule.isSome → (row ∈ imports ↔ row ∈ R.imports)) (initial : Text) :
    (R.withImports imports).reexportAnswer initial = R.reexportAnswer initial := by
  have matchOf : (R.withImports imports).reexportMatch initial = R.reexportMatch initial := rfl
  have search := explore_congr (mem_reexportTargets same) reexportBudget initial
  unfold reexportAnswer
  rw [matchOf]
  generalize explore (reexportTargets (R.withImports imports).reexports) reexportBudget [] [initial] = left at search
  generalize explore (reexportTargets R.reexports) reexportBudget [] [initial] = right at search
  cases search with
  | none => rfl
  | @some found others perm =>
    refine (ofMatches_eq (matches_ids distinct others) fun c => ?_).symm
    exact (perm.filterMap (R.reexportMatch initial)).symm.mem_iff

/-- The search through re-exports ends with one answer, which depends on the set of re-exports only: not on how
they are stored, and not on which paths it comes to first where it may not visit them all. -/
theorem resolveReexport_ends (distinct : IdsDistinct R) {imports : List ImportRow}
    (same : ∀ row : ImportRow, row.reexportModule.isSome → (row ∈ imports ↔ row ∈ R.imports)) (fromFile : Text)
    (raw : RawRef) : ∃ answer, (∀ found, R.ReexportYields fromFile raw found ↔ found = answer) ∧
      ∀ found, (R.withImports imports).ReexportYields fromFile raw found ↔ found = answer := by
  have equal : (R.withImports imports).resolveReexport fromFile raw = R.resolveReexport fromFile raw := by
    cases target : raw.targetQualified with
    | none =>
      unfold resolveReexport
      rw [target]
    | some spelled =>
      by_cases nested : Text.contains colons (resolveImportPath fromFile spelled) = true
      · rw [resolveReexport_of_some target nested, resolveReexport_of_some target nested,
          reexportAnswer_withImports distinct same]
      · rw [Bool.not_eq_true] at nested
        unfold resolveReexport
        rw [target]
        dsimp only
        rw [nested, if_pos (by decide), if_pos (by decide)]
  have distinct' : IdsDistinct (R.withImports imports) := distinct
  exact ⟨R.resolveReexport fromFile raw, reexportYields_iff distinct fromFile raw, fun found =>
    equal ▸ reexportYields_iff distinct' fromFile raw found⟩

end Resolver

end OrbitGraph.Sync

namespace OrbitGraph.Sync.Sample

open Resolver

local instance asciiTables : CharTables := CharTables.ascii

def globRow : ImportRow := ⟨"src/a.rs", "crate::b", none, none, some []⟩

def aliasRow : ImportRow :=
  ⟨"src/b.rs", "crate::a", some "foo", some "bar", some []⟩

def cyclic : Resolver where
  symbols := [⟨3, "src/b.rs", "bar", "bar", "function", 0, 1⟩]
  imports := [globRow, aliasRow]
  langOf := fun _ => some "rust"
  packageForFile := fun _ => none

def spelledCall : RawRef :=
  ⟨0, 1, "foo", some "crate::a::foo", "call", none, true⟩

theorem resolveReexport_ends_cyclic :
    ∃ answer, (∀ found, cyclic.ReexportYields "src/c.rs" spelledCall found ↔ found = answer) ∧
      ∀ found, (cyclic.withImports [aliasRow, globRow]).ReexportYields "src/c.rs" spelledCall found ↔
        found = answer := by
  have distinct : IdsDistinct cyclic := List.nodup_singleton 3
  exact resolveReexport_ends distinct (fun row _ => (List.Perm.swap globRow aliasRow []).mem_iff) _ _

end OrbitGraph.Sync.Sample
