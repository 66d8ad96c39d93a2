import OrbitGraph.Changes.Ladder

/-!
Whether a selector of several rows is ever paired.

The first rung leaves such a selector uncertain. A later rung counts the selectors of a
group, and not their rows, so it pairs one that stands for several. No entry is a guess
exactly if the couples of the rungs are of one row each.
-/

namespace OrbitGraph.Changes

open Lib

attribute [local instance] lexOrd

/-! ### Rows -/

def rowSelectors (files : List OverviewFile) : List Text :=
  files.flatMap fun file => file.symbols.map fun symbol =>
    (Selector.symbol file.path symbol.qualified symbol.kind).display

namespace SideInventory

/-- An inventory knows the selectors of its rows, and which of them several rows have. -/
structure Counts (rows : List Text) (inventory : SideInventory) : Prop where
  known : ∀ s, s ∈ inventory.symbols ↔ 1 ≤ rows.count s
  ambiguous : ∀ s, s ∈ inventory.ambiguousSelectors ↔ 2 ≤ rows.count s

theorem Counts.addSymbol {rows : List Text} {inventory : SideInventory} (counts : Counts rows inventory) (path : Text)
    (symbol : OverviewSymbol) :
    Counts (rows ++ [(Selector.symbol path symbol.qualified symbol.kind).display]) (addSymbol path inventory symbol) := by
  generalize row : (Selector.symbol path symbol.qualified symbol.kind).display = new
  have count : ∀ s, (rows ++ [new]).count s = rows.count s + if new = s then 1 else 0 := by
    intro s
    rw [List.count_append, List.count_singleton]
    simp only [beq_iff_eq]
  unfold SideInventory.addSymbol
  simp only [row]
  split
  next there =>
    have old := (counts.known new).mp there
    constructor
    · intro s
      rw [Std.TreeMap.mem_insert, Std.LawfulEqCmp.compare_eq_iff_eq, counts.known, count]
      split <;> simp_all
    · intro s
      rw [Std.TreeSet.mem_insert, Std.LawfulEqCmp.compare_eq_iff_eq, counts.ambiguous, count]
      split
      next same => exact ⟨fun _ => by subst same; omega, fun _ => .inl same⟩
      next other => simp [other]
  next new_ =>
    have none : rows.count new = 0 := by
      have := mt (counts.known new).mpr new_
      omega
    constructor
    · intro s
      rw [Std.TreeMap.mem_insert, Std.LawfulEqCmp.compare_eq_iff_eq, counts.known, count]
      split <;> simp_all
    · intro s
      rw [counts.ambiguous, count]
      split
      next same => subst same; omega
      next => rfl

theorem mem_ambiguous_ofFiles (side : SnapshotSide) (commitSha : Text) (files : List OverviewFile) (s : Text) :
    s ∈ (ofFiles side commitSha files).ambiguousSelectors ↔ 2 ≤ (rowSelectors files).count s := by
  have addSymbols : ∀ (path : Text) (symbols : List OverviewSymbol) (rows : List Text) (inventory : SideInventory),
      Counts rows inventory → Counts (rows ++ symbols.map fun symbol =>
        (Selector.symbol path symbol.qualified symbol.kind).display) (symbols.foldl (SideInventory.addSymbol path) inventory) := by
    intro path symbols
    induction symbols with
    | nil => simp
    | cons symbol rest ih =>
      intro rows inventory counts
      rw [List.foldl_cons, List.map_cons, List.append_cons]
      exact ih _ _ (counts.addSymbol path symbol)
  suffices all : ∀ (rows : List Text) (inventory : SideInventory), Counts rows inventory →
      Counts (rows ++ rowSelectors files) (files.foldl addFile inventory) by
    have empty : Counts [] (⟨side, commitSha, ∅, ∅, ∅, ∅⟩ : SideInventory) := ⟨by simp, by simp⟩
    exact (all [] _ empty).ambiguous s
  induction files with
  | nil => simp [rowSelectors]
  | cons file rest ih =>
    intro rows inventory counts
    rw [List.foldl_cons, rowSelectors, List.flatMap_cons, ← List.append_assoc]
    exact ih _ _ (addSymbols file.path file.symbols rows _ ⟨counts.known, counts.ambiguous⟩)

end SideInventory

/-! ### Guesses -/

/-- The statuses of a pair. -/
def ChangedSymbol.Paired (e : ChangedSymbol) : Prop :=
  e.status = .modified ∨ e.status = .signatureChanged ∨ e.status = .moved ∨ e.status = .renamed

theorem Pairer.PairEntry.paired {p : Pairer} {step : Pairer.GroupStep} {b h : Text} {e : ChangedSymbol}
    (entry : p.PairEntry step b h e) : e.Paired := by
  unfold ChangedSymbol.Paired
  rw [entry.status]
  cases step <;> simp [Pairer.GroupStep.status]

/-- No entry with the status of a pair has a side that more than one row of its snapshot has. -/
def Unguessed (comparison : Comparison) (result : ChangedSymbols) : Prop :=
  ∀ baseFiles headFiles, comparison.base.overview = .ok baseFiles → comparison.head.overview = .ok headFiles →
    ∀ e ∈ result.symbols, e.Paired → (∀ r ∈ e.base, (rowSelectors baseFiles).count r.selector ≤ 1) ∧
      ∀ r ∈ e.head, (rowSelectors headFiles).count r.selector ≤ 1

/-- **Ambiguity is not resolved by a guess** exactly if two symbols that a rung finds to be each other's
only partner are never of several rows. -/
theorem ambiguity_not_guessed {comparison : Comparison} {result : ChangedSymbols}
    (run : ChangedSymbols.compute comparison = .ok result) : ∃ deltas baseFiles headFiles,
      comparison.deltas = .ok deltas ∧ comparison.base.overview = .ok baseFiles ∧
      comparison.head.overview = .ok headFiles ∧
      let start := Pairer.new comparison (changedFiles deltas) (.ofFiles .base comparison.base.commitSha baseFiles)
        (.ofFiles .head comparison.head.commitSha headFiles)
      (Unguessed comparison result ↔ ∀ step b h, start.Couples step b h →
        (rowSelectors baseFiles).count b ≤ 1 ∧ (rowSelectors headFiles).count h ≤ 1) := by
  obtain ⟨deltas, base, head, p, computed⟩ := compute_eq_ok run
  obtain ⟨baseFiles, baseListed, rfl⟩ := load_eq_ok computed.loadBase
  obtain ⟨headFiles, headListed, rfl⟩ := load_eq_ok computed.loadHead
  obtain ⟨entryOf, -, pair, -, -⟩ := computed.entries
  refine ⟨deltas, baseFiles, headFiles, computed.diffed, baseListed, headListed, ?_, ?_⟩
  · intro unguessed step b h couples
    obtain ⟨e, mem, entry⟩ := pair step b h couples
    obtain ⟨onBase, onHead⟩ := unguessed baseFiles headFiles baseListed headListed e mem entry.paired
    exact ⟨onBase _ entry.base, onHead _ entry.head⟩
  · intro single files files' listed listed' e mem paired
    obtain rfl := Except.ok.inj (baseListed.symm.trans listed)
    obtain rfl := Except.ok.inj (headListed.symm.trans listed')
    have once : ∀ {side commitSha files s}, s ∉ (SideInventory.ofFiles side commitSha files).ambiguousSelectors →
        (rowSelectors files).count s ≤ 1 := by
      intro side commitSha files s clear
      rw [SideInventory.mem_ambiguous_ofFiles] at clear
      omega
    cases entryOf e mem with
    | shared s _ _ entry =>
      rcases entry.sure with loose | ⟨-, onBase, onHead⟩
      · simp [ChangedSymbol.Paired, loose] at paired
      · simp only [entry.base, entry.head, Option.mem_some_iff, forall_eq']
        exact ⟨once onBase, once onHead⟩
    | group sideless => simp [ChangedSymbol.Paired, sideless.1] at paired
    | pair step b h couples entry =>
      simp only [entry.base, entry.head, Option.mem_some_iff, forall_eq']
      exact single step b h couples
    | removed s _ entry => simp [ChangedSymbol.Paired, entry, Pairer.removedSymbol] at paired
    | added s _ entry => simp [ChangedSymbol.Paired, entry, Pairer.addedSymbol] at paired

namespace Sample

def duplicate : Comparison where
  base := snapshot "aa" [⟨"a.rs", [method "twice", method "twice"]⟩]
  head := snapshot "bb" [⟨"b.rs", [method "twice"]⟩]
  deltas := .ok [⟨.renamed, some "a.rs", some "b.rs"⟩]

theorem ambiguity_not_guessed_renamed : ∃ result, ChangedSymbols.compute renamedFile = .ok result ∧
    Unguessed renamedFile result := by
  obtain ⟨result, run⟩ : ∃ result, ChangedSymbols.compute renamedFile = .ok result := ⟨_, rfl⟩
  obtain ⟨deltas, baseFiles, headFiles, -, baseListed, headListed, unguessed⟩ := ambiguity_not_guessed run
  obtain rfl := Except.ok.inj baseListed
  obtain rfl := Except.ok.inj headListed
  refine ⟨result, run, unguessed.mpr fun step b h _ => ⟨?_, ?_⟩⟩
  · exact List.nodup_iff_count_le_one.mp (by decide +kernel) b
  · exact List.nodup_iff_count_le_one.mp (by decide +kernel) h

/-- The rows of both methods have one selector, and it is paired as moved. -/
theorem duplicate_guessed : ∃ result, ChangedSymbols.compute duplicate = .ok result ∧ ¬ Unguessed duplicate result := by
  obtain ⟨result, run⟩ : ∃ result, ChangedSymbols.compute duplicate = .ok result := ⟨_, rfl⟩
  obtain ⟨deltas, base, head, p, computed⟩ := compute_eq_ok run
  obtain rfl := Except.ok.inj computed.diffed
  obtain rfl := Except.ok.inj computed.loadBase
  obtain rfl := Except.ok.inj computed.loadHead
  refine ⟨result, run, fun unguessed => ?_⟩
  have paired : (Pairer.new duplicate (changedFiles [⟨.renamed, some "a.rs", some "b.rs"⟩])
      (.ofFiles .base duplicate.base.commitSha [⟨"a.rs", [method "twice", method "twice"]⟩])
      (.ofFiles .head duplicate.head.commitSha [⟨"b.rs", [method "twice"]⟩])).pairAll = .ok p :=
    computed.paired
  have moved : ((Pairer.new duplicate (changedFiles [⟨.renamed, some "a.rs", some "b.rs"⟩])
      (.ofFiles .base duplicate.base.commitSha [⟨"a.rs", [method "twice", method "twice"]⟩])
      (.ofFiles .head duplicate.head.commitSha [⟨"b.rs", [method "twice"]⟩])).pairAll).toOption.any
        (fun p => p.emitUnpaired.symbols.any fun e => e.status = .moved ∧
          (e.base.map SymbolRef.selector) = some (selector "a.rs" "twice")) = true := by
    decide +kernel
  obtain ⟨e, mem, is_⟩ : ∃ e ∈ p.emitUnpaired.symbols, e.status = .moved ∧
      e.base.map SymbolRef.selector = some (selector "a.rs" "twice") := by
    rw [paired, show (Except.ok p : Except ChangesError Pairer).toOption = some p from rfl, Option.any_some] at moved
    simpa using moved
  obtain ⟨r, here, named⟩ := Option.map_eq_some_iff.mp is_.2
  have few := (unguessed _ _ rfl rfl e (computed.mem_symbols.mpr mem) (.inr (.inr (.inl is_.1)))).1 r here
  rw [named] at few
  exact absurd few (by decide +kernel)

end Sample

end OrbitGraph.Changes
