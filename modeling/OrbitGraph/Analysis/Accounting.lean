import OrbitGraph.Analysis.Regroup
import OrbitGraph.Changes.Conserved

/-!
Every changed symbol is accounted for.

The report notes what it left unanalysed in the order of the selected symbols; regrouping finds
that again by the text of a primary selector. The two agree exactly if the limits give one
verdict to all selected symbols of one primary selector. Uncertain groups all have the empty one.
-/

namespace OrbitGraph.Analysis

open Lib Changes Evidence

namespace Gathered

variable {gathered result : Gathered}

@[simp] theorem unanalysed_noteHits (kind selector sideLabel : Text) (hits : List BoundHit) :
    (gathered.noteHits kind selector sideLabel hits).unanalysed = gathered.unanalysed := by
  unfold noteHits
  induction hits generalizing gathered with
  | nil => rfl
  | cons hit rest ih => exact ih

@[simp] theorem unanalysed_noteUnresolved (kind selector sideLabel : Text) (reasons : List Text) :
    (gathered.noteUnresolved kind selector sideLabel reasons).unanalysed = gathered.unanalysed := by
  unfold noteUnresolved
  split <;> rfl

variable {options : ReportOptions} {limits : ReportLimits} {changed : ChangedSymbols} {collectors : Collectors}

variable {side : SnapshotSide} {selector : Text}

theorem unanalysed_analyseOutbound {collector : Collector}
    {query : EvidenceQuery} (run : gathered.analyseOutbound limits collector side selector query = .ok result) :
    result.unanalysed = gathered.unanalysed := by
  unfold analyseOutbound at run
  split at run
  · exact Except.ok.inj run ▸ rfl
  · obtain ⟨outbound, -, run⟩ := bind_eq_ok.mp run
    obtain rfl := Except.ok.inj run
    simp

theorem unanalysed_analyseSide {position : Nat}
    (run : gathered.analyseSide options limits changed collectors position side selector = .ok result) :
    result.unanalysed = gathered.unanalysed := by
  obtain ⟨collector, -, run⟩ := bind_eq_ok.mp run
  obtain ⟨evidence, -, run⟩ := bind_eq_ok.mp run
  obtain ⟨further, outbound, run⟩ := bind_eq_ok.mp run
  obtain ⟨entries, -, run⟩ := bind_eq_ok.mp run
  obtain ⟨tests, -, run⟩ := bind_eq_ok.mp run
  obtain rfl := Except.ok.inj run
  simpa using unanalysed_analyseOutbound outbound

theorem unanalysed_analyse {position : Nat} {symbol : ChangedSymbol}
    (run : gathered.analyse options limits changed collectors position symbol = .ok result) :
    result.unanalysed = gathered.unanalysed := by
  refine foldlM_keeps (P := fun g => g.unanalysed = gathered.unanalysed) (fun g label h _ kept step => ?_) rfl run
  split at step
  · exact Except.ok.inj step ▸ kept
  · split at step
    · exact Except.ok.inj step ▸ kept
    · exact (unanalysed_analyseSide step).trans kept

theorem visit_answers {v : ChangedSymbol × Nat}
    (sides : ∀ (g : Gathered) (side : SnapshotSide) (reference : SymbolRef), (match side with
      | .base => v.1.base
      | .head => v.1.head) = some reference →
        ∃ result, g.analyseSide options limits changed collectors v.2 side reference.selector = .ok result) :
    ∃ result, gathered.visit options limits changed collectors v = .ok result := by
  unfold visit
  split
  · exact ⟨_, rfl⟩
  · refine (foldlM_answers (P := fun _ => True) (fun g label _ _ => ?_) trivial).imp fun _ => And.left
    split
    next => exact ⟨g, rfl, trivial⟩
    next side _ =>
      split
      next => exact ⟨g, rfl, trivial⟩
      next reference found => exact (sides g side reference found).imp fun _ run => ⟨run, trivial⟩

theorem unanalysed_visits {visited : List (ChangedSymbol × Nat)}
    (run : visited.foldlM (visit options limits changed collectors) gathered = .ok result) :
    result.unanalysed = gathered.unanalysed ++ visited.filterMap fun v =>
      (limits.stop v.2).map fun reason => (v.1.primarySelector, reason) := by
  induction visited generalizing gathered with
  | nil =>
    obtain rfl := Except.ok.inj run
    simp
  | cons v rest ih =>
    obtain ⟨next, first, run⟩ := bind_eq_ok.mp run
    rw [ih run]
    unfold visit at first
    split at first
    next reason stopped =>
      obtain rfl := Except.ok.inj first
      simp [leave, noteTruncation, stopped]
    next stopped => simp [unanalysed_analyse first, stopped]

end Gathered

def visited (report : ExportedReport) (selection : ResolvedSelection) : List (ChangedSymbol × Nat) :=
  (report.changedSymbols.symbols.filter selection.selectsSymbol).zipIdx

section

variable {comparison : Comparison} {workingTree : WorkingTreeView} {collectors : Collectors} {options : ReportOptions}
  {limits : ReportLimits} {selection : ResolvedSelection} {built : BoundedReport}

/-- What a report lists and what it leaves. -/
theorem buildReport_eq_ok (run : buildReport comparison workingTree collectors options limits selection = .ok built) :
    (∃ changed, ChangedSymbols.compute comparison = .ok changed ∧
      built.report.changedSymbols = (changed.filtered options.filters).1) ∧
    built.unanalysed = (visited built.report selection).filterMap fun v =>
      (limits.stop v.2).map fun reason => (v.1.primarySelector, reason) := by
  obtain ⟨changed, computed, run⟩ := bind_eq_ok.mp run
  obtain ⟨gathered, gather, run⟩ := bind_eq_ok.mp run
  obtain rfl := Except.ok.inj run
  refine ⟨⟨changed, mapError_eq_ok.mp computed, rfl⟩, ?_⟩
  refine (Gathered.unanalysed_visits (mapError_eq_ok.mp gather)).trans
    ((congrArg (· ++ _) ?_).trans (List.nil_append _))
  by_cases tree : workingTree.truncated
  · rw [if_pos tree]
    rfl
  · rw [if_neg tree]
    rfl

/-! ### What regrouping makes of it -/

def foundReason (unanalysed : List (Text × UnanalysedReason)) (symbol : ChangedSymbol) : Option UnanalysedReason :=
  (unanalysedReasons unanalysed)[symbol.primarySelector]?

/-- Regrouping goes through the selected symbols, by the reason that it finds. -/
theorem regroup_symbols (report : ExportedReport) (unanalysed : List (Text × UnanalysedReason))
    (selection : ResolvedSelection) (query : ChangesQuery) :
    let document := regroup report unanalysed selection query
    let selected := report.changedSymbols.symbols.filter selection.selectsSymbol
    document.symbols = (selected.filter fun s => foundReason unanalysed s = none).map
      (fun s => (analyseSymbol report query.bounds s).1) ∧
    document.notAnalysed = selected.filterMap (fun s =>
      (foundReason unanalysed s).map fun reason => ⟨s.primarySelector, s.status, reason.bound⟩) ∧
    document.summary.notSelectedSymbols + selected.length = report.changedSymbols.symbols.length := by
  suffices walk : ∀ (symbols : List ChangedSymbol) (so : Regrouped),
      let after := symbols.foldl (regroupSymbol report (unanalysedReasons unanalysed) selection query.bounds) so
      let selected := symbols.filter selection.selectsSymbol
      after.symbols = so.symbols ++ (selected.filter fun s => foundReason unanalysed s = none).map
        (fun s => (analyseSymbol report query.bounds s).1) ∧
      after.notAnalysed = so.notAnalysed ++ selected.filterMap (fun s =>
        (foundReason unanalysed s).map fun reason => ⟨s.primarySelector, s.status, reason.bound⟩) ∧
      after.notSelected + selected.length = so.notSelected + symbols.length by
    obtain ⟨analysed, left, count⟩ := walk report.changedSymbols.symbols ⟨[], [], 0, report.truncated⟩
    exact ⟨analysed.trans (List.nil_append _), left.trans (List.nil_append _), count.trans (Nat.zero_add _)⟩
  intro symbols
  induction symbols with
  | nil => simp
  | cons s rest ih =>
    intro so
    obtain ⟨analysed, left, count⟩ := ih (regroupSymbol report (unanalysedReasons unanalysed) selection query.bounds so s)
    simp only [List.foldl_cons, List.length_cons]
    rw [analysed, left]
    cases out : selection.selectsSymbol s with
    | false =>
      have step : regroupSymbol report (unanalysedReasons unanalysed) selection query.bounds so s =
          { so with notSelected := so.notSelected + 1 } := by simp [regroupSymbol, out]
      rw [step] at count ⊢
      simp only [List.filter_cons, out, Bool.false_eq_true, if_false] at count ⊢
      exact ⟨trivial, trivial, by omega⟩
    | true =>
      simp only [List.filter_cons, out, if_true, List.length_cons, List.filterMap_cons] at count ⊢
      cases found : foundReason unanalysed s with
      | some reason =>
        have step : regroupSymbol report (unanalysedReasons unanalysed) selection query.bounds so s =
            { so with notAnalysed := so.notAnalysed ++ [⟨s.primarySelector, s.status, reason.bound⟩] } := by
          unfold foundReason at found
          simp [regroupSymbol, out, found]
        rw [step] at count ⊢
        exact ⟨by simp, by simp, by dsimp only at count ⊢; omega⟩
      | none =>
        have step : regroupSymbol report (unanalysedReasons unanalysed) selection query.bounds so s =
            { so with
              symbols := so.symbols ++ [(analyseSymbol report query.bounds s).1]
              truncation := so.truncation ++ (analyseSymbol report query.bounds s).2 } := by
          unfold foundReason at found
          simp [regroupSymbol, out, found]
        rw [step] at count ⊢
        exact ⟨by simp, by simp, by dsimp only at count ⊢; omega⟩

/-! ### When the two agree -/

variable {unanalysed : List (Text × UnanalysedReason)}

theorem mem_of_foundReason {s : ChangedSymbol} {reason : UnanalysedReason}
    (found : foundReason unanalysed s = some reason) : (s.primarySelector, reason) ∈ unanalysed := by
  unfold foundReason unanalysedReasons at found
  induction unanalysed using List.reverseRecOn with
  | nil => simp at found
  | append_singleton rest entry ih =>
    rw [List.foldl_append, List.foldl_cons, List.foldl_nil, Std.TreeMap.getElem?_insert] at found
    rw [List.mem_append, List.mem_singleton]
    split at found
    next same =>
      refine .inr (Prod.ext (Std.LawfulEqCmp.compare_eq_iff_eq.mp same).symm ?_)
      exact (Option.some.inj found).symm
    next => exact .inl (ih found)

theorem foundReason_of_mem {s : ChangedSymbol} {reason : UnanalysedReason}
    (noted : (s.primarySelector, reason) ∈ unanalysed) : (foundReason unanalysed s).isSome := by
  unfold foundReason unanalysedReasons
  induction unanalysed using List.reverseRecOn with
  | nil => cases noted
  | append_singleton rest entry ih =>
    rw [List.foldl_append, List.foldl_cons, List.foldl_nil, Std.TreeMap.getElem?_insert]
    split
    next => rfl
    next different =>
      refine ih ((List.mem_append.mp noted).resolve_right fun last => different ?_)
      rw [List.mem_singleton] at last
      rw [← last]
      exact Std.ReflCmp.compare_self

def OneVerdict (limits : ReportLimits) (report : ExportedReport) (selection : ResolvedSelection) : Prop :=
  ∀ v ∈ visited report selection, ∀ w ∈ visited report selection, v.1.primarySelector = w.1.primarySelector →
    limits.stop v.2 = limits.stop w.2

theorem oneVerdict_of_nodup {report : ExportedReport}
    (distinct : ((report.changedSymbols.symbols.filter selection.selectsSymbol).map ChangedSymbol.primarySelector).Nodup) :
    OneVerdict limits report selection := by
  rintro ⟨s, i⟩ first ⟨t, j⟩ second same
  have atFirst := List.mk_mem_zipIdx_iff_getElem?.mp first
  have atSecond := List.mk_mem_zipIdx_iff_getElem?.mp second
  have inside := (List.getElem?_eq_some_iff.mp atFirst).1
  obtain rfl : i = j := by
    refine (List.getElem?_inj (by rwa [List.length_map]) distinct).mp ?_
    rw [List.getElem?_map, List.getElem?_map, atFirst, atSecond]
    exact congrArg some same
  rfl

def leftBy (limits : ReportLimits) (report : ExportedReport) (selection : ResolvedSelection) :
    List (Text × UnanalysedReason) :=
  (visited report selection).filterMap fun v => (limits.stop v.2).map fun reason => (v.1.primarySelector, reason)

theorem mem_leftBy {report : ExportedReport} {entry : Text × UnanalysedReason} :
    entry ∈ leftBy limits report selection ↔
      ∃ v ∈ visited report selection, limits.stop v.2 = some entry.2 ∧ v.1.primarySelector = entry.1 := by
  rw [leftBy, List.mem_filterMap]
  refine exists_congr fun v => and_congr_right fun _ => ?_
  rw [Option.map_eq_some_iff]
  constructor
  · rintro ⟨reason, stopped, rfl⟩
    exact ⟨stopped, rfl⟩
  · rintro ⟨stopped, named⟩
    exact ⟨entry.2, stopped, Prod.ext named rfl⟩

theorem isSome_foundReason {report : ExportedReport} {v : ChangedSymbol × Nat} (mem : v ∈ visited report selection)
    (stopped : (limits.stop v.2).isSome) : (foundReason (leftBy limits report selection) v.1).isSome := by
  obtain ⟨reason, stopped⟩ := Option.isSome_iff_exists.mp stopped
  exact foundReason_of_mem (mem_leftBy.mpr ⟨v, mem, stopped, rfl⟩)

theorem foundReason_eq_stop_iff {report : ExportedReport} : OneVerdict limits report selection ↔
    ∀ v ∈ visited report selection, foundReason (leftBy limits report selection) v.1 = limits.stop v.2 := by
  constructor
  · intro one v mem
    cases found : foundReason (leftBy limits report selection) v.1 with
    | some reason =>
      obtain ⟨w, mem', stopped, same⟩ := mem_leftBy.mp (mem_of_foundReason found)
      rw [one v mem w mem' same.symm, stopped]
    | none =>
      cases stopped : limits.stop v.2 with
      | none => rfl
      | some reason =>
        have seen := isSome_foundReason mem (by rw [stopped]; rfl)
        rw [found] at seen
        cases seen
  · intro all v mem w mem' same
    rw [← all v mem, ← all w mem', foundReason, foundReason, same]

structure SymbolAnalysis.Of (analysis : SymbolAnalysis) (symbol : ChangedSymbol) : Prop where
  selector : analysis.selector = symbol.primarySelector
  status : analysis.status = symbol.status
  pairing : analysis.pairing = symbol.pairing ∧ analysis.pairingEvidence = symbol.pairingEvidence
  sides : analysis.base = symbol.base ∧ analysis.head = symbol.head
  fileChange : analysis.fileChange = symbol.fileChange
  candidates : analysis.uncertainCandidates = symbol.uncertainCandidates
  note : analysis.note = symbol.note

/-- A document has each changed symbol once: analysed, not analysed for the reason of the report, or not selected. -/
structure Accounts (document : ChangesDocument) (report : ExportedReport) (selection : ResolvedSelection)
    (limits : ReportLimits) : Prop where
  analysed : List.Forall₂ SymbolAnalysis.Of document.symbols
    (((visited report selection).filter fun v => limits.stop v.2 = none).map Prod.fst)
  notAnalysed : document.notAnalysed = (visited report selection).filterMap fun v =>
    (limits.stop v.2).map fun reason => ⟨v.1.primarySelector, v.1.status, reason.bound⟩
  notSelected : document.summary.notSelectedSymbols =
    (report.changedSymbols.symbols.filter fun s => !selection.selectsSymbol s).length
  changedCount : document.summary.changedSymbols = report.changedSymbols.symbols.length
  analysedCount : document.summary.analysedSymbols = document.symbols.length
  notAnalysedCount : document.summary.notAnalysedSymbols = document.notAnalysed.length
  total : document.summary.changedSymbols = document.summary.analysedSymbols + document.summary.notAnalysedSymbols +
    document.summary.notSelectedSymbols

theorem visited_fst (report : ExportedReport) (selection : ResolvedSelection) :
    (visited report selection).map Prod.fst = report.changedSymbols.symbols.filter selection.selectsSymbol :=
  List.zipIdx_map_fst _ _

theorem summary_total (report : ExportedReport) (unanalysed : List (Text × UnanalysedReason))
    (selection : ResolvedSelection) (query : ChangesQuery) :
    let summary := (regroup report unanalysed selection query).summary
    summary.changedSymbols = summary.analysedSymbols + summary.notAnalysedSymbols + summary.notSelectedSymbols := by
  obtain ⟨symbols, left, count⟩ := regroup_symbols report unanalysed selection query
  have analysed := congrArg List.length symbols
  have noted := congrArg List.length left
  rw [List.length_map, ← List.countP_eq_length_filter] at analysed
  rw [List.length_filterMap_eq_countP] at noted
  simp only [Option.isSome_map] at noted
  have split := List.length_eq_countP_add_countP (l := report.changedSymbols.symbols.filter selection.selectsSymbol)
    fun s => decide (foundReason unanalysed s = none)
  have same : (fun s => decide ¬ decide (foundReason unanalysed s = none) = true) =
      fun s => (foundReason unanalysed s).isSome := by
    funext s
    cases foundReason unanalysed s <;> rfl
  rw [same] at split
  change report.changedSymbols.symbols.length = (regroup report unanalysed selection query).symbols.length +
    (regroup report unanalysed selection query).notAnalysed.length +
    (regroup report unanalysed selection query).summary.notSelectedSymbols
  omega

theorem accounts_iff (report : ExportedReport) (selection : ResolvedSelection) (query : ChangesQuery) :
    Accounts (regroup report (leftBy limits report selection) selection query) report selection limits ↔
      OneVerdict limits report selection := by
  obtain ⟨symbols, left, count⟩ := regroup_symbols report (leftBy limits report selection) selection query
  rw [← visited_fst, List.filterMap_map] at left
  rw [← visited_fst, List.filter_map, List.map_map] at symbols
  rw [foundReason_eq_stop_iff]
  constructor
  · intro accounts v mem
    -- nothing that the report left is missing, so the lists agree only element by element
    have same := (filterMap_eq_filterMap_iff ?_).mp (left.symm.trans accounts.notAnalysed) v mem
    · refine Option.map_injective ?_ same
      intro reason reason' same
      exact UnanalysedReason.bound_injective (NotAnalysed.mk.inj same).2.2
    · intro w mem stopped
      rw [Option.isSome_map] at stopped
      rw [Function.comp_apply, Option.isSome_map]
      exact isSome_foundReason mem stopped
  · intro all
    refine ⟨?_, ?_, ?_, rfl, rfl, rfl, summary_total _ _ _ _⟩
    · have same : (visited report selection).filter
          ((fun s => decide (foundReason (leftBy limits report selection) s = none)) ∘ Prod.fst) =
          (visited report selection).filter fun v => limits.stop v.2 = none :=
        List.filter_congr fun v mem => by rw [Function.comp_apply, all v mem]
      rw [symbols, same, List.forall₂_map_left_iff, List.forall₂_map_right_iff, List.forall₂_same]
      exact fun v _ => ⟨rfl, rfl, ⟨rfl, rfl⟩, ⟨rfl, rfl⟩, rfl, rfl, rfl⟩
    · rw [left]
      exact List.filterMap_congr fun v mem => by rw [Function.comp_apply, all v mem]
    · have split := List.length_eq_length_filter_add (l := report.changedSymbols.symbols) selection.selectsSymbol
      omega

/-- **Change analysis accounts for every changed symbol** exactly if the limits give one verdict to all
selected symbols of one primary selector. -/
theorem regroup_accounts
    (run : buildReport comparison workingTree collectors options limits selection = .ok built) (query : ChangesQuery) :
    Accounts (regroup built.report built.unanalysed selection query) built.report selection limits ↔
      OneVerdict limits built.report selection := by
  obtain ⟨-, left⟩ := buildReport_eq_ok run
  rw [left]
  exact accounts_iff built.report selection query

end

namespace Sample

open Changes.Sample (snapshot method)

def crossPath : Comparison where
  base := snapshot "aa" [⟨"a.rs", [method "one", method "two"]⟩]
  head := snapshot "bb" [⟨"b.rs", [method "one", method "two"]⟩]
  deltas := .ok [⟨.deleted, some "a.rs", some "a.rs"⟩, ⟨.added, some "b.rs", some "b.rs"⟩]

def removed : Comparison where
  base := snapshot "aa" [⟨"a.rs", [method "one", method "two"]⟩]
  head := snapshot "bb" []
  deltas := .ok [⟨.deleted, some "a.rs", some "a.rs"⟩]

def options : ReportOptions := ⟨.none, .sameModule, ⟨3, 200, 5000⟩, "2026-01-01T00:00:00Z"⟩

def query : ChangesQuery := ⟨[], "same_module", ⟨3, 200, 5000, 1, 10, 5, 10, none⟩⟩

def unasked : Collectors := fun _ _ => .error (.selector [])

/-- Queries that find nothing. -/
def silent : Collectors := fun _ side => .ok
  { evidence := fun selector _ => .ok
      ⟨⟨selector, side.label, [], []⟩, [], false, none, ⟨[], 0, false, none⟩, [], 0, 0, false, none, [], [], none, [], [], []⟩
    entryPoints := fun selector _ => .ok ⟨⟨selector, side.label, [], []⟩, [], [], false, none, [], [], []⟩
    candidateTests := fun selector _ _ => .ok ⟨⟨selector, side.label, [], []⟩, [], [], [], false⟩ }

def limits (maxSymbols : Nat) : ReportLimits := ⟨true, some maxSymbols, none⟩

/-- The symbols of a comparison, up to their order. -/
theorem compute_perm (comparison : Comparison) (P : List ChangedSymbol → Bool) {deltas : List GitDelta}
    {base head : SideInventory} (diffed : comparison.deltas = .ok deltas)
    (loadBase : SideInventory.load .base comparison.base = .ok base)
    (loadHead : SideInventory.load .head comparison.head = .ok head)
    (checked : (Pairer.new comparison (changedFiles deltas) base head).pairAll.toOption.any
      (fun p => P p.emitUnpaired.symbols) = true) :
    ∃ changed, ChangedSymbols.compute comparison = .ok changed ∧ ∃ listed, P listed = true ∧ changed.symbols.Perm listed := by
  cases paired : (Pairer.new comparison (changedFiles deltas) base head).pairAll with
  | error e =>
    rw [paired] at checked
    cases checked
  | ok p =>
    rw [paired] at checked
    exact ⟨_, bind_eq_ok.mpr ⟨_, diffed, bind_eq_ok.mpr ⟨_, loadBase, bind_eq_ok.mpr ⟨_, loadHead,
      bind_eq_ok.mpr ⟨p, paired, rfl⟩⟩⟩⟩, _, checked, List.mergeSort_perm _ _⟩

theorem crossPath_groups : ∃ changed, ChangedSymbols.compute crossPath = .ok changed ∧ changed.symbols.length = 2 ∧
    ∀ e ∈ changed.symbols, e.base = none ∧ e.head = none := by
  obtain ⟨changed, run, listed, checked, perm⟩ := compute_perm crossPath (fun listed => listed.length = 2 ∧
    listed.all fun e => e.base = none ∧ e.head = none) rfl rfl rfl (by decide +kernel)
  simp only [decide_eq_true_iff, List.all_eq_true] at checked
  exact ⟨changed, run, perm.length_eq.trans checked.1, fun e mem => checked.2 e (perm.mem_iff.mp mem)⟩

theorem removed_groups : ∃ changed, ChangedSymbols.compute removed = .ok changed ∧ changed.symbols.length = 2 ∧
    (changed.symbols.map ChangedSymbol.primarySelector).Nodup := by
  obtain ⟨changed, run, listed, checked, perm⟩ := compute_perm removed (fun listed => listed.length = 2 ∧
    (listed.map ChangedSymbol.primarySelector).Nodup) rfl rfl rfl (by decide +kernel)
  rw [decide_eq_true_iff] at checked
  exact ⟨changed, run, perm.length_eq.trans checked.1, (perm.map _).nodup_iff.mpr checked.2⟩

theorem built_of_answers {comparison : Comparison} {changed : ChangedSymbols} {collectors : Collectors} {limits : ReportLimits}
    (run : ChangedSymbols.compute comparison = .ok changed)
    (answers : ∀ (g : Gathered), ∀ v : ChangedSymbol × Nat, v.1 ∈ changed.symbols →
      ∃ result, g.visit options limits changed collectors v = .ok result) :
    ∃ built, buildReport comparison ⟨none, false⟩ collectors options limits .all = .ok built ∧
      built.report.changedSymbols.symbols = changed.symbols := by
  obtain ⟨gathered, visits, -⟩ : ∃ gathered, (changed.symbols.filter ResolvedSelection.all.selectsSymbol).zipIdx.foldlM
      (Gathered.visit options limits changed collectors) .empty = .ok gathered ∧ True := by
    refine foldlM_answers (P := fun _ => True) (fun g v mem _ => ?_) trivial
    exact (answers g v (List.mem_of_mem_filter (List.fst_mem_of_mem_zipIdx mem))).imp fun _ visit => ⟨visit, trivial⟩
  exact ⟨_, bind_eq_ok.mpr ⟨changed, mapError_eq_ok.mpr run, bind_eq_ok.mpr ⟨gathered, mapError_eq_ok.mpr visits, rfl⟩⟩, rfl⟩

theorem built_crossPath (maxSymbols : Nat) : ∃ built,
    buildReport crossPath ⟨none, false⟩ unasked options (limits maxSymbols) .all = .ok built ∧
      built.report.changedSymbols.symbols.length = 2 ∧
      ∀ e ∈ built.report.changedSymbols.symbols, e.base = none ∧ e.head = none := by
  obtain ⟨changed, run, two, groups⟩ := crossPath_groups
  obtain ⟨built, run, listed⟩ := built_of_answers run fun g v mem => Gathered.visit_answers fun g side reference found => by
    cases side with
    | base => cases (groups v.1 mem).1.symm.trans found
    | head => cases (groups v.1 mem).2.symm.trans found
  exact ⟨built, run, listed ▸ two, listed ▸ groups⟩

/-- A limit that lets one of two removed symbols through. -/
theorem regroup_accounts_one_left : ∃ built,
    buildReport removed ⟨none, false⟩ silent options (limits 1) .all = .ok built ∧
      built.report.changedSymbols.symbols.length = 2 ∧ built.unanalysed.length = 1 ∧
      Accounts (regroup built.report built.unanalysed .all query) built.report .all (limits 1) := by
  obtain ⟨changed, run, two, distinct⟩ := removed_groups
  have answers : ∀ (g : Gathered) (v : ChangedSymbol × Nat), ∃ result, g.visit options (limits 1) changed silent v = .ok result :=
    fun g v => Gathered.visit_answers fun g side reference _ => ⟨_, rfl⟩
  obtain ⟨built, run, listed⟩ := built_of_answers run fun g v _ => answers g v
  have all : built.report.changedSymbols.symbols.filter ResolvedSelection.all.selectsSymbol = changed.symbols :=
    (List.filter_eq_self.mpr fun _ _ => rfl).trans listed
  refine ⟨built, run, listed ▸ two, ?_, (regroup_accounts run query).mpr (oneVerdict_of_nodup (all ▸ distinct))⟩
  obtain ⟨first, second, pair⟩ := List.length_eq_two.mp two
  rw [(buildReport_eq_ok run).2, visited, all, pair]
  rfl

/-- With room for one symbol the first group is analysed, but listed with the second as not analysed. -/
theorem second_group_takes_first : ∃ built,
    buildReport crossPath ⟨none, false⟩ unasked options (limits 1) .all = .ok built ∧
      ¬ Accounts (regroup built.report built.unanalysed .all query) built.report .all (limits 1) := by
  obtain ⟨built, run, two, groups⟩ := built_crossPath 1
  refine ⟨built, run, fun accounts => ?_⟩
  obtain ⟨-, left⟩ := buildReport_eq_ok run
  rw [left] at accounts
  have one := (accounts_iff built.report .all query).mp accounts
  have all : built.report.changedSymbols.symbols.filter ResolvedSelection.all.selectsSymbol =
      built.report.changedSymbols.symbols := List.filter_eq_self.mpr fun _ _ => rfl
  obtain ⟨first, second, listed⟩ := List.length_eq_two.mp two
  rw [OneVerdict, visited, all, listed] at one
  obtain ⟨base, head⟩ := groups first (by simp [listed])
  obtain ⟨base', head'⟩ := groups second (by simp [listed])
  have same := one (first, 0) (by simp) (second, 1) (by simp) (by simp [ChangedSymbol.primarySelector, *])
  have apart : (limits 1).stop 0 ≠ (limits 1).stop 1 := by decide
  exact apart same

end Sample

end OrbitGraph.Analysis
