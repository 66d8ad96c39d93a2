import OrbitGraph.Analysis.Regroup
import OrbitGraph.Lib.Lists
import OrbitGraph.Lib.Loop
import Mathlib.Algebra.Order.BigOperators.Group.List
import Mathlib.Algebra.Order.Ring.Nat

/-!
Shrinking a document to a byte limit.

Each round cuts one kind of list: those of the symbols, the symbols themselves, which are
then listed as not analysed, and the standing lists. A symbol weighs more than an entry
of any other list, so the document gets lighter each round and the rounds come to an end.
How long a document is when it is serialized is a parameter.
-/

namespace OrbitGraph.Analysis

open Lib Changes

/-! ### The source -/

/-- `usize::MAX` -/
def usizeMax : Nat := 2 ^ 64 - 1

def responseBound (maxBytes : Nat) (what : Text) : TruncationFlag := ⟨what, "max_response_bytes", maxBytes⟩

def listsOfSymbols : Text := "symbols[].lists"

def symbolsCut : Text := "symbols"

def standingLists : Text := "not_analysed,unresolved,out_of_scope"

/-- The lists of a symbol, cut to `cap` entries each. -/
def SymbolAnalysis.truncate (cap : Nat) (symbol : SymbolAnalysis) : SymbolAnalysis :=
  { symbol with
    callers := symbol.callers.take cap
    entryPoints := symbol.entryPoints.take cap
    candidateTests := symbol.candidateTests.take cap }

def SymbolAnalysis.leftOut (symbol : SymbolAnalysis) : NotAnalysed :=
  ⟨symbol.selector, symbol.status, "max_response_bytes"⟩

namespace ChangesDocument

def longestList (document : ChangesDocument) : Nat :=
  (document.symbols.flatMap fun symbol =>
    [symbol.callers.length, symbol.entryPoints.length, symbol.candidateTests.length]).foldr max 0

def longestStanding (document : ChangesDocument) : Nat :=
  max document.notAnalysed.length (max document.unresolved.length document.outOfScope.length)

/-- The cut of one round, and what it is called; `none` when every list is empty. -/
def cut (document : ChangesDocument) : Option (ChangesDocument × Text) :=
  if 1 < document.longestList then
    let cap := document.longestList / 2
    some ({ document with symbols := document.symbols.map (SymbolAnalysis.truncate cap) }, listsOfSymbols)
  else if document.symbols ≠ [] then
    let keep := document.symbols.length / 2
    some ({ document with
      symbols := document.symbols.take keep
      notAnalysed := document.notAnalysed ++ (document.symbols.drop keep).map SymbolAnalysis.leftOut }, symbolsCut)
  else if document.longestStanding = 0 then none
  else
    let cap := document.longestStanding / 2
    some ({ document with
      notAnalysed := document.notAnalysed.take cap
      unresolved := document.unresolved.take cap
      outOfScope := document.outOfScope.take cap }, standingLists)

/-- The tests and the counts that a round computes again. -/
def recount (document : ChangesDocument) : ChangesDocument :=
  let tests := testSelection document.symbols
  { document with
    tests
    summary :=
      { document.summary with
        analysedSymbols := document.symbols.length
        notAnalysedSymbols := document.notAnalysed.length
        callers := (document.symbols.map fun symbol => symbol.callers.length).sum
        entryPoints := (document.symbols.map fun symbol => symbol.entryPoints.length).sum
        candidateTests := tests.length } }

variable (serialized : ChangesDocument → Option Nat) (maxBytes : Nat)

/-- A round of `fit_to_bytes`: the document and the flags so far. -/
def fitRound (so : ChangesDocument × List TruncationFlag) :
    ChangesDocument × List TruncationFlag ⊕ ChangesDocument × List TruncationFlag :=
  if (serialized so.1).getD usizeMax ≤ maxBytes then .inr so
  else
    match so.1.cut with
    | none => .inr so
    | some (document, what) => .inl (document.recount, so.2 ++ [responseBound maxBytes what])

def flagged (so : ChangesDocument × List TruncationFlag) : ChangesDocument :=
  if so.2 = [] then so.1
  else
    { so.1 with
      truncation := ((so.1.truncation ++ so.2).mergeSort fun a b => (compare a b).isLE).destutter (· ≠ ·)
      truncated := true }

/-- `ChangesDocument::fit_to_bytes`, in at most so many rounds: whether it fits, and what it becomes. -/
def fitToBytes (rounds : Nat) (document : ChangesDocument) : Option (Bool × ChangesDocument) :=
  (runLoop (fitRound serialized maxBytes) rounds (document, [])).map fun so =>
    ((serialized (flagged so)).any fun bytes => bytes ≤ maxBytes, flagged so)

end ChangesDocument

/-! ### One round -/

/-- No list is left to cut. -/
def ChangesDocument.Emptied (document : ChangesDocument) : Prop :=
  document.symbols = [] ∧ document.notAnalysed = [] ∧ document.unresolved = [] ∧ document.outOfScope = []

inductive Cut (document : ChangesDocument) : ChangesDocument → Text → Prop where
  | lists : 1 < document.longestList →
      Cut document { document with symbols := document.symbols.map (SymbolAnalysis.truncate (document.longestList / 2)) }
        listsOfSymbols
  | symbols (keep : Nat) : keep < document.symbols.length →
      Cut document { document with
        symbols := document.symbols.take keep
        notAnalysed := document.notAnalysed ++ (document.symbols.drop keep).map SymbolAnalysis.leftOut } symbolsCut
  | standing (cap : Nat) : document.symbols = [] → cap < document.longestStanding →
      Cut document { document with
        notAnalysed := document.notAnalysed.take cap
        unresolved := document.unresolved.take cap
        outOfScope := document.outOfScope.take cap } standingLists

variable {document shorter : ChangesDocument} {what : Text}

theorem cut_of_eq_some (found : document.cut = some (shorter, what)) : Cut document shorter what := by
  unfold ChangesDocument.cut at found
  dsimp only at found
  split_ifs at found with long some' empty
  · obtain ⟨rfl, rfl⟩ := Prod.mk.inj (Option.some.inj found)
    exact .lists long
  · obtain ⟨rfl, rfl⟩ := Prod.mk.inj (Option.some.inj found)
    have positive := List.length_pos_iff.mpr some'
    exact .symbols _ (by omega)
  · obtain ⟨rfl, rfl⟩ := Prod.mk.inj (Option.some.inj found)
    exact .standing _ (not_not.mp some') (by omega)

theorem cut_eq_none_iff : document.cut = none ↔ document.Emptied := by
  unfold ChangesDocument.cut ChangesDocument.Emptied
  dsimp only
  split_ifs with long some' empty
  · simp only [false_iff]
    rintro ⟨none, -⟩
    unfold ChangesDocument.longestList at long
    rw [none] at long
    cases long
  · simp only [false_iff]
    exact fun all => some' all.1
  · simp only [true_iff]
    unfold ChangesDocument.longestStanding at empty
    refine ⟨not_not.mp some', List.length_eq_zero_iff.mp ?_, List.length_eq_zero_iff.mp ?_,
      List.length_eq_zero_iff.mp ?_⟩ <;> omega
  · simp only [false_iff]
    rintro ⟨-, entries, areas, paths⟩
    unfold ChangesDocument.longestStanding at empty
    rw [entries, areas, paths] at empty
    exact empty rfl

/-! ### The rounds come to an end -/

def SymbolAnalysis.weight (symbol : SymbolAnalysis) : Nat :=
  2 + symbol.callers.length + symbol.entryPoints.length + symbol.candidateTests.length

/-- The entries of all lists, each symbol counted twice. -/
def ChangesDocument.weight (document : ChangesDocument) : Nat :=
  (document.symbols.map SymbolAnalysis.weight).sum + document.notAnalysed.length + document.unresolved.length +
    document.outOfScope.length

theorem weight_truncate_le (cap : Nat) (symbol : SymbolAnalysis) : (symbol.truncate cap).weight ≤ symbol.weight := by
  unfold SymbolAnalysis.weight SymbolAnalysis.truncate
  simp only [List.length_take]
  omega

theorem exists_longest (document : ChangesDocument) (positive : 0 < document.longestList) :
    ∃ symbol ∈ document.symbols, document.longestList = symbol.callers.length ∨
      document.longestList = symbol.entryPoints.length ∨ document.longestList = symbol.candidateTests.length := by
  have attained : ∀ lengths : List Nat, 0 < lengths.foldr max 0 → lengths.foldr max 0 ∈ lengths := by
    intro lengths
    induction lengths with
    | nil => exact fun zero => absurd zero (Nat.lt_irrefl 0)
    | cons length lengths ih =>
      intro positive
      rw [List.foldr_cons] at positive ⊢
      rcases Nat.le_total (lengths.foldr max 0) length with more | less
      · rw [Nat.max_eq_left more]
        exact List.mem_cons_self
      · rw [Nat.max_eq_right less] at positive ⊢
        exact List.mem_cons_of_mem _ (ih positive)
  have mem := attained _ positive
  obtain ⟨symbol, inside, is⟩ := List.mem_flatMap.mp mem
  rw [List.mem_cons, List.mem_cons, List.mem_singleton] at is
  exact ⟨symbol, inside, is⟩

theorem Cut.weight_lt (cut : Cut document shorter what) : shorter.weight < document.weight := by
  cases cut with
  | lists long =>
    obtain ⟨symbol, mem, longest⟩ := exists_longest document (by omega)
    have lighter : ((document.symbols.map (SymbolAnalysis.truncate (document.longestList / 2))).map
        SymbolAnalysis.weight).sum < (document.symbols.map SymbolAnalysis.weight).sum := by
      rw [List.map_map]
      have less : (symbol.truncate (document.longestList / 2)).weight < symbol.weight := by
        simp only [SymbolAnalysis.weight, SymbolAnalysis.truncate, List.length_take]
        omega
      exact List.sum_lt_sum _ _ (fun other _ => weight_truncate_le _ other) ⟨symbol, mem, less⟩
    unfold ChangesDocument.weight
    dsimp only
    omega
  | symbols keep inside =>
    have split : (document.symbols.map SymbolAnalysis.weight).sum =
        ((document.symbols.take keep).map SymbolAnalysis.weight).sum +
          ((document.symbols.drop keep).map SymbolAnalysis.weight).sum := by
      rw [← List.sum_append, ← List.map_append, List.take_append_drop]
    have moved : 2 * (document.symbols.drop keep).length ≤ ((document.symbols.drop keep).map SymbolAnalysis.weight).sum := by
      generalize document.symbols.drop keep = symbols
      induction symbols with
      | nil => exact Nat.le_refl _
      | cons symbol rest ih =>
        rw [List.length_cons, List.map_cons, List.sum_cons, SymbolAnalysis.weight]
        omega
    rw [List.length_drop] at moved
    unfold ChangesDocument.weight
    dsimp only
    rw [List.length_append, List.length_map, List.length_drop]
    omega
  | standing cap empty less =>
    unfold ChangesDocument.longestStanding at less
    unfold ChangesDocument.weight
    simp only [List.length_take]
    omega

/-! ### What the rounds keep -/

/-- What became of the lists: how many symbols are kept, what caps their lists, and which entries were moved to the
list of the symbols not analysed and which were dropped from it. -/
structure Shrinkage where
  keep : Nat
  cap : Nat
  moved : List NotAnalysed
  dropped : List NotAnalysed

/-- A document with its lists cut, each kind of cut recorded. -/
structure ShrunkTo (document : ChangesDocument) (recorded : Text → Prop) (shrinkage : Shrinkage)
    (shorter : ChangesDocument) : Prop where
  symbols : shorter.symbols = (document.symbols.take shrinkage.keep).map (SymbolAnalysis.truncate shrinkage.cap)
  moved : shrinkage.moved.Perm ((document.symbols.drop shrinkage.keep).map SymbolAnalysis.leftOut)
  notAnalysed : document.notAnalysed ++ shrinkage.moved = shorter.notAnalysed ++ shrinkage.dropped
  unresolved : shorter.unresolved <+: document.unresolved
  outOfScope : shorter.outOfScope <+: document.outOfScope
  /-- Nothing but the lists, the tests, the counts and the flags changes. -/
  rest :
    { shorter with
      symbols := document.symbols
      notAnalysed := document.notAnalysed
      unresolved := document.unresolved
      outOfScope := document.outOfScope
      tests := document.tests
      summary :=
        { shorter.summary with
          analysedSymbols := document.summary.analysedSymbols
          notAnalysedSymbols := document.summary.notAnalysedSymbols
          callers := document.summary.callers
          entryPoints := document.summary.entryPoints
          candidateTests := document.summary.candidateTests }
      truncation := document.truncation
      truncated := document.truncated } = document
  listsRecorded : (∀ symbol ∈ document.symbols, symbol.truncate shrinkage.cap = symbol) ∨ recorded listsOfSymbols
  symbolsRecorded : document.symbols.length ≤ shrinkage.keep ∨ recorded symbolsCut
  standingRecorded : (shrinkage.dropped = [] ∧ shorter.unresolved = document.unresolved ∧
    shorter.outOfScope = document.outOfScope) ∨ (shorter.symbols = [] ∧ recorded standingLists)

theorem truncate_truncate (few cap : Nat) (symbol : SymbolAnalysis) :
    (symbol.truncate cap).truncate few = symbol.truncate (min few cap) := by
  unfold SymbolAnalysis.truncate
  simp only [List.take_take]

theorem longestList_cap {symbol : SymbolAnalysis} (mem : symbol ∈ document.symbols) :
    symbol.truncate document.longestList = symbol := by
  have bound : ∀ (lengths : List Nat) (length : Nat), length ∈ lengths → length ≤ lengths.foldr max 0 := by
    intro lengths
    induction lengths with
    | nil =>
      intro length mem
      cases mem
    | cons first rest ih =>
      intro length mem
      rw [List.foldr_cons]
      rcases List.mem_cons.mp mem with rfl | mem
      · exact Nat.le_max_left _ _
      · exact (ih length mem).trans (Nat.le_max_right _ _)
  have within : ∀ length ∈ [symbol.callers.length, symbol.entryPoints.length, symbol.candidateTests.length],
      length ≤ document.longestList := by
    intro length inside
    exact bound _ length (List.mem_flatMap.mpr ⟨symbol, mem, inside⟩)
  have callers := within _ List.mem_cons_self
  have entryPoints := within _ (List.mem_cons_of_mem _ List.mem_cons_self)
  have candidateTests := within _ (List.mem_cons_of_mem _ (List.mem_cons_of_mem _ List.mem_cons_self))
  unfold SymbolAnalysis.truncate
  rw [List.take_of_length_le callers, List.take_of_length_le entryPoints, List.take_of_length_le candidateTests]

theorem shrunkTo_self (document : ChangesDocument) (recorded : Text → Prop) :
    ShrunkTo document recorded ⟨document.symbols.length, document.longestList, [], []⟩ document where
  symbols := by
    rw [List.take_length]
    exact (List.map_id _).symm.trans (List.map_congr_left fun symbol mem => (longestList_cap mem).symm)
  moved := by
    rw [List.drop_length]
    exact .nil
  notAnalysed := rfl
  unresolved := List.prefix_rfl
  outOfScope := List.prefix_rfl
  rest := rfl
  listsRecorded := .inl fun _ => longestList_cap
  symbolsRecorded := .inl (Nat.le_refl _)
  standingRecorded := .inl ⟨rfl, rfl, rfl⟩

section

variable {recorded recorded' : Text → Prop} {shrinkage : Shrinkage} {next : ChangesDocument}

theorem ShrunkTo.mono (shrunk : ShrunkTo document recorded shrinkage shorter)
    (more : ∀ what, recorded what → recorded' what) : ShrunkTo document recorded' shrinkage shorter :=
  { shrunk with
    listsRecorded := shrunk.listsRecorded.imp_right (more _)
    symbolsRecorded := shrunk.symbolsRecorded.imp_right (more _)
    standingRecorded := shrunk.standingRecorded.imp_right (And.imp_right (more _)) }

theorem ShrunkTo.cut (shrunk : ShrunkTo document recorded shrinkage shorter) (cut : Cut shorter next what)
    (flag : recorded what) : ∃ shrinkage', ShrunkTo document recorded shrinkage' next.recount := by
  cases cut with
  | lists long =>
    refine ⟨{ shrinkage with cap := min (shorter.longestList / 2) shrinkage.cap }, ?_⟩
    exact
      { shrunk with
        symbols := by
          change shorter.symbols.map (SymbolAnalysis.truncate (shorter.longestList / 2)) = _
          rw [shrunk.symbols, List.map_map]
          exact List.map_congr_left fun symbol _ => truncate_truncate _ _ symbol
        listsRecorded := .inr flag
        standingRecorded := shrunk.standingRecorded.imp_right fun empty =>
          ⟨by rw [← List.map_nil, ← empty.1]; rfl, empty.2⟩ }
  | symbols keep inside =>
    have fewer : keep ≤ (document.symbols.take shrinkage.keep).length := by
      rw [shrunk.symbols, List.length_map] at inside
      exact inside.le
    have still : keep ≤ shrinkage.keep := fewer.trans (List.length_take_le _ _)
    have whole : shrinkage.dropped = [] ∧ shorter.unresolved = document.unresolved ∧
        shorter.outOfScope = document.outOfScope := by
      refine shrunk.standingRecorded.resolve_right fun empty => ?_
      rw [empty.1] at inside
      cases inside
    have sameLeft : (shorter.symbols.drop keep).map SymbolAnalysis.leftOut =
        ((document.symbols.take shrinkage.keep).drop keep).map SymbolAnalysis.leftOut := by
      rw [shrunk.symbols, ← List.map_drop, List.map_map]
      rfl
    refine ⟨⟨keep, shrinkage.cap, shrinkage.moved ++ (shorter.symbols.drop keep).map SymbolAnalysis.leftOut, []⟩, ?_⟩
    exact
      { shrunk with
        symbols := by
          change shorter.symbols.take keep = _
          rw [shrunk.symbols, ← List.map_take, List.take_take, Nat.min_eq_left still]
        moved := by
          have split : document.symbols.drop keep =
              (document.symbols.take shrinkage.keep).drop keep ++ document.symbols.drop shrinkage.keep := by
            rw [← List.drop_append_of_le_length fewer, List.take_append_drop]
          rw [split, List.map_append, sameLeft]
          exact List.perm_append_comm.trans (shrunk.moved.append_left _)
        notAnalysed := by
          have before := shrunk.notAnalysed
          rw [whole.1, List.append_nil] at before
          change _ = shorter.notAnalysed ++ _ ++ []
          rw [List.append_nil, ← List.append_assoc, before]
        symbolsRecorded := .inr flag
        standingRecorded := .inl ⟨rfl, whole.2⟩ }
  | standing cap empty less =>
    refine ⟨{ shrinkage with dropped := shorter.notAnalysed.drop cap ++ shrinkage.dropped }, ?_⟩
    exact
      { shrunk with
        notAnalysed := by
          change _ = shorter.notAnalysed.take cap ++ (_ ++ _)
          rw [← List.append_assoc, List.take_append_drop]
          exact shrunk.notAnalysed
        unresolved := (List.take_prefix cap _).trans shrunk.unresolved
        outOfScope := (List.take_prefix cap _).trans shrunk.outOfScope
        standingRecorded := .inr ⟨empty, flag⟩ }

end

/-! ### The limit is kept by design -/

/-- The tests and the counts are those of the lists. -/
def ChangesDocument.Counted (document : ChangesDocument) : Prop := document.recount = document

def ChangesSummary.CountsAllBut (summary : ChangesSummary) (dropped : Nat) : Prop :=
  summary.changedSymbols =
    summary.analysedSymbols + summary.notAnalysedSymbols + summary.notSelectedSymbols + dropped

def Within (serialized : ChangesDocument → Option Nat) (maxBytes : Nat) (document : ChangesDocument) : Prop :=
  ∃ bytes, serialized document = some bytes ∧ bytes ≤ maxBytes

/-- What shrinking to a limit does: the cuts go on until the document without their flags is within the limit, or
until no list has an entry. -/
structure FitsByDesign (serialized : ChangesDocument → Option Nat) (maxBytes : Nat) (document : ChangesDocument)
    (fits : Bool) (shrunk : ChangesDocument) (shrinkage : Shrinkage) : Prop where
  within : fits = true → Within serialized maxBytes shrunk
  settled : shrunk.Emptied ∨ (serialized
    { shrunk with
      truncation := document.truncation
      truncated := document.truncated }).getD usizeMax ≤ maxBytes
  unchanged : Within serialized maxBytes document → fits = true ∧ shrunk = document
  shrunkTo : ShrunkTo document (fun what => responseBound maxBytes what ∈ shrunk.truncation) shrinkage shrunk
  flagsStay : document.truncation ⊆ shrunk.truncation
  marked : shrunk ≠ document → shrunk.truncated = true
  counted : document.Counted → shrunk.Counted
  countsAll : document.Counted → document.summary.CountsAllBut 0 →
    shrunk.summary.CountsAllBut shrinkage.dropped.length

section

variable {recorded : Text → Prop} {shrinkage : Shrinkage}

theorem ShrunkTo.countsAllBut (shrunk : ShrunkTo document recorded shrinkage shorter) (before : document.Counted)
    (after : shorter.Counted) (all : document.summary.CountsAllBut 0) :
    shorter.summary.CountsAllBut shrinkage.dropped.length := by
  have kept := congrArg List.length shrunk.symbols
  have left := shrunk.moved.length_eq
  have total := congrArg List.length shrunk.notAnalysed
  rw [List.length_map, List.length_take] at kept
  rw [List.length_map, List.length_drop] at left
  rw [List.length_append, List.length_append] at total
  have changed : shorter.summary.changedSymbols = document.summary.changedSymbols :=
    congrArg (fun document => document.summary.changedSymbols) shrunk.rest
  have notSelected : shorter.summary.notSelectedSymbols = document.summary.notSelectedSymbols :=
    congrArg (fun document => document.summary.notSelectedSymbols) shrunk.rest
  have analysed : ∀ counted : ChangesDocument, counted.Counted →
      counted.summary.analysedSymbols = counted.symbols.length ∧
        counted.summary.notAnalysedSymbols = counted.notAnalysed.length := by
    intro counted is
    exact ⟨congrArg (fun document => document.summary.analysedSymbols) is.symm,
      congrArg (fun document => document.summary.notAnalysedSymbols) is.symm⟩
  obtain ⟨symbolsBefore, entriesBefore⟩ := analysed document before
  obtain ⟨symbolsAfter, entriesAfter⟩ := analysed shorter after
  unfold ChangesSummary.CountsAllBut at all ⊢
  omega

end

namespace ChangesDocument

variable {serialized : ChangesDocument → Option Nat} {maxBytes : Nat} {so after : ChangesDocument × List TruncationFlag}

theorem fitRound_eq_inl (round : fitRound serialized maxBytes so = .inl after) :
    ∃ shorter what, Cut so.1 shorter what ∧ after = (shorter.recount, so.2 ++ [responseBound maxBytes what]) := by
  unfold fitRound at round
  split at round
  · cases round
  · split at round
    · cases round
    · next shorter what found => exact ⟨shorter, what, cut_of_eq_some found, (Sum.inl.inj round).symm⟩

theorem fitRound_eq_inr (round : fitRound serialized maxBytes so = .inr after) :
    after = so ∧ (so.1.Emptied ∨ (serialized so.1).getD usizeMax ≤ maxBytes) := by
  unfold fitRound at round
  split at round
  · next fits => exact ⟨(Sum.inr.inj round).symm, .inr fits⟩
  · split at round
    · next none => exact ⟨(Sum.inr.inj round).symm, .inl (cut_eq_none_iff.mp none)⟩
    · cases round

/-- What holds after each round. -/
structure Rounds (maxBytes : Nat) (document : ChangesDocument) (so : ChangesDocument × List TruncationFlag) : Prop where
  shrunk : ∃ shrinkage, ShrunkTo document (fun what => responseBound maxBytes what ∈ so.2) shrinkage so.1
  flagsStay : so.1.truncation = document.truncation ∧ so.1.truncated = document.truncated
  unchanged : so.2 = [] → so.1 = document
  counted : so.2 ≠ [] → so.1.Counted

theorem Rounds.first : Rounds maxBytes document (document, []) where
  shrunk := ⟨_, shrunkTo_self document _⟩
  flagsStay := ⟨rfl, rfl⟩
  unchanged _ := rfl
  counted none := absurd rfl none

theorem Rounds.next (rounds : Rounds maxBytes document so) (round : fitRound serialized maxBytes so = .inl after) :
    Rounds maxBytes document after ∧ after.1.weight < so.1.weight := by
  obtain ⟨shorter, what, cut, rfl⟩ := fitRound_eq_inl round
  obtain ⟨shrinkage, shrunk⟩ := rounds.shrunk
  have more : ShrunkTo document (fun other => responseBound maxBytes other ∈ so.2 ++ [responseBound maxBytes what])
      shrinkage so.1 := shrunk.mono fun other mem => List.mem_append_left _ mem
  have some' : so.2 ++ [responseBound maxBytes what] ≠ [] := List.concat_ne_nil _ _
  have stay : shorter.truncation = so.1.truncation ∧ shorter.truncated = so.1.truncated := by
    cases cut <;> exact ⟨rfl, rfl⟩
  exact ⟨⟨more.cut cut (List.mem_append_right _ List.mem_cons_self),
    ⟨stay.1.trans rounds.flagsStay.1, stay.2.trans rounds.flagsStay.2⟩, fun none => absurd none some', fun _ => rfl⟩,
    cut.weight_lt⟩

theorem mem_flagged {flag : TruncationFlag} (mem : flag ∈ so.1.truncation ∨ flag ∈ so.2) :
    flag ∈ (flagged so).truncation := by
  unfold flagged
  split
  · next none =>
    rw [none] at mem
    exact mem.resolve_right List.not_mem_nil
  · exact mem_destutter (List.mem_mergeSort.mpr (List.mem_append.mpr mem))

theorem flagged_eq (so : ChangesDocument × List TruncationFlag) :
    flagged so = { so.1 with truncation := (flagged so).truncation, truncated := (flagged so).truncated } := by
  unfold flagged
  split <;> rfl

theorem Rounds.shrunkTo_flagged (rounds : Rounds maxBytes document so) : ∃ shrinkage,
    ShrunkTo document (fun what => responseBound maxBytes what ∈ (flagged so).truncation) shrinkage (flagged so) := by
  obtain ⟨shrinkage, shrunk⟩ := rounds.shrunk
  have recorded : ShrunkTo document (fun what => responseBound maxBytes what ∈ (flagged so).truncation) shrinkage so.1 :=
    shrunk.mono fun what mem => mem_flagged (.inr mem)
  generalize (fun what => responseBound maxBytes what ∈ (flagged so).truncation) = found at recorded
  rw [flagged_eq]
  exact ⟨shrinkage, { recorded with }⟩

theorem Rounds.counted_flagged (rounds : Rounds maxBytes document so) (before : document.Counted) :
    (flagged so).Counted := by
  have counted : so.1.Counted := by
    by_cases none : so.2 = []
    · rw [rounds.unchanged none]
      exact before
    · exact rounds.counted none
  rw [flagged_eq]
  exact congrArg (fun shrunk : ChangesDocument =>
    { shrunk with truncation := (flagged so).truncation, truncated := (flagged so).truncated }) counted

theorem exists_yields (serialized : ChangesDocument → Option Nat) (maxBytes : Nat) (document : ChangesDocument) :
    ∃ so, Yields (fitRound serialized maxBytes) (document, []) so ∧
      (∀ rounds, document.weight < rounds → runLoop (fitRound serialized maxBytes) rounds (document, []) = some so) ∧
      Rounds maxBytes document so ∧ (so.1.Emptied ∨ (serialized so.1).getD usizeMax ≤ maxBytes) := by
  have runs : ∀ rounds, document.weight < rounds →
      ∃ so, runLoop (fitRound serialized maxBytes) rounds (document, []) = some so ∧
        Rounds maxBytes document so ∧ (so.1.Emptied ∨ (serialized so.1).getD usizeMax ≤ maxBytes) := by
    intro rounds enough
    refine runLoop_of_invariant (fun so => so.1.weight) (Rounds maxBytes document) _ ?_ ?_ .first enough
    · intro so after kept round
      exact kept.next round
    · intro so after kept round
      obtain ⟨rfl, last⟩ := fitRound_eq_inr round
      exact ⟨kept, last⟩
  obtain ⟨so, run, last⟩ := runs _ (Nat.lt_succ_self _)
  have yields := yields_iff_runLoop.mpr ⟨_, run⟩
  refine ⟨so, yields, fun rounds enough => ?_, last⟩
  obtain ⟨other, run', -⟩ := runs rounds enough
  rw [run', (yields_iff_runLoop.mpr ⟨_, run'⟩).unique yields]

theorem fitRound_of_within (within : Within serialized maxBytes so.1) : fitRound serialized maxBytes so = .inr so := by
  obtain ⟨bytes, is, less⟩ := within
  unfold fitRound
  rw [is]
  exact if_pos less

theorem any_eq_true_iff : ((serialized document).any fun bytes => bytes ≤ maxBytes) = true ↔
    Within serialized maxBytes document := by
  rw [Option.any_eq_true]
  simp only [decide_eq_true_eq]
  rfl

end ChangesDocument

open ChangesDocument in
/-- Shrinking to a limit ends, and does what it does by design. -/
theorem fitToBytes_fitsByDesign (serialized : ChangesDocument → Option Nat) (maxBytes : Nat)
    (document : ChangesDocument) : ∃ fits shrunk shrinkage,
      (∀ rounds, document.weight < rounds → document.fitToBytes serialized maxBytes rounds = some (fits, shrunk)) ∧
      FitsByDesign serialized maxBytes document fits shrunk shrinkage := by
  obtain ⟨so, yields, runs, kept, last⟩ := exists_yields serialized maxBytes document
  obtain ⟨shrinkage, shrunkTo⟩ := kept.shrunkTo_flagged
  have marks := flagged_eq so
  have bare : { flagged so with truncation := document.truncation, truncated := document.truncated } = so.1 := by
    rw [marks, ← kept.flagsStay.1, ← kept.flagsStay.2]
  refine ⟨(serialized (flagged so)).any fun bytes => bytes ≤ maxBytes, flagged so, shrinkage, ?_, ?_⟩
  · intro rounds enough
    rw [fitToBytes, runs rounds enough]
    rfl
  · exact
      { within := any_eq_true_iff.mp
        settled := by
          rw [bare]
          refine last.imp_left fun emptied => ?_
          rw [marks]
          exact emptied
        unchanged := by
          intro within
          have first : Yields (fitRound serialized maxBytes) (document, []) (document, []) :=
            .done (fitRound_of_within within)
          rw [yields.unique first]
          exact ⟨any_eq_true_iff.mpr within, rfl⟩
        shrunkTo
        flagsStay := by
          intro flag mem
          rw [← kept.flagsStay.1] at mem
          exact mem_flagged (.inl mem)
        marked := by
          intro changed
          unfold flagged at changed ⊢
          split at changed
          · next none => exact absurd (kept.unchanged none) changed
          · next some' => rw [if_neg some']
        counted := kept.counted_flagged
        countsAll := fun before all => shrunkTo.countsAllBut before (kept.counted_flagged before) all }

/-- What shrinking to a limit should be. -/
structure FitsHonestly (serialized : ChangesDocument → Option Nat) (maxBytes : Nat) (document : ChangesDocument)
    (fits : Bool) (shrunk : ChangesDocument) : Prop where
  within : fits = true → Within serialized maxBytes shrunk
  maximal : fits = false → shrunk.Emptied
  unchanged : Within serialized maxBytes document → shrunk = document
  shrunkTo : ∃ shrinkage, ShrunkTo document (fun what => responseBound maxBytes what ∈ shrunk.truncation) shrinkage shrunk
  counted : document.Counted → shrunk.Counted
  countsAll : document.Counted → document.summary.CountsAllBut 0 → shrunk.summary.CountsAllBut 0

namespace Sample

def unanalysedOnly : ChangesDocument where
  generatedAt := "2024-01-01T00:00:00Z"
  complete := true
  incomplete := none
  query := ⟨[], "fuzzy_name", ⟨4, 500, 2000, 0, 50, 50, 50, none⟩⟩
  summary := ⟨1, 0, 1, 0, 0, 0, 0, 0⟩
  symbols := []
  notAnalysed := [⟨"symbol:src/lib.rs#f:function", .modified, "max_symbols"⟩]
  tests := []
  unmatchedSelection := []
  unresolved := []
  outOfScope := []
  filteredOut := []
  truncated := true
  truncation := [⟨"symbols", "max_symbols", 0⟩]
  notices := []

def listless : ChangesDocument := { unanalysedOnly with notAnalysed := [] }.recount

theorem testSelection_nil : testSelection [] = [] := by
  unfold testSelection
  exact List.mergeSort_nil

theorem counted_unanalysedOnly : unanalysedOnly.Counted := by
  unfold ChangesDocument.Counted ChangesDocument.recount
  change { unanalysedOnly with
    tests := testSelection []
    summary := { unanalysedOnly.summary with candidateTests := (testSelection []).length } } = _
  rw [testSelection_nil]
  rfl

theorem unanalysed_symbol_lost : ¬ ∃ serialized : ChangesDocument → Option Nat,
    (∀ document, ∃ bytes, serialized document = some bytes ∧ 16 < bytes) ∧ ∃ rounds fits shrunk,
      unanalysedOnly.fitToBytes serialized 16 rounds = some (fits, shrunk) ∧
      FitsHonestly serialized 16 unanalysedOnly fits shrunk := by
  rintro ⟨serialized, long, rounds, fits, shrunk, run, honest⟩
  have tooLong : ∀ document, ¬ (serialized document).getD usizeMax ≤ 16 := by
    intro document
    obtain ⟨bytes, is, more⟩ := long document
    rw [is]
    exact Nat.not_le.mpr more
  have first : ChangesDocument.fitRound serialized 16 (unanalysedOnly, []) =
      .inl (listless, [responseBound 16 standingLists]) := if_neg (tooLong _)
  have last : ChangesDocument.fitRound serialized 16 (listless, [responseBound 16 standingLists]) =
      .inr (listless, [responseBound 16 standingLists]) := if_neg (tooLong _)
  have yields := Yields.next first (.done last)
  have counts := honest.countsAll counted_unanalysedOnly rfl
  unfold ChangesDocument.fitToBytes at run
  obtain ⟨so, run, same⟩ := Option.map_eq_some_iff.mp run
  obtain rfl := yields.unique (yields_iff_runLoop.mpr ⟨_, run⟩)
  obtain rfl := (Prod.mk.inj same).2
  cases counts

end Sample

end OrbitGraph.Analysis
