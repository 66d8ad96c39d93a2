import Mathlib.Data.Finset.Card
import OrbitGraph.Changes.Selector
import OrbitGraph.History.Types
import OrbitGraph.Lib.Command

/-!
What a held-out delivery counts as truth, and how it is accounted for.

The files and symbols of a delivery are truth if the tree of the target has them. Beside
the two sets there are counters: of all changes, of those that are truth, and of those
that are left out, by reason. A counter goes up with each insertion, also of what the set
has already.
-/

namespace OrbitGraph.Evaluation

open Lib History
open Changes (Selector)

/-! ### The accounts -/

abbrev Counts := List (Text × Nat)

def increment (reason : Text) : Counts → Counts
  | [] => [(reason, 1)]
  | entry :: rest =>
    if reason < entry.1 then (reason, 1) :: entry :: rest
    else if reason = entry.1 then (reason, entry.2 + 1) :: rest
    else entry :: increment reason rest

def total (counts : Counts) : Nat := (counts.map Prod.snd).sum

theorem total_increment (reason : Text) (counts : Counts) : total (increment reason counts) = total counts + 1 := by
  induction counts with
  | nil => rfl
  | cons entry rest ih =>
    simp only [total, List.map_cons, List.sum_cons] at ih ⊢
    rw [increment]
    split_ifs
    · simp only [List.map_cons, List.sum_cons]
      omega
    · simp only [List.map_cons, List.sum_cons]
      omega
    · simp only [List.map_cons, List.sum_cons]
      omega

/-- Held-out truth eligibility and omission reasons by destination level. -/
structure TruthCoverage where
  fileChangesTotal : Nat
  fileTruthEligible : Nat
  fileTruthOmitted : Counts
  symbolChangesTotal : Nat
  symbolTruthEligible : Nat
  symbolTruthOmitted : Counts

/-- The truth of both levels, with its accounts. -/
structure TruthOutcome where
  files : Finset Text
  symbols : Finset Text
  coverage : TruthCoverage

def TruthOutcome.empty : TruthOutcome := ⟨∅, ∅, ⟨0, 0, [], 0, 0, []⟩⟩

/-- `FileFallbackReason::as_str` -/
def fallbackText : FileFallbackReason → Text
  | .unsupportedLanguage => "unsupported_language"
  | .binary => "binary"
  | .parseOrExtractionUncertain => "parse_or_extraction_uncertain"
  | .noEnclosingNamedSymbol => "no_enclosing_named_symbol"
  | .fileUnavailable => "file_unavailable"

/-- The reason for which a file without symbols counts as a gap. -/
def gapReason (file : FileChange) : Text :=
  match file.beforeFallback with
  | some reason => "symbol_truth_unavailable_" ++ fallbackText reason
  | none => "symbol_truth_unavailable_no_attribution"

def fileSelector (path : Text) : Text := (Selector.file path).display

def symbolSelector (symbol : SymbolIdentity) : Text :=
  (Selector.symbol symbol.filePath symbol.qualified symbol.kind).display

variable (live : Text → Except GraphError Bool)

/-- One pass of `held_out_truth` over the file of a change. -/
def countFile (s : TruthOutcome) (file : FileChange) : Except GraphError TruthOutcome := do
  let s := { s with coverage.fileChangesTotal := s.coverage.fileChangesTotal + 1 }
  match file.oldPath with
  | some path =>
    let selector := fileSelector path
    if ← live selector then
      return { s with
        files := insert selector s.files
        coverage.fileTruthEligible := s.coverage.fileTruthEligible + 1 }
    else
      return { s with
        coverage.fileTruthOmitted :=
          increment "old_path_unresolvable_at_target" s.coverage.fileTruthOmitted }
  | none =>
    return { s with
      coverage.fileTruthOmitted := increment "added_file_absent_at_target" s.coverage.fileTruthOmitted }

def countGap (s : TruthOutcome) (file : FileChange) : TruthOutcome :=
  if file.symbols.isEmpty then
    { s with
      coverage.symbolChangesTotal := s.coverage.symbolChangesTotal + 1
      coverage.symbolTruthOmitted := increment (gapReason file) s.coverage.symbolTruthOmitted }
  else s

/-- One pass of `held_out_truth` over a symbol. -/
def countSymbol (s : TruthOutcome) (change : SymbolChange) : Except GraphError TruthOutcome := do
  let s := { s with coverage.symbolChangesTotal := s.coverage.symbolChangesTotal + 1 }
  match change.before with
  | some before =>
    let selector := symbolSelector before.symbol
    if ← live selector then
      return { s with
        symbols := insert selector s.symbols
        coverage.symbolTruthEligible := s.coverage.symbolTruthEligible + 1 }
    else
      return { s with
        coverage.symbolTruthOmitted :=
          increment "before_symbol_unresolvable_at_target" s.coverage.symbolTruthOmitted }
  | none =>
    return { s with
      coverage.symbolTruthOmitted := increment "added_symbol_absent_at_target" s.coverage.symbolTruthOmitted }

def countChange (s : TruthOutcome) (file : FileChange) : Except GraphError TruthOutcome := do
  let s ← countFile live s file
  file.symbols.foldlM (countSymbol live) (countGap s file)

/-- `held_out_truth`, for the selectors that the target revision has. -/
def heldOutTruth (delivery : DeliveredChange) : Except GraphError TruthOutcome :=
  delivery.files.foldlM (countChange live) TruthOutcome.empty

/-- Whether the target has a selector. -/
def isLive (selector : Text) : Bool :=
  match live selector with
  | .ok found => found
  | .error _ => false

/-- The old paths of changes that the target has, each as often as it occurs. -/
def liveFiles (files : List FileChange) : List Text :=
  (files.filterMap fun file => file.oldPath.map fileSelector).filter (isLive live)

/-- The symbols before changes that the target has, each as often as it occurs. -/
def liveSymbols (changes : List SymbolChange) : List Text :=
  (changes.filterMap fun change => change.before.map fun before => symbolSelector before.symbol).filter (isLive live)

variable {live}

theorem liveFiles_append (done files : List FileChange) :
    liveFiles live (done ++ files) = liveFiles live done ++ liveFiles live files := by
  simp only [liveFiles, List.filterMap_append, List.filter_append]

theorem liveSymbols_append (done changes : List SymbolChange) :
    liveSymbols live (done ++ changes) = liveSymbols live done ++ liveSymbols live changes := by
  simp only [liveSymbols, List.filterMap_append, List.filter_append]

/-! ### What one pass counts -/

/-- The sets hold what has been counted as truth, and the totals are what has been counted. -/
structure Accounts (files symbols : List Text) (s : TruthOutcome) : Prop where
  fileSet : s.files = files.toFinset
  fileEligible : s.coverage.fileTruthEligible = files.length
  fileTotal : s.coverage.fileChangesTotal = s.coverage.fileTruthEligible + total s.coverage.fileTruthOmitted
  symbolSet : s.symbols = symbols.toFinset
  symbolEligible : s.coverage.symbolTruthEligible = symbols.length
  symbolTotal : s.coverage.symbolChangesTotal = s.coverage.symbolTruthEligible + total s.coverage.symbolTruthOmitted

variable {files symbols : List Text} {s t : TruthOutcome}

theorem toFinset_append_singleton (xs : List Text) (x : Text) : (xs ++ [x]).toFinset = insert x xs.toFinset := by
  ext y
  simp

variable {file : FileChange}

theorem accounts_countFile (accounts : Accounts files symbols s)
    (counted : countFile live s file = .ok t) : Accounts (files ++ liveFiles live [file]) symbols t := by
  unfold countFile at counted
  dsimp only at counted
  split at counted
  next path old =>
    obtain ⟨found, asked, counted⟩ := bind_eq_ok.mp counted
    cases found with
    | true =>
      obtain rfl := Except.ok.inj counted
      have single : liveFiles live [file] = [fileSelector path] := by
        simp [liveFiles, old, isLive, asked]
      rw [single]
      exact
        { accounts with
          fileSet := by rw [toFinset_append_singleton, accounts.fileSet]
          fileEligible := by rw [List.length_append, accounts.fileEligible]; rfl
          fileTotal := by
            have before := accounts.fileTotal
            dsimp only
            omega }
    | false =>
      obtain rfl := Except.ok.inj counted
      have none : liveFiles live [file] = [] := by
        simp [liveFiles, old, isLive, asked]
      rw [none, List.append_nil]
      exact
        { accounts with
          fileTotal := by
            have before := accounts.fileTotal
            dsimp only
            rw [total_increment]
            omega }
  next added =>
    obtain rfl := Except.ok.inj counted
    have none : liveFiles live [file] = [] := by
      simp [liveFiles, added]
    rw [none, List.append_nil]
    exact
      { accounts with
        fileTotal := by
          have before := accounts.fileTotal
          dsimp only
          rw [total_increment]
          omega }

theorem accounts_countSymbol {change : SymbolChange} (accounts : Accounts files symbols s)
    (counted : countSymbol live s change = .ok t) : Accounts files (symbols ++ liveSymbols live [change]) t := by
  unfold countSymbol at counted
  dsimp only at counted
  split at counted
  next before known =>
    obtain ⟨found, asked, counted⟩ := bind_eq_ok.mp counted
    cases found with
    | true =>
      obtain rfl := Except.ok.inj counted
      have single : liveSymbols live [change] = [symbolSelector before.symbol] := by
        simp [liveSymbols, known, isLive, asked]
      rw [single]
      exact
        { accounts with
          symbolSet := by rw [toFinset_append_singleton, accounts.symbolSet]
          symbolEligible := by rw [List.length_append, accounts.symbolEligible]; rfl
          symbolTotal := by
            have before := accounts.symbolTotal
            dsimp only
            omega }
    | false =>
      obtain rfl := Except.ok.inj counted
      have none : liveSymbols live [change] = [] := by
        simp [liveSymbols, known, isLive, asked]
      rw [none, List.append_nil]
      exact
        { accounts with
          symbolTotal := by
            have before := accounts.symbolTotal
            dsimp only
            rw [total_increment]
            omega }
  next added =>
    obtain rfl := Except.ok.inj counted
    have none : liveSymbols live [change] = [] := by
      simp [liveSymbols, added]
    rw [none, List.append_nil]
    exact
      { accounts with
        symbolTotal := by
          have before := accounts.symbolTotal
          dsimp only
          rw [total_increment]
          omega }

theorem accounts_countGap (accounts : Accounts files symbols s) (file : FileChange) :
    Accounts files symbols (countGap s file) := by
  unfold countGap
  split_ifs
  · exact
      { accounts with
        symbolTotal := by
          have before := accounts.symbolTotal
          dsimp only
          rw [total_increment]
          omega }
  · exact accounts

theorem accounts_countChange (accounts : Accounts files symbols s)
    (counted : countChange live s file = .ok t) :
    Accounts (files ++ liveFiles live [file]) (symbols ++ liveSymbols live file.symbols) t := by
  obtain ⟨u, first, rest⟩ := bind_eq_ok.mp counted
  have start := accounts_countGap (accounts_countFile accounts first) file
  have none : liveSymbols live [] = [] := rfl
  have initial : Accounts (files ++ liveFiles live [file]) (symbols ++ liveSymbols live []) (countGap u file) := by
    rw [none, List.append_nil]
    exact start
  have counted := foldlM_invariant (P := fun done s => Accounts (files ++ liveFiles live [file])
    (symbols ++ liveSymbols live done) s) (fun done s change t accounts step => by
      rw [liveSymbols_append, ← List.append_assoc]
      exact accounts_countSymbol accounts step) initial rest
  rwa [List.nil_append] at counted

/-- After all changes the accounts are those of the old paths and symbols that the target has. -/
theorem accounts_heldOutTruth {delivery : DeliveredChange} (counted : heldOutTruth live delivery = .ok t) :
    Accounts (liveFiles live delivery.files) (liveSymbols live (delivery.files.flatMap FileChange.symbols)) t := by
  have initial : Accounts (liveFiles live []) (liveSymbols live (([] : List FileChange).flatMap FileChange.symbols))
      TruthOutcome.empty := ⟨rfl, rfl, rfl, rfl, rfl, rfl⟩
  have accounts := foldlM_invariant (P := fun done s => Accounts (liveFiles live done)
    (liveSymbols live (done.flatMap FileChange.symbols)) s) (fun done s file t accounts step => by
      rw [liveFiles_append, List.flatMap_append, liveSymbols_append, List.flatMap_singleton]
      exact accounts_countChange accounts step) initial counted
  rwa [List.nil_append] at accounts

/-! ### When the accounts balance -/

/-- The counters of eligible truth are the sizes of the sets, and each total is eligible plus omitted. -/
structure Balanced (t : TruthOutcome) : Prop where
  files : t.coverage.fileTruthEligible = t.files.card
  symbols : t.coverage.symbolTruthEligible = t.symbols.card
  fileTotal : t.coverage.fileChangesTotal = t.coverage.fileTruthEligible + total t.coverage.fileTruthOmitted
  symbolTotal : t.coverage.symbolChangesTotal = t.coverage.symbolTruthEligible + total t.coverage.symbolTruthOmitted

theorem length_eq_card_iff (xs : List Text) : xs.length = xs.toFinset.card ↔ xs.Nodup := by
  rw [List.card_toFinset]
  constructor
  · intro same
    rw [← List.dedup_eq_self]
    exact (List.dedup_sublist xs).eq_of_length same.symm
  · intro nodup
    rw [nodup.dedup]

/-- The accounts of a held-out delivery balance exactly if the target has no old path of two changes and no symbol
before two changes. -/
theorem heldOutTruth_balanced_iff {delivery : DeliveredChange} (counted : heldOutTruth live delivery = .ok t) :
    Balanced t ↔
      (liveFiles live delivery.files).Nodup ∧ (liveSymbols live (delivery.files.flatMap FileChange.symbols)).Nodup := by
  have accounts := accounts_heldOutTruth counted
  rw [← length_eq_card_iff, ← length_eq_card_iff, ← accounts.fileSet, ← accounts.symbolSet, ← accounts.fileEligible,
    ← accounts.symbolEligible]
  exact ⟨fun balanced => ⟨balanced.files, balanced.symbols⟩,
    fun equal => ⟨equal.1, equal.2, accounts.fileTotal, accounts.symbolTotal⟩⟩

end OrbitGraph.Evaluation

namespace OrbitGraph.Evaluation.Sample

open History

def tree (selector : Lib.Text) : Except GraphError Bool := .ok (selector == fileSelector "a.rs")

def changed : FileChange := ⟨some "a.rs", some "a.rs", .modified, 1, 0, [], some .unsupportedLanguage, none⟩

def copied : FileChange := ⟨some "a.rs", some "b.rs", .copied, 0, 0, [], some .unsupportedLanguage, none⟩

def heldOut (files : List FileChange) : DeliveredChange where
  delivery :=
    { schemaVersion := 2, repository := "r", landingBranch := "main", beforeRevision := [],
      afterRevision := [], deliveryId := "d", evidence := .gitOnly, source := ⟨"git", none⟩,
      deliveredAt := ⟨.unavailable, none, ⟨"git", none⟩⟩, capturedAt := "unix:0", tasks := [] }
  files := files
  suppliedSnapshots := []

/-- One file is truth, and two are counted. -/
theorem copied_file_counted_twice :
    ∃ t, heldOutTruth tree (heldOut [changed, copied]) = .ok t ∧ t.coverage.fileTruthEligible = 2 ∧ t.files.card = 1 :=
  ⟨_, rfl, rfl, rfl⟩

theorem heldOutTruth_balanced_iff_changed :
    ∃ t, heldOutTruth tree (heldOut [changed]) = .ok t ∧
      (Balanced t ↔ (liveFiles tree (heldOut [changed]).files).Nodup ∧
        (liveSymbols tree ((heldOut [changed]).files.flatMap FileChange.symbols)).Nodup) :=
  ⟨_, rfl, heldOutTruth_balanced_iff rfl⟩

end OrbitGraph.Evaluation.Sample
