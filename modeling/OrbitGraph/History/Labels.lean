import OrbitGraph.History.Matching

/-!
What the label of a pair says of its two symbols.

A pair is labelled exact when its two symbols have one qualified name. The search that
found the pair is not asked: a name that is declared twice gets a candidate of its own
name when the other one is matched already, or when just one has its signature. Where a
search may come down to such a candidate, and where it surely does, is said of the symbols.
-/

namespace OrbitGraph.History

open Lib

def DeclaredOnce (symbols : List SymbolAttribution) (s : SymbolIdentity) : Prop :=
  (symbols.filter fun other => other.symbol.qualified = s.qualified ∧ other.symbol.kind = s.kind).length = 1

instance (symbols : List SymbolAttribution) (s : SymbolIdentity) : Decidable (DeclaredOnce symbols s) :=
  inferInstanceAs (Decidable (_ = _))

variable {symbols : List SymbolAttribution}

theorem DeclaredOnce.congr {s other : SymbolIdentity} (once : DeclaredOnce symbols s)
    (name : s.qualified = other.qualified) (kind : s.kind = other.kind) : DeclaredOnce symbols other := by
  unfold DeclaredOnce at *
  rw [← name, ← kind]
  exact once

theorem DeclaredOnce.eq_of_getElem? {s : SymbolIdentity} (once : DeclaredOnce symbols s)
    {i j : Nat} {c d : SymbolAttribution} (here : symbols[i]? = some c) (there : symbols[j]? = some d)
    (first : c.symbol.qualified = s.qualified ∧ c.symbol.kind = s.kind)
    (second : d.symbol.qualified = s.qualified ∧ d.symbol.kind = s.kind) : j = i := by
  unfold DeclaredOnce at once
  rw [← List.zipIdx_map_fst 0 symbols, List.filter_map, List.length_map] at once
  obtain ⟨only, all⟩ := List.length_eq_one_iff.mp once
  have one : (c, i) ∈ [only] := by
    rw [← all, List.mem_filter, List.mem_zipIdx_iff_getElem?]
    exact ⟨here, decide_eq_true first⟩
  have two : (d, j) ∈ [only] := by
    rw [← all, List.mem_filter, List.mem_zipIdx_iff_getElem?]
    exact ⟨there, decide_eq_true second⟩
  have same := (List.mem_singleton.mp two).trans (List.mem_singleton.mp one).symm
  exact (Prod.mk.inj same).2

namespace Pairing

variable {before after : SideAttribution} {p : Pairing} {old new : SymbolAttribution}

def NameDecides (before after : SideAttribution) (candidates : List SymbolAttribution) (excluded : List Nat)
    (s : SymbolIdentity) : Prop :=
  ∀ i ∈ similarCandidate candidates excluded s, ∀ partner ∈ candidates[i]?, partner.symbol.qualified = s.qualified →
    DeclaredOnce before.allSymbols s ∧ DeclaredOnce after.allSymbols s

variable {candidates : List SymbolAttribution} {partner : SymbolAttribution} {excluded : List Nat}

theorem similarCandidate_kind {s : SymbolIdentity} {i : Nat}
    (similar : similarCandidate candidates excluded s = some i)
    (at_ : candidates[i]? = some partner) : partner.symbol.kind = s.kind := by
  obtain ⟨predicate, c, candidate, how⟩ := similarCandidate_eq_some similar
  obtain rfl : c = partner := Option.mem_unique candidate.at_ at_
  have fits := candidate.fits
  rcases how with rfl | ⟨rfl, -⟩
  · simp only [SymbolIdentity.agrees, decide_eq_true_eq] at fits
    exact fits.2.1
  · simp only [SymbolIdentity.resembles, decide_eq_true_eq] at fits
    exact fits.1

theorem exactCandidate_of_declaredOnce {s : SymbolIdentity}
    {i : Nat} (similar : similarCandidate candidates excluded s = some i)
    (at_ : candidates[i]? = some partner) (name : partner.symbol.qualified = s.qualified)
    (once : DeclaredOnce candidates s) : exactCandidate candidates excluded s = some i := by
  have kind := similarCandidate_kind similar at_
  obtain ⟨predicate, c, candidate, how⟩ := similarCandidate_eq_some similar
  obtain rfl : c = partner := Option.mem_unique candidate.at_ at_
  rcases how with rfl | ⟨rfl, -⟩
  · exact candidate.eq_some
  · have fits := candidate.fits
    simp only [SymbolIdentity.resembles, decide_eq_true_eq] at fits
    refine (?_ : Candidate candidates excluded _ i c).eq_some
    refine ⟨at_, candidate.free, ?_, fun j other there _ agrees => ?_⟩
    · simp only [SymbolIdentity.agrees, decide_eq_true_eq]
      exact ⟨name, kind, .inr fits.2.2⟩
    · simp only [SymbolIdentity.agrees, decide_eq_true_eq] at agrees
      exact once.eq_of_getElem? at_ there ⟨name, kind⟩ ⟨agrees.1, agrees.2.1⟩

/-- A change labelled exact is of two symbols of one name and kind, which each side declares once. -/
def ExactlySo (before after : SideAttribution) (change : SymbolChange) : Prop :=
  change.matchConfidence = .exact → ∃ old new, change.before = some old ∧ change.after = some new ∧
    old.symbol.qualified = new.symbol.qualified ∧ old.symbol.kind = new.symbol.kind ∧
    DeclaredOnce before.allSymbols old.symbol ∧ DeclaredOnce after.allSymbols new.symbol

theorem paired_exact_iff {exactly : Bool} :
    (paired old new exactly).matchConfidence = .exact ↔ new.symbol.qualified = old.symbol.qualified := by
  show confidence old new = .exact ↔ _
  unfold confidence
  split
  next same => simp [same]
  next apart => simp [apart]

theorem unpaired_not_exact (ambiguous : Bool) (side : Text) (old new : Option SymbolAttribution) (live : Bool) :
    (unpaired ambiguous side old new live).matchConfidence ≠ .exact := by
  cases ambiguous <;> exact nofun

theorem exactlySo_paired_iff {exactly : Bool} (kind : old.symbol.kind = new.symbol.kind) :
    ExactlySo before after (paired old new exactly) ↔ (new.symbol.qualified = old.symbol.qualified →
        DeclaredOnce before.allSymbols old.symbol ∧ DeclaredOnce after.allSymbols new.symbol) := by
  unfold ExactlySo
  rw [paired_exact_iff]
  constructor
  · intro so name
    obtain ⟨a, b, first, second, -, -, once⟩ := so name
    obtain rfl := Option.some.inj first
    obtain rfl := Option.some.inj second
    exact once
  · intro once name
    exact ⟨old, new, rfl, rfl, name.symm, kind, once name⟩

/-- What is known of the one change a step adds: whether it is labelled rightly. -/
theorem pairBefore_label (before after : SideAttribution) (p : Pairing) (old : SymbolAttribution) :
    ∃ change, (pairBefore before after p old).changes = p.changes ++ [change] ∧
      (ExactlySo before after change ↔ NameDecides before after after.allSymbols p.matchedAfter old.symbol) := by
  rcases pairBefore_cases before after p old with ⟨i, partner, similar, at_⟩ | ⟨missing, ambiguous, eq⟩
  · refine ⟨_, congrArg Pairing.changes (pairBefore_paired similar at_), ?_⟩
    have own := partnerOf_symbol p partner
    have kind := similarCandidate_kind similar at_
    rw [exactlySo_paired_iff (kind.symm.trans (congrArg SymbolIdentity.kind own).symm), own]
    constructor
    · intro so j there other at_' name
      obtain rfl := Option.mem_unique there similar
      obtain rfl := Option.mem_unique at_' at_
      exact ⟨(so name).1, (so name).2.congr name kind⟩
    · intro decides name
      have once := decides i similar partner at_ name
      exact ⟨once.1, once.2.congr name.symm kind.symm⟩
  · refine ⟨_, congrArg Pairing.changes eq, iff_of_true (fun label => absurd label (unpaired_not_exact _ _ _ _ _)) ?_⟩
    intro i similar
    rw [missing] at similar
    cases similar

theorem pairAfter_label (before after : SideAttribution) (p : Pairing) (new : SymbolAttribution) :
    ∃ change, (pairAfter before p new).changes = p.changes ++ [change] ∧
      (ExactlySo before after change ↔ NameDecides before after before.allSymbols p.matchedBefore new.symbol) := by
  rcases pairAfter_cases before p new with ⟨i, partner, similar, at_⟩ | ⟨missing, ambiguous, eq⟩
  · refine ⟨_, congrArg Pairing.changes (pairAfter_paired similar at_), ?_⟩
    have kind := similarCandidate_kind similar at_
    rw [exactlySo_paired_iff kind]
    constructor
    · intro so j there other at_' name
      obtain rfl := Option.mem_unique there similar
      obtain rfl := Option.mem_unique at_' at_
      exact ⟨(so name.symm).1.congr name kind, (so name.symm).2⟩
    · intro decides name
      have once := decides i similar partner at_ name.symm
      exact ⟨once.1.congr name kind.symm, once.2⟩
  · refine ⟨_, congrArg Pairing.changes eq, iff_of_true (fun label => absurd label (unpaired_not_exact _ _ _ _ _)) ?_⟩
    intro i similar
    rw [missing] at similar
    cases similar

variable {f : Pairing → SymbolAttribution → Pairing} {C : Pairing → SymbolAttribution → Prop}

/-- The changes a round adds are all so if, and only if, the condition of its steps is met along it. -/
theorem forall_changes_foldl
    {good : SymbolChange → Prop}
    (step : ∀ p s, ∃ change, (f p s).changes = p.changes ++ [change] ∧ (good change ↔ C p s))
    (symbols : List SymbolAttribution) (p : Pairing) :
    (∀ change ∈ (symbols.foldl f p).changes, good change) ↔ (∀ change ∈ p.changes, good change) ∧ Along f C p symbols := by
  induction symbols generalizing p with
  | nil => exact (and_iff_left trivial).symm
  | cons s rest ih =>
    obtain ⟨change, grown, meets⟩ := step p s
    rw [List.foldl_cons, ih (f p s), grown]
    simp only [List.mem_append, List.mem_singleton, or_imp, forall_and, forall_eq, meets, Along]
    exact and_assoc

/-- The change a step adds is not labelled exact if its pair was not found by name. -/
def SimilarNotExact (f : Pairing → SymbolAttribution → Pairing) (exactly : Pairing → SymbolAttribution → Option Nat)
    (p : Pairing) (s : SymbolAttribution) : Prop :=
  exactly p s = none → ∀ change, (f p s).changes = p.changes ++ [change] → change.matchConfidence ≠ .exact

/-- What the labels promise. -/
structure LabelsSound (before after : SideAttribution) : Prop where
  exactly : ∀ change ∈ pairSymbols before after, ExactlySo before after change
  firstRound : Along (pairBefore before after)
    (SimilarNotExact (pairBefore before after) fun p old => exactCandidate after.allSymbols p.matchedAfter old.symbol)
    (start after) before.changedSymbols
  secondRound : Along (pairAfter before)
    (SimilarNotExact (pairAfter before) fun p new => exactCandidate before.allSymbols p.matchedBefore new.symbol)
    (halfway before after) (left before after)

/-- The search finds a symbol of the name it looks for only where each side declares that name once. -/
def NamesDecide (before after : SideAttribution) : Prop :=
  Along (pairBefore before after)
    (fun p old => NameDecides before after after.allSymbols p.matchedAfter old.symbol) (start after) before.changedSymbols ∧
  Along (pairAfter before)
    (fun p new => NameDecides before after before.allSymbols p.matchedBefore new.symbol)
    (halfway before after) (left before after)

theorem pairBefore_similarNotExact (decides : NameDecides before after after.allSymbols p.matchedAfter old.symbol) :
    SimilarNotExact (pairBefore before after) (fun p old => exactCandidate after.allSymbols p.matchedAfter old.symbol)
      p old := by
  intro bySignature change grown label
  rcases pairBefore_cases before after p old with ⟨i, partner, similar, at_⟩ | ⟨missing, ambiguous, eq⟩
  · rw [pairBefore_paired similar at_] at grown
    obtain rfl := List.singleton_inj.mp (List.append_cancel_left grown)
    have name := paired_exact_iff.mp label
    rw [partnerOf_symbol] at name
    have found := exactCandidate_of_declaredOnce similar at_ name (decides i similar partner at_ name).2
    exact Option.some_ne_none i (found.symm.trans bySignature)
  · rw [eq] at grown
    obtain rfl := List.singleton_inj.mp (List.append_cancel_left grown)
    exact unpaired_not_exact _ _ _ _ _ label

theorem pairAfter_similarNotExact (decides : NameDecides before after before.allSymbols p.matchedBefore new.symbol) :
    SimilarNotExact (pairAfter before) (fun p new => exactCandidate before.allSymbols p.matchedBefore new.symbol)
      p new := by
  intro bySignature change grown label
  rcases pairAfter_cases before p new with ⟨i, partner, similar, at_⟩ | ⟨missing, ambiguous, eq⟩
  · rw [pairAfter_paired similar at_] at grown
    obtain rfl := List.singleton_inj.mp (List.append_cancel_left grown)
    have name := (paired_exact_iff.mp label).symm
    have found := exactCandidate_of_declaredOnce similar at_ name (decides i similar partner at_ name).1
    exact Option.some_ne_none i (found.symm.trans bySignature)
  · rw [eq] at grown
    obtain rfl := List.singleton_inj.mp (List.append_cancel_left grown)
    exact unpaired_not_exact _ _ _ _ _ label

theorem labelsSound_iff_namesDecide (before after : SideAttribution) :
    LabelsSound before after ↔ NamesDecide before after := by
  have second := forall_changes_foldl (pairAfter_label before after) (left before after) (halfway before after)
  have first := forall_changes_foldl (pairBefore_label before after) before.changedSymbols (start after)
  have both : (∀ change ∈ pairSymbols before after, ExactlySo before after change) ↔ NamesDecide before after := by
    refine second.trans (and_congr (first.trans (and_iff_right ?_)) Iff.rfl)
    intro change mem
    exact absurd mem List.not_mem_nil
  refine ⟨fun sound => both.mp sound.exactly, fun decide => ⟨both.mpr decide, ?_, ?_⟩⟩
  · exact decide.1.imp fun _ _ here => pairBefore_similarNotExact here
  · exact decide.2.imp fun _ _ here => pairAfter_similarNotExact here

/-! ### Which labels are wrong -/

/-- Where a search fits a symbol of the name that it looks for, each side declares the name once, or the search does not
come down to that symbol. -/
def NameSettled (before after : SideAttribution) (candidates : List SymbolAttribution) (matched : List Nat)
    (s : SymbolIdentity) : Prop :=
  ∀ search ∈ s.searches, ∀ i ∈ fitting candidates search, i ∈ fitting candidates (fun t => t.qualified = s.qualified) →
    (DeclaredOnce before.allSymbols s ∧ DeclaredOnce after.allSymbols s) ∨ Undecided candidates matched search i

def NamesSettled (before after : SideAttribution) : Prop :=
  (∀ entry ∈ before.changedSymbols.zipIdx, NameSettled before after after.allSymbols
    (reach after.allSymbols [] (before.changedSymbols.take entry.2)) entry.1.symbol) ∧
  ∀ new ∈ after.changedSymbols, NameSettled before after before.allSymbols (reached before after new) new.symbol

/-- The first search of an old symbol is sure to find one of its name, and a side declares the name more than once. -/
def Mislabelled (before after : SideAttribution) : Prop :=
  ∃ entry ∈ before.changedSymbols.zipIdx, ∃ i ∈ fitting after.allSymbols entry.1.symbol.agrees,
    fitting after.allSymbols entry.1.symbol.agrees = [i] ∧
    i ∉ reach after.allSymbols [] (before.changedSymbols.take entry.2) ∧
    ¬ (DeclaredOnce before.allSymbols entry.1.symbol ∧ DeclaredOnce after.allSymbols entry.1.symbol)

instance (before after : SideAttribution) (candidates : List SymbolAttribution) (matched : List Nat) (s : SymbolIdentity) :
    Decidable (NameSettled before after candidates matched s) := by
  unfold NameSettled
  infer_instance

instance (before after : SideAttribution) : Decidable (NamesSettled before after) := by
  unfold NamesSettled
  infer_instance

instance (before after : SideAttribution) : Decidable (Mislabelled before after) := by
  unfold Mislabelled
  infer_instance

theorem NameSettled.decides {matched : List Nat} {s : SymbolIdentity}
    (settled : NameSettled before after candidates matched s) (sub : excluded ⊆ matched) :
    NameDecides before after candidates excluded s := by
  intro i similar partner at_ name
  obtain ⟨search, c, candidate, how⟩ := similarCandidate_eq_some similar
  obtain rfl : c = partner := Option.mem_unique candidate.at_ at_
  have fits := mem_fitting.mpr ⟨c, at_, candidate.fits⟩
  have named : i ∈ fitting candidates fun t => t.qualified = s.qualified := mem_fitting.mpr ⟨c, at_, decide_eq_true name⟩
  exact (settled search (mem_searches how) i fits named).resolve_right fun undecided => undecided.not_candidate sub candidate

/-- A fold meets a condition that is met wherever the list is split. -/
theorem along_of_split
    {p : Pairing} {symbols : List SymbolAttribution}
    (meets : ∀ earlier s later, symbols = earlier ++ s :: later → C (earlier.foldl f p) s) : Along f C p symbols := by
  by_contra fails
  obtain ⟨earlier, s, later, split, not⟩ := Along.exists_of_not fails
  exact not (meets earlier s later split)

theorem namesDecide_of_namesSettled (settled : NamesSettled before after) : NamesDecide before after := by
  refine ⟨along_of_split fun earlier old later split => ?_, along_of_split fun earlier new later split => ?_⟩
  · have entry : (old, earlier.length) ∈ before.changedSymbols.zipIdx :=
      List.mem_zipIdx_iff_getElem?.mpr (by rw [split]; simp)
    have here := settled.1 (old, earlier.length) entry
    rw [split, List.take_left] at here
    exact here.decides (firstRound_foldl before after earlier).2.reached
  · have changed : new ∈ after.changedSymbols := (left_sublist before after).subset (by rw [split]; simp)
    exact (settled.2 new changed).decides (matchedBefore_subset_reached split)

theorem not_namesDecide_of_mislabelled (wrong : Mislabelled before after) : ¬ NamesDecide before after := by
  rintro ⟨decide, -⟩
  obtain ⟨⟨old, k⟩, entry, i, -, only, free, unsure⟩ := wrong
  have found : before.changedSymbols[k]? = some old := List.mem_zipIdx_iff_getElem?.mp entry
  obtain ⟨inside, here⟩ := List.getElem?_eq_some_iff.mp found
  have split : before.changedSymbols = before.changedSymbols.take k ++ old :: before.changedSymbols.drop (k + 1) := by
    rw [← here, List.getElem_cons_drop, List.take_append_drop]
  rw [split] at decide
  obtain ⟨-, decides, -⟩ := Along.append.mp decide
  have searched := (firstRound_foldl before after (before.changedSymbols.take k)).2
  obtain ⟨c, candidate⟩ := candidate_of_fitting only fun taken => free (searched.reached taken)
  have name := candidate.fits
  simp only [SymbolIdentity.agrees, decide_eq_true_eq] at name
  exact unsure (decides i (Option.or_eq_some_iff.mpr (.inl candidate.eq_some)) c candidate.at_ name.1)

end Pairing

namespace Sample

def platforms : SideAttribution :=
  { single with allSymbols := [⟨function .before 'b' 0 'x', []⟩, ⟨function .before 'b' 9 'y', []⟩] }

def united : SideAttribution where
  changedSymbols := [⟨function .after 'a' 0 'z', [1]⟩]
  allSymbols := [⟨function .after 'a' 0 'z', []⟩]
  fallback := none
  distinct := by decide

end Sample

end OrbitGraph.History
