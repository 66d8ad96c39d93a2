import Mathlib.Data.List.ReduceOption
import OrbitGraph.History.Candidates

/-!
Which symbols `pair_symbols` reports, and how often.

The first round reports every changed symbol of the old side, and takes from the new side
what it pairs; a candidate is one only if no other symbol is the same, so no two partners
are. The second round reports what is left of the new side. It can pair it with an old
symbol that the first round has reported without a partner. Whether it does depends on
what the searches before have found; what a search may find, and what it surely does, can
be said of the symbols alone.
-/

namespace OrbitGraph.History

open Lib

theorem takeChangedAttribution_cases (candidates : List (Option SymbolAttribution)) (identity : SymbolIdentity) :
    (∃ taken left, takeChangedAttribution candidates identity = (some taken, left) ∧ taken.symbol = identity ∧
      candidates.reduceOption.Perm (taken :: left.reduceOption)) ∨
    (takeChangedAttribution candidates identity = (none, candidates) ∧
      identity ∉ candidates.reduceOption.map SymbolAttribution.symbol) := by
  unfold takeChangedAttribution
  split
  next i found =>
    obtain ⟨inside, fits, -⟩ := List.findIdx?_eq_some_iff_getElem.mp found
    obtain ⟨taken, at_, same⟩ := (Option.any_eq_true _ _).mp fits
    have cut : candidates = candidates.take i ++ some taken :: candidates.drop (i + 1) := by
      rw [← at_, List.getElem_cons_drop, List.take_append_drop]
    have rest : candidates.set i none = candidates.take i ++ none :: candidates.drop (i + 1) :=
      List.set_eq_take_append_cons_drop.trans (if_pos inside)
    refine .inl ⟨taken, candidates.set i none, ?_, of_decide_eq_true same, ?_⟩
    · rw [List.getElem?_eq_getElem inside, at_]
      rfl
    · rw [rest, List.reduceOption_append, List.reduceOption_cons_of_none]
      conv_lhs => rw [cut, List.reduceOption_append, List.reduceOption_cons_of_some]
      exact List.perm_middle
  next nowhere =>
    refine .inr ⟨rfl, fun mem => ?_⟩
    obtain ⟨item, here, same⟩ := List.mem_map.mp mem
    have never := List.findIdx?_eq_none_iff.mp nowhere (some item) (List.reduceOption_mem_iff.mp here)
    simp [same] at never

theorem takeChangedAttribution_sublist (candidates : List (Option SymbolAttribution)) (identity : SymbolIdentity) :
    (takeChangedAttribution candidates identity).2.reduceOption.Sublist candidates.reduceOption := by
  unfold takeChangedAttribution
  split
  next i found =>
    obtain ⟨inside, -, -⟩ := List.findIdx?_eq_some_iff_getElem.mp found
    have cut : candidates = candidates.take i ++ candidates[i] :: candidates.drop (i + 1) := by
      rw [List.getElem_cons_drop, List.take_append_drop]
    rw [List.set_eq_take_append_cons_drop.trans (if_pos inside), List.reduceOption_append, List.reduceOption_cons_of_none]
    conv_rhs => rw [cut, List.reduceOption_append]
    refine List.Sublist.append (List.Sublist.refl _) ?_
    cases candidates[i] with
    | none => rw [List.reduceOption_cons_of_none]
    | some taken =>
      rw [List.reduceOption_cons_of_some]
      exact List.sublist_cons_self _ _
  next => exact List.Sublist.refl _

/-! ### One step of each round -/

def oldSymbols (changes : List SymbolChange) : List SymbolIdentity :=
  changes.filterMap fun change => change.before.map SymbolAttribution.symbol

def newSymbols (changes : List SymbolChange) : List SymbolIdentity :=
  changes.filterMap fun change => change.after.map SymbolAttribution.symbol

@[simp] theorem oldSymbols_concat (changes : List SymbolChange) (change : SymbolChange) :
    oldSymbols (changes ++ [change]) = oldSymbols changes ++ (change.before.map SymbolAttribution.symbol).toList := by
  simp only [oldSymbols, List.filterMap_append, List.filterMap_cons, List.filterMap_nil]
  cases change.before <;> rfl

@[simp] theorem newSymbols_concat (changes : List SymbolChange) (change : SymbolChange) :
    newSymbols (changes ++ [change]) = newSymbols changes ++ (change.after.map SymbolAttribution.symbol).toList := by
  simp only [newSymbols, List.filterMap_append, List.filterMap_cons, List.filterMap_nil]
  cases change.after <;> rfl

namespace Pairing

variable {before after : SideAttribution} {p : Pairing} {old new : SymbolAttribution}

@[simp] theorem paired_before (old new : SymbolAttribution) (exactly : Bool) :
    (paired old new exactly).before = some old := rfl

@[simp] theorem unpaired_before (ambiguous : Bool) (side : Text) (old new : Option SymbolAttribution) (live : Bool) :
    (unpaired ambiguous side old new live).before = old := rfl

@[simp] theorem unpaired_after (ambiguous : Bool) (side : Text) (old new : Option SymbolAttribution) (live : Bool) :
    (unpaired ambiguous side old new live).after = new := rfl

variable {excluded : List Nat}

variable {candidates : List SymbolAttribution}

private theorem partner_eq_some {s : SymbolIdentity} {i : Nat} {partner : SymbolAttribution}
    (found : ((similarCandidate candidates excluded s).bind fun i => candidates[i]?.map fun partner => (i, partner)) =
      some (i, partner)) : similarCandidate candidates excluded s = some i ∧ candidates[i]? = some partner := by
  obtain ⟨j, at_, same⟩ := Option.bind_eq_some_iff.mp found
  obtain ⟨c, here, pair⟩ := Option.map_eq_some_iff.mp same
  obtain ⟨rfl, rfl⟩ := Prod.mk.inj pair
  exact ⟨at_, here⟩

private theorem partner_eq_none {s : SymbolIdentity}
    (missing : ((similarCandidate candidates excluded s).bind fun i => candidates[i]?.map fun partner => (i, partner)) =
      none) : similarCandidate candidates excluded s = none := by
  cases similar : similarCandidate candidates excluded s with
  | none => rfl
  | some i =>
    obtain ⟨_, c, candidate, -⟩ := similarCandidate_eq_some similar
    rw [similar, Option.bind_some, candidate.at_] at missing
    cases missing

/-- The new symbol of a pair of the first round: with its changed lines, if they are not taken. -/
def partnerOf (p : Pairing) (partner : SymbolAttribution) : SymbolAttribution :=
  (takeChangedAttribution p.afterChanged partner.symbol).1.getD partner

theorem partnerOf_symbol (p : Pairing) (partner : SymbolAttribution) : (partnerOf p partner).symbol = partner.symbol := by
  unfold partnerOf
  rcases takeChangedAttribution_cases p.afterChanged partner.symbol with ⟨taken, left, found, own, -⟩ | ⟨missing, -⟩
  · rw [found]
    exact own
  · rw [missing]
    rfl

theorem pairBefore_paired {i : Nat} {partner : SymbolAttribution}
    (similar : similarCandidate after.allSymbols p.matchedAfter old.symbol = some i)
    (at_ : after.allSymbols[i]? = some partner) : pairBefore before after p old =
      { afterChanged := (takeChangedAttribution p.afterChanged partner.symbol).2
        matchedBefore := (identityIndex before.allSymbols old.symbol).toList ++ p.matchedBefore
        matchedAfter := i :: p.matchedAfter
        changes := p.changes ++
          [paired old (partnerOf p partner) (confidence old (partnerOf p partner) = .exact)] } := by
  unfold pairBefore
  rw [similar, Option.bind_some, at_]
  rfl

/-- … or reports it without a partner. -/
theorem pairBefore_cases (before after : SideAttribution) (p : Pairing) (old : SymbolAttribution) :
    (∃ i partner, similarCandidate after.allSymbols p.matchedAfter old.symbol = some i ∧
      after.allSymbols[i]? = some partner) ∨
      similarCandidate after.allSymbols p.matchedAfter old.symbol = none ∧ ∃ ambiguous, pairBefore before after p old =
        { p with changes := p.changes ++ [unpaired ambiguous "after" (some old) none false] } := by
  unfold pairBefore
  split
  next i partner found => exact .inl ⟨i, partner, partner_eq_some found⟩
  next missing => exact .inr ⟨partner_eq_none missing, _, rfl⟩

theorem pairAfter_paired {i : Nat} {partner : SymbolAttribution}
    (similar : similarCandidate before.allSymbols p.matchedBefore new.symbol = some i)
    (at_ : before.allSymbols[i]? = some partner) : pairAfter before p new = { p with
        matchedBefore := i :: p.matchedBefore
        changes := p.changes ++
          [paired partner new (exactCandidate before.allSymbols p.matchedBefore new.symbol).isSome] } := by
  unfold pairAfter
  rw [similar, Option.bind_some, at_]
  rfl

/-- … or reports it without a partner. -/
theorem pairAfter_cases (before : SideAttribution) (p : Pairing) (new : SymbolAttribution) :
    (∃ i partner, similarCandidate before.allSymbols p.matchedBefore new.symbol = some i ∧
      before.allSymbols[i]? = some partner) ∨
      similarCandidate before.allSymbols p.matchedBefore new.symbol = none ∧ ∃ ambiguous, pairAfter before p new =
        { p with changes := p.changes ++ [unpaired ambiguous "before" none (some new) true] } := by
  unfold pairAfter
  split
  next i partner found => exact .inl ⟨i, partner, partner_eq_some found⟩
  next missing => exact .inr ⟨partner_eq_none missing, _, rfl⟩

theorem similarCandidate_alone {s : SymbolIdentity} {i : Nat}
    {partner : SymbolAttribution} (similar : similarCandidate candidates excluded s = some i)
    (at_ : candidates[i]? = some partner) :
    i ∉ excluded ∧ ∀ j other, candidates[j]? = some other → other.symbol = partner.symbol → j ∉ excluded → j = i := by
  obtain ⟨predicate, c, candidate, -⟩ := similarCandidate_eq_some similar
  obtain rfl : c = partner := Option.mem_unique candidate.at_ at_
  refine ⟨candidate.free, fun j other there same free => candidate.alone j other there free ?_⟩
  rw [same]
  exact candidate.fits

def Sole (candidates : List SymbolAttribution) (i : Nat) (s : SymbolIdentity) : Prop :=
  ∃ c, candidates[i]? = some c ∧ c.symbol = s ∧ ∀ j other, candidates[j]? = some other → other.symbol = s → j = i

/-! ### The first round -/

structure FirstRound (before after : SideAttribution) (done : List SymbolAttribution) (p : Pairing) : Prop where
  olds : p.changes.map SymbolChange.before = done.map some
  news : (newSymbols p.changes ++ p.afterChanged.reduceOption.map SymbolAttribution.symbol).Nodup
  kept : ∀ new ∈ after.changedSymbols, new ∈ p.afterChanged.reduceOption ∨ ∃ change ∈ p.changes, change.after = some new
  taken : ∀ i ∈ p.matchedAfter, ∃ s ∈ newSymbols p.changes, Sole after.allSymbols i s
  partners : ∀ s ∈ newSymbols p.changes, ∃ i ∈ p.matchedAfter, Sole after.allSymbols i s

theorem firstRound_start (before after : SideAttribution) : FirstRound before after [] (start after) := by
  have all : (start after).afterChanged.reduceOption = after.changedSymbols := by
    simp [start, List.reduceOption]
  refine ⟨rfl, ?_, ?_, by simp [start], by simp [start, newSymbols]⟩
  · rw [all]
    exact after.distinct
  · intro new mem
    rw [all]
    exact .inl mem

variable {done : List SymbolAttribution}

/-- A candidate that is found has its symbol to itself, and no change reports it yet. -/
theorem FirstRound.sole (round : FirstRound before after done p) {i : Nat}
    {partner : SymbolAttribution} (similar : similarCandidate after.allSymbols p.matchedAfter old.symbol = some i)
    (at_ : after.allSymbols[i]? = some partner) :
    Sole after.allSymbols i partner.symbol ∧ partner.symbol ∉ newSymbols p.changes := by
  obtain ⟨free, alone⟩ := similarCandidate_alone similar at_
  constructor
  · refine ⟨partner, at_, rfl, fun j other there same => ?_⟩
    by_cases excluded : j ∈ p.matchedAfter
    · obtain ⟨s, -, c, here, own, only⟩ := round.taken j excluded
      obtain rfl : c = other := Option.mem_unique here there
      exact (only i partner at_ (same.symm.trans own)).symm
    · exact alone j other there same excluded
  · intro mem
    obtain ⟨j, taken, c, here, own, only⟩ := round.partners _ mem
    obtain rfl := only i partner at_ rfl
    exact free taken

theorem FirstRound.step (round : FirstRound before after done p) (old : SymbolAttribution) :
    FirstRound before after (done ++ [old]) (pairBefore before after p old) := by
  rcases pairBefore_cases before after p old with ⟨i, partner, similar, at_⟩ | ⟨-, ambiguous, eq⟩
  · obtain ⟨sole, fresh⟩ := round.sole similar at_
    have olds : ∀ new exactly, (p.changes ++ [paired old new exactly]).map SymbolChange.before =
        (done ++ [old]).map some := by
      intro new exactly
      rw [List.map_append, List.map_append, round.olds, List.map_singleton, List.map_singleton, paired_before]
    have partners : ∀ s ∈ newSymbols p.changes ++ [partner.symbol], ∃ j ∈ i :: p.matchedAfter,
        Sole after.allSymbols j s := by
      intro s mem
      rcases List.mem_append.mp mem with earlier | here
      · obtain ⟨j, taken, only⟩ := round.partners s earlier
        exact ⟨j, List.mem_cons_of_mem _ taken, only⟩
      · obtain rfl := List.mem_singleton.mp here
        exact ⟨i, List.mem_cons_self, sole⟩
    have taken : ∀ j ∈ i :: p.matchedAfter, ∃ s ∈ newSymbols p.changes ++ [partner.symbol], Sole after.allSymbols j s := by
      intro j mem
      rcases List.mem_cons.mp mem with rfl | earlier
      · exact ⟨_, List.mem_append_right _ (List.mem_singleton_self _), sole⟩
      · obtain ⟨s, reported, only⟩ := round.taken j earlier
        exact ⟨s, List.mem_append_left _ reported, only⟩
    rw [pairBefore_paired similar at_]
    unfold partnerOf
    rcases takeChangedAttribution_cases p.afterChanged partner.symbol with
      ⟨new, left, found, own, split⟩ | ⟨missing, absent⟩
    -- The partner has changed lines: it is moved from what is left to what is reported.
    · rw [found]
      refine ⟨olds new _, ?_, ?_, ?_, ?_⟩
      · have moved : (newSymbols p.changes ++ p.afterChanged.reduceOption.map SymbolAttribution.symbol).Perm
            ((newSymbols p.changes ++ [new.symbol]) ++ left.reduceOption.map SymbolAttribution.symbol) := by
          rw [List.append_assoc]
          exact (split.map SymbolAttribution.symbol).append_left _
        rw [newSymbols_concat]
        exact moved.nodup_iff.mp round.news
      · intro other mem
        rcases round.kept other mem with kept | ⟨change, earlier, reported⟩
        · rcases List.mem_cons.mp (split.mem_iff.mp kept) with rfl | still
          · exact .inr ⟨_, List.mem_append_right _ (List.mem_singleton_self _), rfl⟩
          · exact .inl still
        · exact .inr ⟨change, List.mem_append_left _ earlier, reported⟩
      · rw [newSymbols_concat]
        rw [← own] at taken
        exact taken
      · rw [newSymbols_concat]
        rw [← own] at partners
        exact partners
    · rw [missing]
      refine ⟨olds partner _, ?_, ?_, ?_, ?_⟩
      · have apart : partner.symbol ∉ newSymbols p.changes ++
            p.afterChanged.reduceOption.map SymbolAttribution.symbol := by
          simp only [List.mem_append, fresh, absent, or_self, not_false_eq_true]
        rw [newSymbols_concat, List.append_assoc]
        exact List.nodup_middle.mpr (List.nodup_cons.mpr ⟨apart, round.news⟩)
      · intro other mem
        rcases round.kept other mem with kept | ⟨change, earlier, reported⟩
        · exact .inl kept
        · exact .inr ⟨change, List.mem_append_left _ earlier, reported⟩
      · rw [newSymbols_concat]
        exact taken
      · rw [newSymbols_concat]
        exact partners
  · have none : newSymbols (p.changes ++ [unpaired ambiguous "after" (some old) Option.none false]) =
        newSymbols p.changes := by
      rw [newSymbols_concat, unpaired_after, Option.map_none, Option.toList_none, List.append_nil]
    rw [eq]
    refine ⟨?_, ?_, ?_, ?_, ?_⟩
    · simp only [List.map_append, List.map_cons, List.map_nil, unpaired_before, round.olds]
    · rw [none]
      exact round.news
    · intro other mem
      rcases round.kept other mem with kept | ⟨change, earlier, reported⟩
      · exact .inl kept
      · exact .inr ⟨change, List.mem_append_left _ earlier, reported⟩
    · rw [none]
      exact round.taken
    · rw [none]
      exact round.partners

/-- What the first round knows of the searches that it has made. -/
structure Searched (before after : SideAttribution) (done : List SymbolAttribution) (p : Pairing) : Prop where
  reached : p.matchedAfter ⊆ reach after.allSymbols [] done
  matched : ∀ i ∈ p.matchedBefore, ∃ k old, done[k]? = some old ∧ identityIndex before.allSymbols old.symbol = some i ∧
    ¬ Hopeless after.allSymbols (reach after.allSymbols [] (done.take k)) old.symbol
  settled : ∀ k old, done[k]? = some old → ∀ search ∈ old.symbol.searches, ∀ i, fitting after.allSymbols search = [i] →
    i ∉ reach after.allSymbols [] (done.take k) ∨ i ∉ p.matchedAfter →
      ∀ j, identityIndex before.allSymbols old.symbol = some j → j ∈ p.matchedBefore

theorem getElem?_concat {k : Nat} {old : SymbolAttribution} (found : (done ++ [new])[k]? = some old) :
    (done[k]? = some old ∧ (done ++ [new]).take k = done.take k) ∨
      (old = new ∧ (done ++ [new]).take k = done) := by
  rcases Nat.lt_or_ge k done.length with inside | outside
  · rw [List.getElem?_append_left inside] at found
    exact .inl ⟨found, List.take_append_of_le_length inside.le⟩
  · rw [List.getElem?_append_right outside] at found
    obtain ⟨last, same⟩ := List.getElem?_eq_some_iff.mp found
    obtain rfl : k = done.length := by simp only [List.length_singleton] at last; omega
    refine .inr ⟨?_, List.take_left⟩
    rw [← same]
    simp

theorem Searched.step (searched : Searched before after done p) (old : SymbolAttribution) :
    Searched before after (done ++ [old]) (pairBefore before after p old) := by
  have grown : ∀ {i}, i ∈ reach after.allSymbols [] done → i ∈ reach after.allSymbols [] (done ++ [old]) := fun mem =>
    reach_mono (fun _ => id) (List.sublist_append_left _ _) mem
  have matched : ∀ j ∈ p.matchedBefore, ∃ k other, (done ++ [old])[k]? = some other ∧
      identityIndex before.allSymbols other.symbol = some j ∧
      ¬ Hopeless after.allSymbols (reach after.allSymbols [] ((done ++ [old]).take k)) other.symbol := by
    intro j mem
    obtain ⟨k, other, found, own, hope⟩ := searched.matched j mem
    have inside := (List.getElem?_eq_some_iff.mp found).1
    refine ⟨k, other, by rw [List.getElem?_append_left inside, found], own, ?_⟩
    rw [List.take_append_of_le_length inside.le]
    exact hope
  rcases pairBefore_cases before after p old with ⟨i, partner, similar, at_⟩ | ⟨missing, ambiguous, eq⟩
  · rw [pairBefore_paired similar at_]
    refine ⟨fun j mem => ?_, fun j mem => ?_, fun k other found search mem j only free m own => ?_⟩
    · rcases List.mem_cons.mp mem with rfl | earlier
      · exact mem_reach_of_similarCandidate similar searched.reached
      · exact grown (searched.reached earlier)
    · rcases List.mem_append.mp mem with own | earlier
      · refine ⟨done.length, old, by simp, Option.mem_toList.mp own, fun hopeless => ?_⟩
        rw [List.take_left] at hopeless
        exact Option.some_ne_none i (similar.symm.trans (hopeless.similarCandidate searched.reached))
      · exact matched j earlier
    · rcases getElem?_concat found with ⟨found, take⟩ | ⟨rfl, -⟩
      · rw [take] at free
        refine List.mem_append_right _ (searched.settled k other found search mem j only (free.imp_right ?_) m own)
        exact fun apart taken => apart (List.mem_cons_of_mem _ taken)
      · exact List.mem_append_left _ (Option.mem_toList.mpr own)
  · rw [eq]
    refine ⟨fun j mem => grown (searched.reached mem), matched, fun k other found search mem j only free m own => ?_⟩
    · rcases getElem?_concat found with ⟨found, take⟩ | ⟨rfl, take⟩
      · rw [take] at free
        exact searched.settled k other found search mem j only free m own
      · -- the only candidate of a search that has no partner is found
        rw [take] at free
        have apart : j ∉ p.matchedAfter := free.elim (fun apart taken => apart (searched.reached taken)) id
        exact absurd missing (similarCandidate_ne_none mem only apart)

theorem firstRound_foldl (before after : SideAttribution) (olds : List SymbolAttribution) :
    FirstRound before after olds (olds.foldl (pairBefore before after) (start after)) ∧
      Searched before after olds (olds.foldl (pairBefore before after) (start after)) := by
  induction olds using List.reverseRecOn with
  | nil => exact ⟨firstRound_start before after, by simp [start], by simp [start], by simp⟩
  | append_singleton olds old ih =>
    rw [List.foldl_concat]
    exact ⟨ih.1.step old, ih.2.step old⟩

theorem firstRound_halfway (before after : SideAttribution) :
    FirstRound before after before.changedSymbols (halfway before after) ∧
      Searched before after before.changedSymbols (halfway before after) :=
  firstRound_foldl before after before.changedSymbols

/-! ### The second round -/

/-- A new symbol that is left takes no old symbol that the first round has reported. -/
def TakesUnchanged (before : SideAttribution) (p : Pairing) (new : SymbolAttribution) : Prop :=
  ∀ i ∈ similarCandidate before.allSymbols p.matchedBefore new.symbol, ∀ partner ∈ before.allSymbols[i]?,
    partner.symbol ∉ before.changedSymbols.map SymbolAttribution.symbol

structure SecondRound (before : SideAttribution) (p : Pairing) : Prop where
  olds : (oldSymbols p.changes).Nodup
  taken : ∀ i ∈ p.matchedBefore, ∃ c, before.allSymbols[i]? = some c ∧
    (c.symbol ∈ before.changedSymbols.map SymbolAttribution.symbol ∨ Sole before.allSymbols i c.symbol)
  partners : ∀ s ∈ oldSymbols p.changes, s ∈ before.changedSymbols.map SymbolAttribution.symbol ∨
    ∃ i ∈ p.matchedBefore, Sole before.allSymbols i s

theorem FirstRound.second {p : Pairing} (round : FirstRound before after before.changedSymbols p)
    (searched : Searched before after before.changedSymbols p) : SecondRound before p ∧ oldSymbols p.changes = before.changedSymbols.map SymbolAttribution.symbol := by
  have olds : oldSymbols p.changes = before.changedSymbols.map SymbolAttribution.symbol := by
    calc oldSymbols p.changes
      _ = (p.changes.map SymbolChange.before).filterMap (Option.map SymbolAttribution.symbol) := by
          rw [List.filterMap_map]
          rfl
      _ = before.changedSymbols.map SymbolAttribution.symbol := by
          rw [round.olds, List.filterMap_map, ← List.filterMap_eq_map]
          rfl
  refine ⟨⟨?_, ?_, ?_⟩, olds⟩
  · rw [olds]
    exact before.distinct
  · intro i mem
    obtain ⟨k, old, found, own, -⟩ := searched.matched i mem
    obtain ⟨inside, same, -⟩ := List.findIdx?_eq_some_iff_getElem.mp own
    refine ⟨_, List.getElem?_eq_getElem inside, .inl ?_⟩
    rw [of_decide_eq_true same]
    exact List.mem_map_of_mem (List.mem_of_getElem? found)
  · intro s mem
    rw [olds] at mem
    exact .inl mem

theorem SecondRound.step (round : SecondRound before p) (unchanged : TakesUnchanged before p new) :
    SecondRound before (pairAfter before p new) := by
  rcases pairAfter_cases before p new with ⟨i, partner, similar, at_⟩ | ⟨-, ambiguous, eq⟩
  · obtain ⟨free, alone⟩ := similarCandidate_alone similar at_
    have fresh := unchanged i similar partner at_
    have sole : Sole before.allSymbols i partner.symbol := by
      refine ⟨partner, at_, rfl, fun j other there same => ?_⟩
      by_cases excluded : j ∈ p.matchedBefore
      · obtain ⟨c, here, origin⟩ := round.taken j excluded
        obtain rfl : c = other := Option.mem_unique here there
        rcases origin with changed | ⟨d, _, _, only⟩
        · rw [same] at changed
          exact absurd changed fresh
        · exact (only i partner at_ same.symm).symm
      · exact alone j other there same excluded
    have unreported : partner.symbol ∉ oldSymbols p.changes := by
      intro mem
      rcases round.partners _ mem with changed | ⟨j, taken, d, _, _, only⟩
      · exact fresh changed
      · obtain rfl := only i partner at_ rfl
        exact free taken
    rw [pairAfter_paired similar at_]
    refine ⟨?_, ?_, ?_⟩
    · rw [oldSymbols_concat]
      exact List.nodup_middle.mpr (List.nodup_cons.mpr
        ⟨by rw [List.append_nil]; exact unreported, by rw [List.append_nil]; exact round.olds⟩)
    · intro j mem
      rcases List.mem_cons.mp mem with rfl | earlier
      · exact ⟨partner, at_, .inr sole⟩
      · exact round.taken j earlier
    · intro s mem
      rw [oldSymbols_concat] at mem
      rcases List.mem_append.mp mem with earlier | here
      · rcases round.partners s earlier with changed | ⟨j, taken, only⟩
        · exact .inl changed
        · exact .inr ⟨j, List.mem_cons_of_mem _ taken, only⟩
      · obtain rfl := List.mem_singleton.mp here
        exact .inr ⟨i, List.mem_cons_self, sole⟩
  · rw [eq]
    have none : oldSymbols (p.changes ++ [unpaired ambiguous "before" Option.none (some new) true]) =
        oldSymbols p.changes := by
      rw [oldSymbols_concat, unpaired_before, Option.map_none, Option.toList_none, List.append_nil]
    refine ⟨?_, round.taken, ?_⟩
    · rw [none]
      exact round.olds
    · rw [none]
      exact round.partners

theorem pairAfter_change (before : SideAttribution) (p : Pairing) (new : SymbolAttribution) :
    ∃ change, (pairAfter before p new).changes = p.changes ++ [change] ∧ change.after = some new := by
  rcases pairAfter_cases before p new with ⟨i, partner, similar, at_⟩ | ⟨-, ambiguous, eq⟩
  · exact ⟨_, congrArg Pairing.changes (pairAfter_paired similar at_), rfl⟩
  · exact ⟨_, congrArg Pairing.changes eq, rfl⟩

theorem pairAfter_changes (before : SideAttribution) (rest : List SymbolAttribution) (p : Pairing) :
    ∃ more, (rest.foldl (pairAfter before) p).changes = p.changes ++ more ∧
      more.map SymbolChange.after = rest.map some := by
  induction rest generalizing p with
  | nil => exact ⟨[], by simp⟩
  | cons new rest ih =>
    obtain ⟨change, first, own⟩ := pairAfter_change before p new
    obtain ⟨more, grown, news⟩ := ih (pairAfter before p new)
    refine ⟨change :: more, ?_, ?_⟩
    · rw [List.foldl_cons, grown, first, List.append_assoc, List.singleton_append]
    · rw [List.map_cons, List.map_cons, own, news]

/-! ### What is reported -/

structure PartialMatching (before after : SideAttribution) (changes : List SymbolChange) : Prop where
  oldOnce : (oldSymbols changes).Nodup
  newOnce : (newSymbols changes).Nodup
  oldReported : ∀ old ∈ before.changedSymbols, ∃ change ∈ changes, change.before = some old
  newReported : ∀ new ∈ after.changedSymbols, ∃ change ∈ changes, change.after = some new

/-- The changes of the first round, and then one for each new symbol that is left. -/
theorem pairSymbols_eq (before after : SideAttribution) :
    ∃ more, pairSymbols before after = (halfway before after).changes ++ more ∧
      more.map SymbolChange.after = (left before after).map some :=
  pairAfter_changes before (left before after) (halfway before after)

theorem newSymbols_pairSymbols_nodup (before after : SideAttribution) :
    (newSymbols (pairSymbols before after)).Nodup := by
  obtain ⟨more, whole, news⟩ := pairSymbols_eq before after
  have added : newSymbols more = (left before after).map SymbolAttribution.symbol := by
    calc newSymbols more
      _ = (more.map SymbolChange.after).filterMap (Option.map SymbolAttribution.symbol) := by
          rw [List.filterMap_map]
          rfl
      _ = (left before after).map SymbolAttribution.symbol := by
          rw [news, List.filterMap_map, ← List.filterMap_eq_map]
          rfl
  rw [whole, newSymbols, List.filterMap_append, ← newSymbols, ← newSymbols, added]
  exact (firstRound_halfway before after).1.news

variable {before after : SideAttribution}

theorem pairSymbols_reports_old (mem : old ∈ before.changedSymbols) :
    ∃ change ∈ pairSymbols before after, change.before = some old := by
  obtain ⟨more, whole, -⟩ := pairSymbols_eq before after
  have here : some old ∈ (halfway before after).changes.map SymbolChange.before := by
    rw [(firstRound_halfway before after).1.olds]
    exact List.mem_map_of_mem mem
  obtain ⟨change, inside, own⟩ := List.mem_map.mp here
  rw [whole]
  exact ⟨change, List.mem_append_left _ inside, own⟩

theorem pairSymbols_reports_new (mem : new ∈ after.changedSymbols) :
    ∃ change ∈ pairSymbols before after, change.after = some new := by
  obtain ⟨more, whole, news⟩ := pairSymbols_eq before after
  rw [whole]
  rcases (firstRound_halfway before after).1.kept new mem with kept | ⟨change, inside, own⟩
  · have here : some new ∈ more.map SymbolChange.after := by
      rw [news]
      exact List.mem_map_of_mem kept
    obtain ⟨change, inside, own⟩ := List.mem_map.mp here
    exact ⟨change, List.mem_append_right _ inside, own⟩
  · exact ⟨change, List.mem_append_left _ inside, own⟩

/-- An old symbol is reported twice only where the second round takes one that has changed. -/
theorem partialMatching_iff_along (before after : SideAttribution) :
    PartialMatching before after (pairSymbols before after) ↔
      Along (pairAfter before) (TakesUnchanged before) (halfway before after) (left before after) := by
  obtain ⟨first, searched⟩ := firstRound_halfway before after
  obtain ⟨second, olds⟩ := first.second searched
  constructor
  · intro matching
    by_contra fails
    obtain ⟨earlier, new, later, split, takes⟩ := Along.exists_of_not fails
    simp only [TakesUnchanged, not_forall] at takes
    obtain ⟨i, similar, partner, at_, changed⟩ := takes
    -- Its old symbol is in a change of the first round, and now in another.
    have once : partner.symbol ∈ oldSymbols (halfway before after).changes := by
      rw [olds]
      exact not_not.mp changed
    obtain ⟨since, mid, -⟩ := pairAfter_changes before earlier (halfway before after)
    obtain ⟨then_, final, -⟩ := pairAfter_changes before later (pairAfter before (earlier.foldl (pairAfter before)
      (halfway before after)) new)
    obtain ⟨change, own, again⟩ : ∃ change : SymbolChange, change.before = some partner ∧
        (pairAfter before (earlier.foldl (pairAfter before) (halfway before after)) new).changes =
          (earlier.foldl (pairAfter before) (halfway before after)).changes ++ [change] :=
      ⟨_, rfl, congrArg Pairing.changes (pairAfter_paired similar at_)⟩
    have whole : pairSymbols before after = ((halfway before after).changes ++ since ++ [change]) ++ then_ := by
      unfold pairSymbols
      rw [split, List.foldl_append, List.foldl_cons, final, again, mid]
    have twice := matching.oldOnce
    rw [whole, oldSymbols, List.filterMap_append, ← oldSymbols, oldSymbols_concat, own] at twice
    have apart := (List.nodup_append.mp (List.nodup_append.mp twice).1).2.2
    refine apart partner.symbol ?_ partner.symbol (by simp) rfl
    rw [oldSymbols, List.filterMap_append]
    exact List.mem_append_left _ once
  · intro along
    have kept := along.foldl (fun p new round unchanged => SecondRound.step round unchanged) second
    exact ⟨kept.olds, newSymbols_pairSymbols_nodup before after, fun _ mem => pairSymbols_reports_old mem,
      fun _ mem => pairSymbols_reports_new mem⟩

/-! ### Which symbols are reported twice -/

/-- Where the changed symbols of a side are among all of them. -/
def changedIndices (side : SideAttribution) : List Nat :=
  fitting side.allSymbols fun s => s ∈ side.changedSymbols.map SymbolAttribution.symbol

/-- What may have a partner when a new symbol looks for its own: what has changed, and what the other new symbols reach. -/
def reached (before after : SideAttribution) (new : SymbolAttribution) : List Nat :=
  reach before.allSymbols (changedIndices before) (after.changedSymbols.filter (· ≠ new))

/-- The `k`th old symbol is sure of a partner, or a new one is not left: a search of the old one fits one new symbol
alone, which is the other's or is not within the reach of the old symbols before it. -/
def Assured (before after : SideAttribution) (k : Nat) (old new : SymbolIdentity) : Prop :=
  ∃ search ∈ old.searches, ∃ i ∈ fitting after.allSymbols search, fitting after.allSymbols search = [i] ∧
    (i ∉ reach after.allSymbols [] (before.changedSymbols.take k) ∨ i ∈ fitting after.allSymbols (· = new))

/-- No changed symbol is taken again: where a search of a new symbol fits an old one that has changed, it does not come
down to it, or the old one has got its partner. -/
def NoneRetaken (before after : SideAttribution) : Prop :=
  ∀ entry ∈ before.changedSymbols.zipIdx, ∀ new ∈ after.changedSymbols, ∀ search ∈ new.symbol.searches,
    ∀ i ∈ fitting before.allSymbols search, i ∈ fitting before.allSymbols (· = entry.1.symbol) →
      Undecided before.allSymbols (reached before after new) search i ∨
        (identityIndex before.allSymbols entry.1.symbol = some i ∧
          Assured before after entry.2 entry.1.symbol new.symbol)

/-- A changed symbol is taken again: it finds no partner, and is the only one that a new symbol which none has taken
can find. -/
def Retaken (before after : SideAttribution) : Prop :=
  ∃ entry ∈ before.changedSymbols.zipIdx, ∃ new ∈ after.changedSymbols,
    Hopeless after.allSymbols (reach after.allSymbols [] (before.changedSymbols.take entry.2)) entry.1.symbol ∧
    (∀ j ∈ fitting after.allSymbols (· = new.symbol), j ∉ reach after.allSymbols [] before.changedSymbols) ∧
    ∃ i ∈ fitting before.allSymbols (· = entry.1.symbol), fitting before.allSymbols new.symbol.agrees = [i] ∨
      (fitting before.allSymbols new.symbol.agrees = [] ∧ fitting before.allSymbols new.symbol.resembles = [i])

instance (before after : SideAttribution) (k : Nat) (old new : SymbolIdentity) :
    Decidable (Assured before after k old new) := by
  unfold Assured
  infer_instance

instance (before after : SideAttribution) : Decidable (NoneRetaken before after) := by
  unfold NoneRetaken
  infer_instance

instance (before after : SideAttribution) : Decidable (Retaken before after) := by
  unfold Retaken
  infer_instance

theorem matchedBefore_foldl {matched : List Nat} (sub : p.matchedBefore ⊆ matched) (news : List SymbolAttribution) :
    (news.foldl (pairAfter before) p).matchedBefore ⊆ reach before.allSymbols matched news ∧
      p.matchedBefore ⊆ (news.foldl (pairAfter before) p).matchedBefore := by
  induction news using List.reverseRecOn with
  | nil => exact ⟨sub, fun _ => id⟩
  | append_singleton news new ih =>
    obtain ⟨within, grown⟩ := ih
    rw [List.foldl_concat]
    rcases pairAfter_cases before (news.foldl (pairAfter before) p) new with ⟨i, partner, similar, at_⟩ | ⟨-, ambiguous, eq⟩
    · rw [pairAfter_paired similar at_]
      refine ⟨fun j mem => ?_, fun j mem => List.mem_cons_of_mem _ (grown mem)⟩
      rcases List.mem_cons.mp mem with rfl | earlier
      · exact mem_reach_of_similarCandidate similar within
      · exact reach_mono (fun _ => id) (List.sublist_append_left _ _) (within earlier)
    · rw [eq]
      exact ⟨fun j mem => reach_mono (fun _ => id) (List.sublist_append_left _ _) (within mem), grown⟩

theorem fitting_identity {symbols : List SymbolAttribution} {i : Nat} {s : SymbolIdentity}
    (mem : i ∈ fitting symbols (· = s)) : ∃ c, symbols[i]? = some c ∧ c.symbol = s := by
  obtain ⟨c, here, own⟩ := mem_fitting.mp mem
  exact ⟨c, here, of_decide_eq_true own⟩

theorem left_sublist (before after : SideAttribution) : (left before after).Sublist after.changedSymbols := by
  have walk : ∀ (olds : List SymbolAttribution) (p : Pairing), p.afterChanged.reduceOption.Sublist after.changedSymbols →
      (olds.foldl (pairBefore before after) p).afterChanged.reduceOption.Sublist after.changedSymbols := by
    intro olds
    induction olds with
    | nil => exact fun _ sub => sub
    | cons old rest ih =>
      intro p sub
      refine ih _ ?_
      rcases pairBefore_cases before after p old with ⟨i, partner, similar, at_⟩ | ⟨-, ambiguous, eq⟩
      · rw [pairBefore_paired similar at_]
        exact (takeChangedAttribution_sublist _ _).trans sub
      · rw [eq]
        exact sub
  refine walk before.changedSymbols (start after) ?_
  simp [start, List.reduceOption]

/-- When a new symbol that is left looks for its partner, what has one is within reach. -/
theorem matchedBefore_subset_reached {earlier later : List SymbolAttribution}
    (split : left before after = earlier ++ new :: later) :
    (earlier.foldl (pairAfter before) (halfway before after)).matchedBefore ⊆ reached before after new := by
  have matched : (halfway before after).matchedBefore ⊆ changedIndices before := by
    intro j mem
    obtain ⟨k, other, found, own, -⟩ := (firstRound_halfway before after).2.matched j mem
    obtain ⟨inside, same, -⟩ := List.findIdx?_eq_some_iff_getElem.mp own
    refine mem_fitting.mpr ⟨_, List.getElem?_eq_getElem inside, decide_eq_true ?_⟩
    rw [of_decide_eq_true same]
    exact List.mem_map_of_mem (List.mem_of_getElem? found)
  have sub := left_sublist before after
  have apart : ∀ other ∈ earlier, other ≠ new := by
    have nodup := after.distinct.of_map.sublist sub
    rw [split] at nodup
    exact fun other mem same => (List.nodup_append.mp nodup).2.2 other mem new List.mem_cons_self same
  rw [split] at sub
  have others := ((List.sublist_append_left _ _).trans sub).filter (· ≠ new)
  rw [List.filter_eq_self.mpr fun other mem => decide_eq_true (apart other mem)] at others
  exact fun _ mem => reach_mono (fun _ => id) others ((matchedBefore_foldl matched earlier).1 mem)

theorem along_of_noneRetaken (kept : NoneRetaken before after) :
    Along (pairAfter before) (TakesUnchanged before) (halfway before after) (left before after) := by
  by_contra fails
  obtain ⟨first, searched⟩ := firstRound_halfway before after
  obtain ⟨earlier, new, later, split, takes⟩ := Along.exists_of_not fails
  simp only [TakesUnchanged, not_forall, not_not] at takes
  obtain ⟨i, similar, partner, at_, changed⟩ := takes
  obtain ⟨old, mem, own⟩ := List.mem_map.mp changed
  obtain ⟨k, inside, found⟩ := List.getElem_of_mem mem
  have found : before.changedSymbols[k]? = some old := by rw [List.getElem?_eq_getElem inside, found]
  have isLeft : new ∈ left before after := by rw [split]; simp
  have newChanged : new ∈ after.changedSymbols := (left_sublist before after).subset isLeft
  obtain ⟨search, c, candidate, how⟩ := similarCandidate_eq_some similar
  obtain rfl : c = partner := Option.mem_unique candidate.at_ at_
  have searches := mem_searches how
  have grown : (halfway before after).matchedBefore ⊆
      (earlier.foldl (pairAfter before) (halfway before after)).matchedBefore :=
    (matchedBefore_foldl (fun _ => id) earlier).2
  have entry : (old, k) ∈ before.changedSymbols.zipIdx := List.mem_zipIdx_iff_getElem?.mpr found
  rcases kept (old, k) entry new newChanged search searches i (mem_fitting.mpr ⟨c, at_, candidate.fits⟩)
      (mem_fitting.mpr ⟨c, at_, decide_eq_true own.symm⟩) with undecided | ⟨index, look, looks, j, -, only, sure⟩
  · exact undecided.not_candidate (matchedBefore_subset_reached split) candidate
  · -- the old symbol has got its partner, and the first round knows it
    refine candidate.free (grown (searched.settled k old found look looks j only (sure.imp_right fun isNew taken => ?_) i index))
    obtain ⟨d, there, same⟩ := fitting_identity isNew
    obtain ⟨s, reported, e, here, own', -⟩ := first.taken j taken
    obtain rfl : e = d := Option.mem_unique here there
    rw [← own', same] at reported
    exact (List.nodup_append.mp first.news).2.2 _ reported _ (List.mem_map_of_mem isLeft) rfl

theorem not_along_of_retaken (retaken : Retaken before after) :
    ¬ Along (pairAfter before) (TakesUnchanged before) (halfway before after) (left before after) := by
  intro along
  obtain ⟨first, searched⟩ := firstRound_halfway before after
  obtain ⟨⟨old, k⟩, entry, new, mem, hopeless, untaken, i, identity, only⟩ := retaken
  have found := List.mem_zipIdx_iff_getElem?.mp entry
  obtain ⟨c, at_, own⟩ := fitting_identity identity
  have changed : c.symbol ∈ before.changedSymbols.map SymbolAttribution.symbol := by
    rw [own]
    exact List.mem_map_of_mem (List.mem_of_getElem? found)
  have unmatched : i ∉ (halfway before after).matchedBefore := by
    intro matched
    obtain ⟨k', other, found', index, hope⟩ := searched.matched i matched
    obtain ⟨inside, same, -⟩ := List.findIdx?_eq_some_iff_getElem.mp index
    have same : other.symbol = old.symbol := by
      rw [← of_decide_eq_true same, ← own, Option.mem_unique (List.getElem?_eq_getElem inside) at_]
    have places : (before.changedSymbols.map SymbolAttribution.symbol)[k']? =
        (before.changedSymbols.map SymbolAttribution.symbol)[k]? := by
      rw [List.getElem?_map, List.getElem?_map, found', found, Option.map_some, Option.map_some, same]
    have inside' : k' < (before.changedSymbols.map SymbolAttribution.symbol).length := by
      rw [List.length_map]
      exact (List.getElem?_eq_some_iff.mp found').1
    obtain rfl := (List.getElem?_inj inside' before.distinct).mp places
    obtain rfl : other = old := Option.mem_unique found' found
    exact hope hopeless
  have isLeft : new ∈ left before after := by
    refine (first.kept new mem).resolve_right fun ⟨change, inside, reported⟩ => ?_
    have symbol : new.symbol ∈ newSymbols (halfway before after).changes :=
      List.mem_filterMap.mpr ⟨change, inside, by rw [reported]; rfl⟩
    obtain ⟨j, taken, d, there, same, -⟩ := first.partners _ symbol
    exact untaken j (mem_fitting.mpr ⟨d, there, decide_eq_true same⟩) (searched.reached taken)
  obtain ⟨earlier, later, split⟩ := List.append_of_mem isLeft
  rw [split] at along
  obtain ⟨before', takes, -⟩ := Along.append.mp along
  have free : i ∉ (earlier.foldl (pairAfter before) (halfway before after)).matchedBefore := by
    refine before'.foldl (P := fun p => i ∉ p.matchedBefore) (fun p other free unchanged => ?_) unmatched
    rcases pairAfter_cases before p other with ⟨j, partner, similar, there⟩ | ⟨-, ambiguous, eq⟩
    · rw [pairAfter_paired similar there]
      intro taken
      rcases List.mem_cons.mp taken with rfl | earlier
      · obtain rfl := Option.mem_unique there at_
        exact unchanged i similar _ there changed
      · exact free earlier
    · rw [eq]
      exact free
  have similar : similarCandidate before.allSymbols
      (earlier.foldl (pairAfter before) (halfway before after)).matchedBefore new.symbol = some i := by
    refine Option.or_eq_some_iff.mpr ?_
    rcases only with byName | ⟨none, bySignature⟩
    · obtain ⟨d, candidate⟩ := candidate_of_fitting byName free
      exact .inl candidate.eq_some
    · obtain ⟨d, candidate⟩ := candidate_of_fitting bySignature free
      refine .inr ⟨?_, candidate.eq_some⟩
      cases exactly : exactCandidate before.allSymbols _ new.symbol with
      | none => rfl
      | some j =>
        obtain ⟨e, other⟩ := uniqueCandidate_eq_some exactly
        exact absurd (mem_fitting.mpr ⟨e, other.at_, other.fits⟩) (by rw [none]; exact List.not_mem_nil)
  exact takes i similar c at_ changed

end Pairing

namespace Sample

def function (side : RevisionSide) (revision : Char) (start : Nat) (signature : Char) : SymbolIdentity where
  revision := [revision]
  side
  filePath := ['a']
  name := ['f']
  qualified := ['f']
  kind := ['f', 'n']
  spanStart := start
  spanEnd := start + 9
  signature := some [signature]
  parent := none

def single : SideAttribution where
  changedSymbols := [⟨function .before 'b' 0 'x', [1]⟩]
  allSymbols := [⟨function .before 'b' 0 'x', []⟩]
  fallback := none
  distinct := by decide

def divided : SideAttribution where
  changedSymbols := [⟨function .after 'a' 0 'y', [1]⟩, ⟨function .after 'a' 9 'z', [2]⟩]
  allSymbols := [⟨function .after 'a' 0 'y', []⟩, ⟨function .after 'a' 9 'z', []⟩]
  fallback := none
  distinct := by decide

def overloadSide (side : RevisionSide) (revision : Char) : SideAttribution where
  changedSymbols := [⟨function side revision 0 'x', [1]⟩, ⟨function side revision 9 'y', [2]⟩]
  allSymbols := [⟨function side revision 0 'x', []⟩, ⟨function side revision 9 'y', []⟩]
  fallback := none
  distinct := by cases side <;> simp [function]

end Sample

end OrbitGraph.History
