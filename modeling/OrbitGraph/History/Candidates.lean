import Mathlib.Data.List.Nodup
import OrbitGraph.History.Pairing

/-!
What the searches of `pair_symbols` can come to.

A search finds a candidate if it is the only one that fits and has no partner yet, so what
it finds depends on the searches before it. What can be said of the symbols alone is which
candidates may have a partner by then: one can get it only from a search that no other
candidate fits, but those that may have a partner themselves.
-/

namespace OrbitGraph.History

open Lib

/-! ### Candidates -/

/-- What a search for a candidate finds: a symbol that is not excluded, and no other like it. -/
structure Candidate (candidates : List SymbolAttribution) (excluded : List Nat) (predicate : SymbolIdentity → Bool)
    (i : Nat) (found : SymbolAttribution) : Prop where
  at_ : candidates[i]? = some found
  free : i ∉ excluded
  fits : predicate found.symbol = true
  alone : ∀ j other, candidates[j]? = some other → j ∉ excluded → predicate other.symbol = true → j = i

section Candidate

variable {candidates : List SymbolAttribution} {excluded : List Nat} {predicate : SymbolIdentity → Bool} {i : Nat}

theorem uniqueCandidate_eq_some (found : uniqueCandidate candidates excluded predicate = some i) :
    ∃ c, Candidate candidates excluded predicate i c := by
  unfold uniqueCandidate at found
  split at found
  next c j only =>
    obtain rfl := Option.some.inj found
    have fits : ∀ k d, (d, k) ∈ [(c, j)] ↔
        candidates[k]? = some d ∧ k ∉ excluded ∧ predicate d.symbol = true := by
      intro k d
      rw [← only, List.mem_filter, List.mem_zipIdx_iff_getElem?]
      simp
    obtain ⟨here, free, holds⟩ := (fits j c).mp (by simp)
    refine ⟨c, here, free, holds, fun k d there free' holds' => ?_⟩
    have mem := (fits k d).mpr ⟨there, free', holds'⟩
    simp only [List.mem_singleton, Prod.mk.injEq] at mem
    exact mem.2
  next => cases found

/-- … and whatever symbol is so, it finds. -/
theorem Candidate.eq_some {found : SymbolAttribution} (candidate : Candidate candidates excluded predicate i found) :
    uniqueCandidate candidates excluded predicate = some i := by
  have once : (candidates.zipIdx.filter fun entry => entry.2 ∉ excluded ∧ predicate entry.1.symbol).Nodup :=
    (List.Nodup.of_map Prod.snd (List.zipIdx_map_snd 0 candidates ▸ List.nodup_range')).filter _
  have only : (candidates.zipIdx.filter fun entry => entry.2 ∉ excluded ∧ predicate entry.1.symbol) = [(found, i)] := by
    refine List.perm_singleton.mp ((List.perm_ext_iff_of_nodup once (List.nodup_singleton _)).mpr ?_)
    rintro ⟨c, j⟩
    rw [List.mem_filter, List.mem_zipIdx_iff_getElem?, List.mem_singleton, Prod.mk.injEq]
    constructor
    · rintro ⟨here, holds⟩
      obtain ⟨free, fits⟩ := of_decide_eq_true holds
      obtain rfl := candidate.alone j c here free fits
      exact ⟨Option.mem_unique here candidate.at_, rfl⟩
    · rintro ⟨rfl, rfl⟩
      exact ⟨candidate.at_, decide_eq_true ⟨candidate.free, candidate.fits⟩⟩
  unfold uniqueCandidate
  split
  next c j found' =>
    have same : [(c, j)] = [(found, i)] := found'.symm.trans only
    simp only [List.cons.injEq, Prod.mk.injEq, and_true] at same
    rw [same.2]
  next none => exact absurd only (none _ _)

theorem similarCandidate_eq_some {s : SymbolIdentity} (found : similarCandidate candidates excluded s = some i) :
    ∃ predicate c, Candidate candidates excluded predicate i c ∧ (predicate = s.agrees ∨
      (predicate = s.resembles ∧ exactCandidate candidates excluded s = none)) := by
  rcases Option.or_eq_some_iff.mp found with exactly | ⟨none, similarly⟩
  · obtain ⟨c, candidate⟩ := uniqueCandidate_eq_some exactly
    exact ⟨_, c, candidate, .inl rfl⟩
  · obtain ⟨c, candidate⟩ := uniqueCandidate_eq_some similarly
    exact ⟨_, c, candidate, .inr ⟨rfl, none⟩⟩

end Candidate

/-! ### What may be matched -/

/-- The two searches for a symbol's partner. -/
def SymbolIdentity.searches (s : SymbolIdentity) : List (SymbolIdentity → Bool) := [s.agrees, s.resembles]

/-- Where the candidates are that fit a search. -/
def fitting (candidates : List SymbolAttribution) (predicate : SymbolIdentity → Bool) : List Nat :=
  (candidates.zipIdx.filter fun entry => predicate entry.1.symbol).map Prod.snd

def singledOut (candidates : List SymbolAttribution) (matched : List Nat) (predicate : SymbolIdentity → Bool) : List Nat :=
  (fitting candidates predicate).filter fun i => ∀ j ∈ fitting candidates predicate, j = i ∨ j ∈ matched

/-- The candidates that may have a partner once some symbols have looked for theirs, in this order. -/
def reach (candidates : List SymbolAttribution) (matched : List Nat) (seekers : List SymbolAttribution) : List Nat :=
  seekers.foldl (fun matched s => matched ++ s.symbol.searches.flatMap (singledOut candidates matched)) matched

/-- A search that does not come down to the `i`th candidate: another one fits it, and has no partner. -/
def Undecided (candidates : List SymbolAttribution) (matched : List Nat) (predicate : SymbolIdentity → Bool) (i : Nat) :
    Prop :=
  ∃ j ∈ fitting candidates predicate, j ≠ i ∧ j ∉ matched

/-- A symbol that finds no partner: what fits a search is nothing, or two without a partner. -/
def Hopeless (candidates : List SymbolAttribution) (matched : List Nat) (s : SymbolIdentity) : Prop :=
  ∀ predicate ∈ s.searches, ∀ i ∈ fitting candidates predicate, Undecided candidates matched predicate i

instance (candidates : List SymbolAttribution) (matched : List Nat) (predicate : SymbolIdentity → Bool) (i : Nat) :
    Decidable (Undecided candidates matched predicate i) :=
  inferInstanceAs (Decidable (∃ _ ∈ _, _))

instance (candidates : List SymbolAttribution) (matched : List Nat) (s : SymbolIdentity) :
    Decidable (Hopeless candidates matched s) :=
  inferInstanceAs (Decidable (∀ _ ∈ _, _))

section Reach

variable {candidates : List SymbolAttribution} {excluded matched matched' : List Nat} {predicate : SymbolIdentity → Bool}
  {seekers seekers' : List SymbolAttribution} {s : SymbolIdentity} {i : Nat}

theorem mem_searches {none : Prop} (how : predicate = s.agrees ∨ (predicate = s.resembles ∧ none)) :
    predicate ∈ s.searches := by
  rcases how with rfl | ⟨rfl, -⟩ <;> simp [SymbolIdentity.searches]

theorem mem_fitting : i ∈ fitting candidates predicate ↔ ∃ c, candidates[i]? = some c ∧ predicate c.symbol = true := by
  unfold fitting
  simp only [List.mem_map, List.mem_filter, Prod.exists, exists_eq_right, List.mem_zipIdx_iff_getElem?]

theorem Candidate.mem_singledOut {c : SymbolAttribution} (candidate : Candidate candidates excluded predicate i c)
    (sub : excluded ⊆ matched) : i ∈ singledOut candidates matched predicate := by
  refine List.mem_filter.mpr ⟨mem_fitting.mpr ⟨c, candidate.at_, candidate.fits⟩, decide_eq_true fun j fits => ?_⟩
  obtain ⟨d, there, fits⟩ := mem_fitting.mp fits
  by_cases taken : j ∈ excluded
  · exact .inr (sub taken)
  · exact .inl (candidate.alone j d there taken fits)

theorem singledOut_mono (sub : matched ⊆ matched') :
    singledOut candidates matched predicate ⊆ singledOut candidates matched' predicate := by
  intro i mem
  obtain ⟨fits, alone⟩ := List.mem_filter.mp mem
  refine List.mem_filter.mpr ⟨fits, decide_eq_true fun j other => ?_⟩
  exact (of_decide_eq_true alone j other).imp_right (sub ·)

theorem reach_append (seekers' : List SymbolAttribution) : reach candidates matched (seekers ++ seekers') =
    reach candidates (reach candidates matched seekers) seekers' :=
  List.foldl_append

/-- More symbols that look, where more have a partner, reach more. -/
theorem reach_mono (sub : matched ⊆ matched') (fewer : seekers.Sublist seekers') :
    reach candidates matched seekers ⊆ reach candidates matched' seekers' := by
  induction fewer generalizing matched matched' with
  | slnil => exact sub
  | cons s _ ih => exact ih fun _ mem => List.mem_append_left _ (sub mem)
  | cons_cons s _ ih =>
    refine ih fun i mem => ?_
    rcases List.mem_append.mp mem with before | found
    · exact List.mem_append_left _ (sub before)
    · obtain ⟨predicate, search, single⟩ := List.mem_flatMap.mp found
      exact List.mem_append_right _ (List.mem_flatMap.mpr ⟨predicate, search, singledOut_mono sub single⟩)

/-- What a search finds is within its reach. -/
theorem mem_reach_of_similarCandidate {seeker : SymbolAttribution}
    (found : similarCandidate candidates excluded seeker.symbol = some i) (sub : excluded ⊆ reach candidates matched seekers) :
    i ∈ reach candidates matched (seekers ++ [seeker]) := by
  obtain ⟨predicate, c, candidate, how⟩ := similarCandidate_eq_some found
  rw [reach_append]
  exact List.mem_append_right _ (List.mem_flatMap.mpr ⟨predicate, mem_searches how, candidate.mem_singledOut sub⟩)

theorem Undecided.not_candidate {c : SymbolAttribution} (undecided : Undecided candidates matched predicate i)
    (sub : excluded ⊆ matched) : ¬ Candidate candidates excluded predicate i c := by
  intro candidate
  obtain ⟨j, fits, other, free⟩ := undecided
  obtain ⟨d, there, fits⟩ := mem_fitting.mp fits
  exact other (candidate.alone j d there (fun taken => free (sub taken)) fits)

theorem Hopeless.similarCandidate (hopeless : Hopeless candidates matched s) (sub : excluded ⊆ matched) :
    similarCandidate candidates excluded s = none := by
  cases found : History.similarCandidate candidates excluded s with
  | none => rfl
  | some i =>
    obtain ⟨predicate, c, candidate, how⟩ := similarCandidate_eq_some found
    have fits := mem_fitting.mpr ⟨c, candidate.at_, candidate.fits⟩
    exact absurd candidate ((hopeless predicate (mem_searches how) i fits).not_candidate sub)

/-- The only candidate that fits is found, if it has no partner. -/
theorem candidate_of_fitting (only : fitting candidates predicate = [i]) (free : i ∉ excluded) :
    ∃ c, Candidate candidates excluded predicate i c := by
  obtain ⟨c, here, fits⟩ := mem_fitting.mp (only ▸ List.mem_singleton_self i)
  refine ⟨c, here, free, fits, fun j d there _ fits => ?_⟩
  exact List.mem_singleton.mp (only ▸ mem_fitting.mpr ⟨d, there, fits⟩)

theorem similarCandidate_ne_none (search : predicate ∈ s.searches) (only : fitting candidates predicate = [i])
    (free : i ∉ excluded) : similarCandidate candidates excluded s ≠ none := by
  obtain ⟨c, candidate⟩ := candidate_of_fitting only free
  intro none
  obtain ⟨byName, bySignature⟩ := Option.or_eq_none_iff.mp none
  rcases List.mem_pair.mp search with rfl | rfl
  · exact Option.some_ne_none i (candidate.eq_some.symm.trans byName)
  · exact Option.some_ne_none i (candidate.eq_some.symm.trans bySignature)

end Reach

end OrbitGraph.History
