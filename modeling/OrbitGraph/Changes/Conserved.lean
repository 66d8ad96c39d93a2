import Mathlib.Data.Set.Insert
import OrbitGraph.Changes.Rungs
import OrbitGraph.Lib.Ledger

/-!
Every symbol of a changed file is accounted for once.

What is unpaired is a ledger: an entry takes the selectors that it mentions out of it.
The first rung takes every selector of both sides, or drops it as unchanged; from then
on the two sides have nothing in common, and an entry of a later rung takes its groups
from each of them.
-/

namespace OrbitGraph.Changes

open Lib

attribute [local instance] lexOrd

/-- The selector is a side or a candidate of the entry. -/
def ChangedSymbol.Mentions (e : ChangedSymbol) (s : Text) : Prop :=
  (∃ r ∈ e.base, r.selector = s) ∨ (∃ r ∈ e.head, r.selector = s) ∨ s ∈ e.uncertainCandidates.map (·.symbol.selector)

instance : DecidableRel ChangedSymbol.Mentions := fun _ _ => inferInstanceAs (Decidable (_ ∨ _ ∨ _))

namespace Pairer

/-- An entry has the sides that its status says, with selectors of the changed files of these sides. -/
def Agrees (o : Pairer) (e : ChangedSymbol) : Prop :=
  match e.status with
  | .added => e.base = none ∧ e.uncertainCandidates = [] ∧
      ∃ s ∈ o.unpairedHead, s ∉ o.unpairedBase ∧ e.head = some (o.head.symbolRef s)
  | .removed => e.head = none ∧ e.uncertainCandidates = [] ∧
      ∃ s ∈ o.unpairedBase, s ∉ o.unpairedHead ∧ e.base = some (o.base.symbolRef s)
  | .modified | .signatureChanged => e.uncertainCandidates = [] ∧
      ∃ s ∈ o.unpairedBase, s ∈ o.unpairedHead ∧ e.base = some (o.base.symbolRef s) ∧ e.head = some (o.head.symbolRef s)
  | .moved | .renamed => e.uncertainCandidates = [] ∧
      (∃ s ∈ o.unpairedBase, s ∉ o.unpairedHead ∧ e.base = some (o.base.symbolRef s)) ∧
      ∃ s ∈ o.unpairedHead, s ∉ o.unpairedBase ∧ e.head = some (o.head.symbolRef s)
  | .uncertain =>
    (∃ s ∈ o.unpairedBase, s ∈ o.unpairedHead ∧ e.base = some (o.base.symbolRef s) ∧
      e.head = some (o.head.symbolRef s) ∧
      e.uncertainCandidates.map (·.symbol) = [o.base.symbolRef s, o.head.symbolRef s]) ∨
    (e.base = none ∧ e.head = none ∧ e.uncertainCandidates ≠ [] ∧ ∀ c ∈ e.uncertainCandidates,
      (∃ s ∈ o.unpairedBase, s ∉ o.unpairedHead ∧ c.symbol = o.base.symbolRef s) ∨
        ∃ s ∈ o.unpairedHead, s ∉ o.unpairedBase ∧ c.symbol = o.head.symbolRef s)

/-- The selectors of both sides that address one symbol, with complete sources that are byte-identical. -/
def Unchanged (o : Pairer) : Set Text := {s |
  s ∈ o.unpairedBase ∧ s ∈ o.unpairedHead ∧ s ∉ o.base.ambiguousSelectors ∧ s ∉ o.head.ambiguousSelectors ∧
    ∃ base head, o.sourceOf .base s = .ok (some base) ∧ o.sourceOf .head s = .ok (some head) ∧
      base.bytes = head.bytes ∧ base.truncated = false ∧ head.truncated = false}

/-- What is unpaired, and the entries so far. -/
def ledger (p : Pairer) : Ledger Text ChangedSymbol := ⟨{s | s ∈ p.unpairedBase ∨ s ∈ p.unpairedHead}, p.symbols⟩

/-- How far a pairer has come from its start. -/
structure Follows (o p : Pairer) : Prop where
  comparison : p.comparison = o.comparison
  base : p.base = o.base
  head : p.head = o.head
  unpairedBase : ∀ s ∈ p.unpairedBase, s ∈ o.unpairedBase
  unpairedHead : ∀ s ∈ p.unpairedHead, s ∈ o.unpairedHead
  agrees : ∀ e ∈ p.symbols, o.Agrees e
  booked : Ledger.Steps ChangedSymbol.Mentions o.Unchanged o.ledger p.ledger

/-- What both sides have is no longer unpaired on either. -/
structure Apart (o p : Pairer) : Prop where
  base : ∀ s ∈ p.unpairedBase, s ∉ o.unpairedHead
  head : ∀ s ∈ p.unpairedHead, s ∉ o.unpairedBase

variable {o p q : Pairer}

theorem Follows.refl (start : o.symbols = []) : o.Follows o where
  comparison := rfl
  base := rfl
  head := rfl
  unpairedBase _ := id
  unpairedHead _ := id
  agrees e mem := by simp [start] at mem
  booked := .refl

theorem sourceOf_eq (follows : o.Follows p) : p.sourceOf = o.sourceOf := by
  unfold sourceOf
  rw [follows.comparison]

/-- The step of an emitter: one entry more, which takes what it mentions. -/
structure Emits (p q : Pairer) (e : ChangedSymbol) (bases heads : List Text) : Prop where
  comparison : q.comparison = p.comparison
  base : q.base = p.base
  head : q.head = p.head
  symbols : q.symbols = p.symbols ++ [e]
  unpairedBase : ∀ s, s ∈ q.unpairedBase ↔ s ∈ p.unpairedBase ∧ s ∉ bases
  unpairedHead : ∀ s, s ∈ q.unpairedHead ↔ s ∈ p.unpairedHead ∧ s ∉ heads
  mentions : ∀ s, e.Mentions s ↔ s ∈ bases ∨ s ∈ heads
  bases : ∀ s ∈ bases, s ∈ p.unpairedBase
  heads : ∀ s ∈ heads, s ∈ p.unpairedHead

variable {e : ChangedSymbol}

/-- An entry that takes every selector from each side that has it. -/
theorem Follows.emits (follows : o.Follows p) {bases heads : List Text}
    (emits : p.Emits q e bases heads) (agrees : o.Agrees e) (busy : ∀ s, e.Mentions s → s ∉ o.Unchanged)
    (crossBase : ∀ s ∈ p.unpairedBase, s ∈ heads → s ∈ bases)
    (crossHead : ∀ s ∈ p.unpairedHead, s ∈ bases → s ∈ heads) : o.Follows q where
  comparison := emits.comparison.trans follows.comparison
  base := emits.base.trans follows.base
  head := emits.head.trans follows.head
  unpairedBase s mem := follows.unpairedBase s ((emits.unpairedBase s).mp mem).1
  unpairedHead s mem := follows.unpairedHead s ((emits.unpairedHead s).mp mem).1
  agrees := by
    rw [emits.symbols]
    intro other mem
    rcases List.mem_append.mp mem with old | new
    · exact follows.agrees other old
    · exact List.mem_singleton.mp new ▸ agrees
  booked := by
    have step : Ledger.Step ChangedSymbol.Mentions o.Unchanged p.ledger
        ⟨{s ∈ p.ledger.pending | ¬ e.Mentions s}, p.symbols ++ [e]⟩ :=
      .book p.ledger e fun s named => by
        refine ⟨?_, busy s named⟩
        rcases (emits.mentions s).mp named with mem | mem
        · exact .inl (emits.bases s mem)
        · exact .inr (emits.heads s mem)
    have same : q.ledger = ⟨{s ∈ p.ledger.pending | ¬ e.Mentions s}, p.symbols ++ [e]⟩ := by
      unfold ledger
      rw [emits.symbols]
      congr 1
      ext s
      simp only [Set.mem_ofPred_eq, emits.unpairedBase, emits.unpairedHead, emits.mentions, not_or]
      constructor
      · rintro (⟨mem, out⟩ | ⟨mem, out⟩)
        · exact ⟨.inl mem, out, fun other => out (crossBase s mem other)⟩
        · exact ⟨.inr mem, fun other => out (crossHead s mem other), out⟩
      · rintro ⟨mem | mem, out, out'⟩
        · exact .inl ⟨mem, out⟩
        · exact .inr ⟨mem, out'⟩
    exact same ▸ follows.booked.tail step

/-! ### The first rung -/

theorem mem_erase {pending : Std.TreeSet Text} {s t : Text} : t ∈ pending.erase s ↔ t ∈ pending ∧ t ∉ [s] := by
  rw [Std.TreeSet.mem_erase, List.mem_singleton, and_comm, ne_eq, Std.LawfulEqCmp.compare_eq_iff_eq, eq_comm]

theorem emits_pair {b h : Text} (base : b ∈ p.unpairedBase) (head : h ∈ p.unpairedHead)
    (eBase : e.base = some (p.base.symbolRef b)) (eHead : e.head = some (p.head.symbolRef h))
    (candidates : ∀ s ∈ e.uncertainCandidates.map (·.symbol.selector), s = b ∨ s = h) :
    p.Emits ((p.without b h).push e) e [b] [h] where
  comparison := rfl
  base := rfl
  head := rfl
  symbols := rfl
  unpairedBase _ := mem_erase
  unpairedHead _ := mem_erase
  mentions s := by
    simp only [ChangedSymbol.Mentions, eBase, eHead, Option.mem_some_iff, List.mem_singleton]
    constructor
    · rintro (⟨r, rfl, rfl⟩ | ⟨r, rfl, rfl⟩ | mem)
      · exact .inl rfl
      · exact .inr rfl
      · exact candidates s mem
    · rintro (rfl | rfl)
      · exact .inl ⟨_, rfl, rfl⟩
      · exact .inr (.inl ⟨_, rfl, rfl⟩)
  bases _ mem := List.mem_singleton.mp mem ▸ base
  heads _ mem := List.mem_singleton.mp mem ▸ head

/-- The selector addresses one symbol on each side, and their complete sources are the same bytes. -/
def Identical (p : Pairer) (s : Text) : Prop :=
  s ∉ p.base.ambiguousSelectors ∧ s ∉ p.head.ambiguousSelectors ∧
    ∃ base head, p.sourceOf .base s = .ok (some base) ∧ p.sourceOf .head s = .ok (some head) ∧
      base.bytes = head.bytes ∧ base.truncated = false ∧ head.truncated = false

/-- A selector of both sides is taken from both, by an entry or as unchanged. -/
theorem pairShared_cases {s : Text} (run : p.pairShared s = .ok q) :
    (∃ e, q = (p.without s s).push e ∧ ¬ p.Identical s ∧ e.base = some (p.base.symbolRef s) ∧
      e.head = some (p.head.symbolRef s) ∧ (e.fileChange, e.basePath, e.headPath) = p.fileChangeForBase s ∧
      ((e.uncertainCandidates = [] ∧ (e.status = .modified ∨ e.status = .signatureChanged) ∧
          s ∉ p.base.ambiguousSelectors ∧ s ∉ p.head.ambiguousSelectors) ∨ (e.status = .uncertain ∧
          e.uncertainCandidates.map (·.symbol) = [p.base.symbolRef s, p.head.symbolRef s]))) ∨
    (q = p.without s s ∧ p.Identical s) := by
  unfold pairShared at run
  dsimp only at run
  split at run
  next ambiguous =>
    obtain rfl := Except.ok.inj run
    refine .inl ⟨_, rfl, ?_, rfl, rfl, rfl, .inr ⟨rfl, rfl⟩⟩
    rintro ⟨notBase, notHead, -⟩
    exact ambiguous.elim notBase notHead
  next one =>
    obtain ⟨notBase, notHead⟩ := not_or.mp one
    obtain ⟨baseSource, hb, run⟩ := bind_eq_ok.mp run
    obtain ⟨headSource, hh, run⟩ := bind_eq_ok.mp run
    have same : ∀ x y, p.sourceOf .base s = .ok (some x) → p.sourceOf .head s = .ok (some y) →
        baseSource = some x ∧ headSource = some y := fun x y hx hy =>
      ⟨Except.ok.inj (hb.symm.trans hx), Except.ok.inj (hh.symm.trans hy)⟩
    cases baseSource with
    | none =>
      obtain rfl := Except.ok.inj run
      refine .inl ⟨_, rfl, ?_, rfl, rfl, rfl, .inr ⟨rfl, rfl⟩⟩
      rintro ⟨-, -, x, y, hx, hy, -⟩
      cases (same x y hx hy).1
    | some base =>
      cases headSource with
      | none =>
        obtain rfl := Except.ok.inj run
        refine .inl ⟨_, rfl, ?_, rfl, rfl, rfl, .inr ⟨rfl, rfl⟩⟩
        rintro ⟨-, -, x, y, hx, hy, -⟩
        cases (same x y hx hy).2
      | some head =>
        dsimp only at run
        split at run
        next equal =>
          split at run
          next complete =>
            obtain rfl := Except.ok.inj run
            simp only [Bool.and_eq_true, Bool.not_eq_true'] at complete
            exact .inr ⟨rfl, notBase, notHead, base, head, hb, hh, equal, complete⟩
          next cut =>
            obtain rfl := Except.ok.inj run
            refine .inl ⟨_, rfl, ?_, rfl, rfl, rfl, .inr ⟨rfl, rfl⟩⟩
            rintro ⟨-, -, x, y, hx, hy, -, whole, whole'⟩
            obtain ⟨⟨⟩, ⟨⟩⟩ := same x y hx hy
            exact cut (by simp [whole, whole'])
        next differ =>
          obtain rfl := Except.ok.inj run
          refine .inl ⟨_, rfl, ?_, rfl, rfl, rfl, .inl ⟨rfl, ?_, notBase, notHead⟩⟩
          · rintro ⟨-, -, x, y, hx, hy, equal, -⟩
            obtain ⟨⟨⟩, ⟨⟩⟩ := same x y hx hy
            exact differ equal
          · unfold changedOnBothSides
            dsimp only
            split
            · exact .inr rfl
            · exact .inl rfl

theorem Follows.shared (follows : o.Follows p) {s : Text} (base : s ∈ p.unpairedBase) (head : s ∈ p.unpairedHead)
    (run : p.pairShared s = .ok q) : o.Follows q ∧ (∀ t, t ∈ q.unpairedBase ↔ t ∈ p.unpairedBase ∧ t ∉ [s]) ∧
      ∀ t, t ∈ q.unpairedHead ↔ t ∈ p.unpairedHead ∧ t ∉ [s] := by
  have baseOld := follows.unpairedBase s base
  have headOld := follows.unpairedHead s head
  rcases pairShared_cases run with ⟨e, rfl, changed, eBase, eHead, -, sided⟩ | ⟨rfl, one, one', sources⟩
  · have candidates : ∀ t ∈ e.uncertainCandidates.map (·.symbol.selector), t = s ∨ t = s := by
      intro t mem
      rcases sided with ⟨none, -⟩ | ⟨-, both⟩
      · simp [none] at mem
      · have selectors : e.uncertainCandidates.map (·.symbol.selector) = [s, s] := by
          have both := congrArg (List.map SymbolRef.selector) both
          rwa [List.map_map] at both
        rw [selectors] at mem
        simpa using mem
    have emits := emits_pair base head eBase eHead candidates
    refine ⟨follows.emits emits ?_ ?_ (fun _ _ => id) (fun _ _ => id), emits.unpairedBase, emits.unpairedHead⟩
    · rw [follows.base] at eBase sided
      rw [follows.head] at eHead sided
      rcases sided with ⟨none, status | status, -⟩ | ⟨status, both⟩ <;> simp only [Agrees, status]
      · exact ⟨none, s, baseOld, headOld, eBase, eHead⟩
      · exact ⟨none, s, baseOld, headOld, eBase, eHead⟩
      · exact .inl ⟨s, baseOld, headOld, eBase, eHead, both⟩
    · intro t named same
      obtain rfl : t = s := by simpa using (emits.mentions t).mp named
      obtain ⟨-, -, unchanged⟩ := same
      rw [← sourceOf_eq follows, ← follows.base, ← follows.head] at unchanged
      exact changed unchanged
  · refine ⟨⟨follows.comparison, follows.base, follows.head, ?_, ?_, follows.agrees, ?_⟩, fun _ => mem_erase,
      fun _ => mem_erase⟩
    · exact fun t mem => follows.unpairedBase t (mem_erase.mp mem).1
    · exact fun t mem => follows.unpairedHead t (mem_erase.mp mem).1
    · have same : (p.without s s).ledger = ⟨p.ledger.pending \ {s}, p.symbols⟩ := by
        unfold ledger without
        congr 1
        ext t
        simp only [Set.mem_ofPred_eq, mem_erase, Set.mem_sdiff, Set.mem_singleton_iff, List.mem_singleton]
        tauto
      rw [follows.base, follows.head, sourceOf_eq follows] at *
      exact same ▸ follows.booked.tail (.drop p.ledger s ⟨baseOld, headOld, one, one', sources⟩)

/-- After the first rung the sides have nothing unpaired in common. -/
theorem Follows.sameSelector (follows : o.Follows o) (run : o.pairSameSelector = .ok q) : o.Follows q ∧ o.Apart q := by
  unfold pairSameSelector at run
  have mem : ∀ s, s ∈ (o.unpairedBase.toList.filter fun selector => selector ∈ o.unpairedHead) ↔
      s ∈ o.unpairedBase ∧ s ∈ o.unpairedHead := by
    intro s
    rw [List.mem_filter, Std.TreeSet.mem_toList, decide_eq_true_iff]
  -- what is left of the list is still unpaired on both sides, and nothing else of both sides is
  suffices walk : ∀ (rest : List Text) (p : Pairer), rest.Nodup → o.Follows p →
      (∀ s ∈ rest, s ∈ p.unpairedBase ∧ s ∈ p.unpairedHead) →
      (∀ s ∈ p.unpairedBase, s ∈ o.unpairedHead → s ∈ rest) → (∀ s ∈ p.unpairedHead, s ∈ o.unpairedBase → s ∈ rest) →
      rest.foldlM pairShared p = .ok q → o.Follows q ∧ o.Apart q by
    refine walk _ o ?_ follows (fun s => (mem s).mp) (fun s b h => (mem s).mpr ⟨b, h⟩)
      (fun s h b => (mem s).mpr ⟨b, h⟩) run
    exact (Std.TreeSet.distinct_toList.imp fun apart => mt Std.LawfulEqCmp.compare_eq_iff_eq.mpr apart).filter _
  intro rest
  induction rest with
  | nil =>
    intro p _ follows _ base head run
    obtain rfl := Except.ok.inj run
    exact ⟨follows, fun s mem other => List.not_mem_nil (base s mem other),
      fun s mem other => List.not_mem_nil (head s mem other)⟩
  | cons s rest ih =>
    intro p distinct follows pending base head run
    obtain ⟨fresh, distinct⟩ := List.nodup_cons.mp distinct
    obtain ⟨p', first, run⟩ := bind_eq_ok.mp run
    obtain ⟨hb, hh⟩ := pending s List.mem_cons_self
    obtain ⟨follows', base', head'⟩ := follows.shared hb hh first
    refine ih p' distinct follows' (fun t mem => ?_) (fun t mem other => ?_) (fun t mem other => ?_) run
    · have different : t ∉ [s] := fun same => fresh (List.mem_singleton.mp same ▸ mem)
      obtain ⟨tb, th⟩ := pending t (List.mem_cons_of_mem s mem)
      exact ⟨(base' t).mpr ⟨tb, different⟩, (head' t).mpr ⟨th, different⟩⟩
    · obtain ⟨old, different⟩ := (base' t).mp mem
      exact (List.mem_cons.mp (base t old other)).resolve_left fun same => different (List.mem_singleton.mpr same)
    · obtain ⟨old, different⟩ := (head' t).mp mem
      exact (List.mem_cons.mp (head t old other)).resolve_left fun same => different (List.mem_singleton.mpr same)

/-! ### The emitters of the later rungs -/

/-- A step of a later rung takes some selectors of each side. -/
structure Takes (o p q : Pairer) (bases heads : List Text) : Prop where
  follows : o.Follows q
  apart : o.Apart q
  base : ∀ s, s ∈ q.unpairedBase ↔ s ∈ p.unpairedBase ∧ s ∉ bases
  head : ∀ s, s ∈ q.unpairedHead ↔ s ∈ p.unpairedHead ∧ s ∉ heads

theorem Apart.busy (apart : o.Apart p) {s : Text} (mem : s ∈ p.unpairedBase ∨ s ∈ p.unpairedHead) :
    s ∉ o.Unchanged := by
  rintro ⟨base, head, -⟩
  rcases mem with mem | mem
  · exact apart.base s mem head
  · exact apart.head s mem base

theorem Takes.of_emits (follows : o.Follows p) (apart : o.Apart p) {bases heads : List Text}
    (emits : p.Emits q e bases heads) (agrees : o.Agrees e) : Takes o p q bases heads where
  follows := by
    refine follows.emits emits agrees (fun s named => apart.busy ?_) ?_ ?_
    · exact ((emits.mentions s).mp named).imp (emits.bases s) (emits.heads s)
    · exact fun s mem other => absurd (follows.unpairedHead s (emits.heads s other)) (apart.base s mem)
    · exact fun s mem other => absurd (follows.unpairedBase s (emits.bases s other)) (apart.head s mem)
  apart := ⟨fun s mem => apart.base s ((emits.unpairedBase s).mp mem).1,
    fun s mem => apart.head s ((emits.unpairedHead s).mp mem).1⟩
  base := emits.unpairedBase
  head := emits.unpairedHead

theorem Takes.of_pair (follows : o.Follows p) (apart : o.Apart p) {b h : Text} (base : b ∈ p.unpairedBase)
    (head : h ∈ p.unpairedHead) (eBase : e.base = some (p.base.symbolRef b))
    (eHead : e.head = some (p.head.symbolRef h)) (candidates : e.uncertainCandidates = [])
    (status : e.status = .moved ∨ e.status = .renamed) : Takes o p ((p.without b h).push e) [b] [h] := by
  refine .of_emits follows apart (emits_pair base head eBase eHead (by simp [candidates])) ?_
  rw [follows.base] at eBase
  rw [follows.head] at eHead
  have sides : e.uncertainCandidates = [] ∧
      (∃ s ∈ o.unpairedBase, s ∉ o.unpairedHead ∧ e.base = some (o.base.symbolRef s)) ∧
      ∃ s ∈ o.unpairedHead, s ∉ o.unpairedBase ∧ e.head = some (o.head.symbolRef s) :=
    ⟨candidates, ⟨b, follows.unpairedBase b base, apart.base b base, eBase⟩,
      ⟨h, follows.unpairedHead h head, apart.head h head, eHead⟩⟩
  rcases status with status | status <;> simpa only [Agrees, status] using sides

/-- The candidates of a group are what of it was unpaired. -/
theorem takeCandidates_spec (inventory : SideInventory) (reason : Text) (pending : Std.TreeSet Text) (xs : List Text) :
    (∀ s, s ∈ (takeCandidates inventory reason pending xs).1 ↔ s ∈ pending ∧ s ∉ xs) ∧
    (∀ s, s ∈ (takeCandidates inventory reason pending xs).2.map (·.symbol.selector) ↔ s ∈ pending ∧ s ∈ xs) ∧
    ∀ c ∈ (takeCandidates inventory reason pending xs).2, ∃ s ∈ pending, c.symbol = inventory.symbolRef s := by
  induction xs using List.reverseRecOn with
  | nil => simp [takeCandidates]
  | append_singleton xs x ih =>
    obtain ⟨left, taken, refs⟩ := ih
    simp only [takeCandidates, List.foldl_append, List.foldl_cons, List.foldl_nil] at left taken refs ⊢
    split
    next there =>
      obtain ⟨mem, -⟩ := (left x).mp there
      refine ⟨fun s => ?_, fun s => ?_, fun c found => ?_⟩
      · rw [mem_erase, left s, List.mem_append, not_or, and_assoc]
      · rw [List.map_append, List.mem_append, taken s, List.mem_append]
        simp only [List.map_cons, List.map_nil, List.mem_singleton, SideInventory.symbolRef]
        constructor
        · rintro (⟨known, old⟩ | rfl)
          · exact ⟨known, .inl old⟩
          · exact ⟨mem, .inr rfl⟩
        · rintro ⟨known, old | new⟩
          · exact .inl ⟨known, old⟩
          · exact .inr new
      · rcases List.mem_append.mp found with old | new
        · exact refs c old
        · obtain rfl := List.mem_singleton.mp new
          exact ⟨x, mem, rfl⟩
    next gone =>
      have absent : x ∈ pending → x ∈ xs := fun mem => by_contra fun out => gone ((left x).mpr ⟨mem, out⟩)
      refine ⟨fun s => ?_, fun s => ?_, refs⟩
      · rw [left s, List.mem_append, not_or]
        refine and_congr_right fun mem => ⟨fun out => ⟨out, fun same => ?_⟩, And.left⟩
        obtain rfl := List.mem_singleton.mp same
        exact out (absent mem)
      · rw [taken s, List.mem_append]
        refine and_congr_right fun mem => ⟨.inl, fun either => either.elim id fun same => ?_⟩
        obtain rfl := List.mem_singleton.mp same
        exact absent mem

theorem Takes.of_emitUncertainGroup (follows : o.Follows p) (apart : o.Apart p) {bases heads : List Text}
    (base : ∀ s ∈ bases, s ∈ p.unpairedBase) (head : ∀ s ∈ heads, s ∈ p.unpairedHead) (kind : FileChangeKind)
    (reason : Text) : Takes o p (p.emitUncertainGroup bases heads kind reason) bases heads := by
  obtain ⟨leftBase, takenBase, refsBase⟩ := takeCandidates_spec p.base reason p.unpairedBase bases
  obtain ⟨leftHead, takenHead, refsHead⟩ := takeCandidates_spec p.head reason p.unpairedHead heads
  unfold emitUncertainGroup
  dsimp only
  split
  next none =>
    -- both groups are empty
    have noBase : bases = [] := by
      rw [List.append_eq_nil_iff] at none
      refine List.eq_nil_iff_forall_not_mem.mpr fun s mem => ?_
      have := (takenBase s).mpr ⟨base s mem, mem⟩
      simp [none.1] at this
    have noHead : heads = [] := by
      rw [List.append_eq_nil_iff] at none
      refine List.eq_nil_iff_forall_not_mem.mpr fun s mem => ?_
      have := (takenHead s).mpr ⟨head s mem, mem⟩
      simp [none.2] at this
    subst noBase noHead
    exact ⟨follows, apart, fun s => by simp [takeCandidates], fun s => by simp [takeCandidates]⟩
  next some =>
    refine .of_emits follows apart ⟨rfl, rfl, rfl, rfl, leftBase, leftHead, fun s => ?_, base, head⟩ ?_
    · simp only [ChangedSymbol.Mentions, List.map_append, List.mem_append, takenBase, takenHead, Option.mem_def,
        reduceCtorEq, false_and, exists_false, false_or]
      constructor
      · exact Or.imp And.right And.right
      · exact Or.imp (fun mem => ⟨base s mem, mem⟩) fun mem => ⟨head s mem, mem⟩
    · refine .inr ⟨rfl, rfl, some, fun c mem => ?_⟩
      rcases List.mem_append.mp mem with mem | mem
      · obtain ⟨s, there, ref⟩ := refsBase c mem
        exact .inl ⟨s, follows.unpairedBase s there, apart.base s there, follows.base ▸ ref⟩
      · obtain ⟨s, there, ref⟩ := refsHead c mem
        exact .inr ⟨s, follows.unpairedHead s there, apart.head s there, follows.head ▸ ref⟩

theorem Takes.of_group {κ : Type} {step : GroupStep} {emit : Pairer → κ → List Text → List Text → Except ChangesError Pairer}
    (emits : TakesGroups step emit) (follows : o.Follows p) (apart : o.Apart p) {k : κ} {bases heads : List Text}
    (base : ∀ s ∈ bases, s ∈ p.unpairedBase) (head : ∀ s ∈ heads, s ∈ p.unpairedHead)
    (run : emit p k bases heads = .ok q) : Takes o p q bases heads := by
  rcases emits p k bases heads q run with ⟨b, h, e, rfl, rfl, rfl, entry, candidates⟩ | ⟨-, kind, reason, rfl⟩
  · refine .of_pair follows apart (base b List.mem_cons_self) (head h List.mem_cons_self) entry.base entry.head candidates ?_
    rw [entry.status]
    cases step <;> simp [GroupStep.status]
  · exact .of_emitUncertainGroup follows apart base head kind reason

section Groups

variable {κ : Type} [Ord κ] [Std.TransOrd κ] [Std.LawfulEqOrd κ]

variable {emit : Pairer → κ → List Text → List Text → Except ChangesError Pairer}

variable {baseGroups headGroups : Std.TreeMap κ (List Text)}

variable (takes : ∀ p q k bases heads, o.Follows p → o.Apart p → (∀ s ∈ bases, s ∈ p.unpairedBase) →
  (∀ s ∈ heads, s ∈ p.unpairedHead) → emit p k bases heads = .ok q → Takes o p q bases heads)

include takes

/-- The groups of two keys are disjoint, so each of them is still unpaired when its turn comes. -/
theorem Follows.overGroups (follows : o.Follows p) (apart : o.Apart p)
    (baseKey headKey : Text → Option κ)
    (base : ∀ k bases, (k, bases) ∈ baseGroups.toList → ∀ s ∈ bases, s ∈ p.unpairedBase ∧ baseKey s = some k)
    (head : ∀ k heads, headGroups[k]? = some heads → ∀ s ∈ heads, s ∈ p.unpairedHead ∧ headKey s = some k)
    (run : p.overGroups emit baseGroups headGroups = .ok q) : o.Follows q ∧ o.Apart q := by
  unfold Pairer.overGroups at run
  have distinct : baseGroups.toList.Pairwise fun a b => a.1 ≠ b.1 :=
    Std.TreeMap.distinct_keys_toList.imp fun different => mt Std.LawfulEqCmp.compare_eq_iff_eq.mpr different
  replace head : ∀ group ∈ baseGroups.toList, ∀ heads, headGroups[group.1]? = some heads →
      ∀ s ∈ heads, s ∈ p.unpairedHead ∧ headKey s = some group.1 := fun group _ heads => head group.1 heads
  replace base : ∀ group ∈ baseGroups.toList, ∀ s ∈ group.2, s ∈ p.unpairedBase ∧ baseKey s = some group.1 :=
    fun group => base group.1 group.2
  generalize baseGroups.toList = rest at run distinct head base
  induction rest generalizing p with
  | nil =>
    obtain rfl := Except.ok.inj run
    exact ⟨follows, apart⟩
  | cons group rest ih =>
    obtain ⟨different, distinct⟩ := List.pairwise_cons.mp distinct
    obtain ⟨p', first, run⟩ := bind_eq_ok.mp run
    cases found : headGroups[group.1]? with
    | none =>
      simp only [found] at first
      obtain rfl := Except.ok.inj first
      exact ih follows apart run distinct (fun other mem => head other (List.mem_cons_of_mem group mem))
        fun other mem => base other (List.mem_cons_of_mem group mem)
    | some headSelectors =>
      simp only [found] at first
      have taken := takes p p' _ _ _ follows apart (fun s mem => (base group List.mem_cons_self s mem).1)
        (fun s mem => (head group List.mem_cons_self _ found s mem).1) first
      refine ih taken.follows taken.apart run distinct ?_ ?_
      · intro other mem selectors found' s inside
        obtain ⟨there, key⟩ := head other (List.mem_cons_of_mem group mem) selectors found' s inside
        refine ⟨(taken.head s).mpr ⟨there, fun inside' => ?_⟩, key⟩
        have key' := (head group List.mem_cons_self _ found s inside').2
        exact different other mem (Option.mem_unique key' key)
      · intro other mem s inside
        obtain ⟨there, key⟩ := base other (List.mem_cons_of_mem group mem) s inside
        refine ⟨(taken.base s).mpr ⟨there, fun inside' => ?_⟩, key⟩
        have key' := (base group List.mem_cons_self s inside').2
        exact different other mem (Option.mem_unique key' key)

variable [DecidableEq κ]

theorem Follows.groups (follows : o.Follows p) (apart : o.Apart p)
    {baseKey headKey : Text → Option κ} {bases heads : List Text} (base : ∀ s ∈ bases, s ∈ p.unpairedBase)
    (head : ∀ s ∈ heads, s ∈ p.unpairedHead)
    (onBase : ∀ k : κ, baseGroups[k]? = (Lib.groups baseKey bases)[k]?)
    (onHead : ∀ k : κ, headGroups[k]? = (Lib.groups headKey heads)[k]?)
    (run : p.overGroups emit baseGroups headGroups = .ok q) : o.Follows q ∧ o.Apart q := by
  refine follows.overGroups takes apart baseKey headKey ?_ ?_ run
  · intro k group mem s inside
    rw [Std.TreeMap.mem_toList_iff_getElem?_eq_some, onBase] at mem
    rw [getElem?_groups mem, List.mem_filter, decide_eq_true_iff] at inside
    exact ⟨base s inside.1, inside.2⟩
  · intro k group found s inside
    rw [onHead] at found
    rw [getElem?_groups found, List.mem_filter, decide_eq_true_iff] at inside
    exact ⟨head s inside.1, inside.2⟩

end Groups

theorem follows_foldlM {α : Type} {f : Pairer → α → Except ChangesError Pairer} {as : List α}
    (step : ∀ p a q, o.Follows p → o.Apart p → f p a = .ok q → o.Follows q ∧ o.Apart q) (follows : o.Follows p)
    (apart : o.Apart p) (run : as.foldlM f p = .ok q) : o.Follows q ∧ o.Apart q :=
  foldlM_keeps (P := fun p => o.Follows p ∧ o.Apart p) (fun p a q _ both => step p a q both.1 both.2) ⟨follows, apart⟩
    run

section Rungs

variable (baseSide : o.base.side = .base) (headSide : o.head.side = .head)

include baseSide headSide

theorem Follows.take (follows : o.Follows p) (apart : o.Apart p) (step : GroupStep) (run : p.take step = .ok q) :
    o.Follows q ∧ o.Apart q := by
  refine groups_of_take run fun baseKey headKey emits onBase onHead _ run => ?_
  refine follows.groups (fun p q k bases heads follows apart base head run => .of_group emits follows apart base head run) apart
    (fun s mem => ?_) (fun s mem => ?_) onBase onHead run
  · have pending := (List.mem_filter.mp mem).2
    rw [follows.base, if_pos baseSide] at pending
    exact of_decide_eq_true pending
  · have pending := (List.mem_filter.mp mem).2
    rw [follows.head, if_neg (by rw [headSide]; exact nofun)] at pending
    exact of_decide_eq_true pending

theorem Follows.acrossRenamedFiles (follows : o.Follows p) (apart : o.Apart p)
    (run : p.pairAcrossRenamedFiles = .ok q) : o.Follows q ∧ o.Apart q := by
  refine follows_foldlM (fun p files q follows apart run => ?_) follows apart run
  obtain ⟨p', moved, run⟩ := bind_eq_ok.mp run
  obtain ⟨follows', apart'⟩ := follows.take baseSide headSide apart (.moved files.1 files.2.1 files.2.2) moved
  exact follows'.take baseSide headSide apart' (.renamed files.1 files.2.1 files.2.2) run

theorem Follows.renamedByBodyHash (follows : o.Follows p) (apart : o.Apart p)
    (run : p.pairRenamedByBodyHash = .ok q) : o.Follows q ∧ o.Apart q :=
  follows_foldlM (fun _ file _ follows apart run => follows.take baseSide headSide apart (.bodies file.1 file.2) run)
    follows apart run

omit baseSide headSide in
theorem Follows.uncertainCrossPath (follows : o.Follows p) (apart : o.Apart p)
    (run : p.pairUncertainCrossPath = .ok q) : o.Follows q ∧ o.Apart q := by
  refine follows.groups (fun p q k bases heads follows apart base head run => ?_) apart
    (fun s => Std.TreeSet.mem_toList.mp) (fun s => Std.TreeSet.mem_toList.mp) (fun _ => rfl) (fun _ => rfl) run
  exact Except.ok.inj run ▸ .of_emitUncertainGroup follows apart base head _ _

end Rungs

/-! ### The last rung -/

theorem removedSymbol_mentions (s t : Text) : (p.removedSymbol s).Mentions t ↔ t = s := by
  simp [removedSymbol, ChangedSymbol.Mentions, SideInventory.symbolRef, eq_comm]

theorem addedSymbol_mentions (s t : Text) : (p.addedSymbol s).Mentions t ↔ t = s := by
  simp [addedSymbol, ChangedSymbol.Mentions, SideInventory.symbolRef, eq_comm]

/-- What is left is removed or added, and then nothing is left. -/
theorem Follows.unpaired (follows : o.Follows p) (apart : o.Apart p) :
    o.Follows p.emitUnpaired ∧ p.emitUnpaired.ledger.pending = ∅ := by
  have none : p.emitUnpaired.ledger.pending = ∅ := by
    ext s
    simp [ledger, emitUnpaired]
  have distinct : ∀ pending : Std.TreeSet Text, pending.toList.Nodup := fun pending =>
    Std.TreeSet.distinct_toList.imp fun different => mt Std.LawfulEqCmp.compare_eq_iff_eq.mpr different
  refine ⟨⟨follows.comparison, follows.base, follows.head, ?_, ?_, ?_, ?_⟩, none⟩
  · intro s mem
    simp [emitUnpaired] at mem
  · intro s mem
    simp [emitUnpaired] at mem
  · intro e mem
    rcases List.mem_append.mp mem with mem | mem
    · rcases List.mem_append.mp mem with mem | mem
      · exact follows.agrees e mem
      · obtain ⟨s, left, rfl⟩ := List.mem_map.mp mem
        have left := Std.TreeSet.mem_toList.mp left
        exact ⟨rfl, rfl, s, follows.unpairedBase s left, apart.base s left, follows.base ▸ rfl⟩
    · obtain ⟨s, left, rfl⟩ := List.mem_map.mp mem
      have left := Std.TreeSet.mem_toList.mp left
      exact ⟨rfl, rfl, s, follows.unpairedHead s left, apart.head s left, follows.head ▸ rfl⟩
  · let left : Set Text := {s ∈ p.ledger.pending | s ∉ p.unpairedBase.toList}
    let entries := p.symbols ++ p.unpairedBase.toList.map p.removedSymbol
    have removed : Ledger.Steps ChangedSymbol.Mentions o.Unchanged p.ledger ⟨left, entries⟩ := by
      refine .book_each removedSymbol_mentions (distinct p.unpairedBase) fun s mem => ?_
      have base := Std.TreeSet.mem_toList.mp mem
      exact ⟨.inl base, apart.busy (.inl base)⟩
    have added : Ledger.Steps ChangedSymbol.Mentions o.Unchanged ⟨left, entries⟩
        ⟨{s ∈ left | s ∉ p.unpairedHead.toList}, entries ++ p.unpairedHead.toList.map p.addedSymbol⟩ := by
      refine .book_each addedSymbol_mentions (distinct p.unpairedHead) fun s mem => ?_
      have head := Std.TreeSet.mem_toList.mp mem
      refine ⟨⟨.inr head, fun other => ?_⟩, apart.busy (.inr head)⟩
      exact apart.base s (Std.TreeSet.mem_toList.mp other) (follows.unpairedHead s head)
    have same : p.emitUnpaired.ledger =
        ⟨{s ∈ left | s ∉ p.unpairedHead.toList}, entries ++ p.unpairedHead.toList.map p.addedSymbol⟩ := by
      rw [Ledger.mk.injEq]
      refine ⟨?_, rfl⟩
      rw [none]
      ext s
      simp only [left, Set.mem_empty_iff_false, false_iff, Set.mem_ofPred_eq, Std.TreeSet.mem_toList, not_and, not_not]
      exact fun mem => mem.1.resolve_left mem.2
    exact same ▸ follows.booked.trans (removed.trans added)

end Pairer

/-! ### The changed files -/

def ChangedFiles.TouchesBase (files : ChangedFiles) (base : SideInventory) (s : Text) : Prop :=
  ∃ delta ∈ files.deltas, ∃ path ∈ delta.basePath, s ∈ base.selectorsIn path

def ChangedFiles.TouchesHead (files : ChangedFiles) (head : SideInventory) (s : Text) : Prop :=
  ∃ delta ∈ files.deltas, ∃ path ∈ delta.headPath, s ∈ head.selectorsIn path

structure ChangedFiles.Indexed (files : ChangedFiles) : Prop where
  base : ∀ path, path ∈ files.basePaths ↔ ∃ delta ∈ files.deltas, path ∈ delta.basePath
  head : ∀ path, path ∈ files.headPaths ↔ ∃ delta ∈ files.deltas, path ∈ delta.headPath

theorem mem_keys_elim {index : Std.TreeMap Text Nat} {at_ : Nat} {added : Option Text} {path : Text} :
    path ∈ (added.elim index fun path => index.insert path at_).keys ↔ path ∈ index.keys ∨ path ∈ added := by
  cases added with
  | none => simp
  | some new =>
    simp only [Option.elim_some, Std.TreeMap.mem_keys, Std.TreeMap.mem_insert, Std.LawfulEqCmp.compare_eq_iff_eq,
      Option.mem_some_iff]
    tauto

theorem changedFiles_indexed (deltas : List GitDelta) : (changedFiles deltas).Indexed := by
  unfold changedFiles
  suffices step : ∀ files : ChangedFiles, files.Indexed → (deltas.foldl (fun files delta =>
      if isScratch delta then files
      else
        let delta := fileDelta delta
        if delta.basePath = none ∧ delta.headPath = none then files else files.push delta) files).Indexed by
    refine step _ ⟨fun path => ?_, fun path => ?_⟩ <;>
      simp [ChangedFiles.empty, ChangedFiles.basePaths, ChangedFiles.headPaths]
  induction deltas with
  | nil => exact fun files indexed => indexed
  | cons delta rest ih =>
    intro files indexed
    refine ih _ ?_
    dsimp only
    split
    next => exact indexed
    next =>
      split
      next => exact indexed
      next =>
        constructor
        · intro path
          have old := indexed.base path
          simp only [ChangedFiles.push, ChangedFiles.basePaths, List.mem_append, List.mem_singleton] at old ⊢
          rw [mem_keys_elim, old]
          simp [or_and_right, exists_or]
        · intro path
          have old := indexed.head path
          simp only [ChangedFiles.push, ChangedFiles.headPaths, List.mem_append, List.mem_singleton] at old ⊢
          rw [mem_keys_elim, old]
          simp [or_and_right, exists_or]

variable {inventory : SideInventory}

theorem mem_candidateSelectors {paths : List Text} {s : Text} :
    s ∈ candidateSelectors inventory paths ↔ ∃ path ∈ paths, s ∈ inventory.selectorsIn path := by
  have inner : ∀ (selectors : List Text) (known : Std.TreeSet Text),
      s ∈ selectors.foldl (fun known t => known.insert t) known ↔ s ∈ known ∨ s ∈ selectors := by
    intro selectors
    induction selectors with
    | nil => simp
    | cons t rest ih =>
      intro known
      rw [List.foldl_cons, ih, Std.TreeSet.mem_insert, Std.LawfulEqCmp.compare_eq_iff_eq, List.mem_cons]
      tauto
  unfold candidateSelectors
  suffices outer : ∀ known : Std.TreeSet Text, s ∈ paths.foldl (fun selectors path =>
      (inventory.selectorsIn path).foldl (fun selectors s => selectors.insert s) selectors) known ↔
        s ∈ known ∨ ∃ path ∈ paths, s ∈ inventory.selectorsIn path by
    simpa using outer ∅
  induction paths with
  | nil => simp
  | cons path rest ih =>
    intro known
    rw [List.foldl_cons, ih, inner]
    simp [or_assoc]

theorem ofFiles_side (side : SnapshotSide) (commitSha : Text) (files : List OverviewFile) :
    (SideInventory.ofFiles side commitSha files).side = side := by
  have addSymbols : ∀ (path : Text) (symbols : List OverviewSymbol) (inventory : SideInventory),
      (symbols.foldl (SideInventory.addSymbol path) inventory).side = inventory.side := by
    intro path symbols
    induction symbols with
    | nil => exact fun _ => rfl
    | cons symbol rest ih =>
      intro inventory
      rw [List.foldl_cons, ih]
      unfold SideInventory.addSymbol
      dsimp only
      split <;> rfl
  unfold SideInventory.ofFiles
  suffices all : ∀ inventory : SideInventory, (files.foldl SideInventory.addFile inventory).side = inventory.side from
    all _
  induction files with
  | nil => exact fun _ => rfl
  | cons file rest ih =>
    intro inventory
    rw [List.foldl_cons, ih]
    exact addSymbols file.path file.symbols _

theorem load_side {side : SnapshotSide} {snapshot : Snapshot}
    (load : SideInventory.load side snapshot = .ok inventory) : inventory.side = side := by
  unfold SideInventory.load at load
  split at load
  next => cases load
  next => exact Except.ok.inj load ▸ ofFiles_side ..

/-! ### Conservation -/

theorem Pairer.Follows.all {o p : Pairer} (baseSide : o.base.side = .base) (headSide : o.head.side = .head)
    (start : o.symbols = []) (run : o.pairAll = .ok p) : o.Follows p ∧ o.Apart p := by
  obtain ⟨p₁, first, run⟩ := bind_eq_ok.mp run
  obtain ⟨p₂, second, run⟩ := bind_eq_ok.mp run
  obtain ⟨p₃, third, run⟩ := bind_eq_ok.mp run
  obtain ⟨follows, apart⟩ := (Follows.refl start).sameSelector first
  obtain ⟨follows, apart⟩ := follows.acrossRenamedFiles baseSide headSide apart second
  obtain ⟨follows, apart⟩ := follows.renamedByBodyHash baseSide headSide apart third
  exact follows.uncertainCrossPath apart run

/-- What a computation that succeeds has read and done. -/
structure Computed (comparison : Comparison) (result : ChangedSymbols) (deltas : List GitDelta)
    (base head : SideInventory) (p : Pairer) : Prop where
  diffed : comparison.deltas = .ok deltas
  loadBase : SideInventory.load .base comparison.base = .ok base
  loadHead : SideInventory.load .head comparison.head = .ok head
  paired : (Pairer.new comparison (changedFiles deltas) base head).pairAll = .ok p
  symbols : result.symbols = p.emitUnpaired.symbols.mergeSort entryBefore
  outOfScope : result.outOfScope = outOfScope comparison (changedFiles deltas) base head

variable {comparison : Comparison} {result : ChangedSymbols}

theorem compute_eq_ok (run : ChangedSymbols.compute comparison = .ok result) :
    ∃ deltas base head p, Computed comparison result deltas base head p := by
  obtain ⟨deltas, diffed, run⟩ := bind_eq_ok.mp run
  obtain ⟨base, loadBase, run⟩ := bind_eq_ok.mp run
  obtain ⟨head, loadHead, run⟩ := bind_eq_ok.mp run
  obtain ⟨p, paired, run⟩ := bind_eq_ok.mp run
  obtain rfl := Except.ok.inj run
  exact ⟨deltas, base, head, p, diffed, loadBase, loadHead, paired, rfl, rfl⟩

variable {deltas : List GitDelta} {base head : SideInventory} {p : Pairer}

theorem Computed.mem_symbols (computed : Computed comparison result deltas base head p)
    {e : ChangedSymbol} : e ∈ result.symbols ↔ e ∈ p.emitUnpaired.symbols := by
  rw [computed.symbols]
  exact List.mem_mergeSort

theorem Computed.follows (computed : Computed comparison result deltas base head p) :
    let start := Pairer.new comparison (changedFiles deltas) base head
    start.Follows p ∧ start.Apart p :=
  Pairer.Follows.all (load_side computed.loadBase) (load_side computed.loadHead) rfl computed.paired

/-- A selector that starts unpaired is in one entry, or it is unchanged and in none. -/
theorem Computed.countP_mentions (computed : Computed comparison result deltas base head p) (s : Text) :
    let start := Pairer.new comparison (changedFiles deltas) base head
    (s ∈ start.unpairedBase ∨ s ∈ start.unpairedHead → s ∉ start.Unchanged → result.symbols.countP (·.Mentions s) = 1) ∧
      (s ∈ start.Unchanged ∨ ¬ (s ∈ start.unpairedBase ∨ s ∈ start.unpairedHead) →
        result.symbols.countP (·.Mentions s) = 0) := by
  obtain ⟨follows, none⟩ := computed.follows.1.unpaired computed.follows.2
  have balanced : p.emitUnpaired.ledger.Balanced ChangedSymbol.Mentions
      (Pairer.new comparison (changedFiles deltas) base head).Unchanged _ := (Ledger.Balanced.initial _).steps follows.booked
  rw [computed.symbols, (List.mergeSort_perm p.emitUnpaired.symbols entryBefore).countP_eq]
  exact ⟨balanced.count_eq_one none, balanced.unbooked s⟩

theorem Computed.agrees (computed : Computed comparison result deltas base head p) :
    ∀ e ∈ result.symbols, (Pairer.new comparison (changedFiles deltas) base head).Agrees e :=
  fun e mem => (computed.follows.1.unpaired computed.follows.2).1.agrees e (computed.mem_symbols.mp mem)

/-- **Changed symbols are conserved**: every selector in a changed file of either side is mentioned by
exactly one entry, or it is unchanged and by none; and an entry has the sides that its status says. -/
theorem symbols_conserved {comparison : Comparison} {result : ChangedSymbols}
    (run : ChangedSymbols.compute comparison = .ok result) : ∃ deltas base head,
      comparison.deltas = .ok deltas ∧ SideInventory.load .base comparison.base = .ok base ∧
      SideInventory.load .head comparison.head = .ok head ∧
      let files := changedFiles deltas
      let start := Pairer.new comparison files base head
      (∀ s, (s ∈ start.unpairedBase ↔ files.TouchesBase base s) ∧ (s ∈ start.unpairedHead ↔ files.TouchesHead head s)) ∧
      (∀ s, files.TouchesBase base s ∨ files.TouchesHead head s → s ∉ start.Unchanged →
        result.symbols.countP (·.Mentions s) = 1) ∧
      (∀ s, s ∈ start.Unchanged ∨ ¬ (files.TouchesBase base s ∨ files.TouchesHead head s) →
        result.symbols.countP (·.Mentions s) = 0) ∧
      ∀ e ∈ result.symbols, start.Agrees e := by
  obtain ⟨deltas, base, head, p, computed⟩ := compute_eq_ok run
  have indexed := changedFiles_indexed deltas
  have touches : ∀ s, (s ∈ candidateSelectors base (changedFiles deltas).basePaths ↔
      (changedFiles deltas).TouchesBase base s) ∧ (s ∈ candidateSelectors head (changedFiles deltas).headPaths ↔
        (changedFiles deltas).TouchesHead head s) := by
    intro s
    have swap : ∀ {l : List FileDelta} {P : FileDelta → Text → Prop} {Q : Text → Prop},
        (∃ path, (∃ delta ∈ l, P delta path) ∧ Q path) ↔ ∃ delta ∈ l, ∃ path, P delta path ∧ Q path := by
      intro l P Q
      constructor
      · rintro ⟨path, ⟨delta, mem, here⟩, listed⟩
        exact ⟨delta, mem, path, here, listed⟩
      · rintro ⟨delta, mem, path, here, listed⟩
        exact ⟨path, ⟨delta, mem, here⟩, listed⟩
    simp only [mem_candidateSelectors, indexed.base, indexed.head, ChangedFiles.TouchesBase, ChangedFiles.TouchesHead]
    exact ⟨swap, swap⟩
  refine ⟨deltas, base, head, computed.diffed, computed.loadBase, computed.loadHead, touches, fun s mem => ?_, fun s out => ?_,
    computed.agrees⟩
  · exact (computed.countP_mentions s).1 (mem.imp (touches s).1.mpr (touches s).2.mpr)
  · exact (computed.countP_mentions s).2 (out.imp_right fun out mem => out (mem.imp (touches s).1.mp (touches s).2.mp))

namespace Sample

def snapshot (commitSha : Text) (files : List OverviewFile) : Snapshot :=
  ⟨commitSha, [], .ok files, fun _ _ => .ok none⟩

def method (name : Text) : OverviewSymbol := ⟨name, "T::" ++ name, "method"⟩

def selector (path name : Text) : Text := (Selector.symbol path ("T::" ++ name) "method").display

def renamedFile : Comparison where
  base := snapshot "aa" [⟨"a.rs", [method "keep", method "gone"]⟩]
  head := snapshot "bb" [⟨"b.rs", [method "keep"]⟩]
  deltas := .ok [⟨.renamed, some "a.rs", some "b.rs"⟩]

theorem symbols_conserved_renamed : ∃ result, ChangedSymbols.compute renamedFile = .ok result ∧
    result.symbols.countP (·.Mentions (selector "a.rs" "gone")) = 1 := by
  obtain ⟨result, run⟩ : ∃ result, ChangedSymbols.compute renamedFile = .ok result := ⟨_, rfl⟩
  obtain ⟨deltas, base, head, diffed, loadBase, loadHead, touches, once, -⟩ := symbols_conserved run
  obtain rfl := Except.ok.inj diffed
  obtain rfl := Except.ok.inj loadBase
  obtain rfl := Except.ok.inj loadHead
  refine ⟨result, run, once _ (.inl ((touches _).1.mp (by decide +kernel))) fun unchanged => ?_⟩
  exact absurd unchanged.2.1 (by decide +kernel)

end Sample

end OrbitGraph.Changes
