import Mathlib.Data.Finset.Basic
import OrbitGraph.History.Types
import OrbitGraph.Lib.Positions
import OrbitGraph.Lib.Ranking
import OrbitGraph.Lib.SortedMap
import OrbitGraph.Lib.Tally

/-!
Which locations change together.

The strongest selectors of the direct evidence are seeds. A seed predicts what occurs in
a delivery with it, and each destination keeps the best prediction. The source counts
over inverted lists and merges them; the plain definition asks of every seed and every
delivery.
-/

namespace OrbitGraph.Recommend

open Lib History

/-! ### The data -/

/-- What the pass reads of a delivery: the selectors of its locations, in order, and the deliveries it stands for. -/
structure DeliveryLocations where
  locations : List Text
  sourceDeliveryIds : List Text
  sorted : locations.Pairwise (· < ·)

/-- The arithmetic of scores, as far as the pass uses it. -/
structure ScoreArithmetic (F : Type) where
  zero : F
  add : F → F → F
  /-- `support / source_count` -/
  confidence : Nat → Nat → F
  /-- `confidence / (destination_count / history_total)` -/
  lift : F → Nat → Nat → F
  /-- `source_score * confidence * lift.ln_1p() * 0.25` -/
  contribution : F → F → F → F
  /-- `{:.3}` -/
  format : F → Text

structure RecommendationReason (F : Type) where
  kind : Text
  contribution : F
  explanation : Text

structure RecommendationAssociation (F : Type) where
  fromSelector : Text
  support : Nat
  sourceCount : Nat
  destinationCount : Nat
  confidence : F
  lift : F

/-- What the pass changes of an accumulator. -/
structure Accumulator (F : Type) where
  score : F
  reasons : List (RecommendationReason F)
  association : Option (RecommendationAssociation F)

/-- Best association found so far for one destination. -/
structure BestAssociation (F : Type) where
  contribution : F
  source : Text
  support : Nat
  sourceCount : Nat

/-- Seeds considered for directional co-change. -/
def associationSeedLimit : Nat := 256

variable {F : Type} [LinearOrder F] (arith : ScoreArithmetic F)

/-- The order of the seeds: strongest first, then by selector. -/
def Stronger (s t : Text × F) : Prop := t.2 < s.2 ∨ s.2 = t.2 ∧ s.1 < t.1

instance (s t : Text × F) : Decidable (Stronger s t) := inferInstanceAs (Decidable (_ ∨ _))

def seeds (direct : SortedMap Text F) : List (Text × F) :=
  ((direct.entries.filter fun entry => arith.zero < entry.2).insertionSort fun s t => ¬ Stronger t s).take
    associationSeedLimit

def pushRow (index : Nat) (rowsBySelector : Text → List Nat) (selector : Text) : Text → List Nat :=
  Function.update rowsBySelector selector (rowsBySelector selector ++ [index])

def rowsBySelector (rows : List DeliveryLocations) : Text → List Nat :=
  rows.zipIdx.foldl (fun lists row => row.1.locations.foldl (pushRow row.2) lists) fun _ => []

/-- The destinations beside a source, counted over its rows. -/
def supportOf (rows : List DeliveryLocations) (source : Text) (sourceRows : List Nat) : List (Text × Nat) :=
  sourceRows.foldl (fun support index =>
    match rows[index]? with
    | some row => row.locations.foldl (fun support destination =>
      if destination ≠ source then tally destination support else support) support
    | none => support) []

/-! ### The pass -/

def Replaces (contribution : F) (source : Text) : Option (BestAssociation F) → Prop
  | none => True
  | some current => current.contribution < contribution ∨ contribution = current.contribution ∧ source < current.source

instance (contribution : F) (source : Text) :
    ∀ current : Option (BestAssociation F), Decidable (Replaces contribution source current)
  | none => isTrue trivial
  | some _ => inferInstanceAs (Decidable (_ ∨ _))

/-- What a seed contributes to a destination that occurs with it so often. -/
def contributionOf (prevalence : Text → Nat) (historyTotal : Nat) (seed : Text × F) (destination : Text)
    (support : Nat) : F :=
  let confidence := arith.confidence support (prevalence seed.1)
  arith.contribution seed.2 confidence (arith.lift confidence (prevalence destination) historyTotal)

def consider (prevalence : Text → Nat) (historyTotal : Nat) (seed : Text × F)
    (best : Text → Option (BestAssociation F)) (entry : Text × Nat) : Text → Option (BestAssociation F) :=
  let contribution := contributionOf arith prevalence historyTotal seed entry.1 entry.2
  if Replaces contribution seed.1 (best entry.1) then
    Function.update best entry.1 (some ⟨contribution, seed.1, entry.2, prevalence seed.1⟩)
  else best

/-- One seed; `order` is the order in which its counts are iterated. -/
def considerSeed (rows : List DeliveryLocations) (prevalence : Text → Nat) (historyTotal : Nat)
    (order : Text → List (Text × Nat) → List (Text × Nat)) (best : Text → Option (BestAssociation F))
    (seed : Text × F) : Text → Option (BestAssociation F) :=
  match rowsBySelector rows seed.1 with
  | [] => best
  | sourceRows =>
    if prevalence seed.1 = 0 then best
    else (order seed.1 (supportOf rows seed.1 sourceRows)).foldl (consider arith prevalence historyTotal seed) best

/-- The delivery ids of some rows, in order and once each, with commas. -/
def joinIds (ids : List Text) : Text := Text.join ", " (ids.dedup.insertionSort (· ≤ ·))

def credit (prevalence : Text → Nat) (historyTotal : Nat) (destination : Text) (winner : BestAssociation F)
    (supportingSourceIds : Text) (entry : Option (Accumulator F)) : Accumulator F :=
  let confidence := arith.confidence winner.support winner.sourceCount
  let lift := arith.lift confidence (prevalence destination) historyTotal
  let before := entry.getD ⟨arith.zero, [], none⟩
  { score := arith.add before.score winner.contribution
    reasons := before.reasons ++
      [{ kind := "directional_cochange"
         contribution := winner.contribution
         explanation := winner.source ++ " predicts this destination with support " ++ decimal winner.support ++
          ", confidence " ++ arith.format confidence ++ ", lift " ++ arith.format lift ++
          "; source delivery IDs: " ++ supportingSourceIds }]
    association := some
      { fromSelector := winner.source, support := winner.support, sourceCount := winner.sourceCount,
        destinationCount := prevalence destination, confidence, lift } }

def supportingIds (rows : List DeliveryLocations) (source destination : Text) : Text :=
  joinIds ((intersectSorted (rowsBySelector rows source) (rowsBySelector rows destination)).flatMap fun index =>
    (rows[index]?.map DeliveryLocations.sourceDeliveryIds).getD [])

def addAssociations (rows : List DeliveryLocations) (prevalence : Text → Nat) (historyTotal : Nat)
    (order : Text → List (Text × Nat) → List (Text × Nat)) (direct : SortedMap Text F)
    (scored : Text → Option (Accumulator F)) : Text → Option (Accumulator F) :=
  let seeds := seeds arith direct
  if seeds.isEmpty then scored
  else
    let best := seeds.foldl (considerSeed arith rows prevalence historyTotal order) fun _ => none
    fun destination =>
      match best destination with
      | none => scored destination
      | some winner =>
        some (credit arith prevalence historyTotal destination winner (supportingIds rows winner.source destination)
          (scored destination))

section Rows

variable {rows : List DeliveryLocations} {source destination : Text}

def occurs (selector : Text) (row : DeliveryLocations) : Bool := decide (selector ∈ row.locations)

def together (rows : List DeliveryLocations) (source destination : Text) : Nat :=
  rows.countP fun row => occurs source row && occurs destination row

theorem locations_nodup (row : DeliveryLocations) : row.locations.Nodup := row.sorted.imp fun less => less.ne

theorem countP_locations (row : DeliveryLocations) (selector : Text) :
    row.locations.countP (fun s => decide (s = selector)) = if occurs selector row then 1 else 0 := by
  have counted : row.locations.countP (fun s => decide (s = selector)) = row.locations.count selector :=
    List.countP_congr fun s _ => by rw [decide_eq_true_eq, beq_iff_eq]
  rw [counted]
  by_cases mem : selector ∈ row.locations
  · have found : occurs selector row = true := decide_eq_true mem
    rw [List.count_eq_one_of_mem (locations_nodup row) mem, if_pos found]
  · have absent : ¬ occurs selector row = true := by simpa [occurs] using mem
    rw [List.count_eq_zero_of_not_mem mem, if_neg absent]

theorem pushRows_eq (row : DeliveryLocations) (index : Nat) (lists : Text → List Nat) (selector : Text) :
    row.locations.foldl (pushRow index) lists selector =
      if occurs selector row then lists selector ++ [index] else lists selector := by
  have pushed := foldl_update id (fun (list : List Nat) (_ : Text) => list ++ [index]) row.locations lists
    selector
  refine (show _ = _ from pushed).trans ?_
  have once : row.locations.filter (fun s => decide (id s = selector)) =
      List.replicate (row.locations.countP fun s => decide (s = selector)) selector := by
    rw [List.countP_eq_length_filter]
    exact List.eq_replicate_of_mem fun s mem => of_decide_eq_true (List.mem_filter.mp mem).2
  rw [once, countP_locations]
  split_ifs <;> rfl

theorem rowsBySelector_eq (rows : List DeliveryLocations) (selector : Text) :
    rowsBySelector rows selector = positions (occurs selector) rows := by
  induction rows using List.reverseRecOn with
  | nil => rfl
  | append_singleton rows row ih =>
    rw [positions_append_singleton, ← ih, rowsBySelector, List.zipIdx_append, List.foldl_append, Nat.zero_add]
    exact pushRows_eq row rows.length (rowsBySelector rows) selector

theorem rowsBySelector_rows (rows : List DeliveryLocations) (selector : Text) :
    (rowsBySelector rows selector).filterMap (fun i => rows[i]?) = rows.filter (occurs selector) := by
  rw [rowsBySelector_eq, filterMap_positions]

/-- The destinations beside a source are counted once for each row that both are in. -/
theorem supportOf_eq (rows : List DeliveryLocations) (source : Text) :
    supportOf rows source (rowsBySelector rows source) =
      tallies ((rows.filter (occurs source)).flatMap fun row => row.locations.filter (· ≠ source)) := by
  rw [← rowsBySelector_rows, tallies, List.foldl_flatMap, List.foldl_filterMap, supportOf]
  congr 1
  funext support index
  cases rows[index]? with
  | none => rfl
  | some row =>
    dsimp only
    rw [List.foldl_filter]
    simp only [decide_eq_true_eq]

theorem count_destinations (rows : List DeliveryLocations) {source destination : Text} (other : destination ≠ source) :
    ((rows.filter (occurs source)).flatMap fun row => row.locations.filter (· ≠ source)).countP
      (fun d => decide (d = destination)) = together rows source destination := by
  induction rows with
  | nil => rfl
  | cons row rest ih =>
    rw [together, List.countP_cons, ← together, ← ih]
    by_cases mem : occurs source row = true
    · have kept : (row.locations.filter (· ≠ source)).countP (fun d => decide (d = destination)) =
          if occurs destination row then 1 else 0 := by
        rw [List.countP_filter, ← countP_locations]
        refine List.countP_congr fun d _ => ?_
        simp only [Bool.and_eq_true, decide_eq_true_eq]
        exact ⟨fun h => h.1, fun same => ⟨same, same ▸ other⟩⟩
      rw [List.filter_cons_of_pos mem, List.flatMap_cons, List.countP_append, kept, Nat.add_comm, mem, Bool.true_and]
    · rw [List.filter_cons_of_neg mem, if_neg (by simp [mem]), Nat.add_zero]

theorem mem_supportOf {support : Nat} : (destination, support) ∈ supportOf rows source (rowsBySelector rows source) ↔
      destination ≠ source ∧ support = together rows source destination ∧ 0 < support := by
  rw [supportOf_eq, mem_tallies.2]
  by_cases other : destination = source
  · have none : ((rows.filter (occurs source)).flatMap fun row => row.locations.filter (· ≠ source)).countP
        (fun d => decide (d = destination)) = 0 := by
      rw [List.countP_eq_zero]
      intro d mem same
      obtain ⟨row, -, mem⟩ := List.mem_flatMap.mp mem
      obtain ⟨-, notSource⟩ := List.mem_filter.mp mem
      exact absurd ((of_decide_eq_true same).trans other) (of_decide_eq_true notSource)
    rw [none]
    constructor
    · rintro ⟨rfl, positive⟩
      exact absurd positive (Nat.lt_irrefl 0)
    · exact fun h => absurd other h.1
  · rw [count_destinations rows other]
    exact ⟨fun h => ⟨other, h⟩, fun h => h.2⟩

theorem supportingIds_eq (rows : List DeliveryLocations) (source destination : Text) :
    supportingIds rows source destination =
      joinIds ((rows.filter fun row => occurs source row && occurs destination row).flatMap
        DeliveryLocations.sourceDeliveryIds) := by
  have merged : intersectSorted (rowsBySelector rows source) (rowsBySelector rows destination) =
      positions (fun row => occurs source row && occurs destination row) rows := by
    rw [rowsBySelector_eq, rowsBySelector_eq, intersectSorted_eq (pairwise_positions _ _) (pairwise_positions _ _),
      positions_filter_mem]
  rw [supportingIds, merged, ← filterMap_positions, joinIds, joinIds]
  congr 3
  induction positions (fun row => occurs source row && occurs destination row) rows with
  | nil => rfl
  | cons index rest ih =>
    rw [List.flatMap_cons, List.filterMap_cons, ih]
    cases rows[index]? with
    | none => rfl
    | some row => rfl

end Rows

/-! ### The seeds are the strongest -/

omit [LinearOrder F] in
theorem entries_nodup (direct : SortedMap Text F) : direct.entries.Nodup :=
  direct.sorted.imp fun less same => absurd (congrArg Prod.fst same) less.ne

theorem Stronger.asymm (s t : Text × F) (before : Stronger s t) : ¬ Stronger t s := by
  rintro (less | ⟨same, selector⟩)
  · rcases before with less' | ⟨same', -⟩
    · exact lt_asymm less less'
    · exact less.ne same'
  · rcases before with less' | ⟨-, selector'⟩
    · exact less'.ne same
    · exact lt_asymm selector selector'

theorem Stronger.trans {s t u : Text × F} (first : Stronger s t) (second : Stronger t u) : Stronger s u := by
  rcases first with less | ⟨same, selector⟩
  · rcases second with less' | ⟨same', -⟩
    · exact .inl (less'.trans less)
    · exact .inl (same' ▸ less)
  · rcases second with less' | ⟨same', selector'⟩
    · exact .inl (same ▸ less')
    · exact .inr ⟨same.trans same', selector.trans selector'⟩

theorem Stronger.trichotomy (s t : Text × F) : Stronger s t ∨ s = t ∨ Stronger t s := by
  rcases lt_trichotomy t.2 s.2 with less | same | less
  · exact .inl (.inl less)
  · rcases lt_trichotomy s.1 t.1 with selector | equal | selector
    · exact .inl (.inr ⟨same.symm, selector⟩)
    · exact .inr (.inl (Prod.ext equal same.symm))
    · exact .inr (.inr (.inr ⟨same, selector⟩))
  · exact .inr (.inr (.inl less))

/-- A seed has positive strength, and fewer than the limit are stronger. -/
structure IsSeed (direct : SortedMap Text F) (seed : Text × F) : Prop where
  entered : seed ∈ direct.entries
  positive : arith.zero < seed.2
  strong : direct.entries.countP (fun other => decide (arith.zero < other.2) && decide (Stronger other seed)) <
    associationSeedLimit

theorem mem_seeds {direct : SortedMap Text F} {seed : Text × F} :
    seed ∈ seeds arith direct ↔ IsSeed arith direct seed := by
  have total : Std.Total (fun s t : Text × F => ¬ Stronger t s) :=
    ⟨fun s t => by
      by_cases before : Stronger t s
      · exact .inr (Stronger.asymm t s before)
      · exact .inl before⟩
  have trans : IsTrans (Text × F) (fun s t => ¬ Stronger t s) :=
    ⟨fun s t u first second third => by
      rcases Stronger.trichotomy t s with before | rfl | after
      · exact first before
      · exact second third
      · exact second (third.trans after)⟩
  have perm := List.perm_insertionSort (fun s t : Text × F => ¬ Stronger t s)
    (direct.entries.filter fun entry => arith.zero < entry.2)
  have nodup := perm.symm.nodup ((entries_nodup direct).filter _)
  have sorted : ((direct.entries.filter fun entry => arith.zero < entry.2).insertionSort
      fun s t => ¬ Stronger t s).Pairwise Stronger := by
    refine ((List.pairwise_insertionSort (fun s t : Text × F => ¬ Stronger t s) _).and nodup).imp ?_
    rintro s t ⟨notAfter, differ⟩
    exact (Stronger.trichotomy s t).resolve_right fun h => h.elim differ notAfter
  rw [seeds, mem_take_iff Stronger.asymm sorted, perm.mem_iff, perm.countP_eq, List.mem_filter, List.countP_filter,
    decide_eq_true_eq]
  simp only [Bool.and_comm]
  exact ⟨fun h => ⟨h.1.1, h.1.2, h.2⟩, fun h => ⟨⟨h.entered, h.positive⟩, h.strong⟩⟩

section Pass

variable {rows : List DeliveryLocations} {prevalence : Text → Nat} {historyTotal : Nat}
  {order : Text → List (Text × Nat) → List (Text × Nat)} {direct : SortedMap Text F} {destination : Text}

structure Predicts (rows : List DeliveryLocations) (prevalence : Text → Nat) (direct : SortedMap Text F)
    (seed : Text × F) (destination : Text) : Prop where
  isSeed : IsSeed arith direct seed
  counted : prevalence seed.1 ≠ 0
  other : destination ≠ seed.1
  beside : 0 < together rows seed.1 destination

def gain (rows : List DeliveryLocations) (prevalence : Text → Nat) (historyTotal : Nat) (seed : Text × F)
    (destination : Text) : F :=
  contributionOf arith prevalence historyTotal seed destination (together rows seed.1 destination)

def associationOf (rows : List DeliveryLocations) (prevalence : Text → Nat) (historyTotal : Nat) (seed : Text × F)
    (destination : Text) : BestAssociation F :=
  ⟨gain arith rows prevalence historyTotal seed destination, seed.1, together rows seed.1 destination, prevalence seed.1⟩

/-- An association is better than another: it contributes more, or as much and its seed is smaller. -/
def Better (new current : BestAssociation F) : Prop := Replaces new.contribution new.source (some current)

instance (new current : BestAssociation F) : Decidable (Better new current) :=
  inferInstanceAs (Decidable (Replaces _ _ (some _)))

def offer (prevalence : Text → Nat) (historyTotal : Nat) (seed : Text × F) (entry : Text × Nat) :
    Text × BestAssociation F :=
  (entry.1, ⟨contributionOf arith prevalence historyTotal seed entry.1 entry.2, seed.1, entry.2, prevalence seed.1⟩)

def offers (rows : List DeliveryLocations) (prevalence : Text → Nat) (historyTotal : Nat)
    (order : Text → List (Text × Nat) → List (Text × Nat)) (seed : Text × F) : List (Text × BestAssociation F) :=
  if rowsBySelector rows seed.1 = [] ∨ prevalence seed.1 = 0 then []
  else (order seed.1 (supportOf rows seed.1 (rowsBySelector rows seed.1))).map (offer arith prevalence historyTotal seed)

/-- Keep an offer if it is better than what its destination has. -/
def take (best : Text → Option (BestAssociation F)) (offered : Text × BestAssociation F) :
    Text → Option (BestAssociation F) :=
  Function.update best offered.1 (keepBetter Better (best offered.1) offered.2)

theorem consider_eq (seed : Text × F) (best : Text → Option (BestAssociation F)) (entry : Text × Nat) :
    consider arith prevalence historyTotal seed best entry = take best (offer arith prevalence historyTotal seed entry) := by
  have kept : keepBetter Better (best entry.1) (offer arith prevalence historyTotal seed entry).2 =
      if Replaces (contributionOf arith prevalence historyTotal seed entry.1 entry.2) seed.1 (best entry.1) then
        some (offer arith prevalence historyTotal seed entry).2
      else best entry.1 := by
    cases best entry.1 with
    | none => exact (if_pos trivial).symm
    | some current => rfl
  change (if Replaces (contributionOf arith prevalence historyTotal seed entry.1 entry.2) seed.1 (best entry.1) then
      Function.update best entry.1 (some (offer arith prevalence historyTotal seed entry).2)
    else best) = Function.update best entry.1 (keepBetter Better (best entry.1) _)
  rw [kept]
  split_ifs
  · rfl
  · rw [Function.update_eq_self]

theorem considerSeed_eq (best : Text → Option (BestAssociation F)) (seed : Text × F) :
    considerSeed arith rows prevalence historyTotal order best seed =
      (offers arith rows prevalence historyTotal order seed).foldl take best := by
  unfold considerSeed offers
  cases listed : rowsBySelector rows seed.1 with
  | nil => rw [if_pos (.inl rfl)]; rfl
  | cons index rest =>
    by_cases counted : prevalence seed.1 = 0
    · rw [if_pos (.inr counted)]
      exact if_pos counted
    · rw [if_neg (not_or.mpr ⟨List.cons_ne_nil _ _, counted⟩), List.foldl_map]
      refine (if_neg counted).trans ?_
      congr 1
      funext best entry
      exact consider_eq arith seed best entry

variable {w : BestAssociation F}

theorem mem_offers (perm : ∀ source counts, (order source counts).Perm counts) {seed : Text × F}
    (isSeed : IsSeed arith direct seed) : (destination, w) ∈ offers arith rows prevalence historyTotal order seed ↔
      Predicts arith rows prevalence direct seed destination ∧
        w = associationOf arith rows prevalence historyTotal seed destination := by
  unfold offers
  by_cases guards : rowsBySelector rows seed.1 = [] ∨ prevalence seed.1 = 0
  · rw [if_pos guards]
    simp only [List.not_mem_nil, false_iff]
    rintro ⟨predicts, -⟩
    rcases guards with empty | uncounted
    · -- A source that is in no row occurs with nothing.
      have rowsOf := rowsBySelector_rows rows seed.1
      rw [empty, List.filterMap_nil] at rowsOf
      have beside := predicts.beside
      rw [together, List.countP_pos_iff] at beside
      obtain ⟨row, mem, both⟩ := beside
      have inRow : row ∈ rows.filter (occurs seed.1) := List.mem_filter.mpr ⟨mem, (Bool.and_eq_true_iff.mp both).1⟩
      rw [← rowsOf] at inRow
      cases inRow
    · exact predicts.counted uncounted
  · rw [if_neg guards, List.mem_map]
    obtain ⟨-, counted⟩ := not_or.mp guards
    constructor
    · rintro ⟨⟨d, support⟩, mem, same⟩
      obtain ⟨rfl, rfl⟩ := Prod.mk.inj same
      obtain ⟨other, rfl, positive⟩ := mem_supportOf.mp ((perm _ _).mem_iff.mp mem)
      exact ⟨⟨isSeed, counted, other, positive⟩, rfl⟩
    · rintro ⟨predicts, rfl⟩
      exact ⟨(destination, together rows seed.1 destination),
        (perm _ _).mem_iff.mpr (mem_supportOf.mpr ⟨predicts.other, rfl, predicts.beside⟩), rfl⟩

theorem Better.asymm (x y : BestAssociation F) (better : Better x y) : ¬ Better y x := by
  rintro (less | ⟨same, source⟩)
  · rcases better with less' | ⟨same', -⟩
    · exact lt_asymm less less'
    · exact less.ne same'
  · rcases better with less' | ⟨-, source'⟩
    · exact less'.ne same
    · exact lt_asymm source source'

/-- What is not better contributes at most as much, and its seed is not smaller if it contributes as much. -/
theorem not_better_iff (x y : BestAssociation F) :
    ¬ Better x y ↔ x.contribution ≤ y.contribution ∧ (x.contribution = y.contribution → y.source ≤ x.source) := by
  unfold Better Replaces
  rw [not_or, not_lt, not_and, not_lt]

theorem Better.negTrans (x y z : BestAssociation F) (first : ¬ Better x y) (second : ¬ Better y z) : ¬ Better x z := by
  rw [not_better_iff] at *
  refine ⟨first.1.trans second.1, fun same => ?_⟩
  have lower : x.contribution = y.contribution := le_antisymm first.1 (same ▸ second.1)
  exact (second.2 (lower.symm.trans same)).trans (first.2 lower)

def offeredTo (rows : List DeliveryLocations) (prevalence : Text → Nat) (historyTotal : Nat)
    (order : Text → List (Text × Nat) → List (Text × Nat)) (direct : SortedMap Text F) (destination : Text) :
    List (BestAssociation F) :=
  (((seeds arith direct).flatMap (offers arith rows prevalence historyTotal order)).filter
    fun offered => decide (offered.1 = destination)).map Prod.snd

theorem mem_offeredTo (perm : ∀ source counts, (order source counts).Perm counts) :
    w ∈ offeredTo arith rows prevalence historyTotal order direct destination ↔
      ∃ seed, Predicts arith rows prevalence direct seed destination ∧
        w = associationOf arith rows prevalence historyTotal seed destination := by
  rw [offeredTo, List.mem_map]
  constructor
  · rintro ⟨⟨d, w'⟩, kept, rfl⟩
    obtain ⟨mem, here⟩ := List.mem_filter.mp kept
    obtain rfl : d = destination := of_decide_eq_true here
    obtain ⟨seed, isSeed, mem⟩ := List.mem_flatMap.mp mem
    exact ⟨seed, (mem_offers arith perm ((mem_seeds arith).mp isSeed)).mp mem⟩
  · rintro ⟨seed, predicts, rfl⟩
    refine ⟨(destination, _), List.mem_filter.mpr ⟨List.mem_flatMap.mpr ⟨seed, ?_, ?_⟩, decide_eq_true rfl⟩, rfl⟩
    · exact (mem_seeds arith).mpr predicts.isSeed
    · exact (mem_offers arith perm predicts.isSeed).mpr ⟨predicts, rfl⟩

theorem best_eq :
    (seeds arith direct).foldl (considerSeed arith rows prevalence historyTotal order) (fun _ => none) destination =
      (offeredTo arith rows prevalence historyTotal order direct destination).foldl (keepBetter Better) none := by
  have flat : (seeds arith direct).foldl (considerSeed arith rows prevalence historyTotal order) (fun _ => none) =
      ((seeds arith direct).flatMap (offers arith rows prevalence historyTotal order)).foldl take fun _ => none := by
    rw [List.foldl_flatMap]
    congr 1
    funext best seed
    exact considerSeed_eq arith best seed
  rw [flat, offeredTo, List.foldl_map]
  exact foldl_update Prod.fst (fun current offered => keepBetter Better current offered.2)
    ((seeds arith direct).flatMap (offers arith rows prevalence historyTotal order)) (fun _ => none) destination

theorem best_spec (perm : ∀ source counts, (order source counts).Perm counts) :
    ((∀ seed, ¬ Predicts arith rows prevalence direct seed destination) ∧
      (seeds arith direct).foldl (considerSeed arith rows prevalence historyTotal order) (fun _ => none) destination =
        none) ∨ ∃ seed, Predicts arith rows prevalence direct seed destination ∧
      (∀ other, Predicts arith rows prevalence direct other destination →
        ¬ Better (associationOf arith rows prevalence historyTotal other destination)
          (associationOf arith rows prevalence historyTotal seed destination)) ∧
      (seeds arith direct).foldl (considerSeed arith rows prevalence historyTotal order) (fun _ => none) destination =
        some (associationOf arith rows prevalence historyTotal seed destination) := by
  rw [best_eq]
  rcases foldl_keepBetter Better.negTrans Better.asymm
    (offeredTo arith rows prevalence historyTotal order direct destination) with ⟨empty, none⟩ | ⟨w, mem, best, least⟩
  · refine .inl ⟨fun seed predicts => ?_, none⟩
    have mem : associationOf arith rows prevalence historyTotal seed destination ∈ [] := by
      rw [← empty]
      exact (mem_offeredTo arith perm).mpr ⟨seed, predicts, rfl⟩
    cases mem
  · obtain ⟨seed, predicts, rfl⟩ := (mem_offeredTo arith perm).mp mem
    exact .inr ⟨seed, predicts,
      fun other predicts' => least _ ((mem_offeredTo arith perm).mpr ⟨other, predicts', rfl⟩), best⟩

/-! ### The optimised search is the plain one -/

/-- A destination with its association, as the plain definition has it: support and ids are those of the rows that
contain both selectors. -/
def credited (rows : List DeliveryLocations) (prevalence : Text → Nat) (historyTotal : Nat) (seed : Text × F)
    (destination : Text) (entry : Option (Accumulator F)) : Accumulator F :=
  credit arith prevalence historyTotal destination (associationOf arith rows prevalence historyTotal seed destination)
    (joinIds ((rows.filter fun row => occurs seed.1 row && occurs destination row).flatMap
      DeliveryLocations.sourceDeliveryIds)) entry

/-- A seed that predicts a destination and contributes most to it, ties by the smaller selector. -/
structure Wins (rows : List DeliveryLocations) (prevalence : Text → Nat) (historyTotal : Nat)
    (direct : SortedMap Text F) (seed : Text × F) (destination : Text) : Prop where
  predicts : Predicts arith rows prevalence direct seed destination
  greatest : ∀ other, Predicts arith rows prevalence direct other destination →
    gain arith rows prevalence historyTotal other destination < gain arith rows prevalence historyTotal seed destination ∨
      gain arith rows prevalence historyTotal other destination = gain arith rows prevalence historyTotal seed destination ∧
        seed.1 ≤ other.1

theorem wins_iff {seed : Text × F} : Wins arith rows prevalence historyTotal direct seed destination ↔
      Predicts arith rows prevalence direct seed destination ∧
        ∀ other, Predicts arith rows prevalence direct other destination →
          ¬ Better (associationOf arith rows prevalence historyTotal other destination)
            (associationOf arith rows prevalence historyTotal seed destination) := by
  constructor
  · intro wins
    refine ⟨wins.predicts, fun other predicts => (not_better_iff _ _).mpr ?_⟩
    rcases wins.greatest other predicts with less | ⟨same, smaller⟩
    · exact ⟨less.le, fun same => absurd same less.ne⟩
    · exact ⟨same.le, fun _ => smaller⟩
  · rintro ⟨predicts, greatest⟩
    refine ⟨predicts, fun other predicts' => ?_⟩
    obtain ⟨atMost, tie⟩ := (not_better_iff _ _).mp (greatest other predicts')
    rcases lt_or_eq_of_le atMost with less | same
    · exact .inl less
    · exact .inr ⟨same, tie same⟩

theorem Wins.unique {s t : Text × F} (left : Wins arith rows prevalence historyTotal direct s destination)
    (right : Wins arith rows prevalence historyTotal direct t destination) : s = t := by
  refine direct.entry_unique left.predicts.isSeed.entered right.predicts.isSeed.entered ?_
  rcases left.greatest t right.predicts with less | ⟨same, smaller⟩
  · rcases right.greatest s left.predicts with less' | ⟨same', -⟩
    · exact absurd less' (lt_asymm less)
    · exact absurd same' less.ne'
  · rcases right.greatest s left.predicts with less' | ⟨-, smaller'⟩
    · exact absurd same less'.ne'
    · exact le_antisymm smaller smaller'

theorem addAssociations_apply (scored : Text → Option (Accumulator F)) :
    addAssociations arith rows prevalence historyTotal order direct scored destination =
      ((seeds arith direct).foldl (considerSeed arith rows prevalence historyTotal order) (fun _ => none)
        destination).elim (scored destination) fun winner =>
          some (credit arith prevalence historyTotal destination winner (supportingIds rows winner.source destination)
            (scored destination)) := by
  unfold addAssociations
  dsimp only
  by_cases empty : (seeds arith direct).isEmpty = true
  · rw [if_pos empty, List.isEmpty_iff.mp empty]
    rfl
  · rw [if_neg empty]
    cases (seeds arith direct).foldl (considerSeed arith rows prevalence historyTotal order) (fun _ => none) destination <;>
      rfl

/-- The association pass adds one association to each destination that some seed predicts, that of the seed which
contributes most, and leaves the others as they are; the order in which the counts of a seed are iterated makes no
difference. -/
theorem addAssociations_eq (perm : ∀ source counts, (order source counts).Perm counts)
    (scored : Text → Option (Accumulator F)) (destination : Text) :
    ((∀ seed, ¬ Predicts arith rows prevalence direct seed destination) ∧
      addAssociations arith rows prevalence historyTotal order direct scored destination = scored destination) ∨
    ∃! seed, Wins arith rows prevalence historyTotal direct seed destination ∧
      addAssociations arith rows prevalence historyTotal order direct scored destination =
        some (credited arith rows prevalence historyTotal seed destination (scored destination)) := by
  rcases best_spec arith perm with ⟨none, best⟩ | ⟨seed, predicts, greatest, best⟩
  · refine .inl ⟨none, ?_⟩
    rw [addAssociations_apply, best]
    rfl
  · have wins := (wins_iff arith).mpr ⟨predicts, greatest⟩
    refine .inr ⟨seed, ⟨wins, ?_⟩, fun other h => Wins.unique arith h.1 wins⟩
    rw [addAssociations_apply, best, Option.elim_some, supportingIds_eq]
    rfl

end Pass

end OrbitGraph.Recommend

namespace OrbitGraph.Recommend.Sample

open Lib History

def percents : ScoreArithmetic Nat where
  zero := 0
  add := (· + ·)
  confidence := fun support sourceCount => support * 100 / sourceCount
  lift := fun confidence destinationCount historyTotal => confidence * historyTotal / destinationCount
  contribution := fun score confidence lift => score * confidence * lift
  format := decimal

def both : DeliveryLocations where
  locations := [['a'], ['b']]
  sourceDeliveryIds := ["d"]
  sorted := List.pairwise_pair.mpr (by decide)

def evidence : SortedMap Text Nat := ⟨[(['a'], 3)], List.pairwise_singleton _ _⟩

theorem isSeed_a : IsSeed percents evidence (['a'], 3) where
  entered := List.mem_singleton_self _
  positive := Nat.zero_lt_succ 2
  strong := by decide

/-- A seed that the prevalence table does not count predicts nothing. -/
theorem uncounted_seed_adds_nothing :
    IsSeed percents evidence (['a'], 3) ∧ together [both] ['a'] ['b'] = 1 ∧
      addAssociations percents [both] (fun _ => 0) 1 (fun _ counts => counts) evidence (fun _ => none) ['b'] = none :=
  ⟨isSeed_a, rfl, rfl⟩

theorem addAssociations_eq_both :
    ((∀ seed, ¬ Predicts percents [both] (fun _ => 1) evidence seed ['b']) ∧
      addAssociations percents [both] (fun _ => 1) 1 (fun _ counts => counts.reverse) evidence (fun _ => none) ['b'] =
        none) ∨
    ∃! seed, Wins percents [both] (fun _ => 1) 1 evidence seed ['b'] ∧
      addAssociations percents [both] (fun _ => 1) 1 (fun _ counts => counts.reverse) evidence (fun _ => none) ['b'] =
        some (credited percents [both] (fun _ => 1) 1 seed ['b'] none) :=
  addAssociations_eq percents (fun _ counts => counts.reverse_perm) (fun _ => none) ['b']

end OrbitGraph.Recommend.Sample
