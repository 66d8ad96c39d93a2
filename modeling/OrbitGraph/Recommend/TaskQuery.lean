import OrbitGraph.History.Git
import OrbitGraph.History.Timestamps
import OrbitGraph.Lib.Ranking

/-!
The text that a request is about.

A request that names a task takes its text from the snapshots of the task in the indexed
deliveries, of which it prefers the one that was captured first. Capture times are compared
as they are spelled, and timestamps of different forms or offsets are not spelled in the
order of time.
-/

namespace OrbitGraph.Recommend

open Lib History

inductive RecommendationInput where
  | query (text : Text)
  | taskId (id : Text)

/-- What `resolve_query` reads of a request; a hit from outside is given by the task it names. -/
structure QueryRequest where
  input : RecommendationInput
  taskSnapshot : Option TaskAssociation
  hybridHits : List Text

/-- `ORDER BY after_revision, delivery_id`. -/
def deliveryLe (a b : DeliveredChange) : Prop :=
  if a.delivery.afterRevision = b.delivery.afterRevision then
    Text.ble a.delivery.deliveryId b.delivery.deliveryId = true
  else Text.ble a.delivery.afterRevision b.delivery.afterRevision = true

instance : DecidableRel deliveryLe := fun a b =>
  inferInstanceAs (Decidable (if a.delivery.afterRevision = b.delivery.afterRevision then _ else _))

/-- `deliveries`, of the rows as they are stored. -/
def indexedDeliveries (rows : List DeliveredChange) : List DeliveredChange := rows.insertionSort deliveryLe

/-! ### The query -/

def taskIsEligible (task : TaskAssociation) (cutoff : Timestamp) (strictReplay : Bool) : Bool :=
  (!strictReplay || task.textAvailability = .knownPreExecution) &&
    task.snapshotAvailableAt.status = .known &&
    (task.snapshotAvailableAt.timestamp.bind fun value =>
      (parseTimestamp "task snapshot timestamp" value).toOption).any fun value => value.cmp cutoff = .lt

def taskText (task : TaskAssociation) : Text :=
  task.acceptanceCriteria.foldl (fun text criterion => text ++ " " ++ criterion)
    (task.title ++ " " ++ task.description)

section

variable (repo : Repository) (target : Oid) (taskId : Text) (cutoff : Timestamp) (strictReplay : Bool)

def snapshotIn (delivery : DeliveredChange) : Option TaskAssociation :=
  match Oid.fromStr delivery.delivery.afterRevision with
  | none => none
  | some after =>
    if after = target ∨ repo.descendantOf target after = .ok true then
      delivery.delivery.tasks.find? fun task => task.taskId = taskId && taskIsEligible task cutoff strictReplay
    else none

def eligibleSnapshots (deliveries : List DeliveredChange) : List TaskAssociation :=
  deliveries.filterMap (snapshotIn repo target taskId cutoff strictReplay)

/-- The order that `sort_by` brings the snapshots into. -/
def capturedLe (a b : TaskAssociation) : Prop := Text.ble a.capturedAt b.capturedAt = true

instance : DecidableRel capturedLe := fun a b =>
  inferInstanceAs (Decidable (Text.ble a.capturedAt b.capturedAt = true))

/-- The snapshot that the text is taken from. -/
def chosenSnapshot (deliveries : List DeliveredChange) : Option TaskAssociation :=
  ((eligibleSnapshots repo target taskId cutoff strictReplay deliveries).insertionSort capturedLe).head?

end

def resolveQuery (deliveries : List DeliveredChange) (request : QueryRequest) (cutoff : Timestamp) (strictReplay : Bool)
    (repo : Repository) (target : Oid) : Except GraphError Text :=
  match request.input with
  | .query query => .ok (Text.trim query)
  | .taskId taskId =>
    match request.taskSnapshot with
    | some snapshot =>
      if taskIsEligible snapshot cutoff strictReplay then .ok (taskText snapshot)
      else .error (.invalidData "resolve recommendation task query"
        ("supplied snapshot for task " ++ taskId ++
          (" was not observable before the request cutoff under the selected live/replay " ++ "policy").toList))
    | none =>
      match chosenSnapshot repo target taskId cutoff strictReplay deliveries with
      | some task => .ok (taskText task)
      | none =>
        if request.hybridHits ≠ [] then .ok []
        else .error (.invalidData "resolve recommendation task query"
          ("task " ++ taskId ++
            (" has no known pre-execution text strictly before the cutoff and no hybrid hits " ++
              "were supplied").toList))

/-! ### Sorting -/

instance : Std.Total deliveryLe where
  total a b := by
    unfold deliveryLe
    by_cases same : a.delivery.afterRevision = b.delivery.afterRevision
    · rw [if_pos same, if_pos same.symm]
      exact Text.ble_total _ _
    · rw [if_neg same, if_neg (Ne.symm same)]
      exact Text.ble_total _ _

instance : IsTrans DeliveredChange deliveryLe where
  trans a b c left right := by
    unfold deliveryLe at left right ⊢
    by_cases first : a.delivery.afterRevision = b.delivery.afterRevision
    · rw [if_pos first] at left
      rw [first]
      split_ifs at right ⊢ with second
      · exact Text.ble_trans left right
      · exact right
    · rw [if_neg first] at left
      by_cases second : b.delivery.afterRevision = c.delivery.afterRevision
      · rw [← second, if_neg first]
        exact left
      · rw [if_neg second] at right
        have apart : a.delivery.afterRevision ≠ c.delivery.afterRevision := fun same =>
          first (Text.ble_antisymm left (same ▸ right))
        rw [if_neg apart]
        exact Text.ble_trans left right

theorem deliveryId_of_deliveryLe {a b : DeliveredChange} (left : deliveryLe a b) (right : deliveryLe b a) :
    a.delivery.deliveryId = b.delivery.deliveryId := by
  unfold deliveryLe at left right
  by_cases same : a.delivery.afterRevision = b.delivery.afterRevision
  · rw [if_pos same] at left
    rw [if_pos same.symm] at right
    exact Text.ble_antisymm left right
  · rw [if_neg same] at left
    rw [if_neg (Ne.symm same)] at right
    exact (same (Text.ble_antisymm left right)).elim

instance : Std.Total capturedLe where
  total _ _ := Text.ble_total _ _

instance : IsTrans TaskAssociation capturedLe where
  trans _ _ _ := Text.ble_trans

theorem indexedDeliveries_perm {rows rows' : List DeliveredChange} (ids : (rows.map fun d => d.delivery.deliveryId).Nodup)
    (perm : rows'.Perm rows) : indexedDeliveries rows' = indexedDeliveries rows := by
  have sorted := List.pairwise_insertionSort deliveryLe rows
  have sorted' := List.pairwise_insertionSort deliveryLe rows'
  refine List.Perm.eq_of_pairwise (fun a b here there left right => ?_) sorted' sorted
    ((List.perm_insertionSort _ _).trans (perm.trans (List.perm_insertionSort _ _).symm))
  have mem : a ∈ rows := perm.mem_iff.mp ((List.perm_insertionSort _ _).mem_iff.mp here)
  exact List.inj_on_of_nodup_map ids mem ((List.perm_insertionSort _ _).mem_iff.mp there) (deliveryId_of_deliveryLe left right)

/-! ### The earliest snapshot -/

/-- Not captured after the other, in the order of `parse_timestamp`. -/
def CapturedNoLater (a b : TaskAssociation) : Prop :=
  ∀ s t, parseTimestamp "task captured_at" a.capturedAt = .ok s →
    parseTimestamp "task captured_at" b.capturedAt = .ok t → s.cmp t ≠ .gt

def FirstSpelledIsEarliest (snapshots : List TaskAssociation) : Prop :=
  ∀ first ∈ snapshots, (∀ other ∈ snapshots, capturedLe first other) → ∀ other ∈ snapshots, CapturedNoLater first other

section

variable {repo : Repository} {target : Oid} {taskId : Text} {cutoff : Timestamp} {strictReplay : Bool}
  {deliveries : List DeliveredChange}

theorem chosenSnapshot_first {chosen : TaskAssociation}
    (found : chosenSnapshot repo target taskId cutoff strictReplay deliveries = some chosen) :
    chosen ∈ eligibleSnapshots repo target taskId cutoff strictReplay deliveries ∧
      ∀ other ∈ eligibleSnapshots repo target taskId cutoff strictReplay deliveries, capturedLe chosen other :=
  head?_insertionSort found

theorem exists_chosenSnapshot {snapshot : TaskAssociation}
    (mem : snapshot ∈ eligibleSnapshots repo target taskId cutoff strictReplay deliveries) :
    ∃ chosen, chosenSnapshot repo target taskId cutoff strictReplay deliveries = some chosen :=
  exists_head?_insertionSort _ mem

/-- The chosen snapshot is an earliest one exactly if the capture time that is spelled first is. -/
theorem chosenSnapshot_earliest_iff :
    (∀ chosen, chosenSnapshot repo target taskId cutoff strictReplay deliveries = some chosen →
      ∀ other ∈ eligibleSnapshots repo target taskId cutoff strictReplay deliveries, CapturedNoLater chosen other) ↔
    FirstSpelledIsEarliest (eligibleSnapshots repo target taskId cutoff strictReplay deliveries) := by
  constructor
  · intro earliest first mem least other otherMem
    obtain ⟨chosen, found⟩ := exists_chosenSnapshot mem
    obtain ⟨chosenMem, before⟩ := chosenSnapshot_first found
    have same : chosen.capturedAt = first.capturedAt := Text.ble_antisymm (before first mem) (least chosen chosenMem)
    have noLater := earliest chosen found other otherMem
    unfold CapturedNoLater at noLater ⊢
    rwa [same] at noLater
  · intro earliest chosen found
    obtain ⟨mem, before⟩ := chosenSnapshot_first found
    exact earliest chosen mem before

end

/-- The text of a request that names a task and brings no snapshot is that of a snapshot that was captured no later
than the others, and the same however the rows are stored. -/
def EarliestWins (rows : List DeliveredChange) (request : QueryRequest) (taskId : Text) (cutoff : Timestamp)
    (strictReplay : Bool) (repo : Repository) (target : Oid) : Prop :=
  (∀ chosen, chosenSnapshot repo target taskId cutoff strictReplay (indexedDeliveries rows) = some chosen →
    resolveQuery (indexedDeliveries rows) request cutoff strictReplay repo target = .ok (taskText chosen) ∧
    ∀ other ∈ eligibleSnapshots repo target taskId cutoff strictReplay (indexedDeliveries rows),
      CapturedNoLater chosen other) ∧
  ∀ rows' : List DeliveredChange, rows'.Perm rows →
    chosenSnapshot repo target taskId cutoff strictReplay (indexedDeliveries rows') =
        chosenSnapshot repo target taskId cutoff strictReplay (indexedDeliveries rows) ∧
      resolveQuery (indexedDeliveries rows') request cutoff strictReplay repo target =
        resolveQuery (indexedDeliveries rows) request cutoff strictReplay repo target

/-- The earliest snapshot wins exactly if the capture time that is spelled first is the earliest. -/
theorem earliestWins_iff {rows : List DeliveredChange} {request : QueryRequest} {taskId : Text} {cutoff : Timestamp}
    {strictReplay : Bool} {repo : Repository} {target : Oid} (ids : (rows.map fun d => d.delivery.deliveryId).Nodup)
    (input : request.input = .taskId taskId) (unsupplied : request.taskSnapshot = none) :
    EarliestWins rows request taskId cutoff strictReplay repo target ↔
      FirstSpelledIsEarliest (eligibleSnapshots repo target taskId cutoff strictReplay (indexedDeliveries rows)) := by
  rw [← chosenSnapshot_earliest_iff]
  constructor
  · exact fun ⟨earliest, _⟩ chosen found => (earliest chosen found).2
  · intro earliest
    refine ⟨fun chosen found => ⟨?_, earliest chosen found⟩, fun rows' perm => ?_⟩
    · unfold resolveQuery
      rw [input]
      simp only [unsupplied, found]
    · rw [indexedDeliveries_perm ids perm]
      exact ⟨rfl, rfl⟩

namespace Sample

def provenance : Provenance := ⟨['p', 'r'], none⟩

def snapshotAt (title capturedAt : Text) : TaskAssociation :=
  ⟨['t'], title, [], [], provenance, ⟨.unavailable, none, provenance⟩,
    ⟨.known, some "unix:1000", provenance⟩, .knownPreExecution, capturedAt⟩

def deliveryOf (digit : Char) (title capturedAt : Text) : DeliveredChange :=
  ⟨⟨1, ['r'], ['m'], List.replicate 40 '4', List.replicate 40 digit, [digit], .callerAttested, provenance,
    ⟨.unavailable, none, provenance⟩, capturedAt, [snapshotAt title capturedAt]⟩, [], []⟩

def rows : List DeliveredChange :=
  [deliveryOf '5' ['b'] "2024-01-01T00:30:00Z", deliveryOf '6' ['a'] "2024-01-01T01:00:00+01:00"]

def taskRequest : QueryRequest := ⟨.taskId ['t'], none, []⟩

def repository : Repository :=
  ⟨none, none, fun _ => none, fun _ => .error [], fun _ _ => .ok true, fun _ _ => none⟩

theorem four_isHex : '4' ∈ hexDigits := by decide

def tip : Oid := .ofDigit '4' four_isHex

theorem rows_snapshots : eligibleSnapshots repository tip ['t'] ⟨2000, []⟩ true (indexedDeliveries rows) =
    [snapshotAt ['b'] "2024-01-01T00:30:00Z", snapshotAt ['a'] "2024-01-01T01:00:00+01:00"] := by
  decide +kernel

theorem rows_chosen : chosenSnapshot repository tip ['t'] ⟨2000, []⟩ true (indexedDeliveries rows) =
    some (snapshotAt ['b'] "2024-01-01T00:30:00Z") := by
  decide +kernel

end Sample

theorem earliestWins_iff_rows :
    EarliestWins Sample.rows Sample.taskRequest ['t'] ⟨2000, []⟩ true Sample.repository Sample.tip ↔
      FirstSpelledIsEarliest (eligibleSnapshots Sample.repository Sample.tip ['t'] ⟨2000, []⟩ true
        (indexedDeliveries Sample.rows)) :=
  earliestWins_iff (by decide) rfl rfl

/-- The time with an offset is spelled last and comes first. -/
theorem spelled_first_captured_last :
    resolveQuery (indexedDeliveries Sample.rows) Sample.taskRequest ⟨2000, []⟩ true Sample.repository Sample.tip =
        .ok (taskText (Sample.snapshotAt ['b'] "2024-01-01T00:30:00Z")) ∧
      ¬ EarliestWins Sample.rows Sample.taskRequest ['t'] ⟨2000, []⟩ true Sample.repository Sample.tip := by
  refine ⟨by decide +kernel, fun ⟨earliest, _⟩ => ?_⟩
  have noLater := (earliest _ Sample.rows_chosen).2 (Sample.snapshotAt ['a'] "2024-01-01T01:00:00+01:00")
    (by rw [Sample.rows_snapshots]; exact .tail _ (.head _))
  have first : parseTimestamp "task captured_at" "2024-01-01T00:30:00Z" = .ok ⟨1704069000, []⟩ := by
    decide +kernel
  have second : parseTimestamp "task captured_at" "2024-01-01T01:00:00+01:00" = .ok ⟨1704067200, []⟩ := by
    decide +kernel
  exact noLater _ _ first second rfl

end OrbitGraph.Recommend
