import OrbitGraph.Lib.JsonText
import OrbitGraph.Lib.SortedMap
import OrbitGraph.Query.Callees

/-!
Bounding the result of a query.

A query answers with JSON of any size. Its arrays are cut to a cap, at every depth, and the
cap is halved until the text fits the response; each time the cuts are made anew in the
whole result. What was cut is counted for each field path, over the arrays that are still
reached through the entries that were returned.
-/

namespace OrbitGraph.Plugin

open Lib

/-- The serialized size of a result above which the cap is halved. -/
def MAX_RESULT_BYTES : Nat := 256 * 1024

structure ToolError where
  operation : Text
  reason : Text

def resultTooLarge : ToolError where
  operation := "bound code-graph query result"
  reason := "the result exceeds the 262144-byte response ceiling even with every list emptied; " ++
    "narrow the selector or lower depth"

abbrev Cuts := SortedMap Text (Nat × Nat)

def Cuts.count (cuts : Cuts) (path : Text) (returned total : Nat) : Cuts :=
  let entry := (cuts.get? path).getD (0, 0)
  cuts.insert path (entry.1 + returned, entry.2 + total)

def fieldPath (path field : Text) : Text := if path.isEmpty then field else path ++ '.' :: field

def entryPath (path : Text) : Text := path ++ ['[', ']']

section Cap

variable (cap : Nat)

mutual

/-- `cap_arrays`: the cut value, and the counts. -/
def capArrays : Json → Text → Cuts → Json × Cuts
  | .array items, path, cuts =>
    let capped := capItems cap items (entryPath path) (cuts.count path (items.take cap).length items.length)
    (.array capped.1, capped.2)
  | .object fields, path, cuts =>
    let capped := capFields fields path cuts
    (.object capped.1, capped.2)
  | other, _, cuts => (other, cuts)

/-- The first items of an array. -/
def capItems : Nat → List Json → Text → Cuts → List Json × Cuts
  | _, [], _, cuts => ([], cuts)
  | 0, _ :: _, _, cuts => ([], cuts)
  | n + 1, item :: rest, path, cuts =>
    let first := capArrays item path cuts
    let others := capItems n rest path first.2
    (first.1 :: others.1, others.2)

def capFields : List (Text × Json) → Text → Cuts → List (Text × Json) × Cuts
  | [], _, cuts => ([], cuts)
  | (field, child) :: rest, path, cuts =>
    let first := capArrays child (fieldPath path field) cuts
    let others := capFields rest path first.2
    ((field, first.1) :: others.1, others.2)

end

end Cap

/-- What the response says of a field path that was cut. -/
inductive Cut where
  | counted (returned total : Nat)
  | atLeast (returned total : Nat)

abbrev Truncation := SortedMap Text Cut

/-- The counts of the paths that were cut. -/
def truncationOf (cuts : Cuts) : Truncation where
  entries := (cuts.entries.filter fun entry => entry.2.1 < entry.2.2).map fun entry =>
    (entry.1, .counted entry.2.1 entry.2.2)
  sorted := List.pairwise_map.mpr (cuts.sorted.sublist List.filter_sublist)

/-- The loop over the caps; nothing where it does not end in so many rounds. -/
def boundLoop (result : Json) : Nat → Nat → Option (Except ToolError (Json × Truncation))
  | 0, _ => none
  | fuel + 1, cap =>
    let capped := capArrays cap result [] .empty
    if capped.1.serializedLen ≤ MAX_RESULT_BYTES then some (.ok (capped.1, truncationOf capped.2))
    else if cap = 0 then some (.error resultTooLarge)
    else boundLoop result fuel (cap / 2)

def bound (result : Json) (limit : Nat) : Option (Except ToolError (Json × Truncation)) :=
  boundLoop result (limit + 1) limit

/-! ### Responses -/

/-- The query tools; `display` is `show`. -/
inductive QueryTool where
  | search
  | display
  | refs
  | callees
  | impact
  | trace
  | deps
  | overview
  deriving DecidableEq

/-- The part of a response that the plugin makes of a result. -/
structure Response where
  result : Json
  truncated : Bool
  truncation : Option Truncation

def Response.of (result : Json) (truncation : Truncation) : Response where
  result := result
  truncated := !truncation.entries.isEmpty
  truncation := if truncation.entries.isEmpty then none else some truncation

def setField (name : Text) (value : Json) : List (Text × Json) → List (Text × Json)
  | [] => [(name, value)]
  | (field, old) :: rest => if field = name then (name, value) :: rest else (field, old) :: setField name value rest

/-- `result["truncated"] = true`. -/
def markTruncated : Json → Json
  | .object fields => .object (setField "truncated" (.bool true) fields)
  | other => other

def matchesField : Text := "matches"

def saysTruncated (result : Json) : Bool :=
  match result.get "truncated" with
  | some (.bool b) => b
  | _ => false

def matchesReturned (result : Json) : Nat :=
  match result.get matchesField with
  | some (.array items) => items.length
  | _ => 0

/-- The end of a search: the library reads one match past the limit, so its flag shows that there are more. -/
def finishSearch (more : Bool) (limit : Nat) (result : Json) (truncation : Truncation) : Response :=
  if more then .of result (truncation.insert matchesField (.atLeast (matchesReturned result) (limit + 1)))
  else if (truncation.get? matchesField).isSome then .of (markTruncated result) truncation
  else .of result truncation

/-- The end of `execute`, from the library's result on. -/
def respond (query : QueryTool) (limit : Nat) (raw : Json) : Option (Except ToolError Response) :=
  match query with
  | .display => some (.ok (.of raw .empty))
  | .search => (bound raw limit).map fun answer =>
    answer.map fun bounded => finishSearch (saysTruncated raw) limit bounded.1 bounded.2
  | _ => (bound raw limit).map fun answer => answer.map fun bounded => .of bounded.1 bounded.2

section Cap

variable (cap : Nat)

mutual

/-- A value of which every array, at every depth, is cut to its first entries. -/
def cut : Json → Json
  | .array items => .array (cutItems cap items)
  | .object fields => .object (cutFields fields)
  | other => other

def cutItems : Nat → List Json → List Json
  | _, [] => []
  | 0, _ :: _ => []
  | n + 1, item :: rest => cut item :: cutItems n rest

def cutFields : List (Text × Json) → List (Text × Json)
  | [] => []
  | (field, child) :: rest => (field, cut child) :: cutFields rest

end

mutual

/-- The arrays that are reached through the first entries of those around them, each with its field path. -/
def arraysIn : Json → Text → List (Text × List Json)
  | .array items, path => (path, items) :: arraysInItems cap items (entryPath path)
  | .object fields, path => arraysInFields fields path
  | _, _ => []

def arraysInItems : Nat → List Json → Text → List (Text × List Json)
  | _, [], _ => []
  | 0, _ :: _, _ => []
  | n + 1, item :: rest, path => arraysIn item path ++ arraysInItems n rest path

def arraysInFields : List (Text × Json) → Text → List (Text × List Json)
  | [], _ => []
  | (field, child) :: rest, path => arraysIn child (fieldPath path field) ++ arraysInFields rest path

end

def ofPath (path : Text) (arrays : List (Text × List Json)) : List (List Json) :=
  (arrays.filter fun array => array.1 = path).map Prod.snd

def arraysAt (result : Json) (path : Text) : List (List Json) := ofPath path (arraysIn cap result [])

def returned (arrays : List (List Json)) : Nat := (arrays.map fun items => (items.take cap).length).sum

/-- … and how many they have. -/
def total (arrays : List (List Json)) : Nat := (arrays.map List.length).sum

end Cap

variable {cap : Nat}

def countArray (cap : Nat) (cuts : Cuts) (array : Text × List Json) : Cuts :=
  cuts.count array.1 (array.2.take cap).length array.2.length

mutual

theorem capArrays_eq : ∀ (value : Json) (path : Text) (cuts : Cuts),
    capArrays cap value path cuts = (cut cap value, (arraysIn cap value path).foldl (countArray cap) cuts)
  | .array items, path, cuts => by
    rw [capArrays, capItems_eq cap items, cut, arraysIn, List.foldl_cons]
    rfl
  | .object fields, path, cuts => by
    rw [capArrays, capFields_eq fields, cut, arraysIn]
  | .null, _, _ => rfl
  | .bool _, _, _ => rfl
  | .nat _, _, _ => rfl
  | .negative _, _, _ => rfl
  | .float _, _, _ => rfl
  | .string _, _, _ => rfl

theorem capItems_eq : ∀ (n : Nat) (items : List Json) (path : Text) (cuts : Cuts),
    capItems cap n items path cuts = (cutItems cap n items, (arraysInItems cap n items path).foldl (countArray cap) cuts)
  | n, [], path, cuts => by cases n <;> rfl
  | 0, _ :: _, _, _ => rfl
  | n + 1, item :: rest, path, cuts => by
    rw [capItems, capArrays_eq item, capItems_eq n rest, cutItems, arraysInItems, List.foldl_append]

theorem capFields_eq : ∀ (fields : List (Text × Json)) (path : Text) (cuts : Cuts),
    capFields cap fields path cuts = (cutFields cap fields, (arraysInFields cap fields path).foldl (countArray cap) cuts)
  | [], _, _ => rfl
  | (field, child) :: rest, path, cuts => by
    rw [capFields, capArrays_eq child, capFields_eq rest, cutFields, arraysInFields, List.foldl_append]

end

/-! ### Counting -/

def Cuts.entryAt (cuts : Cuts) (path : Text) : Nat × Nat := (cuts.get? path).getD (0, 0)

theorem Cuts.entryAt_count (cuts : Cuts) (path : Text) (returned total : Nat) (other : Text) :
    (cuts.count path returned total).entryAt other =
      if other = path then ((cuts.entryAt path).1 + returned, (cuts.entryAt path).2 + total) else cuts.entryAt other := by
  rw [Cuts.entryAt, Cuts.count, SortedMap.get?_insert]
  split_ifs <;> rfl

theorem ofPath_cons (path : Text) (array : Text × List Json) (rest : List (Text × List Json)) :
    ofPath path (array :: rest) = if array.1 = path then array.2 :: ofPath path rest else ofPath path rest := by
  rw [ofPath, List.filter_cons]
  by_cases here : array.1 = path
  · rw [if_pos (decide_eq_true here), if_pos here, List.map_cons, ofPath]
  · rw [if_neg fun same => here (of_decide_eq_true same), if_neg here, ofPath]

theorem mem_ofPath {path : Text} {arrays : List (Text × List Json)} {items : List Json} :
    items ∈ ofPath path arrays ↔ (path, items) ∈ arrays := by
  rw [ofPath, List.mem_map]
  constructor
  · rintro ⟨⟨own, items⟩, mem, rfl⟩
    obtain ⟨mem, same⟩ := List.mem_filter.mp mem
    exact of_decide_eq_true same ▸ mem
  · exact fun mem => ⟨(path, items), List.mem_filter.mpr ⟨mem, decide_eq_true rfl⟩, rfl⟩

theorem entryAt_foldl_countArray (arrays : List (Text × List Json)) (cuts : Cuts) (path : Text) :
    (arrays.foldl (countArray cap) cuts).entryAt path =
      ((cuts.entryAt path).1 + returned cap (ofPath path arrays), (cuts.entryAt path).2 + total (ofPath path arrays)) := by
  induction arrays generalizing cuts with
  | nil => rfl
  | cons array rest ih =>
    rw [List.foldl_cons, ih, countArray, Cuts.entryAt_count, ofPath_cons]
    by_cases here : array.1 = path
    · rw [if_pos here.symm, if_pos here, here, returned, returned, total, total, List.map_cons, List.map_cons,
        List.sum_cons, List.sum_cons, Nat.add_assoc, Nat.add_assoc]
    · rw [if_neg fun same => here same.symm, if_neg here]

theorem returned_lt_total_iff {arrays : List (List Json)} :
    returned cap arrays < total arrays ↔ ∃ items ∈ arrays, cap < items.length := by
  have step : returned cap arrays ≤ total arrays ∧
      (returned cap arrays < total arrays ↔ ∃ items ∈ arrays, cap < items.length) := by
    induction arrays with
    | nil => simp [returned, total]
    | cons items rest ih =>
      obtain ⟨le, exists_iff⟩ := ih
      rw [List.exists_mem_cons_iff, ← exists_iff]
      rw [returned, total] at le ⊢
      rw [List.map_cons, List.map_cons, List.sum_cons, List.sum_cons, List.length_take, returned, total]
      omega
  exact step.2

theorem get?_truncationOf (cuts : Cuts) (path : Text) (cutEntry : Cut) : (truncationOf cuts).get? path = some cutEntry ↔
    (cuts.entryAt path).1 < (cuts.entryAt path).2 ∧ cutEntry = .counted (cuts.entryAt path).1 (cuts.entryAt path).2 := by
  rw [SortedMap.get?_eq_some, truncationOf, List.mem_map]
  constructor
  · rintro ⟨⟨own, counts⟩, mem, same⟩
    obtain ⟨mem, less⟩ := List.mem_filter.mp mem
    obtain ⟨rfl, rfl⟩ := Prod.mk.inj same
    have found : cuts.entryAt own = counts := by rw [Cuts.entryAt, SortedMap.get?_eq_some.mpr mem, Option.getD_some]
    rw [found]
    exact ⟨of_decide_eq_true less, rfl⟩
  · rintro ⟨less, rfl⟩
    cases found : cuts.get? path with
    | none =>
      rw [Cuts.entryAt, found] at less
      exact absurd less (Nat.lt_irrefl 0)
    | some counts =>
      have at_eq : cuts.entryAt path = counts := by rw [Cuts.entryAt, found, Option.getD_some]
      rw [at_eq] at less ⊢
      exact ⟨(path, counts), List.mem_filter.mpr ⟨SortedMap.get?_eq_some.mp found, decide_eq_true less⟩, rfl⟩

/-- A result is cut somewhere. -/
def Lacks (cap : Nat) (result : Json) : Prop := ∃ array ∈ arraysIn cap result [], cap < array.2.length

/-- What is said of a bounded result: a path has an entry just if one of its arrays was cut, with the sums over all of
them. -/
def Counts (cap : Nat) (result : Json) (truncation : Truncation) : Prop :=
  ∀ path entry, truncation.get? path = some entry ↔ (∃ items ∈ arraysAt cap result path, cap < items.length) ∧
    entry = .counted (returned cap (arraysAt cap result path)) (total (arraysAt cap result path))

theorem counts_capArrays (cap : Nat) (result : Json) :
    Counts cap result (truncationOf (capArrays cap result [] .empty).2) := fun path entry => by
  have none : Cuts.entryAt .empty path = (0, 0) := rfl
  rw [get?_truncationOf, capArrays_eq, entryAt_foldl_countArray, none, Nat.zero_add, Nat.zero_add]
  exact and_congr_left fun _ => returned_lt_total_iff

theorem Counts.isEmpty_iff {result : Json} {truncation : Truncation} (counts : Counts cap result truncation) :
    truncation.entries.isEmpty = false ↔ Lacks cap result := by
  rw [Bool.eq_false_iff, Ne, List.isEmpty_iff]
  constructor
  · intro some
    obtain ⟨⟨path, entry⟩, mem⟩ := List.exists_mem_of_ne_nil _ some
    obtain ⟨⟨items, there, long⟩, -⟩ := (counts path entry).mp (SortedMap.get?_eq_some.mpr mem)
    exact ⟨(path, items), mem_ofPath.mp there, long⟩
  · rintro ⟨⟨path, items⟩, there, long⟩ none
    have found := (counts path _).mpr ⟨⟨items, mem_ofPath.mpr there, long⟩, rfl⟩
    have mem := SortedMap.get?_eq_some.mp found
    rw [none] at mem
    cases mem

/-! ### The loop -/

structure LargestFitting (result : Json) (limit cap : Nat) : Prop where
  halved : ∃ k, cap = limit / 2 ^ k
  fits : (cut cap result).serializedLen ≤ MAX_RESULT_BYTES
  largest : ∀ k, (cut (limit / 2 ^ k) result).serializedLen ≤ MAX_RESULT_BYTES → limit / 2 ^ k ≤ cap

inductive Bounded (result : Json) (limit : Nat) : Except ToolError (Json × Truncation) → Prop where
  | ok {cap : Nat} {truncation : Truncation} : LargestFitting result limit cap → Counts cap result truncation →
      Bounded result limit (.ok (cut cap result, truncation))
  | error : MAX_RESULT_BYTES < (cut 0 result).serializedLen → Bounded result limit (.error resultTooLarge)

theorem exists_boundLoop {result : Json} {limit fuel cap k : Nat} (enough : cap < fuel) (halved : cap = limit / 2 ^ k)
    (before : ∀ j < k, MAX_RESULT_BYTES < (cut (limit / 2 ^ j) result).serializedLen) :
    ∃ answer, boundLoop result fuel cap = some answer ∧ Bounded result limit answer := by
  induction fuel generalizing cap k with
  | zero => exact absurd enough (Nat.not_lt_zero _)
  | succ fuel ih =>
    have counts := counts_capArrays cap result
    have same : (capArrays cap result [] .empty).1 = cut cap result := by rw [capArrays_eq]
    rw [boundLoop, same]
    split_ifs with fits zero
    · refine ⟨_, rfl, .ok ⟨⟨k, halved⟩, fits, fun j fitsToo => ?_⟩ counts⟩
      rcases Nat.lt_or_ge j k with earlier | later
      · exact absurd fitsToo (Nat.not_le_of_gt (before j earlier))
      · rw [halved]
        exact Nat.div_le_div_left (Nat.pow_le_pow_right Nat.two_pos later) (Nat.two_pow_pos k)
    · rw [zero] at fits
      exact ⟨_, rfl, .error (Nat.lt_of_not_ge fits)⟩
    · have next : cap / 2 = limit / 2 ^ (k + 1) := by rw [halved, Nat.div_div_eq_div_mul, Nat.pow_succ]
      refine ih (by omega) next fun j less => ?_
      rcases Nat.lt_or_eq_of_le (Nat.le_of_lt_succ less) with earlier | rfl
      · exact before j earlier
      · rw [← halved]
        exact Nat.lt_of_not_ge fits

theorem exists_bound (result : Json) (limit : Nat) :
    ∃ answer, bound result limit = some answer ∧ Bounded result limit answer :=
  exists_boundLoop (Nat.lt_succ_self limit) (show limit = limit / 2 ^ 0 by rw [Nat.pow_zero, Nat.div_one])
    fun j less => absurd less (Nat.not_lt_zero j)

/-! ### The flag of a response -/

theorem LargestFitting.unique {result : Json} {limit cap other : Nat} (left : LargestFitting result limit cap)
    (right : LargestFitting result limit other) : cap = other := by
  obtain ⟨k, rfl⟩ := left.halved
  obtain ⟨l, rfl⟩ := right.halved
  exact Nat.le_antisymm (right.largest k left.fits) (left.largest l right.fits)

theorem Response.of_truncated {result : Json} {truncation : Truncation} :
    (Response.of result truncation).truncated = true ↔ truncation.entries.isEmpty = false :=
  iff_of_eq (Bool.not_eq_true' _)

theorem isEmpty_insert (truncation : Truncation) (path : Text) (entry : Cut) :
    (truncation.insert path entry).entries.isEmpty = false := by
  have found : (truncation.insert path entry).get? path = some entry := by rw [SortedMap.get?_insert, if_pos rfl]
  rw [Bool.eq_false_iff, Ne, List.isEmpty_iff]
  intro none
  have mem := SortedMap.get?_eq_some.mp found
  rw [none] at mem
  cases mem

theorem finishSearch_truncated {more : Bool} {limit : Nat} {result : Json} {truncation : Truncation} :
    (finishSearch more limit result truncation).truncated = true ↔ more = true ∨ truncation.entries.isEmpty = false := by
  cases more with
  | true => exact iff_of_true (Response.of_truncated.mpr (isEmpty_insert _ _ _)) (.inl rfl)
  | false =>
    have same : (finishSearch false limit result truncation).truncated = !truncation.entries.isEmpty := by
      rw [finishSearch, if_neg Bool.false_ne_true]
      split_ifs <;> rfl
    rw [same, Bool.not_eq_true']
    exact ⟨.inr, fun either => either.resolve_left Bool.false_ne_true⟩

theorem respond_eq (query : QueryTool) (limit : Nat) (raw : Json) (bounds : query ≠ .display) :
    respond query limit raw = (bound raw limit).map fun answer => answer.map fun bounded =>
      if query = .search then finishSearch (saysTruncated raw) limit bounded.1 bounded.2
      else .of bounded.1 bounded.2 := by
  cases query with
  | display => exact absurd rfl bounds
  | _ => rfl

theorem flag_iff_of_bounded {query : QueryTool} {limit : Nat} {raw : Json} {response : Response} (bounds : query ≠ .display)
    (run : respond query limit raw = some (.ok response)) :
    response.truncated = true ↔ (∃ cap, LargestFitting raw limit cap ∧ Lacks cap raw) ∨
      (query = .search ∧ saysTruncated raw = true) := by
  obtain ⟨answer, found, bounded⟩ := exists_bound raw limit
  rw [respond_eq query limit raw bounds, found, Option.map_some] at run
  cases bounded with
  | error _ => cases run
  | @ok cap truncation largest counts =>
    obtain rfl := Except.ok.inj (Option.some.inj run)
    have lacks : (∃ cap, LargestFitting raw limit cap ∧ Lacks cap raw) ↔ Lacks cap raw := by
      constructor
      · rintro ⟨other, other_largest, lacks⟩
        rwa [largest.unique other_largest]
      · exact fun lacks => ⟨_, largest, lacks⟩
    rw [lacks, ← counts.isEmpty_iff]
    dsimp only
    by_cases search : query = .search
    · rw [if_pos search, finishSearch_truncated, and_iff_right search, or_comm]
    · rw [if_neg search, Response.of_truncated]
      exact ⟨.inl, fun either => either.resolve_right fun both => search both.1⟩

/-- Bounding a result ends with as many entries as fit, or because none do, and counts what it cuts. The flag of a
response tells whether something was cut, which for `show` is nothing, and for a search also whether the library has
left a match out. -/
theorem bounded_and_flagged (raw : Json) (limit : Nat) :
    (∃ answer, bound raw limit = some answer ∧ Bounded raw limit answer) ∧
    ∀ query response, respond query limit raw = some (.ok response) →
      (response.truncated = true ↔ (query ≠ .display ∧ ∃ cap, LargestFitting raw limit cap ∧ Lacks cap raw) ∨
        (query = .search ∧ saysTruncated raw = true)) := by
  refine ⟨exists_bound raw limit, fun query response run => ?_⟩
  by_cases bounds : query = .display
  · rw [bounds] at run ⊢
    obtain rfl := Except.ok.inj (Option.some.inj run)
    exact ⟨fun flag => absurd flag Bool.false_ne_true, fun either => either.elim (fun cut => absurd rfl cut.1) fun both => by
      cases both.1⟩
  · rw [flag_iff_of_bounded bounds run, and_iff_right bounds]

namespace Sample

open Query Sync Evidence

def calleeJson (edge : CalleeEdge) : Json :=
  .object [("confidence", .string (confidenceLabel edge.confidence)), ("line", .nat (UInt64.ofNat edge.line)),
    ("target_name", .string edge.targetName),
    ("target_qualified", (edge.targetQualified.map Json.string).getD .null)]

def calleeReportJson (report : CalleeReport) : Json :=
  .object [("callees", .array (report.callees.map calleeJson)),
    ("hidden_unresolved", .nat (UInt64.ofNat report.hiddenUnresolved))]

def caller : SymbolRow := ⟨1, "a.rs", "f", "f", "function", 0, 20⟩

def okCall : RefRow := ⟨"a.rs", ⟨9, 11, "Ok", none, "call", none, false⟩, none, none, .fuzzyName⟩

def okIndex : Index := { Index.empty with symbols := [caller], refs := [okCall] }

def okReport : CalleeReport := calleesReport okIndex ⟨.fuzzyName, none, true⟩ (fun _ => 1) (some caller)

theorem hidden_call_unflagged : okReport = ⟨[], 1⟩ ∧ ∃ response,
    respond .callees 50 (calleeReportJson okReport) = some (.ok response) ∧
      ¬ (response.truncated = true ↔ ∃ edge ∈ visibleEdges okIndex ⟨.fuzzyName, none, true⟩ caller,
        ∀ callee ∈ okReport.callees, callee.targetName ≠ edge.raw.targetName) := by
  have report : okReport = ⟨[], 1⟩ := by decide
  have lacking : ∃ edge ∈ visibleEdges okIndex ⟨.fuzzyName, none, true⟩ caller,
      ∀ callee ∈ okReport.callees, callee.targetName ≠ edge.raw.targetName := by
    refine ⟨okCall, by decide, fun callee mem => ?_⟩
    rw [report] at mem
    cases mem
  refine ⟨report, .of (calleeReportJson okReport) .empty, ?_, fun flagged => ?_⟩
  · rw [report]
    rfl
  · exact absurd (flagged.mpr lacking) Bool.false_ne_true

end Sample

end OrbitGraph.Plugin
