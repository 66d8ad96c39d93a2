import Mathlib.Data.List.MinMax
import OrbitGraph.Evidence.Types
import OrbitGraph.Lib.Command

/-!
The edges of stored references, in both directions.

Inbound, `refs` and `impact` select the references of a symbol with one predicate;
outbound, `impact` and `trace` look up the symbol of a reference. Both trust the hint of a
reference while it names a row with the reference's qualified name. Without such a row the
inbound side takes every definition of the name, and the outbound side the first.

The order of rows and where a row is in its file are left out.
-/

namespace OrbitGraph.Query

open Lib Sync Evidence

/-- An index as the database keeps it: `symbols.id` is a primary key. -/
structure IndexState where
  index : Index
  distinct : (index.symbols.map SymbolRow.id).Nodup

inductive QueryError where
  | invalidData (operation reason : Text)
  deriving DecidableEq

/-- `RefKind::from_db` -/
def refKindFromDb (value : Text) : Except QueryError RefKind :=
  if value = "call" then .ok .call
  else if value = "type" then .ok .type
  else if value = "use" then .ok .use
  else if value = "trait_bound" then .ok .traitBound
  else if value = "impl" then .ok .impl
  else if value = "extends" then .ok .extends
  else if value = "implements" then .ok .implements
  else .error (.invalidData "decode stored graph ref kind"
    ("unknown stored ref kind " ++ ['\x60'] ++ value ++ ['\x60']))

def rank : RefConfidence → Nat
  | .exact => 1
  | .importResolved => 2
  | .sameModule => 3
  | .fuzzyName => 4

def visibleAtFloor (confidence floor : RefConfidence) : Bool := rank confidence ≤ rank floor

section Inbound

variable (idx : Index)

/-- Whether the hint of a reference names a row with the reference's qualified name. -/
def hintHolds (r : RefRow) : Bool :=
  idx.symbols.any fun hinted => r.targetSymbolHint = some hinted.id ∧ r.targetQualified = some hinted.qualified

/-- `INBOUND_TARGET_MATCH`. The first argument is the symbol's id, if it has one. -/
def inboundTargetMatch (symbolId : Option Nat) (qualified : Text) (r : RefRow) : Bool :=
  r.targetQualified = some qualified ∧
    ((r.targetSymbolHint.isSome ∧ r.targetSymbolHint = symbolId) ∨ hintHolds idx r = false)

structure RefOpts where
  confidence : RefConfidence
  kind : Option RefKind

/-- A `fuzzy_name` reference of this name. -/
def fuzzyMatch (targetName : Text) (r : RefRow) : Bool := r.confidence = .fuzzyName ∧ r.raw.targetName = targetName

def runtimeInvocation : Text := "runtime_invocation"

/-- The `WHERE` clauses of `query_refs`. -/
def refsWhere (symbolId : Option Nat) (qualified targetName : Text) (opts : RefOpts) (r : RefRow) : Bool :=
  match opts.kind, opts.confidence with
  | some kind, .fuzzyName =>
    r.raw.kind = kindLabel kind ∧ (inboundTargetMatch idx symbolId qualified r ∨ fuzzyMatch targetName r)
  | some kind, _ => inboundTargetMatch idx symbolId qualified r ∧ r.raw.kind = kindLabel kind
  | none, .fuzzyName =>
    inboundTargetMatch idx symbolId qualified r ∨ (fuzzyMatch targetName r ∧ r.raw.kind ≠ runtimeInvocation)
  | none, _ => inboundTargetMatch idx symbolId qualified r

/-- `query_refs`: the references it reports, and how many the floor leaves out. -/
def queryRefs (symbolId : Option Nat) (qualified targetName : Text) (opts : RefOpts) :
    Except QueryError (List RefRow × Nat) := do
  let rows := idx.refs.filter (refsWhere idx symbolId qualified targetName opts)
  let _ ← rows.mapM fun r => refKindFromDb r.raw.kind
  let visible := fun r : RefRow => visibleAtFloor r.confidence opts.confidence
  return (rows.filter visible, (rows.filter fun r => !visible r).length)

/-- `inbound_ref_neighbors`: the references it makes neighbors of. -/
def inboundRefNeighbors (symbol : SymbolRow) (minConfidence : RefConfidence) : Except QueryError (List RefRow) := do
  let rows := idx.refs.filter fun r =>
    inboundTargetMatch idx (some symbol.id) symbol.qualified r ∨
      (minConfidence = .fuzzyName ∧ fuzzyMatch symbol.name r ∧ r.raw.kind ≠ runtimeInvocation)
  let shown := rows.filter fun r => visibleAtFloor r.confidence minConfidence
  let _ ← shown.mapM fun r => refKindFromDb r.raw.kind
  return shown

end Inbound

section Outbound

variable (idx : Index)

def resolveSymbolByQualified (qualified : Text) : Option SymbolRow :=
  (idx.symbols.filter fun row => row.qualified = qualified).argmin SymbolRow.id

/-- The row the hint names, if it has the qualified name, or else the first that has it. -/
def resolveHinted (qualified : Text) (hint : Option Nat) : Option SymbolRow :=
  match hint with
  | some id =>
    (idx.symbols.find? fun row => row.id = id ∧ row.qualified = qualified).or (resolveSymbolByQualified idx qualified)
  | none => resolveSymbolByQualified idx qualified

/-- `ImpactNeighbor`, as far as its symbol is resolved from it. -/
structure ImpactNeighbor where
  qualifiedName : Text
  symbolId : Option Nat
  origin : ImpactOrigin

def resolveNeighborSymbol (neighbor : ImpactNeighbor) : Option SymbolRow :=
  if neighbor.origin = .file then none else resolveHinted idx neighbor.qualifiedName neighbor.symbolId

/-- The neighbor that `outbound_call_neighbors` makes of a reference. -/
def outboundNeighbor (r : RefRow) : Option ImpactNeighbor :=
  r.targetQualified.map fun qualified => ⟨qualified, r.targetSymbolHint, .symbol⟩

/-- `resolve_symbol` of `trace`: the row it reads. -/
def resolveSymbol (qualified : Text) (hint : Option Nat) : Option SymbolRow := resolveHinted idx qualified hint

/-- What `impact` resolves the target of a reference to. -/
def impactTarget (r : RefRow) : Option SymbolRow := (outboundNeighbor r).bind (resolveNeighborSymbol idx)

/-- What `trace` resolves it to. -/
def traceTarget (r : RefRow) : Option SymbolRow :=
  r.targetQualified.bind fun qualified => resolveSymbol idx qualified r.targetSymbolHint

end Outbound

section Resolved

variable {idx : Index} {r : RefRow} {row : SymbolRow}

theorem traceTarget_eq (idx : Index) (r : RefRow) : traceTarget idx r = impactTarget idx r := by
  unfold traceTarget impactTarget outboundNeighbor
  cases r.targetQualified <;> rfl

variable {qualified : Text}

theorem resolveSymbolByQualified_eq_some (found : resolveSymbolByQualified idx qualified = some row) :
    row ∈ idx.symbols ∧ row.qualified = qualified := by
  have mem := List.mem_filter.mp (List.argmin_mem found)
  exact ⟨mem.1, of_decide_eq_true mem.2⟩

theorem resolveSymbolByQualified_isSome (mem : row ∈ idx.symbols) (name : row.qualified = qualified) :
    ∃ first, resolveSymbolByQualified idx qualified = some first := by
  rw [← Option.ne_none_iff_exists', resolveSymbolByQualified, Ne, List.argmin_eq_none]
  exact List.ne_nil_of_mem (List.mem_filter.mpr ⟨mem, decide_eq_true name⟩)

theorem impactTarget_eq (idx : Index) (r : RefRow) :
    impactTarget idx r = r.targetQualified.bind fun qualified => resolveHinted idx qualified r.targetSymbolHint := by
  unfold impactTarget outboundNeighbor
  cases r.targetQualified <;> rfl

theorem impactTarget_of_hintHolds (db : IndexState) (mem : row ∈ db.index.symbols) (hint : r.targetSymbolHint = some row.id)
    (name : r.targetQualified = some row.qualified) : impactTarget db.index r = some row := by
  have found : (db.index.symbols.find? fun other => other.id = row.id ∧ other.qualified = row.qualified) = some row := by
    obtain ⟨other, here⟩ : ∃ other, (db.index.symbols.find? fun other =>
        other.id = row.id ∧ other.qualified = row.qualified) = some other :=
      Option.isSome_iff_exists.mp (List.find?_isSome.mpr ⟨row, mem, by simp⟩)
    have same := List.find?_some here
    rw [decide_eq_true_iff] at same
    rw [here, List.inj_on_of_nodup_map db.distinct (List.mem_of_find?_eq_some here) mem same.1]
  rw [impactTarget_eq, name, Option.bind_some, hint]
  exact congrArg (Option.or · _) found

theorem impactTarget_of_not_hintHolds (unheld : hintHolds idx r = false)
    (name : r.targetQualified = some qualified) : impactTarget idx r = resolveSymbolByQualified idx qualified := by
  rw [impactTarget_eq, name, Option.bind_some]
  cases hint : r.targetSymbolHint with
  | none => rfl
  | some id =>
    have missing : (idx.symbols.find? fun row => row.id = id ∧ row.qualified = qualified) = none := by
      rw [List.find?_eq_none]
      intro row mem same
      obtain ⟨rfl, rfl⟩ := of_decide_eq_true same
      exact List.any_eq_false.mp unheld row mem (decide_eq_true ⟨hint, name⟩)
    exact congrArg (Option.or · _) missing

/-- A reference without a hint that holds, to a name of which another row is the first. -/
def Unsettled (idx : Index) (s : SymbolRow) (r : RefRow) : Prop :=
  hintHolds idx r = false ∧ ∃ first, impactTarget idx r = some first ∧ first ≠ s ∧ first.qualified = s.qualified

/-- The inbound predicate selects what resolves to the symbol, and what resolves to another of its name for want of
a hint. -/
theorem inboundTargetMatch_iff (db : IndexState) {s : SymbolRow} (mem : s ∈ db.index.symbols) :
    inboundTargetMatch db.index (some s.id) s.qualified r = true ↔
      impactTarget db.index r = some s ∨ Unsettled db.index s r := by
  rw [inboundTargetMatch, decide_eq_true_iff]
  by_cases held : hintHolds db.index r = true
  · obtain ⟨hinted, inside, fits⟩ := List.any_eq_true.mp held
    obtain ⟨hint, name⟩ := of_decide_eq_true fits
    rw [impactTarget_of_hintHolds db inside hint name]
    constructor
    · rintro ⟨own, ⟨-, same⟩ | unheld⟩
      · rw [hint] at same
        exact .inl (congrArg some (List.inj_on_of_nodup_map db.distinct inside mem (Option.some.inj same)))
      · exact absurd held (Bool.eq_false_iff.mp unheld)
    · rintro (same | ⟨unheld, -⟩)
      · obtain rfl := Option.some.inj same
        exact ⟨name, .inl ⟨by rw [hint]; rfl, hint⟩⟩
      · exact absurd held (Bool.eq_false_iff.mp unheld)
  · have unheld := Bool.eq_false_iff.mpr held
    constructor
    · rintro ⟨own, -⟩
      obtain ⟨first, found⟩ := resolveSymbolByQualified_isSome mem rfl
      have target := (impactTarget_of_not_hintHolds unheld own).trans found
      by_cases same : first = s
      · exact .inl (same ▸ target)
      · exact .inr ⟨unheld, first, target, same, (resolveSymbolByQualified_eq_some found).2⟩
    · intro resolves
      obtain ⟨first, target, named⟩ : ∃ first, impactTarget db.index r = some first ∧ first.qualified = s.qualified := by
        rcases resolves with target | ⟨-, first, target, -, named⟩
        · exact ⟨s, target, rfl⟩
        · exact ⟨first, target, named⟩
      rw [impactTarget_eq] at target
      obtain ⟨qualified, own, -⟩ := Option.bind_eq_some_iff.mp target
      rw [← impactTarget_eq, impactTarget_of_not_hintHolds unheld own] at target
      rw [own, ← (resolveSymbolByQualified_eq_some target).2, named]
      exact ⟨rfl, .inr unheld⟩

end Resolved

section Reported

theorem kindLabel_ne_runtimeInvocation (kind : RefKind) : kindLabel kind ≠ runtimeInvocation := by
  cases kind <;> decide

/-- Whether a query with these options reports a reference it selects. -/
def Admits (opts : RefOpts) (r : RefRow) : Prop :=
  (∀ kind ∈ opts.kind, r.raw.kind = kindLabel kind) ∧ visibleAtFloor r.confidence opts.confidence = true

/-- A reference that the lowest floor selects by its name. -/
def ByName (floor : RefConfidence) (s : SymbolRow) (r : RefRow) : Prop :=
  floor = .fuzzyName ∧ r.confidence = .fuzzyName ∧ r.raw.targetName = s.name ∧ r.raw.kind ≠ runtimeInvocation

variable {s : SymbolRow}

theorem refsWhere_iff {idx : Index} {opts : RefOpts} {r : RefRow} :
    refsWhere idx (some s.id) s.qualified s.name opts r = true ↔ (∀ kind ∈ opts.kind, r.raw.kind = kindLabel kind) ∧
      (inboundTargetMatch idx (some s.id) s.qualified r = true ∨ ByName opts.confidence s r) := by
  obtain ⟨floor, kind⟩ := opts
  cases kind with
  | none => cases floor <;> simp [refsWhere, ByName, fuzzyMatch, and_assoc]
  | some kind =>
    have named := kindLabel_ne_runtimeInvocation kind
    cases floor with
    | fuzzyName =>
      simp only [refsWhere, fuzzyMatch, ByName, decide_eq_true_eq, Option.mem_some_iff, forall_eq', true_and]
      refine and_congr_right fun own => or_congr_right ?_
      rw [own]
      simp only [ne_eq, named, not_false_eq_true, and_true]
    | _ => simp [refsWhere, ByName, and_comm]

/-- **What `refs` reports of a symbol**: of the references of the asked kind and within the floor, those that resolve to
it, those that resolve to a namesake for want of a hint, and on the lowest floor those of its name. -/
theorem mem_queryRefs (db : IndexState) (mem : s ∈ db.index.symbols) {opts : RefOpts} {rows : List RefRow}
    {skipped : Nat} (run : queryRefs db.index (some s.id) s.qualified s.name opts = .ok (rows, skipped)) (r : RefRow) :
    r ∈ rows ↔ r ∈ db.index.refs ∧ Admits opts r ∧
      (impactTarget db.index r = some s ∨ Unsettled db.index s r ∨ ByName opts.confidence s r) := by
  obtain ⟨_, -, shown⟩ := bind_eq_ok.mp run
  obtain ⟨rfl, -⟩ := Prod.mk.inj (Except.ok.inj shown)
  rw [List.mem_filter, List.mem_filter, refsWhere_iff, inboundTargetMatch_iff db mem, or_assoc, Admits]
  tauto

/-- **What `impact` makes neighbors of a symbol**, in the same way. -/
theorem mem_inboundRefNeighbors (db : IndexState) (mem : s ∈ db.index.symbols) {floor : RefConfidence}
    {rows : List RefRow} (run : inboundRefNeighbors db.index s floor = .ok rows) (r : RefRow) :
    r ∈ rows ↔ r ∈ db.index.refs ∧ visibleAtFloor r.confidence floor = true ∧
      (impactTarget db.index r = some s ∨ Unsettled db.index s r ∨ ByName floor s r) := by
  obtain ⟨_, -, shown⟩ := bind_eq_ok.mp run
  obtain rfl := Except.ok.inj shown
  rw [List.mem_filter, List.mem_filter, decide_eq_true_iff, inboundTargetMatch_iff db mem, or_assoc, ByName, fuzzyMatch,
    decide_eq_true_iff, and_assoc]
  tauto

/-- **Inbound and outbound edges agree, except where nothing settles the target.** A reference is reported for a symbol
by `refs` and by `impact` exactly if it resolves to that symbol outbound, in `impact` and in `trace`, or if it resolves to
a namesake for want of a hint, or, on the lowest floor, if it is a fuzzy reference to the name. -/
theorem edges_agree (db : IndexState) {s : SymbolRow} (mem : s ∈ db.index.symbols) :
    (∀ opts rows skipped, queryRefs db.index (some s.id) s.qualified s.name opts = .ok (rows, skipped) → ∀ r, r ∈ rows ↔
      r ∈ db.index.refs ∧ Admits opts r ∧
        (impactTarget db.index r = some s ∨ Unsettled db.index s r ∨ ByName opts.confidence s r)) ∧
    (∀ floor rows, inboundRefNeighbors db.index s floor = .ok rows → ∀ r, r ∈ rows ↔
      r ∈ db.index.refs ∧ visibleAtFloor r.confidence floor = true ∧
        (impactTarget db.index r = some s ∨ Unsettled db.index s r ∨ ByName floor s r)) ∧
    ∀ r, traceTarget db.index r = impactTarget db.index r :=
  ⟨fun _ _ _ run => mem_queryRefs db mem run, fun _ _ run => mem_inboundRefNeighbors db mem run, traceTarget_eq db.index⟩

end Reported

namespace Sample

def first : SymbolRow := ⟨1, ['a'], ['f'], ['f'], ['f', 'n'], 0, 9⟩

def second : SymbolRow := ⟨2, ['b'], ['f'], ['f'], ['f', 'n'], 0, 9⟩

def unhinted : RefRow :=
  ⟨['c'], ⟨3, 4, ['f'], none, ['c', 'a', 'l', 'l'], none, false⟩, some ['f'], none, .sameModule⟩

def twins : IndexState where
  index := { Index.empty with symbols := [first, second], refs := [unhinted] }
  distinct := by decide

/-- The call is reported for either definition, and resolves to the first. -/
theorem unhinted_counts_twice : ¬ ∀ s ∈ twins.index.symbols, ∀ r ∈ twins.index.refs,
    (∃ rows skipped, queryRefs twins.index (some s.id) s.qualified s.name ⟨.sameModule, none⟩ = .ok (rows, skipped) ∧
      r ∈ rows) ↔ impactTarget twins.index r = some s := by
  intro agree
  have counted := (agree second (by decide) unhinted (by decide)).mp ⟨[unhinted], 0, by decide, by decide⟩
  exact absurd counted (by decide)

theorem twins_edges : ∃ rows skipped,
    queryRefs twins.index (some second.id) second.qualified second.name ⟨.sameModule, none⟩ = .ok (rows, skipped) ∧
      (unhinted ∈ rows ↔ unhinted ∈ twins.index.refs ∧ Admits ⟨.sameModule, none⟩ unhinted ∧
        (impactTarget twins.index unhinted = some second ∨ Unsettled twins.index second unhinted ∨
          ByName .sameModule second unhinted)) :=
  ⟨[unhinted], 0, by decide, (edges_agree twins (by decide)).1 ⟨.sameModule, none⟩ [unhinted] 0 (by decide) unhinted⟩

end Sample

end OrbitGraph.Query
