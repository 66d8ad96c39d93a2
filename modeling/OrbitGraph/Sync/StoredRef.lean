import OrbitGraph.Lib.Command
import OrbitGraph.Sync.Resolver

/-!
References in the table `refs`.

A reference is stored with its resolution and with what it was resolved from, so that a
later sync can resolve it again from its row. The round trip loses a span that is negative
and the confidence of the extractor, which resolution does not read. Resolved against the
same symbols, imports, languages and package manifests, the stored references of a file
come out as they are stored.
-/

namespace OrbitGraph.Sync

open Lib

/-! ### Columns -/

/-- A `RawRef` with what resolution does not read of it. -/
structure ExtractedRef extends RawRef where
  fromFile : Text
  confidence : Text

/-- The texts of `CONFIDENCE_EXACT` and the others. -/
def Confidence.column : Confidence → Text
  | .exact => "exact"
  | .importResolved => "import_resolved"
  | .sameModule => "same_module"
  | .fuzzyName => "fuzzy_name"

/-- A row of `refs`. -/
structure RefColumns where
  id : Int
  fromFile : Text
  fromSpanStart : Int
  fromSpanEnd : Int
  targetName : Text
  targetQualified : Option Text
  targetSymbolHint : Option Nat
  kind : Text
  confidence : Text
  extractedQualified : Option Text
  unresolvedReceiver : Option Text
  spelledPath : Int
  deriving DecidableEq

inductive RefStoreError where
  | invalidData (operation reason : Text)
  deriving DecidableEq

def usizeToI64 (operation : Text) (value : Nat) : Except RefStoreError Int :=
  if value < 2 ^ 63 then .ok value
  else .error (.invalidData operation "out of range integral type conversion attempted")

/-- A negative value counts as 0. -/
def i64ToUsize (value : Int) : Nat := value.toNat

/-- A `bool` in an `INTEGER` column. -/
def boolColumn (value : Bool) : Int := if value then 1 else 0

def insertRef (id : Int) (fromFile : Text) (rawRef : ExtractedRef) (resolved : ResolvedRef) :
    Except RefStoreError RefColumns := do
  let fromSpanStart ← usizeToI64 "convert ref span start" rawRef.spanStart
  let fromSpanEnd ← usizeToI64 "convert ref span end" rawRef.spanEnd
  return {
    id, fromFile, fromSpanStart, fromSpanEnd
    targetName := rawRef.targetName
    targetQualified := resolved.targetQualified
    targetSymbolHint := resolved.targetSymbolHint
    kind := rawRef.kind
    confidence := resolved.confidence.column
    extractedQualified := rawRef.targetQualified
    unresolvedReceiver := rawRef.unresolvedReceiver
    spelledPath := boolColumn rawRef.spelledPath }

/-- A stored reference read back for re-resolution. -/
structure StoredRef where
  id : Int
  raw : ExtractedRef
  targetQualified : Option Text
  targetSymbolHint : Option Nat
  confidence : Text

def StoredRef.fromRow (row : RefColumns) : StoredRef where
  id := row.id
  raw := {
    fromFile := row.fromFile
    spanStart := i64ToUsize row.fromSpanStart
    spanEnd := i64ToUsize row.fromSpanEnd
    targetName := row.targetName
    targetQualified := row.extractedQualified
    kind := row.kind
    confidence := row.confidence
    unresolvedReceiver := row.unresolvedReceiver
    spelledPath := row.spelledPath ≠ 0 }
  targetQualified := row.targetQualified
  targetSymbolHint := row.targetSymbolHint
  confidence := row.confidence

section RoundTrip

variable {id : Int} {fromFile : Text} {rawRef : ExtractedRef} {resolved : ResolvedRef} {row : RefColumns}

theorem usizeToI64_eq_ok {operation : Text} {value : Nat} {column : Int} (run : usizeToI64 operation value = .ok column) :
    column = value := by
  unfold usizeToI64 at run
  split_ifs at run
  exact (Except.ok.inj run).symm

theorem fromRow_insertRef (run : insertRef id fromFile rawRef resolved = .ok row) : StoredRef.fromRow row = {
      id
      raw := { rawRef with fromFile, confidence := resolved.confidence.column }
      targetQualified := resolved.targetQualified
      targetSymbolHint := resolved.targetSymbolHint
      confidence := resolved.confidence.column } := by
  obtain ⟨spanStart, first, run⟩ := bind_eq_ok.mp run
  obtain ⟨spanEnd, last, run⟩ := bind_eq_ok.mp run
  obtain rfl := usizeToI64_eq_ok first
  obtain rfl := usizeToI64_eq_ok last
  obtain rfl := Except.ok.inj run
  have spelled : (boolColumn rawRef.spelledPath ≠ 0 : Bool) = rawRef.spelledPath := by
    unfold boolColumn
    cases rawRef.spelledPath <;> decide
  unfold StoredRef.fromRow i64ToUsize
  simp only [Int.toNat_natCast, spelled]

theorem raw_fromRow_insertRef (run : insertRef id fromFile rawRef resolved = .ok row) :
    (StoredRef.fromRow row).raw.toRawRef = rawRef.toRawRef := by
  rw [fromRow_insertRef run]

end RoundTrip

/-! ### Resolving again -/

/-- The loop over the references of a file and their resolutions; ids go up from `nextId`. -/
def insertRefs (fromFile : Text) : Nat → List ExtractedRef → List ResolvedRef → Except RefStoreError (List RefColumns)
  | nextId, rawRef :: refs, resolved :: rest => do
      let row ← insertRef nextId fromFile rawRef resolved
      let rows ← insertRefs fromFile (nextId + 1) refs rest
      return row :: rows
  | _, _, _ => return []

/-- The rows that resolution reads are the same. -/
structure SameInputs (idx idx' : Index) : Prop where
  symbols : idx'.symbols = idx.symbols
  imports : idx'.imports = idx.imports
  langOf : idx'.langOf = idx.langOf

theorem Resolver.of_sameInputs {idx idx' : Index} (packages : PackageFiles) (same : SameInputs idx idx') :
    Resolver.of packages idx' = Resolver.of packages idx := by
  unfold Resolver.of
  rw [same.symbols, same.imports, same.langOf]

section Again

variable [CharTables] {R : Resolver} {fromFile : Text}

/-- Pass 2 on one file: its references are resolved and inserted. -/
def storeRefs (R : Resolver) (fromFile : Text) (nextId : Nat) (refs : List ExtractedRef) :
    Except RefStoreError (List RefColumns) :=
  insertRefs fromFile nextId refs (R.resolveFile fromFile (refs.map ExtractedRef.toRawRef))

/-- The rows that `re_resolve_stored` updates, with their new resolutions. -/
def reResolveStored (R : Resolver) (fromFile : Text) (stored : List StoredRef) : List (StoredRef × ResolvedRef) :=
  (stored.zip (R.resolveFile fromFile (stored.map fun row => row.raw.toRawRef))).filter fun (row, resolved) =>
    ¬ (row.targetQualified = resolved.targetQualified ∧ row.targetSymbolHint = resolved.targetSymbolHint ∧
      row.confidence = resolved.confidence.column)

/-- A row holds a reference of the file and the resolution of that reference. -/
def Holds (R : Resolver) (fromFile : Text) (rawRef : ExtractedRef) (row : RefColumns) : Prop :=
  row.fromFile = fromFile ∧ (StoredRef.fromRow row).raw.toRawRef = rawRef.toRawRef ∧
    (StoredRef.fromRow row).targetQualified = (R.resolveIn fromFile rawRef.toRawRef).targetQualified ∧
    (StoredRef.fromRow row).targetSymbolHint = (R.resolveIn fromFile rawRef.toRawRef).targetSymbolHint ∧
    (StoredRef.fromRow row).confidence = (R.resolveIn fromFile rawRef.toRawRef).confidence.column

variable {refs : List ExtractedRef} {nextId : Nat}

theorem insertRefs_holds {rows : List RefColumns}
    (run : insertRefs fromFile nextId refs (refs.map fun rawRef => R.resolveIn fromFile rawRef.toRawRef) = .ok rows) :
    List.Forall₂ (Holds R fromFile) refs rows := by
  induction refs generalizing nextId rows with
  | nil =>
    obtain rfl := Except.ok.inj run
    exact .nil
  | cons rawRef rest ih =>
    obtain ⟨row, first, run⟩ := bind_eq_ok.mp run
    obtain ⟨others, later, run⟩ := bind_eq_ok.mp run
    obtain rfl := Except.ok.inj run
    have read := fromRow_insertRef first
    refine .cons ⟨?_, raw_fromRow_insertRef first, ?_, ?_, ?_⟩ (ih later)
    · exact congrArg (fun stored => stored.raw.fromFile) read
    · rw [read]
    · rw [read]
    · rw [read]

theorem storeRefs_holds {rows : List RefColumns}
    (run : storeRefs R fromFile nextId refs = .ok rows) : List.Forall₂ (Holds R fromFile) refs rows := by
  unfold storeRefs at run
  rw [Resolver.resolveFile_eq_map, List.map_map] at run
  exact insertRefs_holds run

/-- **Resolution does not depend on the memo or the store.** A file's references get the resolutions that each gets by
itself. Read back from their rows, they get them again while the symbols, imports, languages and package manifests stay
the same, and no row is updated. -/
theorem resolution_survives (packages : PackageFiles) (idx : Index) (fromFile : Text) (refs : List ExtractedRef) :
    (Resolver.of packages idx).resolveFile fromFile (refs.map ExtractedRef.toRawRef) =
        refs.map (fun rawRef => (Resolver.of packages idx).resolveIn fromFile rawRef.toRawRef) ∧
      ∀ nextId rows, storeRefs (Resolver.of packages idx) fromFile nextId refs = .ok rows → ∀ idx', SameInputs idx idx' →
        List.Forall₂ (fun rawRef row => (Resolver.of packages idx').resolveIn row.fromFile (StoredRef.fromRow row).raw.toRawRef =
          (Resolver.of packages idx).resolveIn fromFile rawRef.toRawRef) refs rows ∧
        reResolveStored (Resolver.of packages idx') fromFile (rows.map StoredRef.fromRow) = [] := by
  refine ⟨by rw [Resolver.resolveFile_eq_map, List.map_map]; rfl, fun nextId rows stored idx' same => ?_⟩
  have holds := storeRefs_holds stored
  rw [Resolver.of_sameInputs packages same]
  refine ⟨holds.imp fun rawRef row ⟨file, raw, _⟩ => by rw [file, raw], ?_⟩
  unfold reResolveStored
  rw [Resolver.resolveFile_eq_map, List.map_map, List.map_map, List.zip_map', List.filter_eq_nil_iff]
  intro pair mem
  obtain ⟨row, inside, rfl⟩ := List.mem_map.mp mem
  obtain ⟨rawRef, _, _, raw, target, hint, confidence⟩ := exists_of_forall₂ holds inside
  simp [raw, target, hint, confidence]

end Again

namespace Sample

local instance storedTables : CharTables := CharTables.ascii

def library : Index := { Index.empty with
  files :=
    [⟨"src/lib.rs", [], 0, "rust", 0⟩, ⟨"tests/t.rs", [], 0, "rust", 0⟩,
      ⟨"tests/u.rs", [], 0, "rust", 0⟩]
  symbols :=
    [⟨1, "src/lib.rs", "new", "Foo::new", "method", 0, 1⟩,
      ⟨2, "tests/u.rs", "new", "Foo::new", "method", 0, 1⟩] }

def packaged : PackageFiles :=
  ⟨fun directory => if directory = [] then some ⟨some "lib", none, none⟩ else none, fun _ => true⟩

def unpackaged : PackageFiles := ⟨fun _ => none, fun _ => true⟩

def libraryCall : ExtractedRef where
  spanStart := 0
  spanEnd := 1
  targetName := "new"
  targetQualified := some "lib::Foo::new"
  kind := "call"
  unresolvedReceiver := none
  spelledPath := true
  fromFile := "tests/t.rs"
  confidence := "fuzzy_name"

def libraryRow : RefColumns :=
  ⟨1, "tests/t.rs", 0, 1, "new", some "Foo::new", some 1, "call",
    "import_resolved", some "lib::Foo::new", none, 1⟩

theorem libraryCall_stored : storeRefs (Resolver.of packaged library) "tests/t.rs" 1 [libraryCall] = .ok [libraryRow] := by
  decide +kernel

/-- The manifests are not in the index: without the manifest the stored call resolves to nothing. -/
theorem manifest_matters : ¬ ∀ packages packages' : PackageFiles, ∀ rows,
    storeRefs (Resolver.of packages library) "tests/t.rs" 1 [libraryCall] = .ok rows →
      ∀ row ∈ rows, (Resolver.of packages' library).resolveIn row.fromFile (StoredRef.fromRow row).raw.toRawRef =
        (Resolver.of packages library).resolveIn "tests/t.rs" libraryCall.toRawRef := by
  intro survives
  have same := survives packaged unpackaged [libraryRow] (by decide +kernel) libraryRow (List.mem_singleton_self _)
  exact absurd same (by decide +kernel)

theorem libraryCall_survives :
    (Resolver.of packaged library).resolveIn libraryRow.fromFile (StoredRef.fromRow libraryRow).raw.toRawRef =
      (Resolver.of packaged library).resolveIn "tests/t.rs" libraryCall.toRawRef := by
  have survives := (resolution_survives packaged library "tests/t.rs" [libraryCall]).2
  exact (List.forall₂_cons.mp (survives 1 [libraryRow] libraryCall_stored library ⟨rfl, rfl, rfl⟩).1).1

end Sample

end OrbitGraph.Sync
