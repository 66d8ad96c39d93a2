import OrbitGraph.Analysis.Excerpts
import OrbitGraph.Lib.Lines
import OrbitGraph.Lib.Ranking
import OrbitGraph.Query.Impact

/-!
To which symbol the collector of evidence attributes a line.

The graph attributes a reference by its own offsets, to the shortest span around it. The
collector knows only the line, and takes the symbol around the first byte of the line. It
reads the spans again, each through the short name and the kind of its symbol.

How a file opens and what an error prints are parameters.
-/

namespace OrbitGraph.Evidence

open Lib Sync Changes Analysis

/-- `LineIndex::line_for`, counted from 1. -/
def lineFor (bytes : Utf8.Bytes) (byteOffset : Nat) : Nat :=
  ((lineStarts bytes).takeWhile (· ≤ min byteOffset bytes.length)).length

/-! ### The graph -/

structure SnapshotGraph extends Query.ImpactIndex where
  opened : Text → Except History.GraphError Utf8.Bytes
  reasonOf : History.GraphError → Text

section Graph

variable (g : SnapshotGraph)

structure ResolvedView where
  file : Text
  spanStart : Int
  spanEnd : Int

/-- `materialize_view`, with the bound of the collector. -/
def materializeView (resolved : ResolvedView) : Except History.GraphError Query.ShowWindow :=
  Query.readShowWindow (g.opened resolved.file) "read source span for graph show" resolved.spanStart
    resolved.spanEnd defaultShowMaxBytes resolved.file

/-- `resolve_symbol` of `show`: of the rows with a name and a kind the first, and one with this qualified name first of
all. -/
def resolveSymbol (path symbol kind : Text) : Option SymbolRow :=
  Query.firstNamed g.toImpactIndex symbol fun row => row.filePath = path ∧ row.kind = kind

def resolveFile (path : Text) : Option FileRow := g.index.files.find? fun file => file.path = path

/-- `Graph::show`, of a symbol. -/
def showSymbol (path symbol kind : Text) : Except History.GraphError (Option Query.ShowWindow) :=
  match resolveSymbol g path symbol kind with
  | none => .ok none
  | some row => (materializeView g ⟨row.filePath, row.spanStart, row.spanEnd⟩).map some

/-- `Graph::show`, of a file. -/
def showFile (path : Text) : Except History.GraphError (Option Query.ShowWindow) :=
  match resolveFile g path with
  | none => .ok none
  | some file => (materializeView g ⟨file.path, 0, file.byteLen⟩).map some

/-- `ORDER BY s.span_start, s.id` -/
def listedLe (a b : SymbolRow) : Bool :=
  if a.spanStart = b.spanStart then a.id ≤ b.id else a.spanStart ≤ b.spanStart

def fullFileRows (path : Text) : List SymbolRow :=
  if ∃ file ∈ g.index.files, file.path = path then
    (g.index.symbols.filter fun row => row.filePath = path).insertionSort fun a b => listedLe a b = true
  else []

/-! ### The collector -/

structure IndexedSymbol where
  name : Text
  kind : Text
  qualified : Text

def symbolsByFile (path : Text) : List IndexedSymbol :=
  (fullFileRows g path).map fun row => ⟨row.name, row.kind, row.qualified⟩

/-- `SymbolSpan` -/
structure RecordedSymbol extends IndexedSymbol where
  start : Nat
  stop : Nat

structure FileIndex where
  lineStarts : List Nat
  symbols : List RecordedSymbol

/-- What the loop of `ensure_file_index` records for a symbol. -/
def recordSymbol (side : SnapshotSide) (file : Text) (symbol : IndexedSymbol) :
    Except EvidenceError (Option RecordedSymbol) :=
  ((showSymbol g file symbol.name symbol.kind).mapError fun error =>
      EvidenceError.query "read referencing symbol span" side (g.reasonOf error)).map fun view =>
    view.map fun view => ⟨symbol, view.start, view.stop⟩

/-- What `ensure_file_index` caches for a file. -/
def readFileIndex (side : SnapshotSide) (file : Text) : Except EvidenceError FileIndex := do
  let view ← (showFile g file).mapError fun error =>
    EvidenceError.query "read referencing file" side (g.reasonOf error)
  let symbols ← (symbolsByFile g file).mapM (recordSymbol g side file)
  return ⟨(view.map fun view => Lib.lineStarts view.bytes).getD [], symbols.reduceOption⟩

/-- A collector; what it has cached is what it would read. -/
structure EvidenceCollector where
  side : SnapshotSide
  fileCache : Text → Option FileIndex
  sound : ∀ file index, fileCache file = some index → readFileIndex g side file = .ok index

structure Attribution where
  label : Text
  selector : Text
  qualified : Option Text
  deriving DecidableEq

def unattributed (file : Text) : Attribution := ⟨file, "file:" ++ file, none⟩

def attributed (file : Text) (symbol : IndexedSymbol) : Attribution where
  label := file ++ '#' :: symbol.name
  selector := "symbol:" ++ file ++ '#' :: symbol.name ++ ':' :: symbol.kind
  qualified := some symbol.qualified

/-- The shortest span around an offset, and of several the first. -/
def FileIndex.containing (index : FileIndex) (offset : Nat) : Option RecordedSymbol :=
  (index.symbols.filter fun symbol => symbol.start ≤ offset ∧ offset < symbol.stop).foldl
    (keepBetter fun a b => a.stop - a.start < b.stop - b.start) none

namespace EvidenceCollector

variable {g}

def new (side : SnapshotSide) : EvidenceCollector g where
  side
  fileCache _ := none
  sound _ _ found := by cases found

def remember (c : EvidenceCollector g) {file : Text} {index : FileIndex} (read : readFileIndex g c.side file = .ok index) :
    EvidenceCollector g where
  side := c.side
  fileCache := Function.update c.fileCache file (some index)
  sound other index' found := by
    by_cases same : other = file
    · subst same
      rw [Function.update_self] at found
      rw [← Option.some.inj found]
      exact read
    · rw [Function.update_of_ne same] at found
      exact c.sound other index' found

def ensureFileIndex (c : EvidenceCollector g) (file : Text) : Except EvidenceError (EvidenceCollector g) :=
  if (c.fileCache file).isSome then .ok c
  else
    match read : readFileIndex g c.side file with
    | .error error => .error error
    | .ok _ => .ok (c.remember read)

/-- `EvidenceCollector::attribute` -/
def attributeLine (c : EvidenceCollector g) (file : Text) (line : Nat) :
    Except EvidenceError (Attribution × EvidenceCollector g) := do
  let c ← c.ensureFileIndex file
  match c.fileCache file with
  | none => return (unattributed file, c)
  | some index =>
    match index.lineStarts[line - 1]? with
    | none => return (unattributed file, c)
    | some offset =>
      match index.containing offset with
      | some symbol => return (attributed file symbol.toIndexedSymbol, c)
      | none => return (unattributed file, c)

end EvidenceCollector

end Graph

/-! ### The first byte of a line -/

theorem getElem?_lineStarts_of_prefix {bytes contents : Utf8.Bytes} (start : bytes <+: contents) {i : Nat}
    (inside : i < (lineStarts bytes).length) : (lineStarts bytes)[i]? = (lineStarts contents)[i]? := by
  obtain ⟨rest, rfl⟩ := start
  rw [lineStarts_append, List.getElem?_append_left inside]

section Recorded

variable {g : SnapshotGraph} {file : Text} {row : SymbolRow}

theorem listedLe_refl (row : SymbolRow) : listedLe row row = true := by
  rw [listedLe, if_pos rfl, decide_eq_true_eq]

instance : Std.Total fun a b : SymbolRow => listedLe a b = true where
  total a b := by
    unfold listedLe
    split_ifs <;> simp only [decide_eq_true_eq] <;> omega

instance : IsTrans SymbolRow fun a b => listedLe a b = true where
  trans a b c left right := by
    unfold listedLe at *
    split_ifs at * <;> simp only [decide_eq_true_eq] at * <;> omega

variable (g) in
def shownRow (row : SymbolRow) : SymbolRow := (resolveSymbol g row.filePath row.name row.kind).getD row

theorem mem_fullFileRows (indexed : ∃ f ∈ g.index.files, f.path = file) :
    row ∈ fullFileRows g file ↔ row ∈ g.index.symbols ∧ row.filePath = file := by
  rw [fullFileRows, if_pos indexed, List.mem_insertionSort, List.mem_filter, decide_eq_true_eq]

theorem resolveSymbol_shownRow (mem : row ∈ g.index.symbols) :
    resolveSymbol g row.filePath row.name row.kind = some (shownRow g row) ∧
      (shownRow g row).filePath = row.filePath := by
  have named : row ∈ g.index.symbols.filter fun other =>
      (decide (other.filePath = row.filePath ∧ other.kind = row.kind)) ∧ (other.name = row.name ∨ other.qualified = row.name) := by
    rw [List.mem_filter]
    exact ⟨mem, by simp⟩
  obtain ⟨first, found⟩ := exists_head?_insertionSort (fun a b => Query.namedLe row.name a b = true) named
  have inside := List.mem_filter.mp ((List.mem_insertionSort _).mp (List.mem_of_mem_head? found))
  have resolved : resolveSymbol g row.filePath row.name row.kind = some first := found
  have shown : shownRow g row = first := by
    rw [shownRow, resolved]
    rfl
  rw [shown]
  simp only [decide_eq_true_eq] at inside
  exact ⟨resolved, inside.2.1.1⟩

theorem pairwise_fullFileRows (g : SnapshotGraph) (file : Text) :
    (fullFileRows g file).Pairwise fun a b => listedLe a b = true ∧ a.id ≠ b.id := by
  unfold fullFileRows
  split_ifs
  · refine (List.pairwise_insertionSort (fun a b => listedLe a b = true) _).and ?_
    have distinct : (g.index.symbols.filter fun row => row.filePath = file).Pairwise fun a b => a.id ≠ b.id :=
      (List.pairwise_map.mp g.distinct).filter _
    exact ((List.perm_insertionSort _ _).pairwise_iff fun {a b} apart => apart.symm).mpr distinct
  · exact List.Pairwise.nil

variable (g) in
def RecordedAround (first : Nat) (row : SymbolRow) : Prop :=
  (shownRow g row).spanStart ≤ first ∧ first < (shownRow g row).spanEnd

instance (first : Nat) : DecidablePred (RecordedAround g first) := fun _ =>
  inferInstanceAs (Decidable (_ ∧ _))

variable (g) in
def recordedWidth (row : SymbolRow) : Nat := (shownRow g row).spanEnd - (shownRow g row).spanStart

variable (g) in
def recorded (row : SymbolRow) : RecordedSymbol where
  name := row.name
  kind := row.kind
  qualified := row.qualified
  start := (shownRow g row).spanStart
  stop := (shownRow g row).spanEnd

variable (g) in
/-- Of the rows of a file whose recorded span has a byte, the one with the shortest, and of these the first listed. -/
def LeastRecorded (file : Text) (first : Nat) (row : SymbolRow) : Prop :=
  row ∈ g.index.symbols ∧ row.filePath = file ∧ RecordedAround g first row ∧
    ∀ other ∈ g.index.symbols, other.filePath = file → RecordedAround g first other →
      recordedWidth g row < recordedWidth g other ∨
        recordedWidth g row = recordedWidth g other ∧ listedLe row other = true

variable (g) in
def leastRow (file : Text) (first : Nat) : Option SymbolRow :=
  ((fullFileRows g file).filter fun row => RecordedAround g first row).foldl
    (keepBetter fun a b => recordedWidth g a < recordedWidth g b) none

theorem leastRow_eq_none (indexed : ∃ f ∈ g.index.files, f.path = file) {first : Nat} : leastRow g file first = none ↔
      ∀ row ∈ g.index.symbols, row.filePath = file → ¬ RecordedAround g first row := by
  unfold leastRow
  rcases @foldl_keepBetter _ (fun a b => recordedWidth g a < recordedWidth g b) _ (by omega) (by omega)
      ((fullFileRows g file).filter fun row => RecordedAround g first row) with ⟨empty, none⟩ | ⟨w, mem, found, -⟩
  · refine iff_of_true none fun row mem path around => ?_
    have kept : row ∈ (fullFileRows g file).filter fun row => RecordedAround g first row :=
      List.mem_filter.mpr ⟨(mem_fullFileRows indexed).mpr ⟨mem, path⟩, decide_eq_true around⟩
    rw [empty] at kept
    cases kept
  · rw [found]
    obtain ⟨inside, around⟩ := List.mem_filter.mp mem
    obtain ⟨stored, path⟩ := (mem_fullFileRows indexed).mp inside
    exact iff_of_false (Option.some_ne_none w) fun absent => absent w stored path (of_decide_eq_true around)

theorem leastRow_eq_some (indexed : ∃ f ∈ g.index.files, f.path = file) {first : Nat} :
    leastRow g file first = some row ↔ LeastRecorded g file first row := by
  have asymm : ∀ a b : SymbolRow, listedLe a b = true ∧ a.id ≠ b.id → ¬ (listedLe b a = true ∧ b.id ≠ a.id) := by
    rintro a b ⟨left, apart⟩ ⟨right, -⟩
    unfold listedLe at left right
    split_ifs at left right <;> simp only [decide_eq_true_eq] at left right <;> omega
  unfold leastRow
  rw [foldl_keepBetter_eq_some_iff (by omega) (by omega) asymm ((pairwise_fullFileRows g file).filter _)]
  simp only [List.mem_filter, mem_fullFileRows indexed, decide_eq_true_eq]
  constructor
  · rintro ⟨⟨⟨mem, path⟩, around⟩, least⟩
    refine ⟨mem, path, around, fun other inside there covers => ?_⟩
    rcases least other ⟨⟨inside, there⟩, covers⟩ with rfl | less | ⟨level, earlier, -⟩
    · exact .inr ⟨rfl, listedLe_refl other⟩
    · exact .inl less
    · rcases (Nat.not_lt.mp level).lt_or_eq with less | same
      · exact .inl less
      · exact .inr ⟨same, earlier⟩
  · rintro ⟨mem, path, around, least⟩
    refine ⟨⟨⟨mem, path⟩, around⟩, ?_⟩
    rintro other ⟨⟨inside, there⟩, covers⟩
    by_cases same : row.id = other.id
    · exact .inl (List.inj_on_of_nodup_map g.distinct inside mem same.symm)
    · rcases least other inside there covers with less | ⟨level, earlier⟩
      · exact .inr (.inl less)
      · exact .inr (.inr ⟨level.not_gt, earlier, same⟩)

theorem containing_recorded (starts : List Nat) (first : Nat) :
    (FileIndex.mk starts ((fullFileRows g file).map (recorded g))).containing first =
      (leastRow g file first).map (recorded g) := by
  unfold FileIndex.containing leastRow
  rw [List.filter_map, foldl_keepBetter_map]
  rfl

variable (g) in
def RecordedInside (file : Text) (length : Nat) : Prop :=
  ∀ row ∈ g.index.symbols, row.filePath = file →
    (shownRow g row).spanStart ≤ (shownRow g row).spanEnd ∧ (shownRow g row).spanEnd ≤ length

variable {contents : Utf8.Bytes}

theorem recordSymbol_cases (opened : g.opened file = .ok contents) (side : SnapshotSide)
    (mem : row ∈ g.index.symbols) (path : row.filePath = file) :
    ((shownRow g row).spanStart ≤ (shownRow g row).spanEnd ∧ (shownRow g row).spanEnd ≤ contents.length ∧
        recordSymbol g side file ⟨row.name, row.kind, row.qualified⟩ = .ok (some (recorded g row))) ∨
      ¬ ((shownRow g row).spanStart ≤ (shownRow g row).spanEnd ∧ (shownRow g row).spanEnd ≤ contents.length) ∧
        ∃ error, recordSymbol g side file ⟨row.name, row.kind, row.qualified⟩ = .error error := by
  obtain ⟨resolved, same⟩ := resolveSymbol_shownRow mem
  rw [path] at resolved same
  unfold recordSymbol showSymbol
  rw [resolved]
  dsimp only
  unfold materializeView
  rw [same, opened]
  rcases readShowWindow_cases contents "read source span for graph show" file defaultShowMaxBytes
      (shownRow g row).spanStart (shownRow g row).spanEnd with ⟨outside, error, read⟩ | ⟨order, inside, view, read, start, stop⟩
  · right
    rw [read]
    exact ⟨outside, _, rfl⟩
  · left
    rw [read]
    refine ⟨order, inside, ?_⟩
    rw [recorded, ← start, ← stop]
    rfl

theorem readFileIndex_cases (opened : g.opened file = .ok contents)
    (indexed : ∃ f ∈ g.index.files, f.path = file) (side : SnapshotSide) {view : Query.ShowWindow}
    (shown : showFile g file = .ok (some view)) : (RecordedInside g file contents.length ∧
        readFileIndex g side file = .ok ⟨lineStarts view.bytes, (fullFileRows g file).map (recorded g)⟩) ∨
      ¬ RecordedInside g file contents.length ∧ ∃ error, readFileIndex g side file = .error error := by
  unfold readFileIndex
  rw [shown]
  by_cases inside : RecordedInside g file contents.length
  · left
    have all : (symbolsByFile g file).mapM (recordSymbol g side file) =
        .ok ((fullFileRows g file).map fun row => some (recorded g row)) := by
      unfold symbolsByFile
      rw [List.mapM_map]
      refine mapM_of_forall_ok fun row mem => ?_
      obtain ⟨stored, path⟩ := (mem_fullFileRows indexed).mp mem
      rcases recordSymbol_cases opened side stored path with ⟨-, -, same⟩ | ⟨outside, -⟩
      · exact same
      · exact absurd (inside row stored path) outside
    have every : ((fullFileRows g file).map fun row => some (recorded g row)).reduceOption =
        (fullFileRows g file).map (recorded g) := by
      rw [List.reduceOption, List.filterMap_map]
      change List.filterMap (some ∘ recorded g) _ = _
      rw [List.filterMap_eq_map]
    refine ⟨inside, ?_⟩
    change ((symbolsByFile g file).mapM (recordSymbol g side file) >>= fun symbols =>
      Except.ok (FileIndex.mk (lineStarts view.bytes) symbols.reduceOption)) = _
    rw [all]
    change Except.ok (FileIndex.mk _ (List.reduceOption _)) = _
    rw [every]
  · right
    refine ⟨inside, ?_⟩
    change ∃ error, ((symbolsByFile g file).mapM (recordSymbol g side file) >>= fun symbols =>
      .ok (FileIndex.mk (lineStarts view.bytes) symbols.reduceOption)) = .error error
    cases all : (symbolsByFile g file).mapM (recordSymbol g side file) with
    | error error => exact ⟨error, rfl⟩
    | ok symbols =>
      refine absurd (fun row stored path => ?_) inside
      obtain ⟨record, -, same⟩ := ok_of_mapM all
        (List.mem_map_of_mem ((mem_fullFileRows indexed).mpr ⟨stored, path⟩))
      rcases recordSymbol_cases opened side stored path with ⟨order, last, -⟩ | ⟨-, error, failed⟩
      · exact ⟨order, last⟩
      · cases same.symm.trans failed

end Recorded

section Agreement

variable {g : SnapshotGraph}

/-- How `impact` attributes a reference. -/
def coreAttribution (g : SnapshotGraph) (r : RefRow) : Attribution :=
  match Query.enclosingSymbol g.toImpactIndex r with
  | some row => attributed r.fromFile ⟨row.name, row.kind, row.qualified⟩
  | none => unattributed r.fromFile

def WithinReadBound (g : SnapshotGraph) (file : Text) (line : Nat) : Prop :=
  ∃ view, showFile g file = .ok (some view) ∧ line ≤ (lineStarts view.bytes).length

/-- The collector attributes the line of a reference as `impact` attributes the reference. -/
def AttributesAsCore (c : EvidenceCollector g) (r : RefRow) (contents : Utf8.Bytes) : Prop :=
  (c.attributeLine r.fromFile (lineFor contents r.raw.spanStart)).map Prod.fst = .ok (coreAttribution g r)

def lineAttribution (index : FileIndex) (file : Text) (line : Nat) : Attribution :=
  match index.lineStarts[line - 1]? with
  | none => unattributed file
  | some offset =>
    match index.containing offset with
    | some symbol => attributed file symbol.toIndexedSymbol
    | none => unattributed file

theorem ensureFileIndex_cases (c : EvidenceCollector g) (file : Text) :
    (∃ error, readFileIndex g c.side file = .error error ∧ c.ensureFileIndex file = .error error) ∨
      ∃ index c', readFileIndex g c.side file = .ok index ∧ c.ensureFileIndex file = .ok c' ∧
        c'.fileCache file = some index := by
  unfold EvidenceCollector.ensureFileIndex
  split_ifs with known
  · right
    obtain ⟨index, cached⟩ := Option.isSome_iff_exists.mp known
    exact ⟨index, c, c.sound file index cached, rfl, cached⟩
  · split
    next error read =>
      left
      exact ⟨error, read, rfl⟩
    next index read =>
      right
      refine ⟨index, c.remember read, read, rfl, ?_⟩
      change Function.update c.fileCache file (some index) file = some index
      rw [Function.update_self]

theorem map_attributeLine (c : EvidenceCollector g) (file : Text) (line : Nat) :
    (c.attributeLine file line).map Prod.fst =
      (readFileIndex g c.side file).map fun index => lineAttribution index file line := by
  unfold EvidenceCollector.attributeLine
  rcases ensureFileIndex_cases c file with ⟨error, read, failed⟩ | ⟨index, c', read, ready, cached⟩
  · rw [read, failed]
    rfl
  · rw [read, ready]
    change Except.map Prod.fst (match c'.fileCache file with
      | none => _
      | some index => _) = .ok (lineAttribution index file line)
    rw [cached]
    unfold lineAttribution
    dsimp only
    cases index.lineStarts[line - 1]? with
    | none => rfl
    | some offset =>
      dsimp only
      cases index.containing offset <;> rfl

/-! ### The graph itself -/

instance : Std.Total fun a b : SymbolRow => Query.innerLe a b = true where
  total a b := by
    unfold Query.innerLe
    dsimp only
    split_ifs <;> simp only [decide_eq_true_eq] <;> omega

instance : IsTrans SymbolRow fun a b => Query.innerLe a b = true where
  trans a b c left right := by
    unfold Query.innerLe at *
    dsimp only at *
    split_ifs at * <;> simp only [decide_eq_true_eq] at * <;> omega

theorem enclosingSymbol_eq_some_iff {g : Query.ImpactIndex} {r : RefRow} {row : SymbolRow} :
    Query.enclosingSymbol g r = some row ↔
      (row ∈ g.index.symbols ∧ row.filePath = r.fromFile ∧ row.spanStart ≤ r.raw.spanStart ∧ r.raw.spanEnd ≤ row.spanEnd) ∧
        ∀ other ∈ g.index.symbols, other.filePath = r.fromFile → other.spanStart ≤ r.raw.spanStart →
          r.raw.spanEnd ≤ other.spanEnd → Query.innerLe row other = true := by
  unfold Query.enclosingSymbol
  rw [head?_insertionSort_eq_some_iff]
  · simp only [List.mem_filter, decide_eq_true_eq, and_imp]
  · intro a memA b memB left right
    refine List.inj_on_of_nodup_map g.distinct (List.mem_filter.mp memA).1 (List.mem_filter.mp memB).1 ?_
    unfold Query.innerLe at left right
    dsimp only at left right
    split_ifs at left right <;> simp only [decide_eq_true_eq] at left right <;> omega

def selectorFor (g : Query.ImpactIndex) (file : Text) (start stop : Nat) : Option Text :=
  let width := fun row : SymbolRow => (row.spanEnd : Int) - row.spanStart
  ((((g.index.symbols.filter fun row => row.filePath = file).insertionSort fun a b => a.id ≤ b.id).filter fun row =>
    row.spanStart ≤ start ∧ stop ≤ row.spanEnd).foldl (keepBetter fun a b => width a < width b) none).map fun row =>
      Query.symbolSelector file row.qualified row.kind

instance : Std.Total fun a b : SymbolRow => a.id ≤ b.id where
  total a b := Nat.le_total a.id b.id

instance : IsTrans SymbolRow fun a b => a.id ≤ b.id where
  trans _ _ _ left right := Nat.le_trans left right

/-- `refs` attributes a reference to the row that `impact` attributes it to. -/
theorem selectorFor_eq (g : Query.ImpactIndex) (r : RefRow) :
    selectorFor g r.fromFile r.raw.spanStart r.raw.spanEnd =
      (Query.enclosingSymbol g r).map fun row => Query.symbolSelector r.fromFile row.qualified row.kind := by
  unfold selectorFor
  refine congrArg (Option.map _) (Option.ext fun row => ?_)
  have asymm : ∀ a b : SymbolRow, a.id ≤ b.id ∧ a.id ≠ b.id → ¬ (b.id ≤ a.id ∧ b.id ≠ a.id) := by
    rintro a b ⟨left, apart⟩ ⟨right, -⟩
    exact apart (Nat.le_antisymm left right)
  have distinct : (g.index.symbols.filter fun row => row.filePath = r.fromFile).Pairwise fun a b => a.id ≠ b.id :=
    (List.pairwise_map.mp g.distinct).filter _
  have sorted := (List.pairwise_insertionSort (fun a b : SymbolRow => a.id ≤ b.id)
    (g.index.symbols.filter fun row => row.filePath = r.fromFile)).and
      (((List.perm_insertionSort _ _).pairwise_iff fun {a b} apart => apart.symm).mpr distinct)
  rw [foldl_keepBetter_eq_some_iff (by omega) (by omega) asymm (sorted.filter _), enclosingSymbol_eq_some_iff]
  simp only [List.mem_filter, List.mem_insertionSort, decide_eq_true_eq, and_assoc]
  refine and_congr_right fun mem => and_congr_right fun path => and_congr_right fun _ => and_congr_right fun _ => ?_
  refine forall_congr' fun other => ⟨fun least inside there starts ends => ?_,
    fun least ⟨inside, there, starts, ends⟩ => ?_⟩
  · unfold Query.innerLe
    dsimp only
    rcases least ⟨inside, there, starts, ends⟩ with rfl | less | ⟨level, earlier, -⟩
    · rw [if_pos rfl, decide_eq_true_eq]
    · rw [if_neg less.ne, decide_eq_true_eq]
      exact less.le
    · split_ifs
      · exact decide_eq_true earlier
      · exact decide_eq_true (Int.not_lt.mp level)
  · by_cases same : row.id = other.id
    · exact .inl (List.inj_on_of_nodup_map g.distinct inside mem same.symm)
    · have before := least inside there starts ends
      unfold Query.innerLe at before
      dsimp only at before
      split_ifs at before with level <;> simp only [decide_eq_true_eq] at before
      · exact .inr (.inr ⟨level.not_gt, before, same⟩)
      · exact .inr (.inl (lt_of_le_of_ne before level))

/-- A line begins at one place in the file and in what is read of it. -/
theorem getElem?_lineStarts_shown {file : Text} {contents : Utf8.Bytes} (opened : g.opened file = .ok contents)
    {view : Query.ShowWindow} (shown : showFile g file = .ok (some view)) {i : Nat}
    (within : i < (lineStarts view.bytes).length) : (lineStarts view.bytes)[i]? = (lineStarts contents)[i]? := by
  refine getElem?_lineStarts_of_prefix ?_ within
  unfold showFile at shown
  cases found : resolveFile g file with
  | none =>
    rw [found] at shown
    cases shown
  | some row =>
    rw [found] at shown
    obtain ⟨window, read, same⟩ := map_eq_ok.mp shown
    obtain rfl := Option.some.inj same
    have path := List.find?_some found
    rw [decide_eq_true_eq] at path
    unfold materializeView at read
    obtain ⟨contents', ok, start, -⟩ := readShowWindow_prefix read
    rw [path, opened] at ok
    obtain rfl := Except.ok.inj ok
    exact start

/-- The symbol is around a byte. -/
def Around (first : Nat) (row : SymbolRow) : Prop := row.spanStart ≤ first ∧ first < row.spanEnd

def width (row : SymbolRow) : Nat := row.spanEnd - row.spanStart

/-- Of the symbols of a file around a byte, the shortest, and of these the first by start and row. -/
def Innermost (g : SnapshotGraph) (file : Text) (first : Nat) (row : SymbolRow) : Prop :=
  row ∈ g.index.symbols ∧ row.filePath = file ∧ Around first row ∧
    ∀ other ∈ g.index.symbols, other.filePath = file → Around first other →
      width row < width other ∨ width row = width other ∧ listedLe row other = true

/-- Each symbol of a file is the one that its short name and kind stand for. -/
def OwnNames (g : SnapshotGraph) (file : Text) : Prop :=
  ∀ row ∈ g.index.symbols, row.filePath = file → shownRow g row = row

def SpansInside (g : SnapshotGraph) (file : Text) (length : Nat) : Prop :=
  ∀ row ∈ g.index.symbols, row.filePath = file → row.spanStart ≤ row.spanEnd ∧ row.spanEnd ≤ length

/-- The symbols around a byte are those around a reference, and none of them has another of its width beside it. -/
structure SeenAlike (g : SnapshotGraph) (r : RefRow) (first : Nat) : Prop where
  around : ∀ row ∈ g.index.symbols, row.filePath = r.fromFile →
    (Around first row ↔ row.spanStart ≤ r.raw.spanStart ∧ r.raw.spanEnd ≤ row.spanEnd)
  level : ∀ a ∈ g.index.symbols, ∀ b ∈ g.index.symbols, a.filePath = r.fromFile → b.filePath = r.fromFile →
    Around first a → Around first b → width a = width b → a.spanStart = b.spanStart

section Named

variable {file : Text} {first : Nat}

theorem leastRecorded_iff (own : OwnNames g file) {row : SymbolRow} :
    LeastRecorded g file first row ↔ Innermost g file first row := by
  refine and_congr_right fun mem => and_congr_right fun path => ?_
  have around : ∀ row ∈ g.index.symbols, row.filePath = file → (RecordedAround g first row ↔ Around first row) ∧
      recordedWidth g row = width row := by
    intro row mem path
    unfold RecordedAround recordedWidth
    rw [own row mem path]
    exact ⟨Iff.rfl, rfl⟩
  refine and_congr (around row mem path).1 (forall_congr' fun other => forall₂_congr fun there path' => ?_)
  rw [(around other there path').1, (around row mem path).2, (around other there path').2]

theorem recordedInside_iff (own : OwnNames g file) {length : Nat} :
    RecordedInside g file length ↔ SpansInside g file length :=
  forall_congr' fun row => forall₂_congr fun mem path => by rw [own row mem path]

/-- The innermost symbol around a byte that sees what a reference sees is that of the reference. -/
theorem enclosingSymbol_of_innermost {r : RefRow} {row : SymbolRow} (alike : SeenAlike g r first)
    (innermost : Innermost g r.fromFile first row) : Query.enclosingSymbol g.toImpactIndex r = some row := by
  obtain ⟨mem, path, around, least⟩ := innermost
  refine enclosingSymbol_eq_some_iff.mpr ⟨⟨mem, path, (alike.around row mem path).mp around⟩, fun other there path' starts ends => ?_⟩
  have around' := (alike.around other there path').mpr ⟨starts, ends⟩
  unfold Query.innerLe
  dsimp only
  rcases least other there path' around' with less | ⟨same, earlier⟩
  · unfold Around width at *
    rw [if_neg (by omega), decide_eq_true_eq]
    omega
  · have start := alike.level row mem other there path path' around around' same
    unfold listedLe at earlier
    rw [if_pos start] at earlier
    unfold Around width at *
    rw [if_pos (by omega)]
    exact earlier

theorem enclosingSymbol_eq_none {r : RefRow} (alike : SeenAlike g r first)
    (apart : ∀ row ∈ g.index.symbols, row.filePath = r.fromFile → ¬ Around first row) :
    Query.enclosingSymbol g.toImpactIndex r = none := by
  rw [Option.eq_none_iff_forall_ne_some]
  intro row found
  obtain ⟨⟨mem, path, encloses⟩, -⟩ := enclosingSymbol_eq_some_iff.mp found
  exact apart row mem path ((alike.around row mem path).mpr encloses)

end Named

end Agreement

namespace Sample

def oneLine : Utf8.Bytes :=
  [105, 109, 112, 108, 32, 65, 32, 123, 10, 32, 102, 110, 32, 110, 101, 119, 40, 41, 32, 123, 32, 102, 40, 41, 59, 32,
   125, 10, 125]

def symbolRow (id : Nat) (name kind qualified : String) (spanStart spanEnd : Nat) : SymbolRow where
  id
  filePath := "a.rs"
  name := name.toList
  qualified := qualified.toList
  kind := kind.toList
  spanStart
  spanEnd

def callOfF : RefRow where
  fromFile := "a.rs"
  raw := ⟨21, 22, "f", none, "call", none, false⟩
  targetQualified := none
  targetSymbolHint := none
  confidence := .fuzzyName

def oneLineGraph : SnapshotGraph where
  index := {
    files := [⟨"a.rs", [], 0, "rust", 29⟩]
    symbols := [symbolRow 1 "A" "impl" "A" 0 29, symbolRow 2 "new" "method" "A::new" 10 27]
    imports := []
    refs := [callOfF]
    syncPending := false }
  distinct := by decide
  relations := []
  commands := []
  opened _ := .ok oneLine
  reasonOf _ := []

def freshCollector : EvidenceCollector oneLineGraph := .new .head

theorem ownNames_oneLine : OwnNames oneLineGraph "a.rs" ∧ WithinReadBound oneLineGraph "a.rs" 2 := by
  constructor
  · unfold OwnNames
    decide +kernel
  · exact ⟨⟨oneLine, 0, 29, false⟩, by decide +kernel, by decide +kernel⟩

end Sample

end OrbitGraph.Evidence
