import OrbitGraph.Changes.RoundTrip
import OrbitGraph.Lib.Ranking
import OrbitGraph.Query.Impact

/-!
Selectors that the queries print.

`symbol_selector` writes the path, the qualified name and the kind of a row. What it writes
is read in two ways, by the parser of selectors and by `split_symbol_selector`, and resolves
to one row. A `#` in the path is taken for the separator, and of several rows with one path,
name and kind only the first has a selector.
-/

namespace OrbitGraph.Query

open Lib Sync Changes

def splitSymbolSelector (selector : Text) : Option (Text × Text × Text) := do
  let rest ← Text.stripPrefix "symbol:" selector
  let (path, symbolKind) ← Text.splitOnce "#" rest
  let (qualified, kind) ← Text.rsplitOnce ":" symbolKind
  return (path, qualified, kind)

structure SymbolSpan where
  filePath : Text
  spanStart : Nat
  spanEnd : Nat

def rankedLe (rankOf : SymbolRow → Nat) (a b : SymbolRow) : Prop :=
  if rankOf a = rankOf b then a.id ≤ b.id else rankOf a ≤ rankOf b

instance (rankOf : SymbolRow → Nat) : DecidableRel (rankedLe rankOf) := fun a b =>
  inferInstanceAs (Decidable (if rankOf a = rankOf b then a.id ≤ b.id else rankOf a ≤ rankOf b))

/-- `ORDER BY CASE WHEN qualified = ?2 THEN 0 ELSE 1 END, id` -/
def spanLe (name : Text) : SymbolRow → SymbolRow → Prop := rankedLe fun row => if row.qualified = name then 0 else 1

instance (name : Text) : DecidableRel (spanLe name) :=
  inferInstanceAs (DecidableRel (rankedLe fun row => if row.qualified = name then 0 else 1))

/-- The row that `resolve_symbol_span` reads. -/
def resolveSymbolRow (symbols : List SymbolRow) : Selector → Option SymbolRow
  | .symbol path symbol kind =>
    ((symbols.filter fun row => row.filePath = path ∧ (row.name = symbol ∨ row.qualified = symbol) ∧
      (Text.trim kind = [] ∨ row.kind = Text.trim kind)).insertionSort (spanLe symbol)).head?
  | _ => none

def resolveSymbolSpan (symbols : List SymbolRow) (selector : Selector) : Option SymbolSpan :=
  (resolveSymbolRow symbols selector).map fun row => ⟨row.filePath, row.spanStart, row.spanEnd⟩

/-! ### The text -/

/-- A path as the parser leaves it: normal parts, and no white space around them. -/
def SelectorPath (path : Text) : Prop :=
  (∃ isAbsolute parts, NormalParts isAbsolute parts ∧ path = pathText isAbsolute parts) ∧ Text.Bare path

theorem normalizePathText_eq_self_iff {path : Text} : normalizePathText path = .ok path ↔ SelectorPath path := by
  constructor
  · intro read
    obtain ⟨isAbsolute, parts, normal, same, length, -⟩ := normalizePathText_ok read
    have whole : Text.trim path = path := (Text.trim_sublist path).eq_of_length_le length
    exact ⟨⟨isAbsolute, parts, normal, same⟩, Text.trim_eq_self_iff.mp whole⟩
  · rintro ⟨⟨isAbsolute, parts, normal, rfl⟩, bare⟩
    exact normalizePathText_pathText normal bare

/-- The parts of a row that a selector can name. -/
structure Spelled (path qualified kind : Text) : Prop where
  normal : SelectorPath path
  noHash : '#' ∉ path
  name : Text.Bare qualified ∧ qualified ≠ []
  label : Text.Bare kind ∧ kind ≠ [] ∧ ':' ∉ kind

variable {path qualified kind : Text}

/-- A printed selector is read as what it was printed from exactly if its parts are spelled as the parser leaves
them. -/
theorem parse_symbolSelector_iff :
    Selector.parse (symbolSelector path qualified kind) = .ok (.symbol path qualified kind) ↔
      Spelled path qualified kind := by
  constructor
  · intro read
    obtain ⟨⟨raw, normal, rawHash⟩, name, bareKind, someKind, noColon⟩ := parse_ok read
    obtain ⟨-, -, -, -, -, hash⟩ := normalizePathText_ok normal
    have noHash : '#' ∉ path := fun mem => rawHash (hash mem)
    rw [symbolSelector, parse_display_symbol noHash name.1 name.2 bareKind someKind noColon] at read
    obtain ⟨again, normalized, same⟩ := map_eq_ok.mp read
    obtain ⟨rfl, -, -⟩ := Selector.symbol.inj same
    exact ⟨normalizePathText_eq_self_iff.mp (normalizeSelectorPath_ok.mp normalized), noHash, name, bareKind, someKind,
      noColon⟩
  · intro spelled
    obtain ⟨bareKind, someKind, noColon⟩ := spelled.label
    have normalized : normalizeSelectorPath (symbolSelector path qualified kind) path = .ok path :=
      normalizeSelectorPath_ok.mpr (normalizePathText_eq_self_iff.mpr spelled.normal)
    rw [symbolSelector] at *
    rw [parse_display_symbol spelled.noHash spelled.name.1 spelled.name.2 bareKind someKind noColon, normalized]
    rfl

theorem splitSymbolSelector_symbolSelector (noHash : '#' ∉ path) (noColon : ':' ∉ kind) :
    splitSymbolSelector (symbolSelector path qualified kind) = some (path, qualified, kind) := by
  have split : symbolSelector path qualified kind = "symbol:" ++ (path ++ '#' :: (qualified ++ ':' :: kind)) := by
    change "symbol:" ++ path ++ ['#'] ++ qualified ++ [':'] ++ kind = _
    simp only [List.append_assoc, List.cons_append, List.nil_append]
  have located : Text.splitOnce "#" (path ++ '#' :: (qualified ++ ':' :: kind)) =
      some (path, qualified ++ ':' :: kind) := Text.splitOnce_of_not_mem noHash _
  have cut : Text.rsplitOnce ":" (qualified ++ ':' :: kind) = some (qualified, kind) :=
    Text.rsplitOnce_of_not_mem noColon _
  rw [splitSymbolSelector, split, Text.stripPrefix_append]
  simp only [Option.bind_eq_bind, Option.bind_some, located, cut]
  rfl

section Row

variable {rankOf : SymbolRow → Nat} {symbols : List SymbolRow} {row : SymbolRow}

instance : Std.Total (rankedLe rankOf) where
  total a b := by
    unfold rankedLe
    split_ifs <;> omega

instance : IsTrans SymbolRow (rankedLe rankOf) where
  trans a b c left right := by
    unfold rankedLe at *
    split_ifs at * <;> omega

theorem rank_eq_zero_iff {p : Prop} [Decidable p] {rank : Nat} (later : rank ≠ 0) : (if p then 0 else rank) = 0 ↔ p := by
  by_cases holds : p
  · rw [if_pos holds]
    exact iff_of_true rfl holds
  · rw [if_neg holds]
    exact iff_of_false later holds

def FirstOfItsName (symbols : List SymbolRow) (row : SymbolRow) : Prop :=
  ∀ other ∈ symbols, other.filePath = row.filePath → other.qualified = row.qualified → other.kind = row.kind →
    row.id ≤ other.id

instance : Decidable (FirstOfItsName symbols row) :=
  inferInstanceAs (Decidable (∀ other ∈ symbols, _ → _ → _ → _))

variable {le : SymbolRow → SymbolRow → Prop}

theorem head?_ranked_eq_some_iff (rankOf : SymbolRow → Nat) [DecidableRel le]
    (ranked : ∀ a b, le a b ↔ rankedLe rankOf a b) (qualified : ∀ other, rankOf other = 0 ↔ other.qualified = row.qualified)
    (distinct : (symbols.map SymbolRow.id).Nodup) (mem : row ∈ symbols) :
    (symbols.insertionSort le).head? = some row ↔
      ∀ other ∈ symbols, other.qualified = row.qualified → row.id ≤ other.id := by
  obtain rfl : le = rankedLe rankOf := funext₂ fun a b => propext (ranked a b)
  have antisymm : ∀ a ∈ symbols, ∀ b ∈ symbols, rankedLe rankOf a b → rankedLe rankOf b a → a = b := by
    intro a memA b memB left right
    refine List.inj_on_of_nodup_map distinct memA memB ?_
    unfold rankedLe at left right
    split_ifs at left right <;> omega
  have own := (qualified row).mpr rfl
  rw [head?_insertionSort_eq_some_iff antisymm]
  constructor
  · rintro ⟨-, least⟩ other inside same
    have before := least other inside
    rwa [rankedLe, if_pos (own.trans ((qualified other).mpr same).symm)] at before
  · refine fun first => ⟨mem, fun other inside => ?_⟩
    unfold rankedLe
    split_ifs with level
    · exact first other inside ((qualified other).mp (level.symm.trans own))
    · exact own ▸ Nat.zero_le _

theorem head?_named_eq_some_iff (rankOf : SymbolRow → Nat) [DecidableRel le] {condition : SymbolRow → Bool}
    (ranked : ∀ a b, le a b ↔ rankedLe rankOf a b) (qualified : ∀ other, rankOf other = 0 ↔ other.qualified = row.qualified)
    (distinct : (symbols.map SymbolRow.id).Nodup) (mem : row ∈ symbols)
    (named : ∀ other, other.qualified = row.qualified →
      (condition other = true ↔ other.filePath = row.filePath ∧ other.kind = row.kind)) :
    ((symbols.filter condition).insertionSort le).head? = some row ↔ FirstOfItsName symbols row := by
  have kept := List.mem_filter.mpr ⟨mem, (named row rfl).mpr ⟨rfl, rfl⟩⟩
  rw [head?_ranked_eq_some_iff rankOf ranked qualified (distinct.sublist (List.filter_sublist.map _)) kept]
  constructor
  · exact fun first other inside path name kind =>
      first other (List.mem_filter.mpr ⟨inside, (named other name).mpr ⟨path, kind⟩⟩) name
  · intro first other inside name
    obtain ⟨inside, satisfied⟩ := List.mem_filter.mp inside
    obtain ⟨path, kind⟩ := (named other name).mp satisfied
    exact first other inside path name kind

theorem resolveSymbolRow_iff (distinct : (symbols.map SymbolRow.id).Nodup) (mem : row ∈ symbols) (bare : Text.Bare row.kind)
    (some : row.kind ≠ []) :
    resolveSymbolRow symbols (.symbol row.filePath row.qualified row.kind) = Option.some row ↔
      FirstOfItsName symbols row := by
  refine head?_named_eq_some_iff (fun other => if other.qualified = row.qualified then 0 else 1)
    (fun _ _ => Iff.rfl) (fun other => ?_) distinct mem fun other name => ?_
  · exact rank_eq_zero_iff Nat.one_ne_zero
  · rw [Text.trim_of_bare bare, decide_eq_true_eq]
    exact ⟨fun ⟨path, _, kind⟩ => ⟨path, kind.resolve_left some⟩, fun ⟨path, kind⟩ => ⟨path, .inr name, .inr kind⟩⟩

/-- `impact` resolves the selector of a row in the same cases. -/
theorem resolveSelector_iff {g : ImpactIndex} (mem : row ∈ g.index.symbols) (bare : Text.Bare row.kind)
    (some : row.kind ≠ []) : resolveSelector g (.symbol row.filePath row.qualified row.kind) = Option.some row ↔
      FirstOfItsName g.index.symbols row := by
  change resolveSymbolSelector g row.filePath row.qualified row.kind = Option.some row ↔ _
  rw [resolveSymbolSelector, Text.trim_of_bare bare, if_neg some, firstNamed]
  refine head?_named_eq_some_iff
    (fun other => if other.qualified = row.qualified then 0 else if other.name = row.qualified then 1 else 2)
    (fun a b => ?_) (fun other => ?_) g.distinct mem fun other name => ?_
  · unfold namedLe rankedLe
    dsimp only
    split_ifs <;> exact decide_eq_true_iff
  · refine rank_eq_zero_iff ?_
    by_cases name : other.name = row.qualified
    · rw [if_pos name]
      exact Nat.one_ne_zero
    · rw [if_neg name]
      exact Nat.succ_ne_zero 1
  · simp only [decide_eq_true_eq, Bool.decide_and, Bool.and_eq_true]
    exact ⟨fun ⟨here, _⟩ => here, fun here => ⟨here, .inr name⟩⟩

end Row

/-! ### Printed and resolved -/

/-- The selector that is printed for a row is read back as its path, name and kind by both readers, and every query
finds the row by it. -/
structure Addressed (g : ImpactIndex) (row : SymbolRow) : Prop where
  parsed : Selector.parse (symbolSelector row.filePath row.qualified row.kind) =
    .ok (.symbol row.filePath row.qualified row.kind)
  split : splitSymbolSelector (symbolSelector row.filePath row.qualified row.kind) =
    some (row.filePath, row.qualified, row.kind)
  found : ∀ selector, Selector.parse (symbolSelector row.filePath row.qualified row.kind) = .ok selector →
    resolveSymbolRow g.index.symbols selector = some row ∧ resolveSelector g selector = some row

/-- **A printed selector resolves to the row it was printed for exactly if** the path, the name and the kind are spelled
as the parser leaves them, without a `#` in the path or a colon in the kind, and no row before it has the same three. -/
theorem addressed_iff {g : ImpactIndex} {row : SymbolRow} (mem : row ∈ g.index.symbols) :
    Addressed g row ↔ Spelled row.filePath row.qualified row.kind ∧ FirstOfItsName g.index.symbols row := by
  constructor
  · intro addressed
    have spelled := parse_symbolSelector_iff.mp addressed.parsed
    obtain ⟨bare, some, -⟩ := spelled.label
    obtain ⟨found, -⟩ := addressed.found _ addressed.parsed
    exact ⟨spelled, (resolveSymbolRow_iff g.distinct mem bare some).mp found⟩
  · rintro ⟨spelled, first⟩
    have parsed := parse_symbolSelector_iff.mpr spelled
    obtain ⟨bare, some, noColon⟩ := spelled.label
    refine ⟨parsed, splitSymbolSelector_symbolSelector spelled.noHash noColon, fun selector again => ?_⟩
    obtain rfl := Except.ok.inj (parsed.symm.trans again)
    exact ⟨(resolveSymbolRow_iff g.distinct mem bare some).mpr first, (resolveSelector_iff mem bare some).mpr first⟩

namespace Printed

def fn (id : Nat) (path : Text) (start : Nat) : SymbolRow :=
  ⟨id, path, ['f'], "A::f", "method", start, start + 9⟩

/-- A method under two `cfg` attributes, and one in a file with a `#` in its name. -/
def methods : ImpactIndex where
  index := { Index.empty with symbols := [fn 1 "a.rs" 0, fn 2 "a.rs" 20, fn 3 "c#/a.rs" 0] }
  distinct := by decide
  relations := []
  commands := []

theorem fn_mem_methods : fn 1 "a.rs" 0 ∈ methods.index.symbols := List.mem_cons_self

end Printed

theorem addressed_iff_first : Addressed Printed.methods (Printed.fn 1 "a.rs" 0) ↔
    Spelled "a.rs" "A::f" "method" ∧
      FirstOfItsName Printed.methods.index.symbols (Printed.fn 1 "a.rs" 0) :=
  addressed_iff Printed.fn_mem_methods

/-- The selector of the second method finds the first, and what is printed for a path with a `#` names another file. -/
theorem printed_names_another :
    (Printed.fn 2 "a.rs" 20 ∈ Printed.methods.index.symbols ∧
      resolveSymbolRow Printed.methods.index.symbols (.symbol "a.rs" "A::f" "method") =
        some (Printed.fn 1 "a.rs" 0) ∧
      ¬ Addressed Printed.methods (Printed.fn 2 "a.rs" 20)) ∧
    Printed.fn 3 "c#/a.rs" 0 ∈ Printed.methods.index.symbols ∧
      Selector.parse (symbolSelector "c#/a.rs" "A::f" "method") =
        .ok (.symbol "c" "/a.rs#A::f" "method") ∧
      ¬ Addressed Printed.methods (Printed.fn 3 "c#/a.rs" 0) := by
  have taken : resolveSymbolRow Printed.methods.index.symbols (.symbol "a.rs" "A::f" "method") =
      some (Printed.fn 1 "a.rs" 0) := by decide +kernel
  have read : Selector.parse (symbolSelector "c#/a.rs" "A::f" "method") =
      .ok (.symbol "c" "/a.rs#A::f" "method") := by decide +kernel
  refine ⟨⟨.tail _ (.head _), taken, fun addressed => ?_⟩, .tail _ (.tail _ (.head _)), read, fun addressed => ?_⟩
  · obtain ⟨found, -⟩ := addressed.found _ addressed.parsed
    exact absurd (congrArg SymbolRow.id (Option.mem_unique taken found)) (by decide)
  · have same := Except.ok.inj (read.symm.trans addressed.parsed)
    exact absurd (Selector.symbol.inj same).1 (by decide)

end OrbitGraph.Query
