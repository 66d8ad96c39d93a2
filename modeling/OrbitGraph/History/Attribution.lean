import OrbitGraph.History.Pairing
import OrbitGraph.Lib.Extents

/-!
Which symbols have a changed line.

A changed line belongs to the innermost of the symbols that overlap it. Symbols of one span,
qualified name and kind count as one, and a changed line without a symbol leaves the fallback
`no_enclosing_named_symbol`. Lines are numbered from 1; a line 0 counts as the line 1.
-/

namespace OrbitGraph.History

open Lib

section Lines

variable {content : List UInt8} {start offset i p : Nat}

/-- The bytes of a line, where the line 0 has those from `start` on already. -/
def OnLineFrom (start offset : Nat) (bytes : List UInt8) (i p : Nat) : Prop :=
  (i = 0 ∧ start ≤ p ∧ p < offset) ∨ ∃ k, p = offset + k ∧ OnLine 10 bytes i k

variable {rest : List UInt8}

theorem onLineFrom_newline : OnLineFrom start offset (10 :: rest) i p ↔
    (i = 0 ∧ (start ≤ p ∧ p < offset ∨ p = offset)) ∨ ∃ j, i = j + 1 ∧ OnLineFrom (offset + 1) (offset + 1) rest j p := by
  unfold OnLineFrom
  constructor
  · rintro (⟨first, before⟩ | ⟨k, rfl, on⟩)
    · exact .inl ⟨first, .inl before⟩
    · cases k with
      | zero => exact .inl ⟨onLine_zero.mp on, .inr rfl⟩
      | succ k =>
        obtain ⟨j, rfl, later⟩ := onLine_separator.mp on
        exact .inr ⟨j, rfl, .inr ⟨k, by omega, later⟩⟩
  · rintro (⟨rfl, before | rfl⟩ | ⟨j, rfl, ⟨_, _, _⟩ | ⟨k, rfl, on⟩⟩)
    · exact .inl ⟨rfl, before⟩
    · exact .inr ⟨0, rfl, onLine_zero.mpr rfl⟩
    · omega
    · exact .inr ⟨k + 1, by omega, onLine_separator.mpr ⟨j, rfl, on⟩⟩

theorem onLineFrom_other {byte : UInt8} (ordered : start ≤ offset) (other : byte ≠ 10) :
    OnLineFrom start offset (byte :: rest) i p ↔ OnLineFrom start (offset + 1) rest i p := by
  unfold OnLineFrom
  constructor
  · rintro (⟨first, _, _⟩ | ⟨k, rfl, on⟩)
    · exact .inl ⟨first, by omega, by omega⟩
    · cases k with
      | zero => exact .inl ⟨onLine_zero.mp on, by omega, by omega⟩
      | succ k => exact .inr ⟨k, by omega, (onLine_other other).mp on⟩
  · rintro (⟨rfl, _, _⟩ | ⟨k, rfl, on⟩)
    · by_cases here : p = offset
      · exact .inr ⟨0, here, onLine_zero.mpr rfl⟩
      · exact .inl ⟨rfl, by omega, by omega⟩
    · exact .inr ⟨k + 1, by omega, (onLine_other other).mpr on⟩

theorem lineByteRanges_iff (bytes : List UInt8) (ordered : start ≤ offset) :
    (∃ a b, (lineByteRanges start bytes offset)[i]? = some (a, b) ∧ a ≤ p ∧ p < b) ↔ OnLineFrom start offset bytes i p := by
  induction bytes generalizing start offset i with
  | nil =>
    have none : ¬ ∃ k, p = offset + k ∧ OnLine 10 ([] : List UInt8) i k := fun ⟨_, _, on⟩ => onLine_nil on
    rw [OnLineFrom, or_iff_left none, lineByteRanges]
    split_ifs with last
    · cases i <;> simp
    · simp
      omega
  | cons byte rest ih =>
    rw [lineByteRanges]
    split_ifs with newline
    · rw [newline, onLineFrom_newline]
      cases i with
      | zero =>
        simp
        omega
      | succ i =>
        rw [List.getElem?_cons_succ, ih le_rfl]
        simp
    · rw [ih (by omega), onLineFrom_other ordered newline]

theorem lineByteRanges_inhabited (bytes : List UInt8) (ordered : start ≤ offset) {a b : Nat}
    (mem : (a, b) ∈ lineByteRanges start bytes offset) : a < b ∨ b = 0 := by
  induction bytes generalizing start offset with
  | nil =>
    unfold lineByteRanges at mem
    split_ifs at mem with last
    · obtain ⟨rfl, rfl⟩ := Prod.mk.inj (List.mem_singleton.mp mem)
      exact last
    · cases mem
  | cons byte rest ih =>
    rw [lineByteRanges] at mem
    split_ifs at mem
    · rcases List.mem_cons.mp mem with same | mem
      · obtain ⟨rfl, rfl⟩ := Prod.mk.inj same
        exact .inl (by omega)
      · exact ih le_rfl mem
    · exact ih (by omega) mem

theorem onLineFrom_start {bytes : List UInt8} : OnLineFrom 0 0 bytes i p ↔ OnLine 10 bytes i p := by
  unfold OnLineFrom
  simp

theorem isLine_iff {a b : Nat} (inhabited : 0 < b) :
    (lineByteRanges 0 content 0)[i]? = some (a, b) ↔ IsLine 10 content i ⟨a, b⟩ := by
  have bytes : ∀ q, (∃ a b, (lineByteRanges 0 content 0)[i]? = some (a, b) ∧ a ≤ q ∧ q < b) ↔ OnLine 10 content i q :=
    fun q => (lineByteRanges_iff content le_rfl).trans onLineFrom_start
  have extent : ∀ c d, 0 < d → (lineByteRanges 0 content 0)[i]? = some (c, d) → IsLine 10 content i ⟨c, d⟩ := by
    intro c d positive found
    have shape := lineByteRanges_inhabited content le_rfl (List.mem_of_getElem? found)
    refine ⟨by dsimp only; omega, fun q => ?_⟩
    rw [← bytes, found]
    simp
  refine ⟨extent a b inhabited, fun line => ?_⟩
  obtain ⟨c, d, found, _, below⟩ := (bytes a).mpr ((line.mem_iff a).mp ⟨le_rfl, line.inhabited⟩)
  obtain ⟨rfl, rfl⟩ := Extent.mk.inj (line.unique (extent c d (by omega) found))
  exact found

end Lines

section Innermost

variable {symbols : List RawSymbol} {symbol : RawSymbol} {content : List UInt8} {line : Nat}

def RawSymbol.extent (symbol : RawSymbol) : Extent := ⟨symbol.spanStart, symbol.spanEnd⟩

def Overlaps (content : List UInt8) (line : Nat) (symbol : RawSymbol) : Prop :=
  ∃ extent, IsLine 10 content (line - 1) extent ∧ symbol.extent.Overlaps extent

/-- Of the symbols that overlap a line, none lies inside this one. -/
structure Innermost (symbols : List RawSymbol) (content : List UInt8) (line : Nat) (symbol : RawSymbol) : Prop where
  mem : symbol ∈ symbols
  overlaps : Overlaps content line symbol
  innermost : ∀ child ∈ symbols, Overlaps content line child → ¬ child.extent.Inside symbol.extent

/-- What a changed line is attributed to. -/
def selectedAt (symbols : List RawSymbol) (ranges : List (Nat × Nat)) (line : Nat) : List RawSymbol :=
  match ranges[line - 1]? with
  | none => []
  | some (start, stop) => RawSymbol.selected symbols start stop

variable {start stop : Nat}

theorem mem_selected : symbol ∈ RawSymbol.selected symbols start stop ↔
    symbol ∈ symbols ∧ symbol.extent.Overlaps ⟨start, stop⟩ ∧
      ∀ child ∈ symbols, child.extent.Overlaps ⟨start, stop⟩ → ¬ child.extent.Inside symbol.extent := by
  unfold RawSymbol.selected Extent.Overlaps Extent.Inside RawSymbol.extent
  simp only [List.mem_filter, decide_eq_true_eq, Bool.not_eq_true', List.any_eq_false, and_assoc, ge_iff_le, gt_iff_lt, and_imp]

theorem overlaps_iff (found : (lineByteRanges 0 content 0)[line - 1]? = some (start, stop)) :
    Overlaps content line symbol ↔ symbol.extent.Overlaps ⟨start, stop⟩ := by
  constructor
  · rintro ⟨⟨a, b⟩, extent, overlaps⟩
    have positive : 0 < b := Nat.zero_lt_of_lt extent.inhabited
    obtain ⟨rfl, rfl⟩ := Prod.mk.inj (Option.some.inj (found.symm.trans ((isLine_iff positive).mpr extent)))
    exact overlaps
  · intro overlaps
    have positive : 0 < stop := Nat.zero_lt_of_lt overlaps.1
    exact ⟨⟨start, stop⟩, (isLine_iff positive).mp found, overlaps⟩

theorem not_overlaps {content : List UInt8} (outside : (lineByteRanges 0 content 0)[line - 1]? = none) :
    ¬ Overlaps content line symbol := by
  rintro ⟨⟨a, b⟩, extent, overlaps⟩
  have found := (isLine_iff (Nat.zero_lt_of_lt extent.inhabited)).mpr extent
  rw [outside] at found
  cases found

theorem mem_selectedAt : symbol ∈ selectedAt symbols (lineByteRanges 0 content 0) line ↔ Innermost symbols content line symbol := by
  unfold selectedAt
  cases found : (lineByteRanges 0 content 0)[line - 1]? with
  | none =>
    dsimp only
    refine ⟨nofun, fun innermost => ?_⟩
    exact absurd innermost.overlaps (not_overlaps found)
  | some range =>
    obtain ⟨start, stop⟩ := range
    dsimp only
    rw [mem_selected]
    constructor
    · rintro ⟨mem, overlaps, innermost⟩
      exact ⟨mem, (overlaps_iff found).mpr overlaps, fun child inside near => innermost child inside ((overlaps_iff found).mp near)⟩
    · rintro ⟨mem, overlaps, innermost⟩
      exact ⟨mem, (overlaps_iff found).mp overlaps, fun child inside near => innermost child inside ((overlaps_iff found).mpr near)⟩

theorem selectedAt_eq_nil_iff : selectedAt symbols (lineByteRanges 0 content 0) line = [] ↔
    ∀ symbol ∈ symbols, ¬ Overlaps content line symbol := by
  constructor
  · intro empty symbol mem overlaps
    obtain ⟨start, stop, found⟩ : ∃ start stop, (lineByteRanges 0 content 0)[line - 1]? = some (start, stop) := by
      obtain ⟨⟨a, b⟩, extent, _⟩ := overlaps
      exact ⟨a, b, (isLine_iff (Nat.zero_lt_of_lt extent.inhabited)).mpr extent⟩
    have candidate : symbol ∈ symbols.filter fun s => s.spanStart < stop ∧ s.spanEnd > start :=
      List.mem_filter.mpr ⟨mem, decide_eq_true ((overlaps_iff found).mp overlaps)⟩
    obtain ⟨least, inside, innermost⟩ := Extent.exists_innermost RawSymbol.extent (List.ne_nil_of_mem candidate)
    obtain ⟨own, candidate⟩ := List.mem_filter.mp inside
    have near : least.spanStart < stop ∧ least.spanEnd > start := of_decide_eq_true candidate
    have chosen : least ∈ selectedAt symbols (lineByteRanges 0 content 0) line := by
      rw [mem_selectedAt]
      refine ⟨own, (overlaps_iff found).mpr near, fun child mem overlaps => ?_⟩
      exact innermost child (List.mem_filter.mpr ⟨mem, decide_eq_true ((overlaps_iff found).mp overlaps)⟩)
    rw [empty] at chosen
    exact List.not_mem_nil chosen
  · intro untouched
    refine List.eq_nil_iff_forall_not_mem.mpr fun symbol mem => ?_
    have innermost := mem_selectedAt.mp mem
    exact untouched symbol innermost.mem innermost.overlaps

end Innermost

section Table

attribute [local instance] lexOrd

variable {symbols : List RawSymbol} {ranges : List (Nat × Nat)} {map : AttributedLines} {key : SymbolRangeKey} {line : Nat}

def HasLine (map : AttributedLines) (key : SymbolRangeKey) (line : Nat) : Prop :=
  ∃ first lines, map[key]? = some (first, lines) ∧ line ∈ lines

/-- Every entry is about one of the symbols, and has a line. -/
def Populated (symbols : List RawSymbol) (map : AttributedLines) : Prop :=
  ∀ (key : SymbolRangeKey) (first : RawSymbol) (lines : List Nat), map[key]? = some (first, lines) →
    first ∈ symbols ∧ lines ≠ []

def pushLine (line : Nat) (map : AttributedLines) (symbol : RawSymbol) : AttributedLines :=
  map.alter symbol.key fun
    | some (first, lines) => some (first, lines ++ [line])
    | none => some (symbol, [line])

theorem attributeLine_eq (state : AttributedLines × Bool) : attributeLine symbols ranges state line =
    ((selectedAt symbols ranges line).foldl (pushLine line) state.1, state.2 || (selectedAt symbols ranges line).isEmpty) := by
  unfold attributeLine selectedAt
  cases ranges[line - 1]? with
  | none => simp
  | some range => rfl

theorem getElem?_pushLine (symbol : RawSymbol) (key : SymbolRangeKey) : (pushLine line map symbol)[key]? =
    if symbol.key = key then some ((map[symbol.key]?.map Prod.fst).getD symbol, (map[symbol.key]?.map Prod.snd).getD [] ++ [line])
    else map[key]? := by
  unfold pushLine
  rw [Std.TreeMap.getElem?_alter]
  by_cases same : symbol.key = key
  · rw [if_pos (Std.LawfulEqOrd.compare_eq_iff_eq.mpr same), if_pos same]
    cases map[symbol.key]? <;> rfl
  · rw [if_neg fun equal => same (Std.LawfulEqOrd.compare_eq_iff_eq.mp equal), if_neg same]

theorem hasLine_pushLine {symbol : RawSymbol} {l : Nat} :
    HasLine (pushLine line map symbol) key l ↔ HasLine map key l ∨ (l = line ∧ symbol.key = key) := by
  unfold HasLine
  rw [getElem?_pushLine]
  split_ifs with same
  · subst same
    cases map[symbol.key]? with
    | none => simp
    | some entry =>
      obtain ⟨first, lines⟩ := entry
      simp
  · simp [same]

theorem Populated.pushLine {symbol : RawSymbol} (populated : Populated symbols map) (mem : symbol ∈ symbols) :
    Populated symbols (pushLine line map symbol) := by
  intro key first lines found
  rw [getElem?_pushLine] at found
  split_ifs at found
  · obtain ⟨rfl, rfl⟩ := Prod.mk.inj (Option.some.inj found)
    refine ⟨?_, List.append_ne_nil_of_right_ne_nil _ (List.cons_ne_nil _ _)⟩
    cases before : map[symbol.key]? with
    | none => exact mem
    | some entry => exact (populated _ entry.1 entry.2 before).1
  · exact populated key first lines found

theorem hasLine_foldl {l : Nat} (chosen : List RawSymbol) :
    HasLine (chosen.foldl (pushLine line) map) key l ↔ HasLine map key l ∨ (l = line ∧ ∃ symbol ∈ chosen, symbol.key = key) := by
  induction chosen generalizing map with
  | nil => simp
  | cons symbol rest ih =>
    rw [List.foldl_cons, ih, hasLine_pushLine, List.exists_mem_cons_iff]
    tauto

/-- What is in the table after the changed lines. -/
structure Attributed (symbols : List RawSymbol) (ranges : List (Nat × Nat)) (lines : List Nat)
    (state : AttributedLines × Bool) : Prop where
  hasLine_iff : ∀ key l, HasLine state.1 key l ↔ l ∈ lines ∧ ∃ symbol ∈ selectedAt symbols ranges l, symbol.key = key
  populated : Populated symbols state.1
  unmatched_iff : state.2 = true ↔ ∃ l ∈ lines, selectedAt symbols ranges l = []

theorem selectedAt_subset {symbol : RawSymbol} (mem : symbol ∈ selectedAt symbols ranges line) : symbol ∈ symbols := by
  unfold selectedAt at mem
  cases found : ranges[line - 1]? with
  | none =>
    rw [found] at mem
    cases mem
  | some range =>
    rw [found] at mem
    exact (mem_selected.mp mem).1

theorem Attributed.step {lines : List Nat} {state : AttributedLines × Bool} (attributed : Attributed symbols ranges lines state)
    (line : Nat) : Attributed symbols ranges (lines ++ [line]) (attributeLine symbols ranges state line) := by
  rw [attributeLine_eq]
  constructor
  · intro key l
    dsimp only
    rw [hasLine_foldl, attributed.hasLine_iff, List.mem_append, List.mem_singleton]
    constructor
    · rintro (⟨before, selected⟩ | ⟨rfl, selected⟩)
      · exact ⟨.inl before, selected⟩
      · exact ⟨.inr rfl, selected⟩
    · rintro ⟨before | rfl, selected⟩
      · exact .inl ⟨before, selected⟩
      · exact .inr ⟨rfl, selected⟩
  · have each : ∀ chosen : List RawSymbol, (∀ symbol ∈ chosen, symbol ∈ symbols) → ∀ map, Populated symbols map →
        Populated symbols (chosen.foldl (pushLine line) map) := by
      intro chosen
      induction chosen with
      | nil => exact fun _ _ populated => populated
      | cons symbol rest ih =>
        intro inside map populated
        exact ih (fun s mem => inside s (List.mem_cons_of_mem _ mem)) _ (populated.pushLine (inside symbol List.mem_cons_self))
    exact each _ (fun symbol mem => selectedAt_subset mem) _ attributed.populated
  · dsimp only
    rw [Bool.or_eq_true, attributed.unmatched_iff, List.isEmpty_iff]
    simp only [List.mem_append, List.mem_singleton, or_and_right, exists_or, exists_eq_left]

theorem attributed_foldl (symbols : List RawSymbol) (ranges : List (Nat × Nat)) (lines : List Nat) :
    Attributed symbols ranges lines (lines.foldl (attributeLine symbols ranges) (∅, false)) := by
  induction lines using List.reverseRecOn with
  | nil =>
    refine ⟨fun key l => ?_, fun key first ls found => ?_, by simp⟩
    · simp [HasLine]
    · simp at found
  | append_singleton lines line ih =>
    rw [List.foldl_append, List.foldl_cons, List.foldl_nil]
    exact ih.step line

end Table

section Reported

attribute [local instance] lexOrd

def SymbolIdentity.rangeKey (symbol : SymbolIdentity) : SymbolRangeKey :=
  (symbol.spanStart, symbol.spanEnd, symbol.qualified, symbol.kind)

/-- `symbol_attribution` without lines. -/
def RawSymbol.identity (revision : Text) (side : RevisionSide) (filePath : Text) (symbol : RawSymbol) : SymbolIdentity :=
  (symbol.attribution revision side filePath []).symbol

structure Exact (symbols : List RawSymbol) (content : List UInt8) (changedLines : List Nat) (revision : Text)
    (side : RevisionSide) (path : Text) (result : SideAttribution) : Prop where
  lines : ∀ key line, (∃ s ∈ result.changedSymbols, s.symbol.rangeKey = key ∧ line ∈ s.changedLines) ↔
    line ∈ changedLines ∧ ∃ symbol, Innermost symbols content line symbol ∧ symbol.key = key
  named : ∀ s ∈ result.changedSymbols, s.changedLines ≠ [] ∧ ∃ symbol ∈ symbols, s.symbol = symbol.identity revision side path
  own : ∀ symbol line, Innermost symbols content line symbol → line ∈ changedLines →
    (∀ other ∈ symbols, other.key = symbol.key → other = symbol) →
      ∃ s ∈ result.changedSymbols, s.symbol = symbol.identity revision side path ∧ line ∈ s.changedLines
  fallback : result.fallback = some .noEnclosingNamedSymbol ↔
    ∃ line ∈ changedLines, ∀ symbol ∈ symbols, ¬ Overlaps content line symbol
  enclosed : result.fallback = none ↔ ∀ line ∈ changedLines, ∃ symbol ∈ symbols, Overlaps content line symbol

section

variable {extractor : Text → Option (List UInt8 → ExtractedSymbols)} {extract : List UInt8 → ExtractedSymbols}
  {symbols : List RawSymbol} {revision path : Text} {side : RevisionSide} {content : List UInt8} {changedLines : List Nat}

def sideTable (symbols : List RawSymbol) (content : List UInt8) (changedLines : List Nat) : AttributedLines × Bool :=
  changedLines.foldl (attributeLine symbols (lineByteRanges 0 content 0)) (∅, false)

theorem attributeSide_eq (revision : Text) (side : RevisionSide) (changedLines : List Nat) (text : (0 : UInt8) ∉ content)
    (supported : extractor path = some extract) (symbolic : (extract content).symbols ≠ []) :
    (attributeSide extractor revision side (some path) (some content) changedLines).changedSymbols =
        (sideTable (extract content).symbols content changedLines).1.toList.map (fun entry =>
          entry.2.1.attribution revision side path entry.2.2) ∧
      (attributeSide extractor revision side (some path) (some content) changedLines).fallback =
        if (sideTable (extract content).symbols content changedLines).2 then some .noEnclosingNamedSymbol else none := by
  have known : ¬ (extract content).symbols.isEmpty = true := fun empty => symbolic (List.isEmpty_iff.mp empty)
  unfold attributeSide
  dsimp only
  rw [if_neg text, supported]
  dsimp only
  rw [if_neg known]
  exact ⟨rfl, rfl⟩

theorem mem_entries {s : SymbolAttribution} : s ∈ (sideTable symbols content changedLines).1.toList.map (fun entry =>
        entry.2.1.attribution revision side path entry.2.2) ↔
      ∃ (first : RawSymbol) (lines : List Nat), (sideTable symbols content changedLines).1[first.key]? = some (first, lines) ∧
        s = first.attribution revision side path lines := by
  rw [List.mem_map]
  constructor
  · rintro ⟨⟨key, first, lines⟩, mem, rfl⟩
    have found := Std.TreeMap.mem_toList_iff_getElem?_eq_some.mp mem
    have own : first.key = key := keyed_attributeLines symbols (lineByteRanges 0 content 0) changedLines key _ found
    exact ⟨first, lines, own ▸ found, rfl⟩
  · rintro ⟨first, lines, found, rfl⟩
    exact ⟨(first.key, first, lines), Std.TreeMap.mem_toList_iff_getElem?_eq_some.mpr found, rfl⟩

variable {key : SymbolRangeKey} {line : Nat}

theorem hasLine_sideTable : HasLine (sideTable symbols content changedLines).1 key line ↔
    line ∈ changedLines ∧ ∃ symbol, Innermost symbols content line symbol ∧ symbol.key = key := by
  have attributed := attributed_foldl symbols (lineByteRanges 0 content 0) changedLines
  rw [sideTable, attributed.hasLine_iff]
  simp only [mem_selectedAt]

theorem unmatched_sideTable (symbols : List RawSymbol) (content : List UInt8) (changedLines : List Nat) :
    (sideTable symbols content changedLines).2 = true ↔
      ∃ line ∈ changedLines, ∀ symbol ∈ symbols, ¬ Overlaps content line symbol := by
  have attributed := attributed_foldl symbols (lineByteRanges 0 content 0) changedLines
  rw [sideTable, attributed.unmatched_iff]
  simp only [selectedAt_eq_nil_iff]

theorem hasLine_iff_listed : HasLine (sideTable symbols content changedLines).1 key line ↔
    ∃ (first : RawSymbol) (lines : List Nat), (sideTable symbols content changedLines).1[first.key]? = some (first, lines) ∧
      first.key = key ∧ line ∈ lines := by
  constructor
  · rintro ⟨first, lines, found, mem⟩
    have own : first.key = key := keyed_attributeLines symbols (lineByteRanges 0 content 0) changedLines key _ found
    exact ⟨first, lines, own ▸ found, own, mem⟩
  · rintro ⟨first, lines, found, rfl, mem⟩
    exact ⟨first, lines, found, mem⟩

theorem exact_of_symbolic (revision : Text) (side : RevisionSide) (changedLines : List Nat) (text : (0 : UInt8) ∉ content)
    (supported : extractor path = some extract) (symbolic : (extract content).symbols ≠ []) :
    Exact (extract content).symbols content changedLines revision side path
      (attributeSide extractor revision side (some path) (some content) changedLines) := by
  obtain ⟨changed, fallback⟩ := attributeSide_eq revision side changedLines text supported symbolic
  have populated := (attributed_foldl (extract content).symbols (lineByteRanges 0 content 0) changedLines).populated
  have lines : ∀ key line, (∃ s ∈ (attributeSide extractor revision side (some path) (some content) changedLines).changedSymbols,
      s.symbol.rangeKey = key ∧ line ∈ s.changedLines) ↔
        line ∈ changedLines ∧ ∃ symbol, Innermost (extract content).symbols content line symbol ∧ symbol.key = key := by
    intro key line
    rw [← hasLine_sideTable, hasLine_iff_listed, changed]
    simp only [mem_entries]
    constructor
    · rintro ⟨_, ⟨first, lines, found, rfl⟩, own, mem⟩
      exact ⟨first, lines, found, own, mem⟩
    · rintro ⟨first, lines, found, own, mem⟩
      exact ⟨_, ⟨first, lines, found, rfl⟩, own, mem⟩
  have named : ∀ s ∈ (attributeSide extractor revision side (some path) (some content) changedLines).changedSymbols,
      s.changedLines ≠ [] ∧ ∃ symbol ∈ (extract content).symbols, s.symbol = symbol.identity revision side path := by
    intro s mem
    rw [changed, mem_entries] at mem
    obtain ⟨first, ls, found, rfl⟩ := mem
    obtain ⟨inside, some_⟩ := populated _ first ls found
    exact ⟨some_, first, inside, rfl⟩
  refine ⟨lines, named, fun symbol line innermost mem alone => ?_, ?_, ?_⟩
  · obtain ⟨s, listed, own, has⟩ := (lines symbol.key line).mpr ⟨mem, symbol, innermost, rfl⟩
    obtain ⟨_, other, inside, same⟩ := named s listed
    have key : other.key = symbol.key := by
      rw [← own, same]
      rfl
    exact ⟨s, listed, alone other inside key ▸ same, has⟩
  · rw [fallback, ← unmatched_sideTable]
    cases (sideTable (extract content).symbols content changedLines).2 <;> simp
  · have negated := not_congr (unmatched_sideTable (extract content).symbols content changedLines)
    push Not at negated
    rw [fallback, ← negated]
    cases (sideTable (extract content).symbols content changedLines).2 <;> simp

end

/-- **Line attribution is exact up to the key of a symbol.** Where a file has text and its extractor yields symbols, a
changed line is listed under the keys of the innermost symbols that overlap it, and under no others. What is listed is one
of the symbols with that key, and has a changed line; a symbol that shares its key with no other is listed itself. The
fallback is reported exactly if a changed line overlaps no symbol. Any other file lists nothing, and its fallback is the
same for all changed lines. -/
theorem attributeSide_exact (extractor : Text → Option (List UInt8 → ExtractedSymbols)) (revision : Text) (side : RevisionSide)
    (path : Text) (content : List UInt8) (changedLines : List Nat) :
    let result := attributeSide extractor revision side (some path) (some content) changedLines
    (∀ extract, (0 : UInt8) ∉ content → extractor path = some extract → (extract content).symbols ≠ [] →
        Exact (extract content).symbols content changedLines revision side path result) ∧
      ((0 : UInt8) ∈ content → result = .unavailable .binary) ∧
      ((0 : UInt8) ∉ content → extractor path = none → result = .unavailable .unsupportedLanguage) ∧
      ∀ extract, (0 : UInt8) ∉ content → extractor path = some extract → (extract content).symbols = [] →
        result = .unavailable (if (extract content).hasNonSymbolEvidence then .noEnclosingNamedSymbol
          else .parseOrExtractionUncertain) := by
  refine ⟨fun extract => exact_of_symbolic revision side changedLines, fun binary => if_pos binary, fun text supported => ?_,
    fun extract text supported bare => ?_⟩
  · exact (if_neg text).trans (by rw [supported])
  · refine (if_neg text).trans ?_
    rw [supported]
    exact if_pos (List.isEmpty_iff.mpr bare)

end Reported

namespace Sample

def method (signature : Char) : RawSymbol := ⟨['f'], ['T', 'f'], ['m'], 0, 2, some [signature], none⟩

def overloads : ExtractedSymbols := ⟨[method 'a', method 'b'], false⟩

def importsOnly : ExtractedSymbols := ⟨[], true⟩

def oneLine : List UInt8 := [102, 59, 10]

def sideOf (extracted : ExtractedSymbols) (changedLines : List Nat) : SideAttribution :=
  attributeSide (fun _ => some fun _ => extracted) ['r'] .after (some ['p']) (some oneLine) changedLines

theorem attribution_not_exact :
    ¬ (∀ symbol, Innermost overloads.symbols oneLine 1 symbol →
        ∃ s ∈ (sideOf overloads [1]).changedSymbols, s.symbol = symbol.identity ['r'] .after ['p'] ∧ 1 ∈ s.changedLines) ∧
      ¬ ((sideOf importsOnly []).fallback = some .noEnclosingNamedSymbol ↔
        ∃ line ∈ ([] : List Nat), ∀ symbol ∈ importsOnly.symbols, ¬ Overlaps oneLine line symbol) ∧
      ¬ ((∀ i p, OnLine 10 oneLine i p → i + 1 ≠ 0) → (sideOf overloads [0]).fallback = some .noEnclosingNamedSymbol) := by
  refine ⟨fun each => ?_, fun exactly => ?_, fun outside => ?_⟩
  · have innermost : Innermost overloads.symbols oneLine 1 (method 'b') := mem_selectedAt.mp (by decide +kernel)
    exact absurd (each (method 'b') innermost) (by decide +kernel)
  · obtain ⟨line, mem, _⟩ := exactly.mp (by decide +kernel)
    exact List.not_mem_nil mem
  · exact absurd (outside fun i p _ => Nat.succ_ne_zero i) (by decide +kernel)

def nested : ExtractedSymbols :=
  ⟨[⟨['f'], ['T', 'f'], ['m'], 0, 3, none, none⟩, ⟨['g'], ['T', 'g'], ['m'], 1, 2, none, none⟩], false⟩

theorem attributeSide_exact_nested :
    Exact nested.symbols oneLine [1, 2] ['r'] .after ['p'] (sideOf nested [1, 2]) := by
  have text : (0 : UInt8) ∉ oneLine := by decide
  have symbolic : nested.symbols ≠ [] := List.cons_ne_nil _ _
  exact (attributeSide_exact (fun _ => some fun _ => nested) ['r'] .after ['p'] oneLine [1, 2]).1 _ text rfl symbolic

end Sample

end OrbitGraph.History
