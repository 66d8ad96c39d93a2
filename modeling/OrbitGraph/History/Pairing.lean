import Mathlib.Data.Prod.Lex
import Std.Data.TreeMap.Lemmas
import OrbitGraph.History.Types
import OrbitGraph.Lib.Fold

/-!
Attribution of changed lines to symbols, and the pairing of the symbols of a file before
and after a delivery.

A changed symbol of the old side takes its partner among all symbols of the new side that
have none yet: by qualified name and kind, or else by signature, if there is just one. The
changed symbols that are left on the new side then do the same on the old side. What the
second round does not know is which old symbols the first one gave up on.
-/

namespace OrbitGraph.History

open Lib

/-- A symbol as an extractor yields it. -/
structure RawSymbol where
  name : Text
  qualified : Text
  kind : Text
  spanStart : Nat
  spanEnd : Nat
  signature : Option Text
  parentSymbol : Option Text
  deriving DecidableEq

/-- What an extractor yields of a file: its symbols, and whether there is anything else. -/
structure ExtractedSymbols where
  symbols : List RawSymbol
  hasNonSymbolEvidence : Bool

/-- `SideAttribution`; no changed symbol is listed twice. -/
structure SideAttribution where
  changedSymbols : List SymbolAttribution
  allSymbols : List SymbolAttribution
  fallback : Option FileFallbackReason
  distinct : (changedSymbols.map SymbolAttribution.symbol).Nodup

/-- A side of which nothing is attributed. -/
def SideAttribution.unavailable (reason : FileFallbackReason) : SideAttribution :=
  ⟨[], [], some reason, List.nodup_nil⟩

/-- `line_byte_ranges`, of the bytes from an offset, in a line that starts at `start`. -/
def lineByteRanges (start : Nat) : List UInt8 → Nat → List (Nat × Nat)
  | [], offset => if start < offset ∨ offset = 0 then [(start, offset)] else []
  | byte :: rest, offset =>
    if byte = 10 then (start, offset + 1) :: lineByteRanges (offset + 1) rest (offset + 1)
    else lineByteRanges start rest (offset + 1)

abbrev SymbolRangeKey := Nat × Nat × Text × Text

namespace RawSymbol

def key (symbol : RawSymbol) : SymbolRangeKey := (symbol.spanStart, symbol.spanEnd, symbol.qualified, symbol.kind)

/-- The innermost of the symbols that overlap a line. -/
def selected (symbols : List RawSymbol) (start stop : Nat) : List RawSymbol :=
  let candidates := symbols.filter fun symbol => symbol.spanStart < stop ∧ symbol.spanEnd > start
  candidates.filter fun symbol => !candidates.any fun child =>
    child.spanStart ≥ symbol.spanStart ∧ child.spanEnd ≤ symbol.spanEnd ∧
      (child.spanStart > symbol.spanStart ∨ child.spanEnd < symbol.spanEnd)

/-- `symbol_attribution` -/
def attribution (revision : Text) (side : RevisionSide) (filePath : Text) (symbol : RawSymbol) (changedLines : List Nat) :
    SymbolAttribution where
  symbol :=
    { revision
      side
      filePath
      name := symbol.name
      qualified := symbol.qualified
      kind := symbol.kind
      spanStart := symbol.spanStart
      spanEnd := symbol.spanEnd
      signature := symbol.signature
      parent := symbol.parentSymbol }
  changedLines

end RawSymbol

attribute [local instance] lexOrd

abbrev AttributedLines := Std.TreeMap SymbolRangeKey (RawSymbol × List Nat)

def attributeLine (symbols : List RawSymbol) (ranges : List (Nat × Nat)) (state : AttributedLines × Bool) (line : Nat) :
    AttributedLines × Bool :=
  match ranges[line - 1]? with
  | none => (state.1, true)
  | some (start, stop) =>
    let selected := RawSymbol.selected symbols start stop
    (selected.foldl (fun map symbol => map.alter symbol.key fun
        | some (first, lines) => some (first, lines ++ [line])
        | none => some (symbol, [line])) state.1,
      state.2 || selected.isEmpty)

/-- Every symbol is under its own key. -/
def Keyed (map : AttributedLines) : Prop :=
  ∀ (key : SymbolRangeKey) (entry : RawSymbol × List Nat), map[key]? = some entry → entry.1.key = key

theorem Keyed.attributeLine {symbols : List RawSymbol} {ranges : List (Nat × Nat)} {state : AttributedLines × Bool}
    (keyed : Keyed state.1) (line : Nat) : Keyed (attributeLine symbols ranges state line).1 := by
  unfold History.attributeLine
  split
  next => exact keyed
  next start stop _ =>
    dsimp only
    generalize RawSymbol.selected symbols start stop = selected
    generalize state.1 = map at keyed
    induction selected generalizing map with
    | nil => exact keyed
    | cons symbol rest ih =>
      refine ih _ fun key entry found => ?_
      rw [Std.TreeMap.getElem?_alter] at found
      split at found
      next same =>
        obtain rfl := Std.LawfulEqOrd.eq_of_compare same
        split at found
        next first lines before =>
          obtain rfl := Option.some.inj found
          exact keyed symbol.key (first, lines) before
        next =>
          obtain rfl := Option.some.inj found
          rfl
      next => exact keyed key entry found

theorem keyed_attributeLines (symbols : List RawSymbol) (ranges : List (Nat × Nat)) (lines : List Nat) :
    Keyed (lines.foldl (attributeLine symbols ranges) (∅, false)).1 := by
  have walk : ∀ state : AttributedLines × Bool, Keyed state.1 →
      Keyed (lines.foldl (attributeLine symbols ranges) state).1 := by
    induction lines with
    | nil => exact fun _ keyed => keyed
    | cons line rest ih => exact fun state keyed => ih _ (keyed.attributeLine line)
  refine walk _ fun key entry found => ?_
  simp at found

theorem Keyed.nodup {map : AttributedLines} (keyed : Keyed map) (revision : Text) (side : RevisionSide) (path : Text) :
    ((map.toList.map fun entry => entry.2.1.attribution revision side path entry.2.2).map
      SymbolAttribution.symbol).Nodup := by
  rw [List.map_map]
  have keys := Std.TreeMap.distinct_keys_toList (t := map)
  refine List.pairwise_map.mpr (keys.imp_of_mem ?_)
  rintro ⟨keyA, a, linesA⟩ ⟨keyB, b, linesB⟩ memA memB apart same
  have ownA : a.key = keyA := keyed _ _ (Std.TreeMap.mem_toList_iff_getElem?_eq_some.mp memA)
  have ownB : b.key = keyB := keyed _ _ (Std.TreeMap.mem_toList_iff_getElem?_eq_some.mp memB)
  simp only [Function.comp_apply, RawSymbol.attribution, SymbolIdentity.mk.injEq] at same
  have keys : a.key = b.key := by simp [RawSymbol.key, same]
  refine apart ?_
  rw [← ownA, ← ownB, keys]
  exact Std.ReflOrd.compare_self

/-- `attribute_side`, for what the extractor of the path yields of a content. -/
def attributeSide (extractor : Text → Option (List UInt8 → ExtractedSymbols)) (revision : Text) (side : RevisionSide)
    (path : Option Text) (content : Option (List UInt8)) (changedLines : List Nat) : SideAttribution :=
  match path, content with
  | some path, some content =>
    if (0 : UInt8) ∈ content then .unavailable .binary
    else match extractor path with
      | none => .unavailable .unsupportedLanguage
      | some extract =>
        let extracted := extract content
        if extracted.symbols.isEmpty then
          .unavailable (if extracted.hasNonSymbolEvidence then .noEnclosingNamedSymbol else .parseOrExtractionUncertain)
        else
          let lines := changedLines.foldl (attributeLine extracted.symbols (lineByteRanges 0 content 0)) (∅, false)
          { changedSymbols := lines.1.toList.map fun entry => entry.2.1.attribution revision side path entry.2.2
            allSymbols := extracted.symbols.map fun symbol => symbol.attribution revision side path []
            fallback := if lines.2 then some .noEnclosingNamedSymbol else none
            distinct := Keyed.nodup (keyed_attributeLines _ _ _) revision side path }
  | _, _ => .unavailable .fileUnavailable

/-- Whether two symbols have one qualified name and kind; an anonymous name has to have one signature too. -/
def SymbolIdentity.agrees (one other : SymbolIdentity) : Bool :=
  other.qualified = one.qualified ∧ other.kind = one.kind ∧
    ('#' ∉ one.qualified ∨ other.signature = one.signature)

def SymbolIdentity.resembles (one other : SymbolIdentity) : Bool :=
  other.kind = one.kind ∧ other.signature.isSome ∧ other.signature = one.signature

def SymbolIdentity.maybe (one other : SymbolIdentity) : Bool :=
  other.kind = one.kind ∧ (other.name = one.name ∨ (other.signature.isSome ∧ other.signature = one.signature))

def uniqueCandidate (candidates : List SymbolAttribution) (excluded : List Nat) (predicate : SymbolIdentity → Bool) :
    Option Nat :=
  match candidates.zipIdx.filter fun (candidate, i) => i ∉ excluded ∧ predicate candidate.symbol with
  | [(_, i)] => some i
  | _ => none

def identityIndex (candidates : List SymbolAttribution) (identity : SymbolIdentity) : Option Nat :=
  candidates.findIdx? fun item => item.symbol = identity

def changedIndex (candidates : List (Option SymbolAttribution)) (identity : SymbolIdentity) : Option Nat :=
  candidates.findIdx? fun item => item.any fun item => item.symbol = identity

/-- `take_changed_attribution`: what is taken, and what is left. -/
def takeChangedAttribution (candidates : List (Option SymbolAttribution)) (identity : SymbolIdentity) :
    Option SymbolAttribution × List (Option SymbolAttribution) :=
  match changedIndex candidates identity with
  | some i => (candidates[i]?.join, candidates.set i none)
  | none => (none, candidates)

/-- The candidate by name and kind. -/
def exactCandidate (candidates : List SymbolAttribution) (excluded : List Nat) (s : SymbolIdentity) : Option Nat :=
  uniqueCandidate candidates excluded s.agrees

/-- The candidate by name and kind, or else by signature. -/
def similarCandidate (candidates : List SymbolAttribution) (excluded : List Nat) (s : SymbolIdentity) : Option Nat :=
  (exactCandidate candidates excluded s).or (uniqueCandidate candidates excluded s.resembles)

def isAmbiguous (candidates : List SymbolAttribution) (excluded : List Nat) (s : SymbolIdentity) : Bool :=
  1 < (candidates.zipIdx.filter fun (candidate, i) => i ∉ excluded ∧ s.maybe candidate.symbol).length

/-- Where `pair_symbols` is. -/
structure Pairing where
  afterChanged : List (Option SymbolAttribution)
  matchedBefore : List Nat
  matchedAfter : List Nat
  changes : List SymbolChange

namespace Pairing

variable (before after : SideAttribution)

def unpaired (ambiguous : Bool) (side : Text) (old new : Option SymbolAttribution) (liveAfter : Bool) : SymbolChange where
  before := old
  after := new
  matchConfidence := if ambiguous then .uncertain else .unmatched
  reason :=
    if ambiguous then "multiple structural candidates; identity not invented"
    else "no unique " ++ side ++ "-tree identity"
  liveAfter

def confidence (old new : SymbolAttribution) : SymbolMatchConfidence :=
  if new.symbol.qualified = old.symbol.qualified then .exact else .similar

def paired (old new : SymbolAttribution) (exactly : Bool) : SymbolChange where
  before := some old
  after := some new
  matchConfidence := confidence old new
  reason :=
    if exactly then "same qualified name and kind"
    else "unique equal signature and kind across revisions"
  liveAfter := true

def pairBefore (p : Pairing) (old : SymbolAttribution) : Pairing :=
  match (similarCandidate after.allSymbols p.matchedAfter old.symbol).bind fun i =>
      after.allSymbols[i]?.map fun partner => (i, partner) with
  | some (i, partner) =>
    let (taken, left) := takeChangedAttribution p.afterChanged partner.symbol
    let new := taken.getD partner
    { afterChanged := left
      matchedBefore := (identityIndex before.allSymbols old.symbol).toList ++ p.matchedBefore
      matchedAfter := i :: p.matchedAfter
      changes := p.changes ++ [paired old new (confidence old new = .exact)] }
  | none =>
    { p with
      changes := p.changes ++
        [unpaired (isAmbiguous after.allSymbols p.matchedAfter old.symbol) "after" (some old) none false] }

def pairAfter (p : Pairing) (new : SymbolAttribution) : Pairing :=
  match (similarCandidate before.allSymbols p.matchedBefore new.symbol).bind fun i =>
      before.allSymbols[i]?.map fun partner => (i, partner) with
  | some (i, partner) =>
    { p with
      matchedBefore := i :: p.matchedBefore
      changes := p.changes ++
        [paired partner new (exactCandidate before.allSymbols p.matchedBefore new.symbol).isSome] }
  | none =>
    { p with
      changes := p.changes ++
        [unpaired (isAmbiguous before.allSymbols p.matchedBefore new.symbol) "before" none (some new) true] }

def start : Pairing := ⟨after.changedSymbols.map some, [], [], []⟩

def halfway : Pairing := before.changedSymbols.foldl (pairBefore before after) (start after)

def left : List SymbolAttribution := (halfway before after).afterChanged.reduceOption

end Pairing

def pairSymbols (before after : SideAttribution) : List SymbolChange :=
  ((Pairing.left before after).foldl (Pairing.pairAfter before) (Pairing.halfway before after)).changes

end OrbitGraph.History
