import OrbitGraph.Changes.Ladder
import OrbitGraph.Lib.Marked

/-!
Renames by the body of a symbol.

Two symbols of a file are paired if their spans are the same once each identifier is replaced by a
placeholder and white space is dropped. The placeholder is spelled out, and a span may have that
spelling of its own; and the parent of a symbol is told by one separator, where names have two.
-/

namespace OrbitGraph.Changes

open Lib

attribute [local instance] lexOrd

/-! ### Marked spans -/

/-- The bytes of a span with the identifier marked where it is replaced. -/
def markedFrom (identifier : List UInt8) : Option UInt8 → Nat → List UInt8 → List (Option UInt8)
  | _, _, [] => []
  | _, skip + 1, b :: rest => markedFrom identifier (some b) skip rest
  | previous, 0, b :: rest =>
    if identifier.isPrefixOf (b :: rest) && !previous.any identifierByte &&
        !((b :: rest).drop identifier.length).head?.any identifierByte then
      none :: markedFrom identifier (some b) (identifier.length - 1) rest
    else some b :: markedFrom identifier (some b) 0 rest

def renamed (identifier name bytes : List UInt8) : List UInt8 := Marked.spell name (markedFrom identifier none 0 bytes)

/-- Renaming an identifier into itself changes nothing. -/
theorem spell_markedFrom {identifier : List UInt8} (some' : identifier ≠ []) (previous : Option UInt8) (skip : Nat)
    (bytes : List UInt8) : Marked.spell identifier (markedFrom identifier previous skip bytes) = bytes.drop skip := by
  induction bytes generalizing previous skip with
  | nil => cases skip <;> rfl
  | cons b rest ih =>
    cases skip with
    | succ skip =>
      rw [markedFrom, ih]
      rfl
    | zero =>
      rw [markedFrom]
      split
      next found =>
        simp only [Bool.and_eq_true] at found
        obtain ⟨after, is⟩ := List.isPrefixOf_iff_prefix.mp found.1.1
        have here : rest.drop (identifier.length - 1) = after := by
          have dropped := congrArg (List.drop identifier.length) is
          rw [List.drop_left] at dropped
          rw [dropped]
          obtain ⟨n, length⟩ := Nat.exists_eq_succ_of_ne_zero (List.length_pos_iff.mpr some').ne'
          rw [length]
          rfl
        rw [Marked.spell_none, ih, here, is]
        rfl
      next =>
        rw [Marked.spell_some, ih]
        rfl

theorem renamed_self {identifier : List UInt8} (some' : identifier ≠ []) (bytes : List UInt8) :
    renamed identifier identifier bytes = bytes := spell_markedFrom some' none 0 bytes

def withoutBlanks (bytes : List UInt8) : List UInt8 := bytes.filter fun b => !asciiWhitespace b

/-- The places of the identifier among the bytes that are no white space. -/
def places (identifier bytes : List UInt8) : List (Option UInt8) :=
  (markedFrom identifier none 0 bytes).filter fun place => place.all fun b => !asciiWhitespace b

def placeholder : List UInt8 := encode "<identifier>"

theorem normalizedFrom_eq (identifier : List UInt8) (previous : Option UInt8) (skip : Nat) (bytes : List UInt8) :
    normalizedFrom identifier previous skip bytes =
      Marked.spell placeholder ((markedFrom identifier previous skip bytes).filter fun place =>
        place.all fun b => !asciiWhitespace b) := by
  induction bytes generalizing previous skip with
  | nil => cases skip <;> rfl
  | cons b rest ih =>
    cases skip with
    | succ skip =>
      rw [normalizedFrom, markedFrom]
      exact ih (some b) skip
    | zero =>
      rw [normalizedFrom, markedFrom]
      split
      · rw [List.filter_cons_of_pos (by rfl), Marked.spell_none, ih]
        rfl
      · cases blank : asciiWhitespace b with
        | true =>
          have dropped : ¬ (some b).all (fun b => !asciiWhitespace b) = true := by simp [blank]
          rw [if_pos rfl, List.filter_cons_of_neg dropped, ih]
        | false =>
          have kept : (some b).all (fun b => !asciiWhitespace b) = true := by simp [blank]
          rw [if_neg Bool.false_ne_true, List.filter_cons_of_pos kept, Marked.spell_some, ih]

theorem withoutBlanks_renamed (identifier name bytes : List UInt8) :
    withoutBlanks (renamed identifier name bytes) = Marked.spell (withoutBlanks name) (places identifier bytes) :=
  Marked.filter_spell _ name _

/-- Two spans are the same but for white space, whatever their identifiers are both renamed into. -/
def SameButName (identifier bytes identifier' bytes' : List UInt8) : Prop :=
  ∀ name, withoutBlanks (renamed identifier name bytes) = withoutBlanks (renamed identifier' name bytes')

variable {identifier bytes identifier' bytes' : List UInt8}

theorem sameButName_iff :
    SameButName identifier bytes identifier' bytes' ↔ places identifier bytes = places identifier' bytes' := by
  constructor
  · intro same
    refine Marked.eq_of_spell_eq (a := 0x61) (b := 0x62) (by decide) ?_ ?_
    · have one := same [0x61]
      rwa [withoutBlanks_renamed, withoutBlanks_renamed] at one
    · have two := same [0x62]
      rwa [withoutBlanks_renamed, withoutBlanks_renamed] at two
  · intro same name
    rw [withoutBlanks_renamed, withoutBlanks_renamed, same]

/-- After a common beginning, one span has its identifier where the other spells the placeholder. -/
def Mistaken (identifier bytes identifier' bytes' : List UInt8) : Prop :=
  Marked.Confuses placeholder (places identifier bytes) (places identifier' bytes') ∨
    Marked.Confuses placeholder (places identifier' bytes') (places identifier bytes)

theorem sameButName_iff_not_mistaken
    (same : normalizedFrom identifier none 0 bytes = normalizedFrom identifier' none 0 bytes') :
    SameButName identifier bytes identifier' bytes' ↔ ¬ Mistaken identifier bytes identifier' bytes' := by
  rw [normalizedFrom_eq, normalizedFrom_eq] at same
  rw [sameButName_iff, Mistaken, not_or]
  have once : (0x3C : UInt8) ∉ encode "identifier>" := by decide +kernel
  exact Marked.eq_iff_of_spell_eq once same

/-! ### Pairs -/

namespace Pairer

variable {p : Pairer}

/-- A symbol of a file with its complete source. -/
structure Spans (p : Pairer) (inventory : SideInventory) (path s : Text) (symbol : IndexedSymbol)
    (source : SymbolSource) : Prop where
  listed : s ∈ inventory.selectorsIn path
  row : inventory.symbols[s]? = some symbol
  read : p.sourceOf inventory.side s = .ok (some source)
  complete : source.truncated = false
  named : symbol.name ≠ []

/-- What the documented match compares: the kind, the parent and the normalized body. -/
def identity (symbol : IndexedSymbol) (source : SymbolSource) : Text × Text × List UInt8 :=
  (symbol.kind, parentQualified symbol.qualified, normalizedFrom (encode symbol.name) none 0 source.bytes)

variable {k : Text × Text × UInt64 × List UInt8} {inventory : SideInventory}

/-- A symbol with a body key has its complete source, and the key is its identity and a hash of it. -/
theorem spans_of_bodyKey {path s : Text}
    (listed : s ∈ inventory.selectorsIn path) (keyed : p.bodyKey inventory s = .ok (some k)) :
    ∃ symbol source, Spans p inventory path s symbol source ∧ identity symbol source = (k.1, k.2.1, k.2.2.2) := by
  unfold bodyKey at keyed
  split at keyed
  · cases keyed
  · next symbol row =>
    obtain ⟨read, found, keyed⟩ := bind_eq_ok.mp keyed
    cases read with
    | none => cases keyed
    | some source =>
      have key := Except.ok.inj keyed
      obtain ⟨hashed, normal, rfl⟩ := Option.map_eq_some_iff.mp key
      unfold normalizedBodyHash at normal
      split at normal
      · cases normal
      · next whole =>
        rw [not_or] at whole
        obtain rfl := Option.some.inj normal
        exact ⟨symbol, source, ⟨listed, row, found, Bool.eq_false_iff.mpr whole.1, whole.2⟩, rfl⟩

theorem bodyKey_of_spans {path s t : Text} {symbol other : IndexedSymbol} {source otherSource : SymbolSource}
    (spans : Spans p inventory path s symbol source) (keyed : p.bodyKey inventory s = .ok (some k))
    (spans' : Spans p inventory path t other otherSource) (same : identity other otherSource = identity symbol source) :
    p.bodyKey inventory t = .ok (some k) := by
  have key : ∀ {s symbol source}, Spans p inventory path s symbol source → p.bodyKey inventory s =
      .ok (some (symbol.kind, parentQualified symbol.qualified,
        (normalizedFrom (encode symbol.name) none 0 source.bytes).foldl
          (fun hash b => (hash ^^^ b.toUInt64) * 0x100000001b3) 0xcbf29ce484222325,
        normalizedFrom (encode symbol.name) none 0 source.bytes)) := by
    intro s symbol source spans
    have whole : ¬ (source.truncated = true ∨ symbol.name = []) := by
      rw [not_or, spans.complete]
      exact ⟨Bool.false_ne_true, spans.named⟩
    unfold bodyKey
    rw [spans.row]
    dsimp only
    rw [spans.read]
    change Except.ok ((normalizedBodyHash source symbol.name).map _) = _
    rw [normalizedBodyHash, if_neg whole]
    rfl
  simp only [identity, Prod.mk.injEq] at same
  obtain ⟨kind, parent, body⟩ := same
  rw [key spans', kind, parent, body, ← key spans, keyed]

/-- What a rename by body is: two symbols of a file, of one kind and parent, each of them the only one left with this
identity, whose spans are the same up to white space once the name is replaced. -/
structure SoundRename (p : Pairer) (left : Sides Text Text) (path b h : Text) (base head : IndexedSymbol)
    (baseSource headSource : SymbolSource) : Prop where
  baseSpan : Spans p p.base path b base baseSource
  headSpan : Spans p p.head path h head headSource
  kind : base.kind = head.kind
  parent : parentQualified base.qualified = parentQualified head.qualified
  onlyBase : ∀ s ∈ left.left, ∀ symbol source, Spans p p.base path s symbol source →
    identity symbol source = identity base baseSource → s = b
  onlyHead : ∀ s ∈ left.right, ∀ symbol source, Spans p p.head path s symbol source →
    identity symbol source = identity head headSource → s = h
  spans : ¬ Mistaken (encode base.name) baseSource.bytes (encode head.name) headSource.bytes →
    SameButName (encode base.name) baseSource.bytes (encode head.name) headSource.bytes ∧
      withoutBlanks (renamed (encode base.name) (encode head.name) baseSource.bytes) = withoutBlanks headSource.bytes

theorem bodyKey_of_bodyKeyOf {s : Text} (keyed : p.bodyKeyOf inventory s = some k) :
    p.bodyKey inventory s = .ok (some k) := by
  unfold bodyKeyOf at keyed
  cases run : p.bodyKey inventory s with
  | error error =>
    rw [run] at keyed
    cases keyed
  | ok key =>
    rw [run] at keyed
    exact congrArg Except.ok keyed

theorem encode_ne_nil {name : Text} (named : name ≠ []) : encode name ≠ [] := by
  obtain ⟨c, rest, rfl⟩ := List.exists_cons_of_ne_nil named
  have some' : String.utf8EncodeChar c ≠ [] := by
    rw [← List.length_pos_iff, String.length_utf8EncodeChar]
    exact c.utf8Size_pos
  exact List.append_ne_nil_of_left_ne_nil some' _

/-- A couple of one body key is a sound rename. -/
theorem soundRename_of_couple {path b h : Text} {kind : FileChangeKind} {left : Sides Text Text}
    (couple : left.Couple (p.Meets (.bodies path kind)) b h) : ∃ base head baseSource headSource,
    p.SoundRename left path b h base head baseSource headSource := by
  obtain ⟨here, there, k, keyed, keyed'⟩ := couple.meet
  have key := bodyKey_of_bodyKeyOf keyed
  have key' := bodyKey_of_bodyKeyOf keyed'
  obtain ⟨base, baseSource, spans, is⟩ := spans_of_bodyKey here key
  obtain ⟨head, headSource, spans', is'⟩ := spans_of_bodyKey there key'
  have same : identity base baseSource = identity head headSource := is.trans is'.symm
  simp only [identity, Prod.mk.injEq] at same
  obtain ⟨kind, parent, body⟩ := same
  refine ⟨base, head, baseSource, headSource, spans, spans', kind, parent, fun s mem symbol source other one => ?_,
    fun s mem symbol source other one => ?_, fun clear => ?_⟩
  · exact couple.onlyLeft s mem ⟨other.listed, there, k,
      congrArg (fun key => (Except.toOption key).join) (bodyKey_of_spans spans key other one), keyed'⟩
  · exact couple.onlyRight s mem ⟨here, other.listed, k, keyed,
      congrArg (fun key => (Except.toOption key).join) (bodyKey_of_spans spans' key' other one)⟩
  · have same := (sameButName_iff_not_mistaken body).mpr clear
    have into := same (encode head.name)
    rw [renamed_self (encode_ne_nil spans'.named)] at into
    exact ⟨same, into⟩

end Pairer

/-- **Renames by body are sound**: same file, kind and parent, and each the only symbol that is left with this kind,
parent and body. -/
theorem bodyRenames_sound {comparison : Comparison} {result : ChangedSymbols}
    (run : ChangedSymbols.compute comparison = .ok result) : ∃ deltas base head,
      comparison.deltas = .ok deltas ∧ SideInventory.load .base comparison.base = .ok base ∧
      SideInventory.load .head comparison.head = .ok head ∧
      let start := Pairer.new comparison (changedFiles deltas) base head
      ∀ e ∈ result.symbols, e.status = .renamed → e.pairingEvidence = .bodyHash →
        ∃ before path kind rest b h baseRow headRow baseSource headSource,
          Pairer.groupSteps (changedFiles deltas) = before ++ .bodies path kind :: rest ∧
          e.base = some (base.symbolRef b) ∧ e.head = some (head.symbolRef h) ∧
          (b ∈ (start.leftAfter before).left ∧ h ∈ (start.leftAfter before).right) ∧
          start.SoundRename (start.leftAfter before) path b h baseRow headRow baseSource headSource := by
  obtain ⟨deltas, base, head, p, computed⟩ := compute_eq_ok run
  refine ⟨deltas, base, head, computed.diffed, computed.loadBase, computed.loadHead, fun e mem status evidence => ?_⟩
  cases computed.entries.entryOf e mem with
  | shared s _ _ entry => rcases entry.sure with loose | ⟨paired | paired, -⟩ <;> simp_all
  | group sideless => simp [sideless.1] at status
  | pair step b h couples entry =>
    obtain ⟨before, rest, steps, couple⟩ := couples
    cases step with
    | moved basePath headPath kind => simp [entry.status, Pairer.GroupStep.status] at status
    | renamed basePath headPath kind =>
      rw [entry.evidence] at evidence
      simp only [Pairer.GroupStep.evidence, Pairer.gitEvidence] at evidence
      split at evidence <;> cases evidence
    | bodies path kind =>
      obtain ⟨baseRow, headRow, baseSource, headSource, sound⟩ := Pairer.soundRename_of_couple couple
      exact ⟨before, path, kind, rest, b, h, baseRow, headRow, baseSource, headSource, steps, entry.base, entry.head,
        ⟨couple.left, couple.right⟩, sound⟩
  | removed s _ is => simp [is, Pairer.removedSymbol] at status
  | added s _ is => simp [is, Pairer.addedSymbol] at status

namespace Sample

def returnsOne (commitSha : Text) (symbols : List OverviewSymbol) : Snapshot :=
  ⟨commitSha, [], .ok [⟨"a.rs", symbols⟩], fun selector _ =>
    match selector with
    | .symbol _ qualified _ =>
      .ok (some ⟨encode ("fn " ++ ((Text.rsplitOnce "::" qualified).map Prod.snd).getD [] ++
        "() \x7b 1 \x7d"), false⟩)
    | _ => .ok none⟩

def bases : List OverviewSymbol :=
  [⟨"foo", "A::foo", "method"⟩, ⟨"bar", "B::bar", "method"⟩]

def heads : List OverviewSymbol :=
  [⟨"foo2", "A::foo2", "method"⟩, ⟨"bar2", "B::bar2", "method"⟩]

def twoParents : Comparison where
  base := returnsOne "aa" bases
  head := returnsOne "bb" heads
  deltas := .ok [⟨.modified, some "a.rs", some "a.rs"⟩]

def twoParentsStart : Pairer :=
  .new twoParents (changedFiles [⟨.modified, some "a.rs", some "a.rs"⟩])
    (.ofFiles .base "aa" [⟨"a.rs", bases⟩]) (.ofFiles .head "bb" [⟨"a.rs", heads⟩])

def foo : Text := "symbol:a.rs#A::foo:method"

def bar : Text := "symbol:a.rs#B::bar:method"

theorem exists_renamedByBody {result : ChangedSymbols} (run : ChangedSymbols.compute twoParents = .ok result) :
    ∃ e ∈ result.symbols, e.status = .renamed ∧ e.pairingEvidence = .bodyHash ∧ e.base.map SymbolRef.selector = some foo := by
  obtain ⟨deltas, base, head, p, computed⟩ := compute_eq_ok run
  obtain rfl := Except.ok.inj computed.diffed
  obtain rfl := Except.ok.inj computed.loadBase
  obtain rfl := Except.ok.inj computed.loadHead
  have paired : twoParentsStart.pairAll = .ok p := computed.paired
  have listed : twoParentsStart.pairAll.toOption.any (fun p => p.emitUnpaired.symbols.any fun e =>
      e.status = .renamed ∧ e.pairingEvidence = .bodyHash ∧ e.base.map SymbolRef.selector = some foo) = true := by
    decide +kernel
  rw [paired, show (Except.ok p : Except ChangesError Pairer).toOption = some p from rfl, Option.any_some] at listed
  obtain ⟨e, mem, is⟩ := List.any_eq_true.mp listed
  exact ⟨e, computed.mem_symbols.mpr mem, of_decide_eq_true is⟩

theorem bodyRenames_sound_twoParents : ∃ result, ChangedSymbols.compute twoParents = .ok result ∧
    ∃ e ∈ result.symbols, e.base.map SymbolRef.selector = some foo ∧ ∃ left path b h baseRow headRow baseSource headSource,
      twoParentsStart.SoundRename left path b h baseRow headRow baseSource headSource := by
  obtain ⟨result, run⟩ : ∃ result, ChangedSymbols.compute twoParents = .ok result := ⟨_, rfl⟩
  obtain ⟨deltas, base, head, diffed, loadBase, loadHead, sound⟩ := bodyRenames_sound run
  obtain rfl := Except.ok.inj diffed
  obtain rfl := Except.ok.inj loadBase
  obtain rfl := Except.ok.inj loadHead
  obtain ⟨e, mem, renamed, byBody, is⟩ := exists_renamedByBody run
  obtain ⟨before, path, kind, rest, b, h, baseRow, headRow, baseSource, headSource, -, -, -, -, one⟩ :=
    sound e mem renamed byBody
  exact ⟨result, run, e, mem, is, _, path, b, h, baseRow, headRow, baseSource, headSource, one⟩

/-- The normalized body of a symbol that is paired is that of another unpaired one. -/
theorem one_body_two_parents : ∃ result, ChangedSymbols.compute twoParents = .ok result ∧
    ¬ ∀ e ∈ result.symbols, e.status = .renamed → e.pairingEvidence = .bodyHash → ∀ r ∈ e.base,
      ∀ s ∈ (twoParentsStart.sides.uncrossed Eq).left, ∀ path symbol source other otherSource,
        twoParentsStart.Spans twoParentsStart.base path r.selector symbol source →
        twoParentsStart.Spans twoParentsStart.base path s other otherSource →
        normalizedFrom (encode other.name) none 0 otherSource.bytes = normalizedFrom (encode symbol.name) none 0 source.bytes →
          s = r.selector := by
  obtain ⟨result, run⟩ : ∃ result, ChangedSymbols.compute twoParents = .ok result := ⟨_, rfl⟩
  refine ⟨result, run, fun only => ?_⟩
  obtain ⟨e, mem, renamed, byBody, is⟩ := exists_renamedByBody run
  obtain ⟨r, here, selects⟩ := Option.map_eq_some_iff.mp is
  have left : bar ∈ (twoParentsStart.sides.uncrossed Eq).left := by
    have apart : ∀ h ∈ twoParentsStart.unpairedHead.toList, bar ≠ h := by decide +kernel
    refine ⟨?_, fun h other => apart h (Std.TreeSet.mem_toList.mpr other)⟩
    change bar ∈ twoParentsStart.unpairedBase
    decide +kernel
  let source (name : Text) : SymbolSource :=
    ⟨encode ("fn " ++ name ++ "() \x7b 1 \x7d"), "fn " ++ name ++ "() \x7b 1 \x7d", false⟩
  have spanFoo : twoParentsStart.Spans twoParentsStart.base "a.rs" foo
      ⟨"a.rs", "foo", "A::foo", "method", foo⟩ (source "foo") :=
    ⟨by decide +kernel, by decide +kernel, by decide +kernel, rfl, by decide⟩
  have spanBar : twoParentsStart.Spans twoParentsStart.base "a.rs" bar
      ⟨"a.rs", "bar", "B::bar", "method", bar⟩ (source "bar") :=
    ⟨by decide +kernel, by decide +kernel, by decide +kernel, rfl, by decide⟩
  have bodies : normalizedFrom (encode "bar") none 0 (source "bar").bytes =
      normalizedFrom (encode "foo") none 0 (source "foo").bytes := by decide +kernel
  rw [← selects] at spanFoo
  have same := only e mem renamed byBody r here bar left "a.rs" _ _ _ _ spanFoo spanBar bodies
  exact absurd (same.trans selects) (by decide +kernel)

end Sample

end OrbitGraph.Changes
