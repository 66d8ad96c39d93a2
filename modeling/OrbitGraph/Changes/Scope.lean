import OrbitGraph.Changes.OwnFiles

/-!
What the extractor did not see.

A changed file that one side has indexed and the other side has not is out of scope. The
ladder knows nothing of that: it reports every symbol of the indexed side, as gone or new
unless the symbol has a counterpart in another file.
-/

namespace OrbitGraph.Changes

open Lib

attribute [local instance] lexOrd

namespace ChangedFiles

variable (files : ChangedFiles)

/-- A file of the base side, and what became of it. A copy leaves its source where it is, so it says
something of the source only if no other delta does. -/
def Becomes (basePath headPath : Text) : Prop :=
  ∃ delta ∈ files.deltas, delta.basePath = some basePath ∧ delta.headPath = some headPath ∧
    (delta.kind = .modified ∨ delta.kind = .renamed ∨ delta.kind = .typeChanged ∨
      delta.kind = .copied ∧ ∀ other ∈ files.deltas, other.basePath = some basePath → other.kind = .copied)

def ComesFrom (headPath basePath : Text) : Prop :=
  ∃ delta ∈ files.deltas, delta.basePath = some basePath ∧ delta.headPath = some headPath ∧
    (delta.kind = .modified ∨ delta.kind = .renamed ∨ delta.kind = .typeChanged ∨ delta.kind = .copied)

/-- A file of the base side, and the path on the head side under which it was not indexed. -/
def UnseenInHead (head : SideInventory) (basePath headPath : Text) : Prop :=
  files.Becomes basePath headPath ∧ headPath ∉ head.indexedFiles

def UnseenInBase (base : SideInventory) (headPath basePath : Text) : Prop :=
  files.ComesFrom headPath basePath ∧ basePath ∉ base.indexedFiles

end ChangedFiles

/-- An unseen path is reported in `out_of_scope`, and only there: no symbol of the other side's file is removed or
added, and an entry that has such a symbol has a counterpart of it, and not the unseen path. -/
structure ScopeKept (files : ChangedFiles) (base head : SideInventory) (result : ChangedSymbols) : Prop where
  reportedInHead : ∀ basePath headPath, files.UnseenInHead head basePath headPath →
    ∃ entry ∈ result.outOfScope, entry.path = headPath ∧ entry.snapshot = head.side.label
  reportedInBase : ∀ headPath basePath, files.UnseenInBase base headPath basePath →
    ∃ entry ∈ result.outOfScope, entry.path = basePath ∧ entry.snapshot = base.side.label
  notRemoved : ∀ basePath headPath, files.UnseenInHead head basePath headPath → ∀ e ∈ result.symbols,
    e.status = .removed → ∀ r ∈ e.base, r.selector ∉ base.selectorsIn basePath
  notAdded : ∀ headPath basePath, files.UnseenInBase base headPath basePath → ∀ e ∈ result.symbols,
    e.status = .added → ∀ r ∈ e.head, r.selector ∉ head.selectorsIn headPath
  onlyInHead : ∀ basePath headPath, files.UnseenInHead head basePath headPath → ∀ e ∈ result.symbols,
    ∀ s ∈ base.selectorsIn basePath, e.Mentions s → (e.base ≠ none ∧ e.head ≠ none) ∧ e.headPath ≠ some headPath
  onlyInBase : ∀ headPath basePath, files.UnseenInBase base headPath basePath → ∀ e ∈ result.symbols,
    ∀ s ∈ head.selectorsIn headPath, e.Mentions s → (e.base ≠ none ∧ e.head ≠ none) ∧ e.basePath ≠ some basePath

theorem outOfScopeIn_reports {snapshot : Snapshot} {inventory : SideInventory} {paths : List Text} {path : Text}
    (changed : path ∈ paths) (unseen : path ∉ inventory.indexedFiles) :
    ∃ entry ∈ outOfScopeIn snapshot inventory paths, entry.path = path ∧ entry.snapshot = inventory.side.label := by
  refine ⟨_, List.mem_map.mpr ⟨path, ?_, rfl⟩, rfl, rfl⟩
  rw [List.mem_filter]
  exact ⟨changed, decide_eq_true unseen⟩

theorem mem_outOfScope {comparison : Comparison} {files : ChangedFiles} {base head : SideInventory}
    {entry : OutOfScopeEntry} (mem : entry ∈ outOfScopeIn comparison.base base files.basePaths ∨
      entry ∈ outOfScopeIn comparison.head head files.headPaths) : entry ∈ outOfScope comparison files base head := by
  unfold outOfScope
  exact mem_destutter (List.mem_mergeSort.mpr (List.mem_append.mpr mem))

namespace Pairer

variable {o : Pairer}

/-- Two symbols that are found to be one: a selector of both sides, or each other's only partner in a rung. -/
def Counterparts (o : Pairer) (b h : Text) : Prop :=
  (b ∈ o.unpairedBase ∧ h ∈ o.unpairedHead) ∧ (b = h ∨ ∃ step, o.Couples step b h)

/-- Whatever the index lists in a file that the other side has not seen is unchanged or has a counterpart there, and the
last delta of the file does not lead to what is unseen. -/
structure FoundElsewhere (o : Pairer) : Prop where
  inHead : ∀ basePath headPath, o.files.UnseenInHead o.head basePath headPath → ∀ s ∈ o.base.selectorsIn basePath,
    s ∈ o.Unchanged ∨ (∃ h, o.Counterparts s h) ∧ (o.fileChangeForBase s).2.2 ≠ some headPath
  inBase : ∀ headPath basePath, o.files.UnseenInBase o.base headPath basePath → ∀ s ∈ o.head.selectorsIn headPath,
    ∃ b, o.Counterparts b s

theorem Agrees.mentions {e : ChangedSymbol} (agrees : o.Agrees e) {b h s : Text}
    (eBase : e.base = some (o.base.symbolRef b)) (eHead : e.head = some (o.head.symbolRef h)) :
    e.Mentions s ↔ s = b ∨ s = h := by
  have selectors : s ∈ e.uncertainCandidates.map (·.symbol.selector) → s = b ∨ s = h := by
    intro mem
    unfold Agrees at agrees
    split at agrees
    · simp [agrees.1] at eBase
    · simp [agrees.1] at eHead
    · simp [agrees.1] at mem
    · simp [agrees.1] at mem
    · simp [agrees.1] at mem
    · simp [agrees.1] at mem
    · rcases agrees with ⟨t, -, -, tBase, tHead, candidates⟩ | ⟨noBase, -⟩
      · obtain ⟨c, listed, rfl⟩ := List.mem_map.mp mem
        have there := List.mem_map_of_mem (f := UncertainCandidate.symbol) listed
        rw [candidates] at there
        have one : t = b := congrArg SymbolRef.selector (Option.mem_unique tBase eBase)
        have other : t = h := congrArg SymbolRef.selector (Option.mem_unique tHead eHead)
        rcases List.mem_pair.mp there with is | is
        · exact .inl (is ▸ one)
        · exact .inr (is ▸ other)
      · simp [noBase] at eBase
  unfold ChangedSymbol.Mentions
  simp only [eBase, eHead, Option.mem_some_iff, exists_eq_left', SideInventory.symbolRef]
  constructor
  · rintro (is | is | mem)
    · exact .inl is.symm
    · exact .inr is.symm
    · exact selectors mem
  · rintro (is | is)
    · exact .inl is.symm
    · exact .inr (.inl is.symm)

/-- The symbols of a couple are of one side each. -/
theorem Couples.apart {step : GroupStep} {b h : Text} (couples : o.Couples step b h) :
    (b ∈ o.unpairedBase ∧ b ∉ o.unpairedHead) ∧ h ∈ o.unpairedHead ∧ h ∉ o.unpairedBase := by
  obtain ⟨before, rest, -, couple⟩ := couples
  obtain ⟨left, alone⟩ := Sides.left_after_subset couple.left
  obtain ⟨right, alone'⟩ := Sides.right_after_subset couple.right
  exact ⟨⟨left, fun other => alone b other rfl⟩, right, fun other => alone' h other rfl⟩

/-- The entry of two counterparts. -/
structure Faces (o : Pairer) (b h : Text) (e : ChangedSymbol) : Prop where
  base : e.base = some (o.base.symbolRef b)
  head : e.head = some (o.head.symbolRef h)
  paths : (e.basePath, e.headPath) = (o.fileChangeForBase b).2

variable {symbols : List ChangedSymbol}

theorem Entries.faces (entries : o.Entries symbols) {e : ChangedSymbol} (mem : e ∈ symbols)
    (two : e.base ≠ none ∧ e.head ≠ none) : ∃ b h, o.Counterparts b h ∧ o.Faces b h e := by
  cases entries.entryOf e mem with
  | shared s both _ entry =>
    exact ⟨s, s, ⟨⟨both.left, both.right⟩, .inl rfl⟩, entry.base, entry.head, congrArg Prod.snd entry.change⟩
  | group sideless => exact absurd sideless.2.1 two.1
  | pair step b h couples entry =>
    exact ⟨b, h, ⟨⟨couples.apart.1.1, couples.apart.2.1⟩, .inr ⟨step, couples⟩⟩, entry.base, entry.head, entry.paths⟩
  | removed s _ is_ => exact absurd (is_ ▸ rfl) two.2
  | added s _ is_ => exact absurd (is_ ▸ rfl) two.1

theorem Entries.of_counterparts (entries : o.Entries symbols) {b h : Text} (both : o.Counterparts b h)
    (busy : b ∉ o.Unchanged) : ∃ e ∈ symbols, o.Faces b h e := by
  obtain ⟨⟨onBase, onHead⟩, rfl | ⟨step, couples⟩⟩ := both
  · obtain ⟨e, mem, entry⟩ := entries.shared b
      ⟨onBase, onHead, rfl, fun _ _ same => same, fun _ _ same => same.symm⟩ fun same => busy ⟨onBase, onHead, same⟩
    exact ⟨e, mem, entry.base, entry.head, congrArg Prod.snd entry.change⟩
  · obtain ⟨e, mem, entry⟩ := entries.pair step b h couples
    exact ⟨e, mem, entry.base, entry.head, entry.paths⟩

end Pairer

/-- The only entry with a symbol. -/
theorem eq_of_mentions {symbols : List ChangedSymbol} {s : Text} (once : symbols.countP (·.Mentions s) ≤ 1)
    {e e' : ChangedSymbol} (mem : e ∈ symbols) (mem' : e' ∈ symbols) (mentions : e.Mentions s) (mentions' : e'.Mentions s) :
    e = e' := by
  rw [List.countP_eq_length_filter] at once
  have here : e ∈ symbols.filter fun e => e.Mentions s := List.mem_filter.mpr ⟨mem, decide_eq_true mentions⟩
  have there : e' ∈ symbols.filter fun e => e.Mentions s := List.mem_filter.mpr ⟨mem', decide_eq_true mentions'⟩
  generalize symbols.filter (fun e => e.Mentions s) = only at once here there
  rcases only with _ | ⟨x, _ | ⟨y, rest⟩⟩
  · cases here
  · rw [List.mem_singleton.mp here, List.mem_singleton.mp there]
  · simp at once

variable {comparison : Comparison} {result : ChangedSymbols} {deltas : List GitDelta} {base head : SideInventory} {p : Pairer}

/-- An unseen path is one of a delta, so it is reported. -/
theorem Computed.reported (computed : Computed comparison result deltas base head p) :
    (∀ delta ∈ (changedFiles deltas).deltas, ∀ path ∈ delta.headPath, path ∉ head.indexedFiles →
      ∃ entry ∈ result.outOfScope, entry.path = path ∧ entry.snapshot = head.side.label) ∧
    ∀ delta ∈ (changedFiles deltas).deltas, ∀ path ∈ delta.basePath, path ∉ base.indexedFiles →
      ∃ entry ∈ result.outOfScope, entry.path = path ∧ entry.snapshot = base.side.label := by
  have indexed := changedFiles_indexed deltas
  constructor
  · intro delta mem path here unseen
    obtain ⟨entry, reported, is_⟩ := outOfScopeIn_reports ((indexed.head path).mpr ⟨delta, mem, here⟩) unseen
    exact ⟨entry, computed.outOfScope ▸ mem_outOfScope (.inr reported), is_⟩
  · intro delta mem path here unseen
    obtain ⟨entry, reported, is_⟩ := outOfScopeIn_reports ((indexed.base path).mpr ⟨delta, mem, here⟩) unseen
    exact ⟨entry, computed.outOfScope ▸ mem_outOfScope (.inl reported), is_⟩

/-- The file of a base row is indexed, so no entry has an unseen path as its base path. -/
theorem Pairer.fileChangeForBase_indexed {o : Pairer} (last : o.files.LastWins) (lists : o.base.Lists) {s path : Text}
    (known : s ∈ o.base.symbols) (is : (o.fileChangeForBase s).2.1 = some path) : path ∈ o.base.indexedFiles := by
  obtain ⟨row, found⟩ := Option.isSome_iff_exists.mp (Std.TreeMap.isSome_getElem?_iff_mem.mpr known)
  have file : row.path ∈ o.base.fileOf s := Option.map_eq_some_iff.mpr ⟨row, found, rfl⟩
  have named : (o.fileChangeForBase s).2.1 = some row.path := by
    rw [fileChangeForBase_eq file]
    cases forBase : o.files.forBase row.path with
    | none => rfl
    | some delta => exact (last.base.mem forBase).2
  exact Option.mem_unique named is ▸ lists.indexed s row found

namespace Sample

def copiedOnce : Comparison where
  base := snapshot "aa" [⟨"a.rs", [method "keep"]⟩]
  head := { snapshot "bb" [⟨"c.rs", [method "keep"]⟩] with
    excluded := [("b.rs", .oversizeBlob 9000000)] }
  deltas := .ok [⟨.renamed, some "a.rs", some "b.rs"⟩, ⟨.copied, some "a.rs", some "c.rs"⟩]

def oversizeFile : Comparison where
  base := snapshot "aa" [⟨"a.rs", [method "keep"]⟩]
  head := { snapshot "bb" [] with excluded := [("a.rs", .oversizeBlob 9000000)] }
  deltas := .ok [⟨.modified, some "a.rs", some "a.rs"⟩]

end Sample

end OrbitGraph.Changes
