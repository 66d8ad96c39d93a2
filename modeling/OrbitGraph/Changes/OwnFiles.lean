import OrbitGraph.Changes.Ladder
import OrbitGraph.Lib.Utf8

/-!
Which files an entry names.

The changed files are indexed by one path on each side, the last delta of a path first. A file that
was modified and copied has two deltas with one base path, and a pair takes the paths of its entry
from the delta that the base index has. So the entries name their own files exactly if that delta leads
to the file of the head symbol, for whatever is paired.
-/

namespace OrbitGraph.Changes

open Lib

attribute [local instance] lexOrd

/-! ### The last delta of a path -/

def FindsLast (key : FileDelta → Option Text) (index : Std.TreeMap Text Nat) (deltas : List FileDelta) : Prop :=
  ∀ path, index[path]?.map (deltas[·]?) = (deltas.reverse.find? fun delta => key delta = some path).map some

variable {key : FileDelta → Option Text} {index : Std.TreeMap Text Nat}

theorem FindsLast.push {deltas : List FileDelta} (finds : FindsLast key index deltas) (delta : FileDelta) :
    FindsLast key ((key delta).elim index fun path => index.insert path deltas.length) (deltas ++ [delta]) := by
  intro path
  rw [List.reverse_append, List.reverse_singleton, List.singleton_append, List.find?_cons]
  have old := finds path
  have kept : index[path]?.map ((deltas ++ [delta])[·]?) = index[path]?.map (deltas[·]?) := by
    cases found : index[path]? with
    | none => rfl
    | some at_ =>
      rw [found, Option.map_some] at old
      obtain ⟨known, -, here⟩ := Option.map_eq_some_iff.mp old.symm
      have inside : at_ < deltas.length := (List.getElem?_eq_some_iff.mp here.symm).1
      rw [Option.map_some, Option.map_some, List.getElem?_append_left inside]
  cases named : key delta with
  | none =>
    rw [Option.elim_none, kept, old]
    simp
  | some new =>
    rw [Option.elim_some, Std.TreeMap.getElem?_insert]
    by_cases same : new = path
    · subst same
      simp
    · have different : ¬ compare new path = .eq := mt Std.LawfulEqCmp.compare_eq_iff_eq.mp same
      rw [if_neg different, kept, old]
      simp [same]

structure ChangedFiles.LastWins (files : ChangedFiles) : Prop where
  base : FindsLast FileDelta.basePath files.baseIndex files.deltas
  head : FindsLast FileDelta.headPath files.headIndex files.deltas

theorem changedFiles_lastWins (deltas : List GitDelta) : (changedFiles deltas).LastWins := by
  unfold changedFiles
  suffices walk : ∀ files : ChangedFiles, files.LastWins → (deltas.foldl (fun files delta =>
      if isScratch delta then files
      else
        let delta := fileDelta delta
        if delta.basePath = none ∧ delta.headPath = none then files else files.push delta) files).LastWins by
    refine walk _ ⟨fun path => ?_, fun path => ?_⟩ <;> simp [ChangedFiles.empty]
  induction deltas with
  | nil => exact fun files last => last
  | cons delta rest ih =>
    intro files last
    refine ih _ ?_
    dsimp only
    split
    · exact last
    · split
      · exact last
      · exact ⟨last.base.push _, last.head.push _⟩

theorem FindsLast.bind {deltas : List FileDelta} (finds : FindsLast key index deltas) (path : Text) :
    (index[path]?.bind fun at_ => deltas[at_]?) = deltas.reverse.find? fun delta => key delta = some path := by
  have found := finds path
  cases listed : index[path]? with
  | none =>
    rw [listed] at found
    exact (Option.map_eq_none_iff.mp found.symm).symm
  | some at_ =>
    rw [listed, Option.map_some] at found
    obtain ⟨delta, is, here⟩ := Option.map_eq_some_iff.mp found.symm
    rw [is]
    exact here.symm

theorem FindsLast.mem {deltas : List FileDelta} (finds : FindsLast key index deltas) {path : Text} {delta : FileDelta}
    (found : (index[path]?.bind fun at_ => deltas[at_]?) = some delta) : delta ∈ deltas ∧ key delta = some path := by
  rw [finds.bind] at found
  have named : decide (key delta = some path) = true := List.find?_some (p := fun delta => key delta = some path) found
  exact ⟨List.mem_reverse.mp (List.mem_of_find?_eq_some found), of_decide_eq_true named⟩

theorem FindsLast.isSome {deltas : List FileDelta}
    (finds : FindsLast key index deltas) {path : Text} {delta : FileDelta} (mem : delta ∈ deltas)
    (named : key delta = some path) : (index[path]?.bind fun at_ => deltas[at_]?).isSome := by
  rw [finds.bind, List.find?_isSome]
  exact ⟨delta, List.mem_reverse.mpr mem, decide_eq_true named⟩

/-! ### Own files -/

def SideInventory.fileOf (inventory : SideInventory) (selector : Text) : Option Text :=
  inventory.symbols[selector]?.map IndexedSymbol.path

namespace Pairer

/-- The paths of an entry are those of its sides, and its change is that of a delta between them. -/
structure NamesOwnFiles (p : Pairer) (e : ChangedSymbol) : Prop where
  base : ∀ r ∈ e.base, ∃ path ∈ p.base.fileOf r.selector, e.basePath = some path
  head : ∀ r ∈ e.head, ∃ path ∈ p.head.fileOf r.selector, e.headPath = some path
  linked : e.base ≠ none ∨ e.head ≠ none → ⟨e.fileChange, e.basePath, e.headPath⟩ ∈ p.files.deltas

/-- The last delta that has the file of a base symbol leads to the file of a head symbol. -/
def Leads (p : Pairer) (b h : Text) : Prop :=
  ∃ path ∈ p.base.fileOf b, ∃ path' ∈ p.head.fileOf h, ∃ delta ∈ p.files.forBase path, delta.headPath = some path'

/-- A delta of this kind is between the files of two symbols. -/
def Between (p : Pairer) (kind : FileChangeKind) (b h : Text) : Prop :=
  ∃ path ∈ p.base.fileOf b, ∃ path' ∈ p.head.fileOf h, ⟨kind, some path, some path'⟩ ∈ p.files.deltas

variable {p : Pairer}

/-- The file of a symbol is the path in its selector. -/
theorem selector_of_fileOf {inventory : SideInventory} (lists : inventory.Lists) {s path : Text}
    (file : path ∈ inventory.fileOf s) : ∃ qualified kind, s = (Selector.symbol path qualified kind).display := by
  obtain ⟨symbol, found, rfl⟩ := Option.map_eq_some_iff.mp file
  exact ⟨symbol.qualified, symbol.kind, lists.spelled s symbol found⟩

theorem fileChangeForBase_eq {s path : Text} (file : path ∈ p.base.fileOf s) : p.fileChangeForBase s =
    (p.files.forBase path).elim (.other, some path, some path) fun delta =>
      (delta.kind, delta.basePath, delta.headPath) := by
  obtain ⟨symbol, row, rfl⟩ := Option.map_eq_some_iff.mp file
  unfold fileChangeForBase
  rw [row]
  dsimp only
  cases p.files.forBase symbol.path <;> rfl

theorem fileChangeForHead_eq {s path : Text} (file : path ∈ p.head.fileOf s) : p.fileChangeForHead s =
    (p.files.forHead path).elim (.other, some path, some path) fun delta =>
      (delta.kind, delta.basePath, delta.headPath) := by
  obtain ⟨symbol, row, rfl⟩ := Option.map_eq_some_iff.mp file
  unfold fileChangeForHead
  rw [row]
  dsimp only
  cases p.files.forHead symbol.path <;> rfl

/-- An entry of two sides names its own files if the last delta leads from one to the other. -/
theorem namesOwnFiles_pair_iff (last : p.files.LastWins) {e : ChangedSymbol} {b h : Text}
    (eBase : e.base = some (p.base.symbolRef b)) (eHead : e.head = some (p.head.symbolRef h))
    (paths : (e.basePath, e.headPath) = (p.fileChangeForBase b).2) :
    p.NamesOwnFiles e ↔ p.Leads b h ∧ p.Between e.fileChange b h := by
  constructor
  · intro own
    obtain ⟨path, (file : path ∈ p.base.fileOf b), basePath⟩ := own.base _ eBase
    obtain ⟨path', (file' : path' ∈ p.head.fileOf h), headPath⟩ := own.head _ eHead
    have mem := own.linked (.inl (by rw [eBase]; exact Option.some_ne_none _))
    rw [basePath, headPath] at mem paths
    obtain ⟨delta, found⟩ := Option.isSome_iff_exists.mp (last.base.isSome mem rfl)
    change p.files.forBase path = some delta at found
    rw [fileChangeForBase_eq file, found] at paths
    exact ⟨⟨path, file, path', file', delta, found, (congrArg Prod.snd paths).symm⟩, path, file, path', file', mem⟩
  · rintro ⟨⟨path, file, path', file', delta, found, leads⟩, other, otherFile, other', otherFile', mem⟩
    obtain rfl := Option.mem_unique file otherFile
    obtain rfl := Option.mem_unique file' otherFile'
    have is := (last.base.mem found).2
    rw [fileChangeForBase_eq file, show p.files.forBase path = some delta from found] at paths
    have basePath : e.basePath = some path := (congrArg Prod.fst paths).trans is
    have headPath : e.headPath = some path' := (congrArg Prod.snd paths).trans leads
    refine ⟨fun r here => ?_, fun r here => ?_, fun _ => by rwa [basePath, headPath]⟩
    · obtain rfl := Option.mem_unique eBase here
      exact ⟨path, file, basePath⟩
    · obtain rfl := Option.mem_unique eHead here
      exact ⟨path', file', headPath⟩

/-- The delta that leads from one symbol to the other has its own kind. -/
theorem Leads.between (last : p.files.LastWins) {b h : Text} (leads : p.Leads b h) :
    p.Between (p.fileChangeForBase b).1 b h := by
  obtain ⟨path, file, path', file', delta, found, leads⟩ := leads
  obtain ⟨mem, is⟩ := last.base.mem found
  rw [fileChangeForBase_eq file, show p.files.forBase path = some delta from found]
  exact ⟨path, file, path', file', by rw [← is, ← leads]; exact mem⟩

/-- The index has a delta for the file of a symbol. -/
def ListsBase (p : Pairer) (s : Text) : Prop := ∃ path ∈ p.base.fileOf s, (p.files.forBase path).isSome

def ListsHead (p : Pairer) (s : Text) : Prop := ∃ path ∈ p.head.fileOf s, (p.files.forHead path).isSome

theorem namesOwnFiles_removed_iff (last : p.files.LastWins) (s : Text) :
    p.NamesOwnFiles (p.removedSymbol s) ↔ p.ListsBase s := by
  constructor
  · intro own
    obtain ⟨path, file, basePath⟩ := own.base _ rfl
    have mem := own.linked (.inl (Option.some_ne_none _))
    exact ⟨path, file, last.base.isSome mem basePath⟩
  · rintro ⟨path, file, some'⟩
    obtain ⟨delta, found⟩ := Option.isSome_iff_exists.mp some'
    obtain ⟨mem, is⟩ := last.base.mem found
    have change : p.fileChangeForBase s = (delta.kind, delta.basePath, delta.headPath) := by
      rw [fileChangeForBase_eq file, found]
      rfl
    unfold removedSymbol
    rw [change]
    refine ⟨fun r here => ?_, nofun, fun _ => mem⟩
    obtain rfl := Option.some.inj here
    exact ⟨path, file, is⟩

theorem namesOwnFiles_added_iff (last : p.files.LastWins) (s : Text) :
    p.NamesOwnFiles (p.addedSymbol s) ↔ p.ListsHead s := by
  constructor
  · intro own
    obtain ⟨path, file, headPath⟩ := own.head _ rfl
    have mem := own.linked (.inr (Option.some_ne_none _))
    exact ⟨path, file, last.head.isSome mem headPath⟩
  · rintro ⟨path, file, some'⟩
    obtain ⟨delta, found⟩ := Option.isSome_iff_exists.mp some'
    obtain ⟨mem, is⟩ := last.head.mem found
    have change : p.fileChangeForHead s = (delta.kind, delta.basePath, delta.headPath) := by
      rw [fileChangeForHead_eq file, found]
      rfl
    unfold addedSymbol
    rw [change]
    refine ⟨nofun, fun r here => ?_, fun _ => mem⟩
    obtain rfl := Option.some.inj here
    exact ⟨path, file, is⟩

/-- Whatever gets an entry has its files in the deltas: those of two symbols in one that is the last of the base file. -/
structure EveryFileLed (o : Pairer) : Prop where
  shared : ∀ s, o.sides.Couple Eq s s → ¬ o.Identical s → o.Leads s s
  couples : ∀ step b h, o.Couples step b h → o.Leads b h ∧ o.Between step.kind b h
  removed : ∀ s ∈ o.leftovers.left, o.ListsBase s
  added : ∀ s ∈ o.leftovers.right, o.ListsHead s

theorem namesOwnFiles_entries_iff {o : Pairer} (last : o.files.LastWins) {symbols : List ChangedSymbol}
    (entries : o.Entries symbols) : (∀ e ∈ symbols, o.NamesOwnFiles e) ↔ o.EveryFileLed := by
  constructor
  · intro own
    constructor
    · intro s both changed
      obtain ⟨e, mem, entry⟩ := entries.shared s both changed
      exact ((namesOwnFiles_pair_iff last entry.base entry.head (congrArg Prod.snd entry.change)).mp (own e mem)).1
    · intro step b h couples
      obtain ⟨e, mem, entry⟩ := entries.pair step b h couples
      exact entry.fileChange ▸ (namesOwnFiles_pair_iff last entry.base entry.head entry.paths).mp (own e mem)
    · exact fun s left => (namesOwnFiles_removed_iff last s).mp (own _ (entries.removed s left))
    · exact fun s left => (namesOwnFiles_added_iff last s).mp (own _ (entries.added s left))
  · intro led e mem
    cases entries.entryOf e mem with
    | shared s both changed entry =>
      have leads := led.shared s both changed
      refine (namesOwnFiles_pair_iff last entry.base entry.head (congrArg Prod.snd entry.change)).mpr ⟨leads, ?_⟩
      rw [show e.fileChange = _ from congrArg Prod.fst entry.change]
      exact leads.between last
    | group sideless =>
      obtain ⟨-, noBase, noHead⟩ := sideless
      refine ⟨fun s here => ?_, fun s here => ?_, fun sided => absurd noHead (sided.resolve_left (not_not.mpr noBase))⟩
      · rw [noBase] at here
        cases here
      · rw [noHead] at here
        cases here
    | pair step b h couples entry =>
      exact (namesOwnFiles_pair_iff last entry.base entry.head entry.paths).mpr
        (entry.fileChange ▸ led.couples step b h couples)
    | removed s left entry => exact entry ▸ (namesOwnFiles_removed_iff last s).mpr (led.removed s left)
    | added s left entry => exact entry ▸ (namesOwnFiles_added_iff last s).mpr (led.added s left)

end Pairer

/-! ### The entries of a comparison -/

def OwnFilesNamed (comparison : Comparison) (result : ChangedSymbols) : Prop :=
  ∀ deltas base head, comparison.deltas = .ok deltas → SideInventory.load .base comparison.base = .ok base →
    SideInventory.load .head comparison.head = .ok head →
      ∀ e ∈ result.symbols, (Pairer.new comparison (changedFiles deltas) base head).NamesOwnFiles e

/-- **An entry names its own files** exactly if, for whatever the ladder pairs, the last delta with the file of the
base symbol leads to the file of the head symbol, and what is left at the end is in files that a delta has. -/
theorem ownFilesNamed_iff {comparison : Comparison} {result : ChangedSymbols}
    (run : ChangedSymbols.compute comparison = .ok result) : ∃ deltas base head,
      comparison.deltas = .ok deltas ∧ SideInventory.load .base comparison.base = .ok base ∧
      SideInventory.load .head comparison.head = .ok head ∧
      (OwnFilesNamed comparison result ↔ (Pairer.new comparison (changedFiles deltas) base head).EveryFileLed) := by
  obtain ⟨deltas, base, head, p, computed⟩ := compute_eq_ok run
  refine ⟨deltas, base, head, computed.diffed, computed.loadBase, computed.loadHead, ?_⟩
  have own := Pairer.namesOwnFiles_entries_iff (changedFiles_lastWins deltas) computed.entries
  refine Iff.trans ⟨?_, ?_⟩ own
  · exact fun named => named deltas base head computed.diffed computed.loadBase computed.loadHead
  · intro named deltas' base' head' diffed loadBase loadHead
    obtain rfl := Except.ok.inj (computed.diffed.symm.trans diffed)
    obtain rfl := Except.ok.inj (computed.loadBase.symm.trans loadBase)
    obtain rfl := Except.ok.inj (computed.loadHead.symm.trans loadHead)
    exact named

namespace Sample

def sourced (commitSha source : Text) (files : List OverviewFile) : Snapshot :=
  ⟨commitSha, [], .ok files, fun _ _ => .ok (some ⟨Utf8.encode source, false⟩)⟩

def copiedFile : Comparison where
  base := sourced "aa" "fn keep() { 1 }" [⟨"a.rs", [method "keep"]⟩]
  head := sourced "bb" "fn keep() { 2 }"
    [⟨"a.rs", [method "keep"]⟩, ⟨"c.rs", [method "keep"]⟩]
  deltas := .ok [⟨.modified, some "a.rs", some "a.rs"⟩, ⟨.copied, some "a.rs", some "c.rs"⟩]

theorem ownFilesNamed_renamed : ∃ result, ChangedSymbols.compute renamedFile = .ok result ∧
    OwnFilesNamed renamedFile result := by
  obtain ⟨result, run⟩ : ∃ result, ChangedSymbols.compute renamedFile = .ok result := ⟨_, rfl⟩
  obtain ⟨deltas, base, head, diffed, loadBase, loadHead, named⟩ := ownFilesNamed_iff run
  obtain rfl := Except.ok.inj diffed
  obtain rfl := Except.ok.inj loadBase
  obtain rfl := Except.ok.inj loadHead
  let start := Pairer.new renamedFile (changedFiles [⟨.renamed, some "a.rs".toList, some "b.rs".toList⟩])
    (.ofFiles .base renamedFile.base.commitSha [⟨"a.rs".toList, [method "keep".toList, method "gone".toList]⟩])
    (.ofFiles .head renamedFile.head.commitSha [⟨"b.rs".toList, [method "keep".toList]⟩])
  have bases : ∀ s ∈ start.sides.left, "a.rs".toList ∈ start.base.fileOf s := by
    have all : ∀ s ∈ start.unpairedBase.toList, "a.rs".toList ∈ start.base.fileOf s := by decide +kernel
    exact fun s mem => all s (Std.TreeSet.mem_toList.mpr mem)
  have heads : ∀ s ∈ start.sides.right, "b.rs".toList ∈ start.head.fileOf s := by
    have all : ∀ s ∈ start.unpairedHead.toList, "b.rs".toList ∈ start.head.fileOf s := by decide +kernel
    exact fun s mem => all s (Std.TreeSet.mem_toList.mpr mem)
  have leads : ∀ b ∈ start.sides.left, ∀ h ∈ start.sides.right, start.Leads b h :=
    fun b onBase h onHead => ⟨_, bases b onBase, _, heads h onHead, ⟨.renamed, some "a.rs".toList, some "b.rs".toList⟩,
      by decide +kernel, rfl⟩
  refine ⟨result, run, named.mpr ⟨fun s both _ => leads s both.left s both.right, ?_, fun s left => ?_, fun s left => ?_⟩⟩
  · rintro step b h ⟨before, rest, steps, couple⟩
    have onBase := (Sides.left_after_subset couple.left).1
    have onHead := (Sides.right_after_subset couple.right).1
    refine ⟨leads b onBase h onHead, _, bases b onBase, _, heads h onHead, ?_⟩
    have kind : step.kind = .renamed := by
      have all : ∀ kind ∈ (Pairer.groupSteps start.files).map Pairer.GroupStep.kind, kind = .renamed := by decide +kernel
      exact all _ (List.mem_map_of_mem (steps ▸ List.mem_append_right _ List.mem_cons_self))
    rw [kind]
    decide +kernel
  · exact ⟨_, bases s (Sides.left_after_subset left.1).1, by decide +kernel⟩
  · exact ⟨_, heads s (Sides.right_after_subset left.1).1, by decide +kernel⟩

/-- The changed method of `a.rs` is listed with the path of the copy. -/
theorem copy_hides_file : ∃ result, ChangedSymbols.compute copiedFile = .ok result ∧
    ¬ OwnFilesNamed copiedFile result := by
  obtain ⟨result, run⟩ : ∃ result, ChangedSymbols.compute copiedFile = .ok result := ⟨_, rfl⟩
  obtain ⟨deltas, base, head, p, computed⟩ := compute_eq_ok run
  obtain rfl := Except.ok.inj computed.diffed
  obtain rfl := Except.ok.inj computed.loadBase
  obtain rfl := Except.ok.inj computed.loadHead
  refine ⟨result, run, fun named => ?_⟩
  let start := Pairer.new copiedFile
    (changedFiles [⟨.modified, some "a.rs".toList, some "a.rs".toList⟩, ⟨.copied, some "a.rs".toList, some "c.rs".toList⟩])
    (.ofFiles .base copiedFile.base.commitSha [⟨"a.rs".toList, [method "keep".toList]⟩])
    (.ofFiles .head copiedFile.head.commitSha
      [⟨"a.rs".toList, [method "keep".toList]⟩, ⟨"c.rs".toList, [method "keep".toList]⟩])
  have paired : start.pairAll = .ok p := computed.paired
  have listed : start.pairAll.toOption.any (fun p => p.emitUnpaired.symbols.any fun e =>
      e.head.map SymbolRef.selector = some (selector "a.rs".toList "keep".toList) ∧
        e.headPath = some "c.rs".toList) = true := by
    decide +kernel
  rw [paired, show (Except.ok p : Except ChangesError Pairer).toOption = some p from rfl, Option.any_some] at listed
  obtain ⟨e, mem, is⟩ := List.any_eq_true.mp listed
  obtain ⟨sided, headPath⟩ := of_decide_eq_true is
  obtain ⟨r, here, selects⟩ := Option.map_eq_some_iff.mp sided
  have own := named _ _ _ rfl rfl rfl e (computed.mem_symbols.mpr mem)
  obtain ⟨path, file, is⟩ := own.head r here
  rw [headPath] at is
  obtain rfl := Option.some.inj is
  rw [selects] at file
  exact absurd file (by decide +kernel)

end Sample

end OrbitGraph.Changes
