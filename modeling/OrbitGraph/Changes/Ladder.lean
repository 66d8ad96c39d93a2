import OrbitGraph.Changes.Conserved

/-!
What the ladder pairs, read off the two inventories.

Whatever a rung makes of the symbols that share a key, a pair or one uncertain entry, none
of them is unpaired after it. So what is left for a later rung is what the relations of the
rungs before it do not cross out, and a rung pairs two symbols exactly if they are then each
other's only partner.
-/

namespace OrbitGraph.Changes

open Lib

attribute [local instance] lexOrd

/-! ### The symbols of a file -/

namespace SideInventory

/-- The symbols of a file are known, and none of them is listed twice. A row is one of an indexed file, and its
selector spells the path. -/
structure Lists (inventory : SideInventory) : Prop where
  known : ∀ path, ∀ s ∈ inventory.selectorsIn path, s ∈ inventory.symbols
  distinct : ∀ path, (inventory.selectorsIn path).Nodup
  indexed : ∀ (s : Text) (row : IndexedSymbol), inventory.symbols[s]? = some row → row.path ∈ inventory.indexedFiles
  spelled : ∀ (s : Text) (row : IndexedSymbol), inventory.symbols[s]? = some row →
    s = (Selector.symbol row.path row.qualified row.kind).display

theorem Lists.addSymbol {inventory : SideInventory} (lists : inventory.Lists) {path : Text}
    (indexed : path ∈ inventory.indexedFiles) (symbol : OverviewSymbol) :
    (addSymbol path inventory symbol).Lists ∧ (addSymbol path inventory symbol).indexedFiles = inventory.indexedFiles := by
  unfold SideInventory.addSymbol
  dsimp only
  have row : ∀ (s : Text) (row : IndexedSymbol),
      (inventory.symbols.insert (Selector.symbol path symbol.qualified symbol.kind).display
        ⟨path, symbol.name, symbol.qualified, symbol.kind,
          (Selector.symbol path symbol.qualified symbol.kind).display⟩)[s]? = some row →
      row.path ∈ inventory.indexedFiles ∧ s = (Selector.symbol row.path row.qualified row.kind).display := by
    intro s row found
    rw [Std.TreeMap.getElem?_insert] at found
    split at found
    next same =>
      obtain rfl := Option.some.inj found
      exact ⟨indexed, (Std.LawfulEqCmp.compare_eq_iff_eq.mp same).symm⟩
    next => exact ⟨lists.indexed s row found, lists.spelled s row found⟩
  split
  next there =>
    exact ⟨⟨fun path s mem => Std.TreeMap.mem_insert.mpr (.inr (lists.known path s mem)), lists.distinct,
      fun s r found => (row s r found).1, fun s r found => (row s r found).2⟩, rfl⟩
  next fresh =>
    revert row fresh
    generalize (Selector.symbol path symbol.qualified symbol.kind).display = new
    intro row fresh
    have listed : ∀ other, (inventory.byPath.alter path fun known => some (known.getD [] ++ [new]))[other]?.getD [] =
        if path = other then inventory.selectorsIn other ++ [new] else inventory.selectorsIn other := by
      intro other
      rw [Std.TreeMap.getElem?_alter]
      by_cases same : path = other
      · subst same
        simp [selectorsIn]
      · have different : ¬ compare path other = .eq := mt Std.LawfulEqCmp.compare_eq_iff_eq.mp same
        rw [if_neg different, if_neg same, selectorsIn]
    refine ⟨⟨fun other s mem => ?_, fun other => ?_, fun s r found => (row s r found).1, fun s r found => (row s r found).2⟩,
      rfl⟩
    · rw [selectorsIn, listed] at mem
      rw [Std.TreeMap.mem_insert, Std.LawfulEqCmp.compare_eq_iff_eq]
      split at mem
      · rcases List.mem_append.mp mem with old | new
        · exact .inr (lists.known other s old)
        · exact .inl (List.mem_singleton.mp new).symm
      · exact .inr (lists.known other s mem)
    · rw [selectorsIn, listed]
      split
      · refine List.nodup_append.mpr ⟨lists.distinct other, List.pairwise_singleton _ new, ?_⟩
        rintro s old t added rfl
        obtain rfl := List.mem_singleton.mp added
        exact fresh (lists.known other s old)
      · exact lists.distinct other

theorem lists_ofFiles (side : SnapshotSide) (commitSha : Text) (files : List OverviewFile) :
    (ofFiles side commitSha files).Lists := by
  have addSymbols : ∀ (path : Text) (symbols : List OverviewSymbol) (inventory : SideInventory), inventory.Lists →
      path ∈ inventory.indexedFiles → (symbols.foldl (SideInventory.addSymbol path) inventory).Lists := by
    intro path symbols
    induction symbols with
    | nil => exact fun _ lists _ => lists
    | cons symbol rest ih =>
      intro inventory lists indexed
      obtain ⟨lists, same⟩ := lists.addSymbol indexed symbol
      exact ih _ lists (same ▸ indexed)
  unfold ofFiles
  suffices all : ∀ inventory : SideInventory, inventory.Lists → (files.foldl addFile inventory).Lists by
    refine all _ ⟨by simp [selectorsIn], by simp [selectorsIn], by simp, by simp⟩
  induction files with
  | nil => exact fun _ lists => lists
  | cons file rest ih =>
    refine fun inventory lists => ih _ (addSymbols _ _ _ ⟨lists.known, lists.distinct, fun s row found => ?_, lists.spelled⟩ ?_)
    · exact Std.TreeSet.mem_insert.mpr (.inr (lists.indexed s row found))
    · exact Std.TreeSet.mem_insert_self

end SideInventory

theorem load_eq_ok {side : SnapshotSide} {snapshot : Snapshot} {inventory : SideInventory}
    (load : SideInventory.load side snapshot = .ok inventory) : ∃ files, snapshot.overview = .ok files ∧
      inventory = .ofFiles side snapshot.commitSha files := by
  unfold SideInventory.load at load
  split at load
  next => cases load
  next files listed => exact ⟨files, listed, (Except.ok.inj load).symm⟩

namespace Pairer

/-! ### The relations of the rungs -/

variable (o : Pairer)

/-- Two symbols that a step can group: they are in its two files, and have one key. -/
def Meets (step : GroupStep) (b h : Text) : Prop :=
  b ∈ o.base.selectorsIn step.basePath ∧ h ∈ o.head.selectorsIn step.headPath ∧ o.KeyedAlike step b h

/-- What is unpaired. -/
def sides (p : Pairer) : Sides Text Text := ⟨{s | s ∈ p.unpairedBase}, {s | s ∈ p.unpairedHead}⟩

/-- What the first rung and some steps leave of the changed files: what only one side has, but for
the symbols that had a partner. -/
def leftAfter (steps : List GroupStep) : Sides Text Text := (o.sides.uncrossed Eq).after (steps.map o.Meets)

/-- When its turn comes, a step finds two symbols that are each other's only partner. -/
def Couples (step : GroupStep) (b h : Text) : Prop :=
  ∃ before rest, groupSteps o.files = before ++ step :: rest ∧ (o.leftAfter before).Couple (o.Meets step) b h

/-- What no rung pairs or makes a candidate: the last of them compares the names and kinds of all files. -/
def leftovers : Sides Text Text :=
  (o.leftAfter (groupSteps o.files)).uncrossed (SameKey (nameAndKind o.base) (nameAndKind o.head))

/-! ### The input of the ladder -/

/-- What is read and not changed by the ladder. -/
structure SameInput (p q : Pairer) : Prop where
  comparison : q.comparison = p.comparison
  files : q.files = p.files
  base : q.base = p.base
  head : q.head = p.head

variable {o} {p q r : Pairer}

theorem SameInput.refl (p : Pairer) : SameInput p p := ⟨rfl, rfl, rfl, rfl⟩

theorem SameInput.trans (first : SameInput p q) (second : SameInput q r) : SameInput p r :=
  ⟨second.comparison.trans first.comparison, second.files.trans first.files, second.base.trans first.base,
    second.head.trans first.head⟩

theorem SameInput.meets (same : SameInput p q) : q.Meets = p.Meets := by
  have read : ∀ inventory, q.bodyKeyOf inventory = p.bodyKeyOf inventory := by
    intro inventory
    unfold bodyKeyOf bodyKey sourceOf
    rw [same.comparison]
  unfold Meets KeyedAlike
  rw [same.base, same.head, read, read]

theorem SameInput.fileChangeForBase (same : SameInput p q) : q.fileChangeForBase = p.fileChangeForBase := by
  unfold Pairer.fileChangeForBase
  rw [same.base, same.files]

theorem SameInput.pairEntry (same : SameInput p q) : q.PairEntry = p.PairEntry := by
  funext step b h e
  refine propext ⟨fun entry => ?_, fun entry => ?_⟩
  · exact ⟨entry.status, entry.evidence, same.base ▸ entry.base, same.head ▸ entry.head, entry.fileChange,
      same.fileChangeForBase ▸ entry.paths⟩
  · exact ⟨entry.status, entry.evidence, same.base.symm ▸ entry.base, same.head.symm ▸ entry.head, entry.fileChange,
      same.fileChangeForBase.symm ▸ entry.paths⟩

/-- The entry of a group: it has candidates only. -/
def Sideless (e : ChangedSymbol) : Prop := e.status = .uncertain ∧ e.base = none ∧ e.head = none

/-! ### One group -/

/-- What is made of the symbols of one key: an entry of the step for a pair, if the rung pairs, or candidates. -/
structure GroupTaken (p q : Pairer) (step : Option GroupStep) (bases heads : List Text) : Prop extends SameInput p q where
  left : ∀ s, s ∈ q.unpairedBase ↔ s ∈ p.unpairedBase ∧ s ∉ bases
  right : ∀ s, s ∈ q.unpairedHead ↔ s ∈ p.unpairedHead ∧ s ∉ heads
  added : ∃ added, q.symbols = p.symbols ++ added ∧
    (∀ e ∈ added, Sideless e ∨ ∃ b h, bases = [b] ∧ heads = [h] ∧ ∃ t ∈ step, p.PairEntry t b h e) ∧
    ∀ t ∈ step, ∀ b h, bases = [b] → heads = [h] → ∃ e ∈ added, p.PairEntry t b h e

theorem emitUncertainGroup_takes (p : Pairer) (bases heads : List Text) (kind : FileChangeKind) (reason : Text) :
    GroupTaken p (p.emitUncertainGroup bases heads kind reason) none bases heads := by
  obtain ⟨left, -, -⟩ := takeCandidates_spec p.base reason p.unpairedBase bases
  obtain ⟨right, -, -⟩ := takeCandidates_spec p.head reason p.unpairedHead heads
  unfold emitUncertainGroup
  dsimp only
  split
  · exact ⟨⟨rfl, rfl, rfl, rfl⟩, left, right, [], (List.append_nil _).symm,
      fun _ mem => absurd mem List.not_mem_nil, nofun⟩
  · refine ⟨⟨rfl, rfl, rfl, rfl⟩, left, right, [_], rfl, fun e mem => .inl ?_, nofun⟩
    exact List.mem_singleton.mp mem ▸ ⟨rfl, rfl, rfl⟩

theorem GroupTaken.of_pair {step : GroupStep} {b h : Text} {e : ChangedSymbol} (entry : p.PairEntry step b h e) :
    GroupTaken p ((p.without b h).push e) step [b] [h] where
  comparison := rfl
  files := rfl
  base := rfl
  head := rfl
  left _ := mem_erase
  right _ := mem_erase
  added := by
    refine ⟨[e], rfl, fun other mem => .inr ⟨b, h, rfl, rfl, step, rfl, List.mem_singleton.mp mem ▸ entry⟩, ?_⟩
    rintro t same b' h' one one'
    obtain rfl := Option.some.inj same
    obtain rfl := List.head_eq_of_cons_eq one
    obtain rfl := List.head_eq_of_cons_eq one'
    exact ⟨e, List.mem_singleton_self e, entry⟩

theorem GroupTaken.of_group {κ : Type} {step : GroupStep}
    {emit : Pairer → κ → List Text → List Text → Except ChangesError Pairer} (emits : TakesGroups step emit) {k : κ}
    {bases heads : List Text} (run : emit p k bases heads = .ok q) : GroupTaken p q step bases heads := by
  rcases emits p k bases heads q run with ⟨b, h, e, rfl, rfl, rfl, entry, -⟩ | ⟨several, kind, reason, rfl⟩
  · exact .of_pair entry
  · obtain ⟨same, left, right, added, symbols, sideless, -⟩ := emitUncertainGroup_takes p bases heads kind reason
    refine ⟨same, left, right, added, symbols, fun e mem => .inl ?_, fun _ _ b h one one' => absurd one' (several b h one)⟩
    exact (sideless e mem).resolve_right fun ⟨_, _, _, _, _, noStep, _⟩ => nomatch noStep

/-! ### One rung -/

/-- A rung crosses out what it can group, and makes an entry of every couple if it pairs. -/
structure Taken (p q : Pairer) (step : Option GroupStep) (meets : Text → Text → Prop) : Prop extends SameInput p q where
  sides : q.sides = p.sides.uncrossed meets
  added : ∃ added, q.symbols = p.symbols ++ added ∧
    (∀ e ∈ added, Sideless e ∨ ∃ b h, p.sides.Couple meets b h ∧ ∃ t ∈ step, p.PairEntry t b h e) ∧
    ∀ t ∈ step, ∀ b h, p.sides.Couple meets b h → ∃ e ∈ added, p.PairEntry t b h e

section Groups

variable {κ : Type} [Ord κ] [Std.TransOrd κ] [Std.LawfulEqOrd κ]
  {emit : Pairer → κ → List Text → List Text → Except ChangesError Pairer} {step : Option GroupStep}

variable {baseGroups headGroups : Std.TreeMap κ (List Text)}

/-- The groups of all keys, one after another. -/
theorem overGroups_takes (emits : ∀ p k bases heads q, emit p k bases heads = .ok q → GroupTaken p q step bases heads)
    (run : p.overGroups emit baseGroups headGroups = .ok q) :
    SameInput p q ∧
    (∀ s, s ∈ q.unpairedBase ↔ s ∈ p.unpairedBase ∧ ∀ (k : κ) (bases heads : List Text),
      baseGroups[k]? = some bases → headGroups[k]? = some heads → s ∉ bases) ∧
    (∀ s, s ∈ q.unpairedHead ↔ s ∈ p.unpairedHead ∧ ∀ (k : κ) (bases heads : List Text),
      baseGroups[k]? = some bases → headGroups[k]? = some heads → s ∉ heads) ∧
    ∃ added, q.symbols = p.symbols ++ added ∧
      (∀ e ∈ added, Sideless e ∨ ∃ (k : κ) (b h : Text), baseGroups[k]? = some [b] ∧ headGroups[k]? = some [h] ∧
        ∃ t ∈ step, p.PairEntry t b h e) ∧
      ∀ t ∈ step, ∀ (k : κ) (b h : Text), baseGroups[k]? = some [b] → headGroups[k]? = some [h] →
        ∃ e ∈ added, p.PairEntry t b h e := by
  unfold overGroups at run
  have member : ∀ (k : κ) (bases : List Text), baseGroups[k]? = some bases ↔ (k, bases) ∈ baseGroups.toList :=
    fun k bases => Std.TreeMap.mem_toList_iff_getElem?_eq_some.symm
  simp only [member]
  generalize baseGroups.toList = todo at run
  clear member
  induction todo generalizing p with
  | nil =>
    obtain rfl := Except.ok.inj run
    exact ⟨.refl p, by simp, by simp, [], (List.append_nil _).symm, by simp, by simp⟩
  | cons group rest ih =>
    obtain ⟨r, first, run⟩ := bind_eq_ok.mp run
    obtain ⟨same, left, right, added, symbols, back, made⟩ := ih run
    have later : ∀ {k : κ} {bases : List Text}, (k, bases) ∈ rest → (k, bases) ∈ group :: rest := List.mem_cons_of_mem _
    cases found : headGroups[group.1]? with
    | none =>
      simp only [found] at first
      obtain rfl := Except.ok.inj first
      have only : ∀ {k : κ} {bases heads : List Text}, (k, bases) ∈ group :: rest → headGroups[k]? = some heads →
          (k, bases) ∈ rest := by
        intro k bases heads mem other
        rcases List.mem_cons.mp mem with rfl | mem
        · cases found.symm.trans other
        · exact mem
      refine ⟨same, fun s => ?_, fun s => ?_, added, symbols, fun e mem => ?_, fun t mem k b h base head => ?_⟩
      · rw [left]
        exact and_congr_right fun _ => ⟨fun out k bases heads base head => out k bases heads (only base head) head,
          fun out k bases heads base => out k bases heads (later base)⟩
      · rw [right]
        exact and_congr_right fun _ => ⟨fun out k bases heads base head => out k bases heads (only base head) head,
          fun out k bases heads base => out k bases heads (later base)⟩
      · exact (back e mem).imp_right fun ⟨k, b, h, base, rest⟩ => ⟨k, b, h, later base, rest⟩
      · exact made t mem k b h (only base head) head
    | some heads =>
      simp only [found] at first
      have taken := emits p group.1 group.2 heads r first
      obtain ⟨earlier, symbols', back', made'⟩ := taken.added
      have entries := taken.toSameInput.pairEntry
      have split : ∀ {k : κ} {bases others : List Text}, (k, bases) ∈ group :: rest → headGroups[k]? = some others →
          group.2 = bases ∧ heads = others ∨ (k, bases) ∈ rest := by
        intro k bases others mem other
        rcases List.mem_cons.mp mem with rfl | mem
        · exact .inl ⟨rfl, Option.mem_unique found other⟩
        · exact .inr mem
      refine ⟨taken.toSameInput.trans same, fun s => ?_, fun s => ?_, earlier ++ added, ?_, fun e mem => ?_,
        fun t mem k b h base head => ?_⟩
      · rw [left, taken.left, and_assoc]
        refine and_congr_right fun _ => ⟨fun ⟨here, out⟩ k bases others base head => ?_, fun out => ⟨?_, ?_⟩⟩
        · rcases split base head with ⟨rfl, -⟩ | mem
          · exact here
          · exact out k bases others mem head
        · exact out group.1 group.2 heads List.mem_cons_self found
        · exact fun k bases others base => out k bases others (later base)
      · rw [right, taken.right, and_assoc]
        refine and_congr_right fun _ => ⟨fun ⟨here, out⟩ k bases others base head => ?_, fun out => ⟨?_, ?_⟩⟩
        · rcases split base head with ⟨-, rfl⟩ | mem
          · exact here
          · exact out k bases others mem head
        · exact out group.1 group.2 heads List.mem_cons_self found
        · exact fun k bases others base => out k bases others (later base)
      · rw [symbols, symbols', List.append_assoc]
      · rcases List.mem_append.mp mem with mem | mem
        · refine (back' e mem).imp_right fun ⟨b, h, one, one', entry⟩ => ⟨group.1, b, h, ?_, one' ▸ found, entry⟩
          exact one ▸ List.mem_cons_self
        · exact (back e mem).imp_right fun ⟨k, b, h, base, head, entry⟩ => ⟨k, b, h, later base, head, entries ▸ entry⟩
      · rcases split base head with ⟨one, one'⟩ | rest
        · obtain ⟨e, mem, entry⟩ := made' t mem b h one one'
          exact ⟨e, List.mem_append_left _ mem, entry⟩
        · obtain ⟨e, mem, entry⟩ := made t mem k b h rest head
          exact ⟨e, List.mem_append_right _ mem, entries ▸ entry⟩

variable [DecidableEq κ]

/-- A rung that groups some of what is unpaired by a key of each side. -/
theorem Taken.of_groups
    (emits : ∀ p k bases heads q, emit p k bases heads = .ok q → GroupTaken p q step bases heads)
    {among among' : Text → Prop} {bases heads : List Text} (distinct : bases.Nodup) (distinct' : heads.Nodup)
    (memBase : ∀ s, s ∈ bases ↔ among s ∧ s ∈ p.unpairedBase) (memHead : ∀ s, s ∈ heads ↔ among' s ∧ s ∈ p.unpairedHead)
    {baseKey headKey : Text → Option κ}
    (base : ∀ k : κ, baseGroups[k]? = (groups baseKey bases)[k]?)
    (head : ∀ k : κ, headGroups[k]? = (groups headKey heads)[k]?)
    (run : p.overGroups emit baseGroups headGroups = .ok q) :
    Taken p q step fun b h => among b ∧ among' h ∧ SameKey baseKey headKey b h := by
  obtain ⟨same, left, right, added, symbols, back, made⟩ := overGroups_takes emits run
  simp only [base, head] at left right back made
  have couple : ∀ b h, p.sides.Couple (fun b h => among b ∧ among' h ∧ SameKey baseKey headKey b h) b h ↔ ∃ k : κ,
      (groups baseKey bases)[k]? = some [b] ∧ (groups headKey heads)[k]? = some [h] := by
    intro b h
    rw [Sides.couple_sameKey_iff]
    refine exists_congr fun k => ?_
    rw [getElem?_groups_eq_singleton distinct, getElem?_groups_eq_singleton distinct']
    simp only [memBase, memHead]
    rfl
  refine ⟨same, ?_, added, symbols, fun e mem => ?_, fun t mem b h one => ?_⟩
  · unfold Pairer.sides Sides.uncrossed
    congr 1
    · ext s
      refine (left s).trans (and_congr_right fun mem => ⟨fun out h other ⟨here, here', k, key, key'⟩ => ?_,
        fun alone k bases heads group group' inside => ?_⟩)
      · obtain ⟨bases, group, inside⟩ := mem_groups ((memBase s).mpr ⟨here, mem⟩) key
        obtain ⟨heads, group', -⟩ := mem_groups ((memHead h).mpr ⟨here', other⟩) key'
        exact out k bases heads group group' inside
      · rw [getElem?_groups group, List.mem_filter, decide_eq_true_iff] at inside
        obtain ⟨h, there, key'⟩ := exists_of_groups group'
        obtain ⟨here', other⟩ := (memHead h).mp there
        exact alone h other ⟨((memBase s).mp inside.1).1, here', k, inside.2, key'⟩
    · ext s
      refine (right s).trans (and_congr_right fun mem => ⟨fun out b other ⟨here, here', k, key, key'⟩ => ?_,
        fun alone k bases heads group group' inside => ?_⟩)
      · obtain ⟨bases, group, -⟩ := mem_groups ((memBase b).mpr ⟨here, other⟩) key
        obtain ⟨heads, group', inside⟩ := mem_groups ((memHead s).mpr ⟨here', mem⟩) key'
        exact out k bases heads group group' inside
      · rw [getElem?_groups group', List.mem_filter, decide_eq_true_iff] at inside
        obtain ⟨b, there, key⟩ := exists_of_groups group
        obtain ⟨here, other⟩ := (memBase b).mp there
        exact alone b other ⟨here, ((memHead s).mp inside.1).1, k, key, inside.2⟩
  · exact (back e mem).imp_right fun ⟨k, b, h, base, head, entry⟩ => ⟨b, h, (couple b h).mpr ⟨k, base, head⟩, entry⟩
  · obtain ⟨k, base, head⟩ := (couple b h).mp one
    exact made t mem k b h base head

end Groups

/-! ### The steps of the later rungs -/

/-- What the inventories of a pairer are when they have been loaded. -/
structure Loaded (p : Pairer) : Prop where
  baseSide : p.base.side = .base
  headSide : p.head.side = .head
  base : p.base.Lists
  head : p.head.Lists

theorem Loaded.of_same (loaded : p.Loaded) (same : SameInput p q) : q.Loaded := by
  obtain ⟨baseSide, headSide, base, head⟩ := loaded
  exact ⟨same.base ▸ baseSide, same.head ▸ headSide, same.base ▸ base, same.head ▸ head⟩

theorem Loaded.mem_base (loaded : p.Loaded) (path s : Text) :
    s ∈ p.unpairedIn p.base path ↔ s ∈ p.base.selectorsIn path ∧ s ∈ p.unpairedBase := by
  unfold unpairedIn
  rw [if_pos loaded.baseSide, List.mem_filter, decide_eq_true_iff]

theorem Loaded.mem_head (loaded : p.Loaded) (path s : Text) :
    s ∈ p.unpairedIn p.head path ↔ s ∈ p.head.selectorsIn path ∧ s ∈ p.unpairedHead := by
  unfold unpairedIn
  rw [if_neg (by rw [loaded.headSide]; exact nofun), List.mem_filter, decide_eq_true_iff]

theorem taken_of_take (loaded : p.Loaded) {step : GroupStep} (run : p.take step = .ok q) :
    Taken p q step (p.Meets step) := by
  have distinct : ∀ path, (p.unpairedIn p.base path).Nodup := fun path => (loaded.base.distinct path).filter _
  have distinct' : ∀ path, (p.unpairedIn p.head path).Nodup := fun path => (loaded.head.distinct path).filter _
  refine groups_of_take run fun baseKey headKey emits onBase onHead alike run => ?_
  unfold Meets
  rw [alike]
  exact .of_groups (fun p k bases heads q run => .of_group emits run) (distinct _) (distinct' _) (loaded.mem_base _)
    (loaded.mem_head _) onBase onHead run

/-- All steps: what they leave, and an entry for every couple that one of them finds. -/
theorem taken_run (loaded : p.Loaded) {steps : List GroupStep} (run : steps.foldlM take p = .ok q) :
    SameInput p q ∧ q.sides = p.sides.after (steps.map p.Meets) ∧ ∃ added, q.symbols = p.symbols ++ added ∧
      (∀ e ∈ added, Sideless e ∨ ∃ before step rest b h, steps = before ++ step :: rest ∧
        (p.sides.after (before.map p.Meets)).Couple (p.Meets step) b h ∧ p.PairEntry step b h e) ∧
      ∀ before step rest b h, steps = before ++ step :: rest →
        (p.sides.after (before.map p.Meets)).Couple (p.Meets step) b h → ∃ e ∈ added, p.PairEntry step b h e := by
  induction steps generalizing p with
  | nil =>
    obtain rfl := Except.ok.inj run
    exact ⟨.refl p, rfl, [], (List.append_nil _).symm, by simp, by simp⟩
  | cons first rest ih =>
    obtain ⟨r, taken, run⟩ := bind_eq_ok.mp run
    have taken := taken_of_take loaded taken
    have same := taken.toSameInput
    obtain ⟨later, sides, added, symbols, back, made⟩ := ih (loaded.of_same same) run
    obtain ⟨earlier, symbols', back', made'⟩ := taken.added
    rw [same.meets, taken.sides] at sides back made
    rw [same.pairEntry] at back made
    refine ⟨same.trans later, sides, earlier ++ added, by rw [symbols, symbols', List.append_assoc], ?_, ?_⟩
    · intro e mem
      rcases List.mem_append.mp mem with mem | mem
      · refine (back' e mem).imp_right fun ⟨b, h, couple, t, same, entry⟩ => ?_
        obtain rfl := Option.some.inj same
        exact ⟨[], first, rest, b, h, rfl, couple, entry⟩
      · refine (back e mem).imp_right fun ⟨before, step, after, b, h, is, couple, entry⟩ => ?_
        exact ⟨first :: before, step, after, b, h, congrArg (first :: ·) is, couple, entry⟩
    · intro before step after b h is couple
      cases before with
      | nil =>
        obtain ⟨rfl, -⟩ := List.cons.inj is
        obtain ⟨e, mem, entry⟩ := made' first rfl b h couple
        exact ⟨e, List.mem_append_left _ mem, entry⟩
      | cons head before =>
        obtain ⟨rfl, others⟩ := List.cons.inj is
        obtain ⟨e, mem, entry⟩ := made before step after b h others couple
        exact ⟨e, List.mem_append_right _ mem, entry⟩

/-! ### The first rung, and the last that takes candidates -/

/-- The entry for a selector of both sides. -/
structure SharedEntry (p : Pairer) (s : Text) (e : ChangedSymbol) : Prop where
  base : e.base = some (p.base.symbolRef s)
  head : e.head = some (p.head.symbolRef s)
  change : (e.fileChange, e.basePath, e.headPath) = p.fileChangeForBase s
  sure : e.status = .uncertain ∨
    (e.status = .modified ∨ e.status = .signatureChanged) ∧ s ∉ p.base.ambiguousSelectors ∧ s ∉ p.head.ambiguousSelectors

theorem SameInput.identical (same : SameInput p q) : q.Identical = p.Identical := by
  unfold Identical sourceOf
  rw [same.base, same.head, same.comparison]

theorem SameInput.sharedEntry (same : SameInput p q) {s : Text} {e : ChangedSymbol} (entry : q.SharedEntry s e) :
    p.SharedEntry s e := by
  obtain ⟨base, head, change, sure⟩ := entry
  rw [same.base] at base sure
  rw [same.head] at head sure
  rw [same.fileChangeForBase] at change
  exact ⟨base, head, change, sure⟩

/-- The first rung crosses out what both sides have. -/
theorem taken_sameSelector (run : p.pairSameSelector = .ok q) :
    SameInput p q ∧ q.sides = p.sides.uncrossed Eq ∧ ∃ added, q.symbols = p.symbols ++ added ∧
      (∀ e ∈ added, ∃ s, p.sides.Couple Eq s s ∧ ¬ p.Identical s ∧ p.SharedEntry s e) ∧
      ∀ s, p.sides.Couple Eq s s → ¬ p.Identical s → ∃ e ∈ added, p.SharedEntry s e := by
  have couple : ∀ s, p.sides.Couple Eq s s ↔ s ∈ p.unpairedBase.toList.filter fun s => s ∈ p.unpairedHead := by
    intro s
    rw [List.mem_filter, Std.TreeSet.mem_toList, decide_eq_true_iff]
    exact ⟨fun couple => ⟨couple.left, couple.right⟩,
      fun both => ⟨both.1, both.2, rfl, fun _ _ same => same, fun _ _ same => same.symm⟩⟩
  have walk : ∀ (shared : List Text) {p : Pairer}, shared.foldlM pairShared p = .ok q →
      SameInput p q ∧ (∀ s, s ∈ q.unpairedBase ↔ s ∈ p.unpairedBase ∧ s ∉ shared) ∧
      (∀ s, s ∈ q.unpairedHead ↔ s ∈ p.unpairedHead ∧ s ∉ shared) ∧ ∃ added, q.symbols = p.symbols ++ added ∧
        (∀ e ∈ added, ∃ s ∈ shared, ¬ p.Identical s ∧ p.SharedEntry s e) ∧
        ∀ s ∈ shared, ¬ p.Identical s → ∃ e ∈ added, p.SharedEntry s e := by
    intro shared
    induction shared with
    | nil =>
      intro p run
      obtain rfl := Except.ok.inj run
      exact ⟨.refl p, by simp, by simp, [], (List.append_nil _).symm, by simp, by simp⟩
    | cons t rest ih =>
      intro p run
      obtain ⟨r, first, run⟩ := bind_eq_ok.mp run
      obtain ⟨later, left, right, added, symbols, back, made⟩ := ih run
      have here : SameInput p r ∧ r.unpairedBase = p.unpairedBase.erase t ∧ r.unpairedHead = p.unpairedHead.erase t ∧
          ∃ one, r.symbols = p.symbols ++ one ∧ (∀ e ∈ one, ¬ p.Identical t ∧ p.SharedEntry t e) ∧
            (¬ p.Identical t → ∃ e ∈ one, p.SharedEntry t e) := by
        rcases pairShared_cases first with ⟨e, rfl, changed, eBase, eHead, change, sided⟩ | ⟨rfl, identical⟩
        · have entry : p.SharedEntry t e :=
            ⟨eBase, eHead, change, sided.elim (fun pair => .inr ⟨pair.2.1, pair.2.2⟩) fun loose => .inl loose.1⟩
          exact ⟨⟨rfl, rfl, rfl, rfl⟩, rfl, rfl, [e], rfl, fun e' mem => List.mem_singleton.mp mem ▸ ⟨changed, entry⟩,
            fun _ => ⟨e, List.mem_singleton_self e, entry⟩⟩
        · exact ⟨⟨rfl, rfl, rfl, rfl⟩, rfl, rfl, [], (List.append_nil _).symm, by simp, fun changed => absurd identical changed⟩
      obtain ⟨same, erased, erased', one, symbols', back', made'⟩ := here
      rw [same.identical] at back made
      refine ⟨same.trans later, fun s => ?_, fun s => ?_, one ++ added, by rw [symbols, symbols', List.append_assoc],
        fun e mem => ?_, fun s mem changed => ?_⟩
      · rw [left, erased, mem_erase, List.mem_singleton, List.mem_cons, not_or, and_assoc]
      · rw [right, erased', mem_erase, List.mem_singleton, List.mem_cons, not_or, and_assoc]
      · rcases List.mem_append.mp mem with mem | mem
        · exact ⟨t, List.mem_cons_self, back' e mem⟩
        · obtain ⟨s, there, changed, entry⟩ := back e mem
          exact ⟨s, List.mem_cons_of_mem t there, changed, same.sharedEntry entry⟩
      · rcases List.mem_cons.mp mem with rfl | mem
        · obtain ⟨e, mem, entry⟩ := made' changed
          exact ⟨e, List.mem_append_left _ mem, entry⟩
        · obtain ⟨e, mem, entry⟩ := made s mem changed
          exact ⟨e, List.mem_append_right _ mem, same.sharedEntry entry⟩
  obtain ⟨same, left, right, added, symbols, back, made⟩ := walk _ run
  refine ⟨same, ?_, added, symbols, fun e mem => ?_, fun s one => made s ((couple s).mp one)⟩
  · unfold Pairer.sides Sides.uncrossed
    congr 1
    · ext s
      refine (left s).trans (and_congr_right fun mem => ?_)
      rw [List.mem_filter, Std.TreeSet.mem_toList, decide_eq_true_iff]
      exact ⟨fun out t other same => out ⟨mem, same ▸ other⟩, fun alone both => alone s both.2 rfl⟩
    · ext s
      refine (right s).trans (and_congr_right fun mem => ?_)
      rw [List.mem_filter, Std.TreeSet.mem_toList, decide_eq_true_iff]
      exact ⟨fun out t other same => out ⟨same ▸ other, mem⟩, fun alone both => alone s both.1 rfl⟩
  · obtain ⟨s, there, entry⟩ := back e mem
    exact ⟨s, (couple s).mpr there, entry⟩

/-- The cross-path rung crosses out one name and kind, whatever the files, and never pairs. -/
theorem taken_uncertainCrossPath (run : p.pairUncertainCrossPath = .ok q) :
    Taken p q none (SameKey (nameAndKind p.base) (nameAndKind p.head)) := by
  have every : SameKey (nameAndKind p.base) (nameAndKind p.head) =
      fun b h => True ∧ True ∧ SameKey (nameAndKind p.base) (nameAndKind p.head) b h := by simp only [true_and]
  rw [every]
  have distinct : ∀ pending : Std.TreeSet Text, pending.toList.Nodup := fun pending =>
    Std.TreeSet.distinct_toList.imp fun different => mt Std.LawfulEqCmp.compare_eq_iff_eq.mpr different
  refine .of_groups (fun p k bases heads q run => ?_) (distinct _) (distinct _) (fun s => ?_) (fun s => ?_) (fun _ => rfl)
    (fun _ => rfl) run
  · exact Except.ok.inj run ▸ emitUncertainGroup_takes p bases heads _ _
  · rw [Std.TreeSet.mem_toList, true_and]
  · rw [Std.TreeSet.mem_toList, true_and]

/-! ### The ladder -/

theorem foldlM_groupSteps (p : Pairer) (files : ChangedFiles) : (groupSteps files).foldlM take p =
    (do
      let p ← files.renamedPairs.foldlM (fun p (basePath, headPath, kind) => do
        let p ← p.pairMovedInFile basePath headPath kind (gitEvidence kind)
        p.pairRenamedInFile basePath headPath kind (gitEvidence kind)) p
      files.sameFilePaths.foldlM (fun p (path, fileChange) => p.pairBodiesInFile path fileChange) p) := by
  unfold groupSteps
  rw [List.foldlM_append]
  have pairs : ∀ (pairs : List (Text × Text × FileChangeKind)) (p : Pairer),
      (pairs.flatMap fun (basePath, headPath, kind) =>
        [GroupStep.moved basePath headPath kind, .renamed basePath headPath kind]).foldlM take p =
      pairs.foldlM (fun p (basePath, headPath, kind) => do
        let p ← p.pairMovedInFile basePath headPath kind (gitEvidence kind)
        p.pairRenamedInFile basePath headPath kind (gitEvidence kind)) p := by
    intro pairs
    induction pairs with
    | nil => exact fun p => rfl
    | cons pair rest ih =>
      intro p
      rw [List.flatMap_cons, List.foldlM_append, List.foldlM_cons]
      simp only [List.foldlM_cons, List.foldlM_nil, take, bind_pure, ih]
  rw [pairs]
  refine bind_congr fun p => ?_
  rw [List.foldlM_map]
  rfl

/-- The first rung, the steps of the next three, and the last that takes candidates. -/
theorem pairAll_eq_ok (loaded : o.Loaded) (run : o.pairAll = .ok p) : ∃ first third, o.pairSameSelector = .ok first ∧
    (groupSteps o.files).foldlM take first = .ok third ∧ third.pairUncertainCrossPath = .ok p := by
  obtain ⟨p₁, first, later⟩ := bind_eq_ok.mp run
  obtain ⟨p₂, renamedFiles, later⟩ := bind_eq_ok.mp later
  obtain ⟨p₃, bodies, crossPath⟩ := bind_eq_ok.mp later
  have same₁ : SameInput o p₁ := (taken_sameSelector first).1
  have same₂ : SameInput o p₂ := by
    refine foldlM_keeps (P := SameInput o) (fun p pair q _ kept run => ?_) same₁ renamedFiles
    obtain ⟨r, moved, run⟩ := bind_eq_ok.mp run
    have one : p.take (.moved pair.1 pair.2.1 pair.2.2) = .ok r := moved
    have two : r.take (.renamed pair.1 pair.2.1 pair.2.2) = .ok q := run
    have kept' := kept.trans (taken_of_take (loaded.of_same kept) one).toSameInput
    exact kept'.trans (taken_of_take (loaded.of_same kept') two).toSameInput
  refine ⟨p₁, p₃, first, ?_, crossPath⟩
  rw [foldlM_groupSteps, bind_eq_ok]
  exact ⟨p₂, same₁.files ▸ renamedFiles, same₂.files ▸ bodies⟩

/-- What an entry is about: a symbol of both sides, a group, a couple, or a symbol of one side. -/
inductive EntryOf (o : Pairer) (e : ChangedSymbol) : Prop where
  | shared (s : Text) (both : o.sides.Couple Eq s s) (changed : ¬ o.Identical s) (entry : o.SharedEntry s e)
  | group (sideless : Sideless e)
  | pair (step : GroupStep) (b h : Text) (couples : o.Couples step b h) (entry : o.PairEntry step b h e)
  | removed (s : Text) (left : s ∈ o.leftovers.left) (entry : e = o.removedSymbol s)
  | added (s : Text) (right : s ∈ o.leftovers.right) (entry : e = o.addedSymbol s)

/-- Every entry is about one of these, and each of them has an entry. -/
structure Entries (o : Pairer) (symbols : List ChangedSymbol) : Prop where
  entryOf : ∀ e ∈ symbols, o.EntryOf e
  shared : ∀ s, o.sides.Couple Eq s s → ¬ o.Identical s → ∃ e ∈ symbols, o.SharedEntry s e
  pair : ∀ step b h, o.Couples step b h → ∃ e ∈ symbols, o.PairEntry step b h e
  removed : ∀ s ∈ o.leftovers.left, o.removedSymbol s ∈ symbols
  added : ∀ s ∈ o.leftovers.right, o.addedSymbol s ∈ symbols

/-- **What the ladder reports**, read off its input. -/
theorem entries_of_pairAll (loaded : o.Loaded) (start : o.symbols = []) (run : o.pairAll = .ok p) :
    o.Entries p.emitUnpaired.symbols := by
  obtain ⟨p₁, p₃, first, steps, crossPath⟩ := pairAll_eq_ok loaded run
  obtain ⟨same₁, sides₁, added₁, symbols₁, back₁, made₁⟩ := taken_sameSelector first
  obtain ⟨same₃, sides₃, added₃, symbols₃, back₃, made₃⟩ := taken_run (loaded.of_same same₁) steps
  obtain ⟨same, sides, added, symbols, back, -⟩ := taken_uncertainCrossPath crossPath
  have same₃ := same₁.trans same₃
  have same := same₃.trans same
  rw [same₁.meets, sides₁] at sides₃ back₃ made₃
  rw [same₁.pairEntry] at back₃ made₃
  rw [sides₃, same₃.base, same₃.head] at sides
  have left : p.sides = o.leftovers := sides
  have listed : p.symbols = added₁ ++ added₃ ++ added := by rw [symbols, symbols₃, symbols₁, start, List.nil_append]
  have removedSymbol : p.removedSymbol = o.removedSymbol := by
    unfold Pairer.removedSymbol Pairer.fileChangeForBase
    rw [same.base, same.files]
  have addedSymbol : p.addedSymbol = o.addedSymbol := by
    unfold Pairer.addedSymbol Pairer.fileChangeForHead
    rw [same.head, same.files]
  have unpaired : p.emitUnpaired.symbols = added₁ ++ added₃ ++ added ++
      p.unpairedBase.toList.map o.removedSymbol ++ p.unpairedHead.toList.map o.addedSymbol := by
    rw [← listed, ← removedSymbol, ← addedSymbol]
    rfl
  have onBase : ∀ s, s ∈ p.unpairedBase.toList ↔ s ∈ o.leftovers.left := fun s => left ▸ Std.TreeSet.mem_toList
  have onHead : ∀ s, s ∈ p.unpairedHead.toList ↔ s ∈ o.leftovers.right := fun s => left ▸ Std.TreeSet.mem_toList
  simp only [unpaired]
  constructor
  · intro e mem
    simp only [List.mem_append, List.mem_map, onBase, onHead] at mem
    rcases mem with (((mem | mem) | mem) | ⟨s, mem, rfl⟩) | ⟨s, mem, rfl⟩
    · obtain ⟨s, both, changed, entry⟩ := back₁ e mem
      exact .shared s both changed entry
    · rcases back₃ e mem with sideless | ⟨before, step, rest, b, h, is_, couple, entry⟩
      · exact .group sideless
      · exact .pair step b h ⟨before, rest, is_, couple⟩ entry
    · exact .group ((back e mem).resolve_right fun ⟨_, _, _, _, noStep, _⟩ => nomatch noStep)
    · exact .removed s mem rfl
    · exact .added s mem rfl
  · intro s both changed
    obtain ⟨e, mem, entry⟩ := made₁ s both changed
    exact ⟨e, by simp [mem], entry⟩
  · rintro step b h ⟨before, rest, is_, couple⟩
    obtain ⟨e, mem, entry⟩ := made₃ before step rest b h is_ couple
    exact ⟨e, by simp [mem], entry⟩
  · intro s mem
    refine List.mem_append_left _ (List.mem_append_right _ (List.mem_map_of_mem ((onBase s).mpr mem)))
  · intro s mem
    exact List.mem_append_right _ (List.mem_map_of_mem ((onHead s).mpr mem))

theorem loaded_new {comparison : Comparison} {files : ChangedFiles} {base head : SideInventory}
    (loadBase : SideInventory.load .base comparison.base = .ok base)
    (loadHead : SideInventory.load .head comparison.head = .ok head) : (new comparison files base head).Loaded := by
  refine ⟨load_side loadBase, load_side loadHead, ?_, ?_⟩
  · obtain ⟨baseFiles, -, rfl⟩ := load_eq_ok loadBase
    exact SideInventory.lists_ofFiles _ _ _
  · obtain ⟨headFiles, -, rfl⟩ := load_eq_ok loadHead
    exact SideInventory.lists_ofFiles _ _ _

end Pairer

/-- What a comparison reports. -/
theorem Computed.entries {comparison : Comparison} {result : ChangedSymbols} {deltas : List GitDelta}
    {base head : SideInventory} {p : Pairer} (computed : Computed comparison result deltas base head p) :
    (Pairer.new comparison (changedFiles deltas) base head).Entries result.symbols := by
  have loaded : (Pairer.new comparison (changedFiles deltas) base head).Loaded :=
    Pairer.loaded_new computed.loadBase computed.loadHead
  obtain ⟨entryOf, shared, pair, removed, added⟩ := Pairer.entries_of_pairAll loaded rfl computed.paired
  simp only [← computed.mem_symbols] at entryOf shared pair removed added
  exact ⟨entryOf, shared, pair, removed, added⟩

end OrbitGraph.Changes
