import OrbitGraph.Lib.TransitionSystem
import OrbitGraph.Recommend.CacheNames
import OrbitGraph.Recommend.TargetSymbols

/-!
The cache of symbol tables, which any number of processes share.

A process takes the table of its tree from the cache or extracts and publishes it, and prunes
the directory after that. A prune lists the directory, reads the time of each file, and then
removes what it has chosen; whatever happens meanwhile does not change its choice.
-/

namespace OrbitGraph.Recommend

open Lib History CodeIndex

def targetSymbolCacheKeep : Nat := 4

/-- `TARGET_SYMBOL_CACHE_DEAD_TEMP_AGE`, in nanoseconds. -/
def targetSymbolCacheDeadTempAge : Int := 60 * 1000000000

/-- `TARGET_SYMBOL_CACHE_STALE_TEMP_AGE`, in nanoseconds. -/
def targetSymbolCacheStaleTempAge : Int := 60 * 60 * 1000000000

/-- What does not change: the files of each tree, the blobs, and each version's languages. -/
structure Trees where
  files : Oid → SortedMap Text Oid
  blob : Oid → Option (List UInt8)
  extractors : UInt32 → List Extractor

def Trees.cold (trees : Trees) (version : UInt32) (tree : Oid) : Option SymbolTable :=
  (extractSymbols (trees.extractors version) trees.blob (trees.files tree)).map redactCachedSignatures

/-- An item of the directory: whether it is a file, the JSON that it holds if it does, and its modification time. -/
structure Item where
  isFile : Bool
  content : Option Json
  modified : Int

abbrev Dir := Text → Option Item

/-- What a step does to the directory. -/
inductive Effect where
  | none
  | write (name : Text) (content : Json) (now : Int)
  | leave (name : Text) (content : Option Json) (now : Int)
  | touch (name : Text) (now : Int)
  | unlink (name : Text)

def Dir.apply (dir : Dir) : Effect → Dir
  | .none => dir
  | .write name content now => Function.update dir name (some ⟨true, some content, now⟩)
  | .leave name content now => Function.update dir name (some ⟨true, content, now⟩)
  | .touch name now => Function.update dir name ((dir name).map fun item => { item with modified := now })
  | .unlink name => Function.update dir name none

/-! ### Pruning -/

/-- An entry of the current version, with the time that was read of it. -/
structure Retained where
  modified : Int
  name : Text

/-- The entries, the most recently used first. -/
def byLastUse (retained : List Retained) : List Retained :=
  retained.insertionSort fun a b => b.modified ≤ a.modified

/-- The entries that a prune keeps beside the one that was just written … -/
def recent (retained : List Retained) : List Retained := (byLastUse retained).take (targetSymbolCacheKeep - 1)

/-- … and the ones that it removes. -/
def doomed (retained : List Retained) : List Retained := (byLastUse retained).drop (targetSymbolCacheKeep - 1)

/-- Where `prune_target_symbol_caches` is. -/
inductive Stage where
  | list
  | inspect (now : Int) (entries : List Text) (retained : List Retained)
  | unlink (name : Text) (now : Int) (entries : List Text) (retained : List Retained)
  | discard (retained : List Retained) (queue : List Text)
  | done

/-- What happens: a request, a system call that succeeds with its result or fails, or a crash. -/
inductive Action where
  | load (tree : Oid) (cached : Bool)
  | ensure
  | next
  | stamp (now : Int)
  | leave (sequence : Nat) (content : Option Json) (now : Int)
  | list (now : Int) (names : List Text)
  | inspect (processIsGone : Bool)
  | fail
  | failFlush (now : Int)
  | crash

/-- Whether a temporary file is removed. -/
def isStale (age : Int) (processIsGone : Bool) : Bool :=
  decide (targetSymbolCacheStaleTempAge ≤ age) || (decide (targetSymbolCacheDeadTempAge ≤ age) && processIsGone)

/-- What a prune does with a file that it has found. -/
def Stage.inspected (version : UInt32) (keep name : Text) (now : Int) (entries : List Text) (retained : List Retained)
    (item : Item) (processIsGone : Bool) : TargetSymbolCacheName → Stage
  | .temp _ _ =>
    -- The age of a file from the future is zero.
    if isStale (max 0 (now - item.modified)) processIsGone then .unlink name now entries retained
    else .inspect now entries retained
  | .entry extractorVersion =>
    if extractorVersion < version.toNat then .unlink name now entries retained
    else if extractorVersion = version.toNat ∧ name ≠ keep then
      .inspect now entries (retained ++ [⟨item.modified, name⟩])
    else .inspect now entries retained

/-- `prune_target_symbol_caches` -/
def Stage.step (version : UInt32) (keep : Text) (dir : Dir) : Stage → Action → Option (Effect × Stage)
  | .list, .list now names => if names.Nodup then some (.none, .inspect now names []) else none
  | .list, .fail => some (.none, .done)
  | .inspect _ [] retained, .next => some (.none, .discard retained ((doomed retained).map Retained.name))
  | .inspect now (name :: entries) retained, .inspect processIsGone =>
    match parseTargetSymbolCacheName name, dir name with
    | some found, some item =>
      if item.isFile then
        some (.none, .inspected version keep name now entries retained item processIsGone found)
      else some (.none, .inspect now entries retained)
    | _, _ => some (.none, .inspect now entries retained)
  | .inspect now (_ :: entries) retained, .fail => some (.none, .inspect now entries retained)
  | .unlink name now entries retained, .next => some (.unlink name, .inspect now entries retained)
  | .unlink _ now entries retained, .fail => some (.none, .inspect now entries retained)
  | .discard _ [], .next => some (.none, .done)
  | .discard retained (name :: queue), .next => some (.unlink name, .discard retained queue)
  | .discard retained (_ :: queue), .fail => some (.none, .discard retained queue)
  | _, _ => none

/-! ### Processes -/

/-- Where `ensure_symbols` is. -/
inductive Pc where
  | idle
  | reading
  | touching (symbols : SymbolTable)
  | extracting
  | writing (symbols : SymbolTable)
  | unwritten (symbols : SymbolTable)
  | pruning (symbols : SymbolTable) (stage : Stage)
  | crashed

/-- A process of some version, with the target tree of its request. -/
structure Process where
  version : UInt32
  pid : UInt32
  tree : Oid
  cached : Bool
  symbols : Option SymbolTable
  pc : Pc

namespace Process

def path (p : Process) : Text := targetSymbolCacheName p.version p.tree

/-- The name of a temporary file of `atomic_write`. -/
def tempPath (p : Process) (sequence : Nat) : Text :=
  p.path ++ (".tmp-" ++ (decimal p.pid.toNat ++ '-' :: decimal sequence))

def yield (p : Process) (symbols : SymbolTable) : Process := { p with symbols := some symbols, pc := .idle }

/-- `ensure_symbols`: one step of a process. -/
def act (trees : Trees) (dir : Dir) (p : Process) : Action → Option (Effect × Process)
  | .load tree cached =>
    match p.pc with
    | .idle => some (.none, { p with tree := tree, cached := cached, symbols := none })
    | _ => none
  | .ensure =>
    match p.pc with
    | .idle =>
      if p.symbols.isSome then some (.none, p)
      else if p.cached then some (.none, { p with pc := .reading })
      else some (.none, { p with pc := .extracting })
    | _ => none
  | .crash => some (.none, { p with pc := .crashed })
  | a =>
    match p.pc, a with
    | .reading, .next =>
      match (dir p.path).bind fun item => readTargetSymbolCache p.version p.tree item.content with
      | some symbols => some (.none, { p with pc := .touching symbols })
      | none => some (.none, { p with pc := .extracting })
    | .reading, .fail => some (.none, { p with pc := .extracting })
    | .touching symbols, .stamp now => some (.touch p.path now, p.yield symbols)
    | .touching symbols, .fail => some (.none, p.yield symbols)
    | .extracting, .next =>
      match extractSymbols (trees.extractors p.version) trees.blob (trees.files p.tree) with
      | some extracted =>
        let symbols := redactCachedSignatures extracted
        if p.cached then some (.none, { p with pc := .writing symbols }) else some (.none, p.yield symbols)
      | none => some (.none, { p with pc := .idle })
    | .extracting, .fail => some (.none, { p with pc := .idle })
    | .writing symbols, .stamp now =>
      some (.write p.path (targetSymbolCache p.version p.tree symbols) now, { p with pc := .pruning symbols .list })
    | .writing symbols, .failFlush now =>
      some (.write p.path (targetSymbolCache p.version p.tree symbols) now, p.yield symbols)
    | .writing symbols, .leave sequence content now =>
      if (dir (p.tempPath sequence)).isNone then
        some (.leave (p.tempPath sequence) content now, { p with pc := .unwritten symbols })
      else none
    | .writing symbols, .fail => some (.none, p.yield symbols)
    | .unwritten symbols, .fail => some (.none, p.yield symbols)
    | .pruning symbols .done, .next => some (.none, p.yield symbols)
    | .pruning symbols stage, a =>
      (stage.step p.version p.path dir a).map fun (e, stage) => (e, { p with pc := .pruning symbols stage })
    | _, _ => none

end Process

structure State where
  processes : List Process
  dir : Dir

/-- A step of a process, or of another program with a name that is not the cache's. -/
inductive Label where
  | process (i : Nat) (a : Action)
  | foreign (name : Text) (item : Option Item)

def State.apply (trees : Trees) (s : State) : Label → Option State
  | .process i a => do
      let p ← s.processes[i]?
      let (e, p') ← p.act trees s.dir a
      some ⟨s.processes.set i p', s.dir.apply e⟩
  | .foreign name item =>
    match parseTargetSymbolCacheName name with
    | some _ => none
    | none => some { s with dir := Function.update s.dir name item }

/-- Runs begin without a cache: no request has been made, and no name in the directory is the cache's. -/
def system (trees : Trees) : TransitionSystem State Label where
  init s := (∀ p ∈ s.processes, p.pc = .idle ∧ p.symbols = none) ∧
    ∀ name found, parseTargetSymbolCacheName name = some found → s.dir name = none
  step s l t := s.apply trees l = some t

/-! ### What a prune does -/

/-- What a prune has read: the entries of the current version, and their times. -/
def Stage.seen : Stage → List Retained
  | .inspect _ _ retained => retained
  | .unlink _ _ _ retained => retained
  | .discard retained _ => retained
  | _ => []

/-- A name that a prune may remove: one of the cache, but of no newer version, not the one that was just
written, and, of the current version, none of the others that were the most recently used by the times that the
prune read. -/
structure Prunable (version : UInt32) (keep : Text) (seen : List Retained) (name : Text) : Prop where
  grammar : ∃ found, Grammar found name
  notNewer : ∀ v tree, name = targetSymbolCacheName v tree → v ≤ version
  notKept : name ≠ keep
  notRecent : ∀ tree, name = targetSymbolCacheName version tree →
    ∃ recent rest, seen.Perm (recent ++ rest) ∧ (seen.map Retained.name).Nodup ∧
      recent.length = targetSymbolCacheKeep - 1 ∧ (∀ r ∈ recent, ∀ other ∈ rest, other.modified ≤ r.modified) ∧
      name ∈ rest.map Retained.name

/-- An entry of the current version other than the one that was written. -/
structure Mine (version : UInt32) (keep : Text) (r : Retained) : Prop where
  parses : parseTargetSymbolCacheName r.name = some (.entry version.toNat)
  other : r.name ≠ keep

/-- A temporary file, or an entry of an older version. -/
def Condemned (version : UInt32) (name : Text) : Prop :=
  ∃ found, parseTargetSymbolCacheName name = some found ∧ ∀ v, found = .entry v → v < version.toNat

namespace Stage

inductive Step (version : UInt32) (keep : Text) (dir : Dir) : Stage → Effect → Stage → Prop where
  | listed {now : Int} {names : List Text} : names.Nodup → Step version keep dir .list .none (.inspect now names [])
  | unlisted : Step version keep dir .list .none .done
  | chosen {now : Int} {retained : List Retained} :
      Step version keep dir (.inspect now [] retained) .none (.discard retained ((doomed retained).map Retained.name))
  | skipped {name : Text} {now : Int} {entries : List Text} {retained : List Retained} :
      Step version keep dir (.inspect now (name :: entries) retained) .none (.inspect now entries retained)
  | condemned {name : Text} {now : Int} {entries : List Text} {retained : List Retained} : Condemned version name →
      Step version keep dir (.inspect now (name :: entries) retained) .none (.unlink name now entries retained)
  | retained {name : Text} {now : Int} {entries : List Text} {retained : List Retained} {item : Item} :
      Mine version keep ⟨item.modified, name⟩ → dir name = some item → item.isFile = true →
      Step version keep dir (.inspect now (name :: entries) retained) .none
        (.inspect now entries (retained ++ [⟨item.modified, name⟩]))
  | unlinked {name : Text} {now : Int} {entries : List Text} {retained : List Retained} :
      Step version keep dir (.unlink name now entries retained) (.unlink name) (.inspect now entries retained)
  | spared {name : Text} {now : Int} {entries : List Text} {retained : List Retained} :
      Step version keep dir (.unlink name now entries retained) .none (.inspect now entries retained)
  | discarded {name : Text} {retained : List Retained} {queue : List Text} :
      Step version keep dir (.discard retained (name :: queue)) (.unlink name) (.discard retained queue)
  | remaining {name : Text} {retained : List Retained} {queue : List Text} :
      Step version keep dir (.discard retained (name :: queue)) .none (.discard retained queue)
  | finished {retained : List Retained} : Step version keep dir (.discard retained []) .none .done

variable {version : UInt32} {keep : Text} {dir : Dir} {stage stage' : Stage} {a : Action} {e : Effect}

theorem step_inspected {name : Text} {now : Int} {entries : List Text} {retained : List Retained} {item : Item}
    {found : TargetSymbolCacheName} (gone : Bool) (parsed : parseTargetSymbolCacheName name = some found)
    (there : dir name = some item) (isFile : item.isFile = true) :
    Step version keep dir (.inspect now (name :: entries) retained) .none
      (.inspected version keep name now entries retained item gone found) := by
  cases found with
  | temp v pid =>
    have condemned : Condemned version name := ⟨_, parsed, nofun⟩
    rw [inspected]
    split
    · exact .condemned condemned
    · exact .skipped
  | entry v =>
    rw [inspected]
    split_ifs with older same
    · refine .condemned ⟨_, parsed, fun v' eq => ?_⟩
      cases eq
      exact older
    · obtain ⟨rfl, other⟩ := same
      exact .retained ⟨parsed, other⟩ there isFile
    · exact .skipped

theorem step_cases (run : stage.step version keep dir a = some (e, stage')) : Step version keep dir stage e stage' := by
  cases stage with
  | list =>
    cases a with
    | list now names =>
      rw [step] at run
      split at run
      next nodup =>
        cases run
        exact .listed nodup
      next => cases run
    | fail =>
      cases run
      exact .unlisted
    | _ => cases run
  | inspect now entries retained =>
    cases entries with
    | nil =>
      cases a with
      | next =>
        cases run
        exact .chosen
      | _ => cases run
    | cons name entries =>
      cases a with
      | inspect gone =>
        rw [step] at run
        split at run
        next found item parsed there =>
          split at run
          next isFile =>
            cases run
            exact step_inspected gone parsed there isFile
          next =>
            cases run
            exact .skipped
        next =>
          cases run
          exact .skipped
      | fail =>
        cases run
        exact .skipped
      | _ => cases run
  | unlink name now entries retained =>
    cases a with
    | next =>
      cases run
      exact .unlinked
    | fail =>
      cases run
      exact .spared
    | _ => cases run
  | discard retained queue =>
    cases queue with
    | nil =>
      cases a with
      | next =>
        cases run
        exact .finished
      | _ => cases run
    | cons name queue =>
      cases a with
      | next =>
        cases run
        exact .discarded
      | fail =>
        cases run
        exact .remaining
      | _ => cases run
  | done => cases a <;> cases run

/-- What a prune has read and has still to read is all different, and is about other entries. -/
structure Reads (version : UInt32) (keep : Text) (entries : List Text) (retained : List Retained) : Prop where
  mine : ∀ r ∈ retained, Mine version keep r
  nodup : (retained.map Retained.name ++ entries).Nodup

def Sound (version : UInt32) (keep : Text) : Stage → Prop
  | .inspect _ entries retained => Reads version keep entries retained
  | .unlink name _ entries retained => Condemned version name ∧ Reads version keep entries retained
  | .discard retained queue =>
    Reads version keep [] retained ∧ queue ⊆ (doomed retained).map Retained.name
  | _ => True

theorem Reads.skip {name : Text} {entries : List Text} {retained : List Retained}
    (reads : Reads version keep (name :: entries) retained) : Reads version keep entries retained where
  mine := reads.mine
  nodup := reads.nodup.sublist ((List.sublist_cons_self name entries).append_left _)

theorem Reads.retain {r : Retained} {entries : List Text} {retained : List Retained} (mine : Mine version keep r)
    (reads : Reads version keep (r.name :: entries) retained) : Reads version keep entries (retained ++ [r]) where
  mine other mem := (List.mem_append.mp mem).elim (reads.mine other) fun last => List.mem_singleton.mp last ▸ mine
  nodup := by
    have nodup := reads.nodup
    rw [List.map_append, List.append_assoc]
    exact nodup

theorem step_sound (sound : stage.Sound version keep) (run : stage.step version keep dir a = some (e, stage')) :
    stage'.Sound version keep := by
  cases step_cases run with
  | listed nodup => exact ⟨nofun, nodup⟩
  | unlisted => trivial
  | chosen => exact ⟨sound, List.Subset.refl _⟩
  | skipped => exact sound.skip
  | condemned condemned => exact ⟨condemned, sound.skip⟩
  | retained mine => exact sound.retain mine
  | unlinked | spared => exact sound.2
  | discarded | remaining => exact ⟨sound.1, fun name mem => sound.2 (List.mem_cons_of_mem _ mem)⟩
  | finished => trivial

theorem step_seen (run : stage.step version keep dir a = some (e, stage')) {r : Retained} (mem : r ∈ stage'.seen) :
    r ∈ stage.seen ∨ ∃ item, dir r.name = some item ∧ item.isFile = true ∧ item.modified = r.modified := by
  cases step_cases run with
  | retained mine there isFile =>
    rcases List.mem_append.mp mem with old | new
    · exact .inl old
    · obtain rfl := List.mem_singleton.mp new
      exact .inr ⟨_, there, isFile, rfl⟩
  | listed | unlisted | finished => cases mem
  | chosen | skipped | condemned | unlinked | spared | discarded | remaining => exact .inl mem

theorem step_effect (run : stage.step version keep dir a = some (e, stage')) : e = .none ∨ ∃ name, e = .unlink name := by
  cases step_cases run with
  | unlinked | discarded => exact .inr ⟨_, rfl⟩
  | _ => exact .inl rfl

/-- The kept and the removed entries are those that were read, and the kept ones were used no earlier. -/
theorem recent_doomed (retained : List Retained) : retained.Perm (recent retained ++ doomed retained) ∧
    ∀ r ∈ recent retained, ∀ other ∈ doomed retained, other.modified ≤ r.modified := by
  have total : Std.Total fun a b : Retained => b.modified ≤ a.modified := ⟨fun a b => Int.le_total _ _⟩
  have trans : IsTrans Retained fun a b => b.modified ≤ a.modified := ⟨fun _ _ _ ab bc => Int.le_trans bc ab⟩
  have sorted : (byLastUse retained).Pairwise fun a b => b.modified ≤ a.modified :=
    List.pairwise_insertionSort _ retained
  constructor
  · rw [recent, doomed, List.take_append_drop]
    exact (List.perm_insertionSort _ retained).symm
  · rw [← List.take_append_drop (targetSymbolCacheKeep - 1) (byLastUse retained)] at sorted
    exact (List.pairwise_append.mp sorted).2.2

theorem entry_parses (version : UInt32) (tree : Oid) :
    parseTargetSymbolCacheName (targetSymbolCacheName version tree) = some (.entry version.toNat) :=
  parseTargetSymbolCacheName_eq_some.mpr (.entry version tree)

/-- A prune removes what it may. -/
theorem step_prunable {tree : Oid} {name : Text} (sound : stage.Sound version (targetSymbolCacheName version tree))
    (run : stage.step version (targetSymbolCacheName version tree) dir a = some (.unlink name, stage')) :
    Prunable version (targetSymbolCacheName version tree) stage.seen name := by
  cases step_cases run with
  | unlinked =>
    obtain ⟨⟨found, parsed, older⟩, -⟩ := sound
    refine ⟨⟨found, parseTargetSymbolCacheName_eq_some.mp parsed⟩, ?_, ?_, ?_⟩
    · rintro v t rfl
      have same := Option.mem_unique parsed (entry_parses v t)
      exact UInt32.le_iff_toNat_le.mpr (older _ same).le
    · rintro rfl
      have same := Option.mem_unique parsed (entry_parses version tree)
      exact absurd (older _ same) (Nat.lt_irrefl _)
    · rintro t rfl
      have same := Option.mem_unique parsed (entry_parses version t)
      exact absurd (older _ same) (Nat.lt_irrefl _)
  | @discarded _ retained queue =>
    obtain ⟨reads, doomedOnly⟩ := sound
    have mem : name ∈ (doomed retained).map Retained.name := doomedOnly List.mem_cons_self
    obtain ⟨perm, later⟩ := recent_doomed retained
    obtain ⟨r, chosen, rfl⟩ := List.mem_map.mp mem
    have mine := reads.mine r (perm.mem_iff.mpr (List.mem_append_right _ chosen))
    refine ⟨⟨_, parseTargetSymbolCacheName_eq_some.mp mine.parses⟩, ?_, mine.other, fun t _ => ?_⟩
    · intro v t same
      have parsed := mine.parses
      rw [same, entry_parses] at parsed
      exact UInt32.le_iff_toNat_le.mpr (TargetSymbolCacheName.entry.inj (Option.some.inj parsed)).le
    · refine ⟨recent retained, doomed retained, perm, ?_, ?_, later, mem⟩
      · have nodup := reads.nodup
        rw [List.append_nil] at nodup
        exact nodup
      · have some := List.length_pos_of_mem chosen
        rw [doomed, List.length_drop] at some
        rw [recent, List.length_take]
        omega

end Stage

namespace Pc

/-- The table that a process has found or extracted. -/
def table : Pc → Option SymbolTable
  | .touching symbols => some symbols
  | .writing symbols => some symbols
  | .unwritten symbols => some symbols
  | .pruning symbols _ => some symbols
  | _ => none

def stage : Pc → Option Stage
  | .pruning _ stage => some stage
  | _ => none

end Pc

/-- A process has the table that it would extract, and is in a sound prune. -/
structure Process.Sound (trees : Trees) (p : Process) : Prop where
  symbols : ∀ table ∈ p.symbols, trees.cold p.version p.tree = some table
  table : ∀ table ∈ p.pc.table, trees.cold p.version p.tree = some table
  stage : ∀ stage ∈ p.pc.stage, stage.Sound p.version p.path

def Honest (trees : Trees) (dir : Dir) : Prop :=
  ∀ version tree item, dir (targetSymbolCacheName version tree) = some item →
    ∃ table, trees.cold version tree = some table ∧ item.content = some (targetSymbolCache version tree table)

namespace Process

variable {trees : Trees} {dir : Dir} {p p' : Process} {a : Action} {e : Effect}

theorem tempPath_parses (p : Process) (sequence : Nat) :
    parseTargetSymbolCacheName (p.tempPath sequence) = some (.temp p.version.toNat p.pid.toNat) := by
  have isDigits : ∀ n, IsDigits (decimal n) := fun n =>
    ⟨decimal_ne_nil n, List.all_eq_true.mpr fun c mem => decimal_isDigit mem⟩
  exact parseTargetSymbolCacheName_eq_some.mpr
    (.temp p.version p.pid p.tree (.current (isDigits _) (isDigits _) (digitsValue_decimal _)))

inductive Step (trees : Trees) (dir : Dir) (p : Process) : Effect → Process → Prop where
  | loaded (tree : Oid) (cached : Bool) : p.pc = .idle →
      Step trees dir p .none { p with tree := tree, cached := cached, symbols := none }
  | kept : Step trees dir p .none p
  | moved {pc : Pc} : pc.table = none → pc.stage = none → Step trees dir p .none { p with pc := pc }
  | found {table : SymbolTable} {item : Item} : dir p.path = some item →
      readTargetSymbolCache p.version p.tree item.content = some table →
      Step trees dir p .none { p with pc := .touching table }
  | extracted {table : SymbolTable} : trees.cold p.version p.tree = some table →
      Step trees dir p .none { p with pc := .writing table }
  | extractedOnly {table : SymbolTable} : trees.cold p.version p.tree = some table →
      Step trees dir p .none (p.yield table)
  | touched {table : SymbolTable} {now : Int} : p.pc.table = some table →
      Step trees dir p (.touch p.path now) (p.yield table)
  | yielded {table : SymbolTable} : p.pc.table = some table → Step trees dir p .none (p.yield table)
  | published {table : SymbolTable} {now : Int} : p.pc.table = some table →
      Step trees dir p (.write p.path (targetSymbolCache p.version p.tree table) now)
        { p with pc := .pruning table .list }
  | publishedOnly {table : SymbolTable} {now : Int} : p.pc.table = some table →
      Step trees dir p (.write p.path (targetSymbolCache p.version p.tree table) now) (p.yield table)
  | left {table : SymbolTable} {sequence : Nat} {content : Option Json} {now : Int} : p.pc.table = some table →
      Step trees dir p (.leave (p.tempPath sequence) content now) { p with pc := .unwritten table }
  | pruned {table : SymbolTable} {stage stage' : Stage} {a : Action} {e : Effect} : p.pc = .pruning table stage →
      stage.step p.version p.path dir a = some (e, stage') →
      Step trees dir p e { p with pc := .pruning table stage' }

theorem act_step (run : p.act trees dir a = some (e, p')) : p.Step trees dir e p' := by
  revert run
  fun_cases act trees dir p a
  case case24 here _ _ _ _ =>
    intro run
    obtain ⟨⟨e, stage'⟩, stepped, same⟩ := Option.map_eq_some_iff.mp run
    cases same
    exact .pruned here stepped
  all_goals
    intro run
    cases run
  case case1 => exact .loaded _ _ ‹_›
  case case3 => exact .kept
  case case4 => exact .moved rfl rfl
  case case5 => exact .moved rfl rfl
  case case7 => exact .moved rfl rfl
  case case8 read _ _ _ =>
    obtain ⟨item, there, read⟩ := Option.bind_eq_some_iff.mp read
    exact .found there read
  case case9 => exact .moved rfl rfl
  case case10 => exact .moved rfl rfl
  case case11 here _ _ _ => exact .touched (congrArg Pc.table here)
  case case12 here _ _ _ => exact .yielded (congrArg Pc.table here)
  case case13 extracted _ _ _ _ _ => exact .extracted (Option.map_eq_some_iff.mpr ⟨_, extracted, rfl⟩)
  case case14 extracted _ _ _ _ _ => exact .extractedOnly (Option.map_eq_some_iff.mpr ⟨_, extracted, rfl⟩)
  case case15 => exact .moved rfl rfl
  case case16 => exact .moved rfl rfl
  case case17 here _ _ _ => exact .published (congrArg Pc.table here)
  case case18 here _ _ _ => exact .publishedOnly (congrArg Pc.table here)
  case case19 here _ _ _ _ => exact .left (congrArg Pc.table here)
  case case21 here _ _ _ => exact .yielded (congrArg Pc.table here)
  case case22 here _ _ _ => exact .yielded (congrArg Pc.table here)
  case case23 here _ _ _ => exact .yielded (congrArg Pc.table here)

theorem Sound.yield (sound : p.Sound trees) {table : SymbolTable} (held : p.pc.table = some table) :
    (p.yield table).Sound trees where
  symbols found mem := by
    obtain rfl := Option.some.inj mem
    exact sound.table table held
  table found mem := by cases mem
  stage stage mem := by cases mem

/-- A process keeps to what it would extract, if the cache does. -/
theorem Step.sound (sound : p.Sound trees) (honest : Honest trees dir) (step : p.Step trees dir e p') :
    p'.Sound trees := by
  cases step with
  | loaded tree cached idle =>
    refine ⟨fun table mem => ?_, fun table mem => ?_, fun stage mem => ?_⟩
    · cases mem
    · rw [idle] at mem
      cases mem
    · rw [idle] at mem
      cases mem
  | kept => exact sound
  | moved noTable noStage =>
    refine ⟨sound.symbols, fun table mem => ?_, fun stage mem => ?_⟩
    · cases noTable.symm.trans mem
    · cases noStage.symm.trans mem
  | @found table item there read =>
    refine ⟨sound.symbols, fun table mem => ?_, fun stage mem => ?_⟩
    · obtain rfl := Option.some.inj mem
      obtain ⟨written, cold, content⟩ := honest p.version p.tree item there
      rw [content, read_targetSymbolCache] at read
      exact cold.trans read
    · cases mem
  | extracted cold =>
    refine ⟨sound.symbols, fun table mem => ?_, fun stage mem => ?_⟩
    · obtain rfl := Option.some.inj mem
      exact cold
    · cases mem
  | extractedOnly cold =>
    refine ⟨fun table mem => ?_, fun table mem => ?_, fun stage mem => ?_⟩
    · obtain rfl := Option.some.inj mem
      exact cold
    · cases mem
    · cases mem
  | touched held | yielded held | publishedOnly held => exact sound.yield held
  | published held =>
    refine ⟨sound.symbols, fun table mem => ?_, fun stage mem => ?_⟩
    · obtain rfl := Option.some.inj mem
      exact sound.table _ held
    · obtain rfl := Option.some.inj mem
      trivial
  | left held =>
    refine ⟨sound.symbols, fun table mem => ?_, fun stage mem => ?_⟩
    · obtain rfl := Option.some.inj mem
      exact sound.table _ held
    · cases mem
  | @pruned table stage stage' a e here stepped =>
    refine ⟨sound.symbols, fun found mem => ?_, fun found mem => ?_⟩
    · obtain rfl := Option.some.inj mem
      exact sound.table _ (congrArg Pc.table here)
    · obtain rfl := Option.some.inj mem
      exact Stage.step_sound (sound.stage stage (congrArg Pc.stage here)) stepped

/-- What a process has read of the other entries, if it prunes. -/
def seen (p : Process) : List Retained := (p.pc.stage.map Stage.seen).getD []

theorem Step.prunable {name : Text} (sound : p.Sound trees) (step : p.Step trees dir (.unlink name) p') :
    Prunable p.version p.path p.seen name := by
  cases step with
  | @pruned table stage stage' a _ here stepped =>
    have seen : p.seen = stage.seen := by
      rw [Process.seen, here]
      rfl
    rw [seen]
    exact Stage.step_prunable (sound.stage stage (congrArg Pc.stage here)) stepped

theorem Step.seen (step : p.Step trees dir e p') {r : Retained} (mem : r ∈ p'.seen) :
    r ∈ p.seen ∨ ∃ item, dir r.name = some item ∧ item.isFile = true ∧ item.modified = r.modified := by
  cases step with
  | @pruned table stage stage' a e here stepped =>
    have seen : p.seen = stage.seen := by
      rw [Process.seen, here]
      rfl
    rw [seen]
    exact Stage.step_seen stepped mem
  | loaded | kept => exact .inl mem
  | @moved pc _ noStage =>
    have none : ({ p with pc := pc } : Process).seen = [] := by
      rw [Process.seen, noStage]
      rfl
    rw [none] at mem
    cases mem
  | _ => cases mem

end Process

variable {dir : Dir}

theorem Dir.eq_unlink_of_apply {e : Effect} {name : Text} (there : dir name ≠ none)
    (gone : dir.apply e name = none) : e = .unlink name := by
  have kept : ∀ {other : Text} {item : Option Item}, (name = other → item ≠ none) →
      Function.update dir other item name ≠ none := by
    intro other item stays
    by_cases same : name = other
    · subst same
      rw [Function.update_self]
      exact stays rfl
    · rw [Function.update_of_ne same]
      exact there
  cases e with
  | none => exact absurd gone there
  | write other content now | leave other content now => exact absurd gone (kept fun _ => Option.some_ne_none _)
  | touch other now =>
    refine absurd gone (kept fun same => ?_)
    rw [← same]
    exact mt Option.map_eq_none_iff.mp there
  | unlink other =>
    by_cases same : name = other
    · rw [same]
    · rw [Dir.apply, Function.update_of_ne same] at gone
      exact absurd gone there

theorem Honest.update {trees : Trees} {name : Text} {item : Option Item} (honest : Honest trees dir)
    (other : ∀ version tree, name ≠ targetSymbolCacheName version tree) :
    Honest trees (Function.update dir name item) := by
  intro version tree found there
  rw [Function.update_of_ne (other version tree).symm] at there
  exact honest version tree found there

theorem Honest.remove {trees : Trees} {name : Text} (honest : Honest trees dir) :
    Honest trees (Function.update dir name none) := by
  intro version tree found there
  by_cases same : targetSymbolCacheName version tree = name
  · rw [same, Function.update_self] at there
    cases there
  · rw [Function.update_of_ne same] at there
    exact honest version tree found there

/-- The cache stays honest if the processes are. -/
theorem Process.Step.honest {trees : Trees} {p p' : Process} {e : Effect} (sound : p.Sound trees)
    (honest : Honest trees dir) (step : p.Step trees dir e p') : Honest trees (dir.apply e) := by
  have written : ∀ {table : SymbolTable} {now : Int}, p.pc.table = some table →
      Honest trees (dir.apply (.write p.path (targetSymbolCache p.version p.tree table) now)) := by
    intro table now held version tree item there
    by_cases same : targetSymbolCacheName version tree = p.path
    · obtain ⟨rfl, rfl⟩ := targetSymbolCacheName_injective same
      rw [Dir.apply, same, Function.update_self] at there
      obtain rfl := Option.some.inj there
      exact ⟨table, sound.table table held, rfl⟩
    · rw [Dir.apply, Function.update_of_ne same] at there
      exact honest version tree item there
  cases step with
  | loaded | kept | moved | found | extracted | extractedOnly | yielded => exact honest
  | touched =>
    intro version tree item there
    by_cases same : targetSymbolCacheName version tree = p.path
    · rw [Dir.apply, same, Function.update_self, ← same] at there
      obtain ⟨before, there', rfl⟩ := Option.map_eq_some_iff.mp there
      exact honest version tree before there'
    · rw [Dir.apply, Function.update_of_ne same] at there
      exact honest version tree item there
  | published held | publishedOnly held => exact written held
  | left =>
    refine honest.update fun version tree same => ?_
    have temp := p.tempPath_parses
    cases (same ▸ temp _ : parseTargetSymbolCacheName (targetSymbolCacheName version tree) = _).symm.trans
      (Stage.entry_parses version tree)
  | pruned _ stepped =>
    rcases Stage.step_effect stepped with rfl | ⟨name, rfl⟩
    · exact honest
    · exact honest.remove

/-! ### Every run -/

/-- The cache is honest and every process is sound. -/
structure Invariant (trees : Trees) (s : State) : Prop where
  honest : Honest trees s.dir
  sound : ∀ p ∈ s.processes, p.Sound trees

section Invariant

variable {trees : Trees} {s t : State}

theorem apply_process {i : Nat} {a : Action} (stepped : (system trees).step s (.process i a) t) :
    ∃ p e p', s.processes[i]? = some p ∧ p.Step trees s.dir e p' ∧ t = ⟨s.processes.set i p', s.dir.apply e⟩ := by
  obtain ⟨p, here, run⟩ := Option.bind_eq_some_iff.mp (stepped : s.apply trees (.process i a) = some t)
  obtain ⟨⟨e, p'⟩, acted, same⟩ := Option.bind_eq_some_iff.mp run
  exact ⟨p, e, p', here, Process.act_step acted, (Option.some.inj same).symm⟩

theorem invariant_inductive (trees : Trees) : (system trees).Inductive (Invariant trees) where
  init s := by
    rintro ⟨fresh, empty⟩
    refine ⟨fun version tree item there => ?_, fun p mem => ?_⟩
    · rw [empty _ _ (Stage.entry_parses version tree)] at there
      cases there
    · obtain ⟨idle, none⟩ := fresh p mem
      refine ⟨fun table mem => ?_, fun table mem => ?_, fun stage mem => ?_⟩
      · cases none.symm.trans mem
      · rw [idle] at mem
        cases mem
      · rw [idle] at mem
        cases mem
  step s l t := by
    intro inv stepped
    cases l with
    | process i a =>
      obtain ⟨p, e, p', here, step, rfl⟩ := apply_process stepped
      have sound := inv.sound p (List.mem_of_getElem? here)
      refine ⟨step.honest sound inv.honest, fun q mem => ?_⟩
      rcases List.mem_or_eq_of_mem_set mem with old | rfl
      · exact inv.sound q old
      · exact step.sound sound inv.honest
    | foreign name item =>
      have run : s.apply trees (.foreign name item) = some t := stepped
      rw [State.apply] at run
      split at run
      next => cases run
      next notOurs =>
        obtain rfl := Option.some.inj run
        refine ⟨inv.honest.update fun version tree same => ?_, inv.sound⟩
        rw [same, Stage.entry_parses] at notOurs
        cases notOurs

/-- A table that a request is given is the one that its process would extract, whatever is cached. And what a step
removes a prune may remove, by the times that it has read; these were the times when it read them. -/
theorem targetSymbolCache_exact (reach : (system trees).Reachable s) :
    (∀ p ∈ s.processes, ∀ table ∈ p.symbols, trees.cold p.version p.tree = some table) ∧
    ∀ i a t, (system trees).step s (.process i a) t →
      ∃ p p', s.processes[i]? = some p ∧ t.processes[i]? = some p' ∧
        (∀ name, s.dir name ≠ none → t.dir name = none → Prunable p.version p.path p.seen name) ∧
        ∀ r ∈ p'.seen, r ∈ p.seen ∨
          ∃ item, s.dir r.name = some item ∧ item.isFile = true ∧ item.modified = r.modified := by
  have inv := reach.of_inductive (invariant_inductive trees)
  refine ⟨fun p mem => (inv.sound p mem).symbols, fun i a t stepped => ?_⟩
  obtain ⟨p, e, p', here, step, rfl⟩ := apply_process stepped
  have sound := inv.sound p (List.mem_of_getElem? here)
  have inside : i < s.processes.length := (List.getElem?_eq_some_iff.mp here).1
  refine ⟨p, p', here, List.getElem?_set_self inside, fun name there gone => ?_, fun r mem => step.seen mem⟩
  obtain rfl := Dir.eq_unlink_of_apply there gone
  exact step.prunable sound

end Invariant

/-- One of the entries that a process has in the cache beside the one that it has written, so that there are
others enough that were used no earlier. -/
def Outlived (s : State) (p : Process) (name : Text) : Prop :=
  ∃ recent : List Text, recent.Nodup ∧ recent.length = targetSymbolCacheKeep - 1 ∧
    ∀ other ∈ recent, other ≠ name ∧ other ≠ p.path ∧ ∃ tree item found, other = targetSymbolCacheName p.version tree ∧
      s.dir name = some item ∧ s.dir other = some found ∧ item.modified ≤ found.modified

namespace Sample

def fresh (pid : UInt32) : Process := ⟨7, pid, .ofDigit '7' (by decide), true, none, .idle⟩

def start : State := ⟨[fresh 1, fresh 2], fun _ => none⟩

def targets : List Oid :=
  [.ofDigit '7' (by decide), .ofDigit '8' (by decide), .ofDigit '9' (by decide), .ofDigit 'a' (by decide),
    .ofDigit 'e' (by decide)]

def target (k : Nat) : Oid := targets.getD k (.ofDigit '7' (by decide))

def symbol (signature : String) : RawSymbol :=
  ⟨"a.rs", "f", "f", "function", 0, 9, some signature.toList, none⟩

/-- The first target has a symbol with a password in its signature, the others are empty. -/
def trees : Trees where
  files tree := if tree = target 0 then .ofList [("a.rs", tree)] else .empty
  blob _ := some []
  extractors _ := [⟨fun _ => true, fun _ _ => [symbol "https://u:p@h"]⟩]

def table (k : Nat) : SymbolTable :=
  if k = 0 then .ofList [("a.rs", [symbol "https://u:[REDACTED_SECRET]@h"])] else .empty

def request (k : Nat) : List Label :=
  [.load (targets.getD k (.ofDigit '7' (by decide))) true, .ensure, .next, .next, .stamp (k + 1),
    .list (k + 1) ((targets.take (k + 1)).map (targetSymbolCacheName 7))].map (.process 0) ++
  List.replicate (k + 1) (.process 0 (.inspect false)) ++ [.process 0 .next]

def finish : List Label := [.process 0 .next, .process 0 .next]

def labels : List Label :=
  request 0 ++ finish ++ (request 1 ++ finish) ++ (request 2 ++ finish) ++ (request 3 ++ finish) ++ request 4 ++
    [.process 1 .ensure, .process 1 .next, .process 1 (.stamp 9)]

def stored (k : Nat) (now : Int) (dir : Dir) : Dir :=
  Function.update dir (targetSymbolCacheName 7 (target k))
    (some ⟨true, some (targetSymbolCache 7 (target k) (table k)), now⟩)

def listed : Dir := stored 4 5 (stored 3 4 (stored 2 3 (stored 1 2 (stored 0 1 fun _ => none))))

def used : Dir := stored 0 9 listed

def pruning : State :=
  ⟨[⟨7, 1, target 4, true, none, .pruning (table 4) (.discard
      [⟨1, targetSymbolCacheName 7 (target 0)⟩, ⟨2, targetSymbolCacheName 7 (target 1)⟩,
        ⟨3, targetSymbolCacheName 7 (target 2)⟩, ⟨4, targetSymbolCacheName 7 (target 3)⟩]
      [targetSymbolCacheName 7 (target 0)])⟩,
    ⟨7, 2, target 0, true, some (table 0), .idle⟩], used⟩

set_option maxRecDepth 20000 in
theorem accepted : labels.foldlM (State.apply trees) start = some pruning := by
  rfl

theorem reachable : (system trees).Reachable pruning :=
  ⟨start, labels, ⟨by simp [start, fresh], fun _ _ _ => rfl⟩, .of_apply (fun _ _ _ step => step) accepted⟩

def first : Text := targetSymbolCacheName 7 (target 0)

theorem used_first : ∃ item, used first = some item ∧ item.modified = 9 :=
  ⟨_, Function.update_self (targetSymbolCacheName 7 (target 0)) _ listed, rfl⟩

theorem modified_stored {k : Nat} {now : Int} {dir : Dir} (recent : now < 9)
    (others : ∀ name item, dir name = some item → item.modified < 9) (name : Text) (item : Item)
    (there : stored k now dir name = some item) : item.modified < 9 := by
  by_cases same : name = targetSymbolCacheName 7 (target k)
  · rw [stored, same, Function.update_self] at there
    obtain rfl := Option.some.inj there
    exact recent
  · rw [stored, Function.update_of_ne same] at there
    exact others name item there

theorem modified_of_used {name : Text} {item : Item} (other : name ≠ first) (there : used name = some item) :
    item.modified < 9 := by
  have there : listed name = some item := (Function.update_of_ne other _ listed).symm.trans there
  have empty : ∀ (name : Text) (item : Item), (none : Option Item) = some item → item.modified < 9 := by simp
  exact modified_stored (by decide) (modified_stored (by decide) (modified_stored (by decide)
    (modified_stored (by decide) (modified_stored (by decide) empty)))) name item there

theorem removed_first : ∃ t, (system trees).step pruning (.process 0 .next) t ∧ t.dir first = none :=
  ⟨⟨_, Function.update used first none⟩, rfl, Function.update_self first none used⟩

end Sample

theorem targetSymbolCache_exact_pruning : Sample.trees.cold 7 (Sample.target 0) = some (Sample.table 0) :=
  (targetSymbolCache_exact Sample.reachable).1 ⟨7, 2, Sample.target 0, true, some (Sample.table 0), .idle⟩
    (.tail _ (.head _)) (Sample.table 0) rfl

/-- A prune removes a table that has been used after it read its time: the last that was used of all. -/
theorem prune_removes_used : ∃ (trees : Trees) (s t : State) (i : Nat) (a : Action) (p : Process) (name : Text),
    (system trees).Reachable s ∧ (system trees).step s (.process i a) t ∧ s.processes[i]? = some p ∧
      (∃ tree, name = targetSymbolCacheName p.version tree) ∧ s.dir name ≠ none ∧ t.dir name = none ∧
      ¬ Outlived s p name := by
  obtain ⟨item, there, now⟩ := Sample.used_first
  obtain ⟨t, step, gone⟩ := Sample.removed_first
  refine ⟨Sample.trees, Sample.pruning, t, 0, .next, _, Sample.first, Sample.reachable, step, rfl, ⟨_, rfl⟩, ?_, gone, ?_⟩
  · exact fun gone => by cases there.symm.trans gone
  · rintro ⟨recent, -, length, all⟩
    obtain ⟨other, mem⟩ := List.exists_mem_of_length_pos (length ▸ (by decide : 0 < targetSymbolCacheKeep - 1))
    obtain ⟨apart, -, tree, first, found, -, there', there'', le⟩ := all other mem
    obtain rfl := Option.mem_unique there there'
    have older := Sample.modified_of_used apart there''
    omega

end OrbitGraph.Recommend
