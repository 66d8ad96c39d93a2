import OrbitGraph.Snapshot.Materialize

/-!
When a materialized snapshot is the tree.

The entries of a tree are parted in those that are written and those that an exclusion
covers. What is written of a file lands below the text of its directories' names, so it is
at the path of the tree only if those names are UTF-8.
-/

namespace OrbitGraph.Snapshot

open Lib Changes

/-! ### The leaves of a tree -/

/-- A leaf, with the names of the entries that lead to it. -/
structure Leaf where
  path : List (List UInt8)
  object : LeafObject

def Leaf.under (name : List UInt8) (leaf : Leaf) : Leaf := { leaf with path := name :: leaf.path }

def Leaf.content (leaf : Leaf) : List UInt8 :=
  match leaf.object with
  | .blob content => content
  | _ => []

/-- Why a leaf is not written, if it is not. -/
def leafExclusion (name : List UInt8) (filemode : Nat) (object : LeafObject) : Option ExclusionReason :=
  match nameExclusion name filemode with
  | some reason => some reason
  | none =>
    match object with
    | .blob content =>
      if DEFAULT_MAX_BLOB_BYTES < content.length then some (.oversizeBlob content.length)
      else if isUtf8 name then none else some .unsafeName
    | .commit => some .submodule
    | .other => some .unsupportedKind
    | .missing _ => none

namespace GitTree

def leaves : GitTree → List Leaf
  | nil => []
  | leaf name _ object rest => ⟨[name], object⟩ :: leaves rest
  | subtree name _ children rest => (leaves children).map (Leaf.under name) ++ leaves rest

/-- The leaves that neither they nor a tree above them exclude. -/
def written : GitTree → List Leaf
  | nil => []
  | leaf name filemode object rest =>
    (match leafExclusion name filemode object with
    | some _ => []
    | none => [⟨[name], object⟩]) ++ written rest
  | subtree name filemode children rest =>
    (match nameExclusion name filemode with
    | some _ => []
    | none => (written children).map (Leaf.under name)) ++ written rest

/-- The excluded entries, each with the leaves it covers: itself, or all that is below it. -/
def exclusions : GitTree → Text → List (ExcludedEntry × List Leaf)
  | nil, _ => []
  | leaf name filemode object rest, before =>
    (match leafExclusion name filemode object with
    | some reason => [(⟨entryPath before (fromUtf8Lossy name), reason⟩, [⟨[name], object⟩])]
    | none => []) ++ exclusions rest before
  | subtree name filemode children rest, before =>
    (match nameExclusion name filemode with
    | some reason =>
      [(⟨entryPath before (fromUtf8Lossy name), reason⟩, (leaves children).map (Leaf.under name))]
    | none =>
      (exclusions children (entryPath before (fromUtf8Lossy name))).map fun pair =>
        (pair.1, pair.2.map (Leaf.under name))) ++ exclusions rest before

end GitTree

theorem written_append_covered_perm (tree : GitTree) (before : Text) :
    (tree.written ++ (tree.exclusions before).flatMap Prod.snd).Perm tree.leaves := by
  induction tree generalizing before with
  | nil => exact .nil
  | leaf name filemode object rest ih =>
    rw [GitTree.written, GitTree.exclusions, GitTree.leaves]
    cases leafExclusion name filemode object with
    | none => exact (ih before).cons _
    | some reason =>
      rw [List.nil_append, List.singleton_append, List.flatMap_cons]
      exact List.perm_middle.trans ((ih before).cons _)
  | subtree name filemode children rest below ih =>
    rw [GitTree.written, GitTree.exclusions, GitTree.leaves]
    cases nameExclusion name filemode with
    | none =>
      have inner := (below (entryPath before (fromUtf8Lossy name))).map (Leaf.under name)
      rw [List.map_append, List.map_flatMap] at inner
      rw [List.flatMap_append, List.flatMap_map, List.append_assoc]
      refine List.Perm.trans ?_ (inner.append (ih before))
      rw [List.append_assoc]
      refine List.Perm.append_left _ ?_
      rw [← List.append_assoc, ← List.append_assoc]
      exact List.perm_append_comm.append_right _
    | some reason =>
      rw [List.nil_append, List.singleton_append, List.flatMap_cons]
      refine List.Perm.trans ?_ ((ih before).append_left _)
      rw [← List.append_assoc, ← List.append_assoc]
      exact List.perm_append_comm.append_right _

/-! ### Paths of exclusions -/

def textPath (names : List (List UInt8)) : Text := Text.join ['/'] (names.map fromUtf8Lossy)

theorem join_append_singleton (pieces : List Text) (piece : Text) (some : pieces ≠ []) :
    Text.join ['/'] (pieces ++ [piece]) = Text.join ['/'] pieces ++ ['/'] ++ piece := by
  induction pieces with
  | nil => exact absurd rfl some
  | cons first rest ih =>
    cases rest with
    | nil => simp [Text.join]
    | cons second rest =>
      have later := ih (List.cons_ne_nil _ _)
      simp only [List.cons_append, Text.join, List.append_assoc] at later ⊢
      rw [later]

theorem entryPath_textPath {front : List (List UInt8)} (name : List UInt8) (start : front = [] ∨ textPath front ≠ []) :
    entryPath (textPath front) (fromUtf8Lossy name) = textPath (front ++ [name]) := by
  unfold textPath at *
  rw [List.map_append, List.map_singleton]
  rcases start with rfl | some
  · rfl
  · have pieces : front.map fromUtf8Lossy ≠ [] := by
      intro none
      rw [none] at some
      exact some rfl
    rw [join_append_singleton _ _ pieces, entryPath, if_neg some]

theorem ne_nil_of_nameExclusion {name : List UInt8} {filemode : Nat} (safe : nameExclusion name filemode = none) :
    fromUtf8Lossy name ≠ [] := by
  intro empty
  unfold nameExclusion at safe
  rw [empty] at safe
  cases safe

theorem exclusions_covers (tree : GitTree) (front : List (List UInt8)) (start : front = [] ∨ textPath front ≠ []) :
    ∀ pair ∈ tree.exclusions (textPath front), ∃ names, pair.1.path = textPath (front ++ names) ∧
      ∀ leaf ∈ pair.2, names <+: leaf.path := by
  induction tree generalizing front with
  | nil => exact nofun
  | leaf name filemode object rest ih =>
    intro pair mem
    rw [GitTree.exclusions, List.mem_append] at mem
    rcases mem with here | later
    · cases excluded : leafExclusion name filemode object with
      | none =>
        rw [excluded] at here
        cases here
      | some reason =>
        rw [excluded] at here
        obtain rfl := List.mem_singleton.mp here
        refine ⟨[name], entryPath_textPath name start, fun leaf mem => ?_⟩
        rw [List.mem_singleton.mp mem]
    · exact ih front start pair later
  | subtree name filemode children rest below ih =>
    intro pair mem
    rw [GitTree.exclusions, List.mem_append] at mem
    rcases mem with here | later
    · cases excluded : nameExclusion name filemode with
      | some reason =>
        rw [excluded] at here
        obtain rfl := List.mem_singleton.mp here
        refine ⟨[name], entryPath_textPath name start, fun leaf mem => ?_⟩
        obtain ⟨inner, _, rfl⟩ := List.mem_map.mp mem
        exact ⟨inner.path, rfl⟩
      | none =>
        rw [excluded] at here
        obtain ⟨inner, mem, rfl⟩ := List.mem_map.mp here
        rw [entryPath_textPath name start] at mem
        have goesOn : front ++ [name] = [] ∨ textPath (front ++ [name]) ≠ [] := by
          refine .inr ?_
          rw [← entryPath_textPath name start, entryPath]
          split
          · exact ne_nil_of_nameExclusion excluded
          · simp
        obtain ⟨names, path, covers⟩ := below (front ++ [name]) goesOn inner mem
        refine ⟨name :: names, by rw [path, List.append_assoc, List.singleton_append], fun leaf mem => ?_⟩
        obtain ⟨own, isOwn, rfl⟩ := List.mem_map.mp mem
        exact List.cons_prefix_cons.mpr ⟨rfl, covers own isOwn⟩
    · exact ih front start pair later

/-! ### What a run does to the disk -/

def files (disk : Disk) : FsPath → Option (List UInt8) := fun path =>
  match disk path with
  | some (.file content) => some content
  | _ => none

theorem files_update_file (disk : Disk) (path : FsPath) (content : List UInt8) :
    files (Function.update disk path (some (.file content))) = Function.update (files disk) path (some content) := by
  funext p
  unfold files
  by_cases same : p = path
  · rw [same, Function.update_self, Function.update_self]
  · rw [Function.update_of_ne same, Function.update_of_ne same]

theorem files_createPrivateDirAll {faulty : FsPath → Bool} {disk disk' : Disk} {path : FsPath}
    (run : createPrivateDirAll faulty disk path = some disk') : files disk' = files disk := by
  induction path generalizing disk' with
  | nil => rw [Option.some.inj run]
  | cons name parent ih =>
    unfold createPrivateDirAll at run
    cases found : disk (name :: parent) with
    | some node =>
      rw [found] at run
      cases node with
      | directory => rw [Option.some.inj run]
      | file _ => cases run
    | none =>
      rw [found] at run
      cases parents : createPrivateDirAll faulty disk parent with
      | none =>
        rw [parents] at run
        cases run
      | some between =>
        rw [parents] at run
        dsimp only at run
        split at run
        · cases run
        · obtain rfl := Option.some.inj run
          have same := ih parents
          funext p
          by_cases here : p = name :: parent
          · have before : files disk (name :: parent) = none := by
              unfold files
              rw [found]
            rw [here, before]
            unfold files
            rw [Function.update_self]
          · rw [← same]
            unfold files
            rw [Function.update_of_ne here]

theorem writeInto_eq_ok {faulty : FsPath → Bool} {disk disk' : Disk} {path : FsPath} {content : List UInt8}
    (run : writeInto faulty disk path content = .ok disk') : disk' = Function.update disk path (some (.file content)) := by
  unfold writeInto at run
  split at run
  · exact (Except.ok.inj run).symm
  · cases run

theorem writeBlob_eq_ok {faulty : FsPath → Bool} {disk disk' : Disk} {path : FsPath} {content : List UInt8}
    (run : writeBlob faulty disk path content = .ok disk') : disk' = Function.update disk path (some (.file content)) := by
  unfold writeBlob writeNewPrivateFile at run
  by_cases exists' : (disk path).isSome = true
  · rw [if_pos exists'] at run
    dsimp only [atomicWrite] at run
    split at run
    · cases run
    · exact writeInto_eq_ok run
  · rw [if_neg exists'] at run
    cases written : writeInto faulty disk path content with
    | ok disk'' =>
      rw [written] at run
      obtain rfl := Except.ok.inj run
      exact writeInto_eq_ok written
    | error e =>
      rw [written] at run
      have other : e = .other := by
        unfold writeInto at written
        split at written
        · cases written
        · exact (Except.error.inj written).symm
      rw [other] at run
      cases run

/-- A report with one more exclusion. -/
def MaterializationReport.excluding (report : MaterializationReport) (entry : ExcludedEntry) : MaterializationReport :=
  { report with excluded := report.excluded ++ [entry] }

/-- A report with one more blob. -/
def MaterializationReport.counting (report : MaterializationReport) (content : List UInt8) : MaterializationReport :=
  { report with
    filesWritten := report.filesWritten + 1
    bytesWritten := min (report.bytesWritten + content.length) U64_MAX }

section Run

variable {faulty : FsPath → Bool} {s s' : Progress} {dest : FsPath} {before : Text}

/-- What becomes of a leaf. -/
inductive LeafOutcome (faulty : FsPath → Bool) (name : List UInt8) (filemode : Nat) (object : LeafObject) (dest : FsPath)
    (before : Text) (s : Progress) : Except SnapshotError Unit → Progress → Prop where
  | failed (e : SnapshotError) : LeafOutcome faulty name filemode object dest before s (.error e) s
  | excluded {reason : ExclusionReason} : leafExclusion name filemode object = some reason →
      LeafOutcome faulty name filemode object dest before s (.ok ())
        ⟨s.disk, s.report.excluding ⟨entryPath before (fromUtf8Lossy name), reason⟩⟩
  | written {content : List UInt8} : leafExclusion name filemode object = none → object = .blob content →
      LeafOutcome faulty name filemode object dest before s (.ok ())
        ⟨Function.update s.disk (component name :: dest) (some (.file content)), s.report.counting content⟩

variable {name : List UInt8}

variable {outcome : Except SnapshotError Unit} {object : LeafObject}

theorem materializeLeaf_outcome {filemode : Nat}
    (run : materializeLeaf faulty name filemode object dest before s = (outcome, s')) :
    LeafOutcome faulty name filemode object dest before s outcome s' := by
  unfold materializeLeaf at run
  cases named : nameExclusion name filemode with
  | some reason =>
    rw [named] at run
    obtain ⟨rfl, rfl⟩ := Prod.mk.inj run
    refine .excluded ?_
    unfold leafExclusion
    rw [named]
  | none =>
    rw [named] at run
    cases object with
    | commit | other =>
      obtain ⟨rfl, rfl⟩ := Prod.mk.inj run
      refine .excluded ?_
      unfold leafExclusion
      rw [named]
    | missing isTree =>
      obtain ⟨rfl, rfl⟩ := Prod.mk.inj run
      exact .failed _
    | blob content =>
      dsimp only [materializeBlob] at run
      by_cases large : DEFAULT_MAX_BLOB_BYTES < content.length
      · rw [if_pos large] at run
        obtain ⟨rfl, rfl⟩ := Prod.mk.inj run
        refine .excluded ?_
        unfold leafExclusion
        rw [named]
        exact if_pos large
      · rw [if_neg large] at run
        cases utf8 : isUtf8 name with
        | false =>
          simp only [entryName, utf8, Bool.false_eq_true, if_false] at run
          obtain ⟨rfl, rfl⟩ := Prod.mk.inj run
          refine .excluded ?_
          unfold leafExclusion
          rw [named]
          dsimp only
          rw [if_neg large, utf8]
          rfl
        | true =>
          simp only [entryName, utf8, if_true] at run
          cases write : writeBlob faulty s.disk (Utf8.encode (fromUtf8Lossy name) :: dest) content with
          | error e =>
            rw [write] at run
            obtain ⟨rfl, rfl⟩ := Prod.mk.inj run
            exact .failed _
          | ok disk =>
            rw [write] at run
            obtain ⟨rfl, rfl⟩ := Prod.mk.inj run
            rw [writeBlob_eq_ok write]
            refine .written ?_ rfl
            unfold leafExclusion
            rw [named]
            dsimp only
            rw [if_neg large, utf8]
            rfl

/-! ### Containment -/

/-- Strictly below a directory. -/
def Below (dest path : FsPath) : Prop := ∃ more, more ≠ [] ∧ path = more ++ dest

theorem below_child {path : FsPath} (below : Below (name :: dest) path) : Below dest path := by
  obtain ⟨more, _, rfl⟩ := below
  exact ⟨more ++ [name], by simp, by simp⟩

theorem below_self (name : List UInt8) : Below dest (name :: dest) := ⟨[name], List.cons_ne_nil _ _, rfl⟩

theorem not_below_dest : ¬ Below dest dest := by
  rintro ⟨more, some, same⟩
  exact some (List.self_eq_append_left.mp same)

theorem createPrivateDirAll_child {disk disk' : Disk} (there : disk dest = some .directory)
    (run : createPrivateDirAll faulty disk (name :: dest) = some disk') :
    disk' (name :: dest) = some .directory ∧ ∀ p, p ≠ name :: dest → disk' p = disk p := by
  have parents : createPrivateDirAll faulty disk dest = some disk := by
    cases dest with
    | nil => rfl
    | cons parent rest => simp [createPrivateDirAll, there]
  unfold createPrivateDirAll at run
  cases found : disk (name :: dest) with
  | some node =>
    rw [found] at run
    cases node with
    | directory =>
      obtain rfl := Option.some.inj run
      exact ⟨found, fun _ _ => rfl⟩
    | file _ => cases run
  | none =>
    rw [found, parents] at run
    dsimp only at run
    split at run
    · cases run
    · obtain rfl := Option.some.inj run
      exact ⟨Function.update_self .., fun p other => Function.update_of_ne other ..⟩

/-- However it ends, a run changes nothing outside of its destination. -/
theorem materializeTree_contained {tree : GitTree}
    (there : s.disk dest = some .directory) (run : materializeTree faulty tree dest before s = (outcome, s')) :
    ∀ p, ¬ Below dest p → s'.disk p = s.disk p := by
  induction tree generalizing dest before s s' outcome with
  | nil =>
    obtain ⟨_, rfl⟩ := Prod.mk.inj run
    exact fun _ _ => rfl
  | leaf name filemode object rest ih =>
    have entry : ∀ {outcome : Except SnapshotError Unit} {u : Progress},
        materializeLeaf faulty name filemode object dest before s = (outcome, u) →
          ∀ p, ¬ Below dest p → u.disk p = s.disk p := by
      intro outcome u first p outside
      cases materializeLeaf_outcome first with
      | failed _ => rfl
      | excluded _ => rfl
      | written _ _ =>
        refine Function.update_of_ne (fun same => outside ?_) ..
        rw [same]
        exact below_self _
    rcases Command.andThen_cases run with ⟨_, u, first, later⟩ | ⟨e, failed, _⟩
    · intro p outside
      rw [ih ((entry first dest not_below_dest).trans there) later p outside, entry first p outside]
    · exact entry failed
  | subtree name filemode children rest below ih =>
    unfold materializeTree at run
    cases named : nameExclusion name filemode with
    | some reason =>
      rw [named] at run
      rcases Command.andThen_cases run with ⟨_, u, first, later⟩ | ⟨e, failed, _⟩
      · have disk : u.disk = s.disk := by rw [← (Prod.mk.inj first).2]
        intro p outside
        rw [ih (by rw [disk]; exact there) later p outside, disk]
      · cases (Prod.mk.inj failed).1
    | none =>
      rw [named] at run
      have entry : ∀ {outcome : Except SnapshotError Unit} {u : Progress},
          Command.andThen (createChildDir faulty (component name :: dest))
            (fun _ => materializeTree faulty children (component name :: dest)
              (entryPath before (fromUtf8Lossy name))) s = (outcome, u) →
            ∀ p, ¬ Below dest p → u.disk p = s.disk p := by
        intro outcome u ran p outside
        have elsewhere : p ≠ component name :: dest := by
          rintro rfl
          exact outside (below_self _)
        rcases Command.andThen_cases ran with ⟨_, v, made, inside⟩ | ⟨e, failed, _⟩
        · unfold createChildDir at made
          cases created : createPrivateDirAll faulty s.disk (component name :: dest) with
          | none =>
            rw [created] at made
            cases (Prod.mk.inj made).1
          | some disk =>
            rw [created] at made
            obtain ⟨_, rfl⟩ := Prod.mk.inj made
            obtain ⟨child, others⟩ := createPrivateDirAll_child there created
            rw [below child inside p fun deeper => outside (below_child deeper)]
            exact others p elsewhere
        · unfold createChildDir at failed
          cases created : createPrivateDirAll faulty s.disk (component name :: dest) with
          | none =>
            rw [created] at failed
            obtain ⟨_, rfl⟩ := Prod.mk.inj failed
            rfl
          | some disk =>
            rw [created] at failed
            cases (Prod.mk.inj failed).1
      rcases Command.andThen_cases run with ⟨_, u, first, later⟩ | ⟨e, failed, _⟩
      · intro p outside
        rw [ih ((entry first dest not_below_dest).trans there) later p outside, entry first p outside]
      · exact entry failed

/-! ### What is written -/

/-- Where a leaf is written. -/
def target (dest : FsPath) (path : List (List UInt8)) : FsPath := (path.map component).reverse ++ dest

def ownPath (dest : FsPath) (path : List (List UInt8)) : FsPath := path.reverse ++ dest

def putLeaf (dest : FsPath) (files : FsPath → Option (List UInt8)) (leaf : Leaf) : FsPath → Option (List UInt8) :=
  Function.update files (target dest leaf.path) (some leaf.content)

/-- The report after the leaves and exclusions of a part of the tree. -/
def MaterializationReport.after (report : MaterializationReport) (written : List Leaf)
    (excluded : List (ExcludedEntry × List Leaf)) : MaterializationReport where
  filesWritten := report.filesWritten + written.length
  bytesWritten := min (report.bytesWritten + (written.map fun leaf => leaf.content.length).sum) U64_MAX
  excluded := report.excluded ++ excluded.map Prod.fst

theorem foldl_putLeaf_under (name : List UInt8) (leaves : List Leaf) (files : FsPath → Option (List UInt8)) :
    (leaves.map (Leaf.under name)).foldl (putLeaf dest) files = leaves.foldl (putLeaf (component name :: dest)) files := by
  rw [List.foldl_map]
  congr 1
  funext files leaf
  unfold putLeaf target
  simp only [Leaf.under, List.map_cons, List.reverse_cons, List.append_assoc, List.singleton_append]
  rfl

/-- What a run has done when it ends well. -/
structure Ran (tree : GitTree) (dest : FsPath) (before : Text) (s s' : Progress) : Prop where
  files : files s'.disk = tree.written.foldl (putLeaf dest) (files s.disk)
  report : s'.report = s.report.after tree.written (tree.exclusions before)
  blobs : ∀ leaf ∈ tree.written, ∃ content, leaf.object = .blob content

theorem after_after (report : MaterializationReport) (a b : List Leaf) (x y : List (ExcludedEntry × List Leaf)) :
    (report.after a x).after b y = report.after (a ++ b) (x ++ y) := by
  unfold MaterializationReport.after
  simp only [List.length_append, List.map_append, List.sum_append, List.append_assoc, MaterializationReport.mk.injEq,
    and_true]
  exact ⟨by omega, by omega⟩

theorem Ran.bounded {tree : GitTree} (ran : Ran tree dest before s s') : s'.report.bytesWritten ≤ U64_MAX := by
  rw [ran.report]
  exact Nat.min_le_right _ _

theorem after_nil (report : MaterializationReport) (bounded : report.bytesWritten ≤ U64_MAX) :
    report.after [] [] = report := by
  unfold MaterializationReport.after
  simp [bounded]

theorem Ran.append {first rest whole : GitTree} {u : Progress} (front : Ran first dest before s u)
    (back : Ran rest dest before u s') (written : whole.written = first.written ++ rest.written)
    (exclusions : whole.exclusions before = first.exclusions before ++ rest.exclusions before) :
    Ran whole dest before s s' where
  files := by rw [back.files, front.files, written, List.foldl_append]
  report := by rw [back.report, front.report, after_after, written, exclusions]
  blobs := by
    intro leaf mem
    rw [written, List.mem_append] at mem
    exact mem.elim (front.blobs leaf) (back.blobs leaf)

theorem materializeLeaf_ran {filemode : Nat} (bounded : s.report.bytesWritten ≤ U64_MAX)
    (run : materializeLeaf faulty name filemode object dest before s = (.ok (), s')) :
    Ran (.leaf name filemode object .nil) dest before s s' := by
  cases materializeLeaf_outcome run with
  | excluded excluded =>
    refine ⟨?_, ?_, fun leaf mem => ?_⟩
    · rw [GitTree.written, excluded]
      rfl
    · rw [GitTree.written, GitTree.exclusions, excluded]
      simp [MaterializationReport.after, MaterializationReport.excluding, GitTree.written, GitTree.exclusions, bounded]
    · rw [GitTree.written, excluded] at mem
      cases mem
  | written kept blob =>
    obtain rfl := blob
    refine ⟨?_, ?_, fun leaf mem => ?_⟩
    · rw [GitTree.written, kept]
      exact files_update_file _ _ _
    · rw [GitTree.written, GitTree.exclusions, kept]
      simp [MaterializationReport.after, MaterializationReport.counting, GitTree.written, GitTree.exclusions,
        Leaf.content]
    · rw [GitTree.written, kept] at mem
      obtain rfl := List.mem_singleton.mp mem
      exact ⟨_, rfl⟩

theorem materializeTree_ran {tree : GitTree} (bounded : s.report.bytesWritten ≤ U64_MAX)
    (run : materializeTree faulty tree dest before s = (.ok (), s')) : Ran tree dest before s s' := by
  induction tree generalizing dest before s s' with
  | nil =>
    obtain ⟨_, rfl⟩ := Prod.mk.inj run
    exact ⟨rfl, (after_nil _ bounded).symm, nofun⟩
  | leaf name filemode object rest ih =>
    obtain ⟨_, u, first, later⟩ := Command.of_andThen_ok run
    have front := materializeLeaf_ran bounded first
    refine front.append (ih front.bounded later) ?_ ?_
    · simp [GitTree.written]
    · simp [GitTree.exclusions]
  | subtree name filemode children rest below ih =>
    unfold materializeTree at run
    obtain ⟨_, u, first, later⟩ := Command.of_andThen_ok run
    have front : Ran (.subtree name filemode children .nil) dest before s u := by
      cases named : nameExclusion name filemode with
      | some reason =>
        rw [named] at first
        obtain ⟨_, rfl⟩ := Prod.mk.inj first
        refine ⟨?_, ?_, fun leaf mem => ?_⟩
        · rw [GitTree.written, named]
          rfl
        · rw [GitTree.written, GitTree.exclusions, named]
          simp [MaterializationReport.after, GitTree.written, GitTree.exclusions, bounded]
        · rw [GitTree.written, named] at mem
          cases mem
      | none =>
        rw [named] at first
        obtain ⟨_, v, made, inside⟩ := Command.of_andThen_ok first
        unfold createChildDir at made
        cases created : createPrivateDirAll faulty s.disk (component name :: dest) with
        | none =>
          rw [created] at made
          cases (Prod.mk.inj made).1
        | some disk =>
          rw [created] at made
          obtain ⟨_, rfl⟩ := Prod.mk.inj made
          have same : (⟨disk, s.report⟩ : Progress).report.bytesWritten ≤ U64_MAX := bounded
          have inner := below same inside
          refine ⟨?_, ?_, fun leaf mem => ?_⟩
          · rw [inner.files, GitTree.written, named]
            dsimp only
            rw [GitTree.written, List.append_nil, foldl_putLeaf_under, files_createPrivateDirAll created]
          · rw [inner.report, GitTree.written, GitTree.exclusions, named]
            simp [MaterializationReport.after, GitTree.written, GitTree.exclusions, Leaf.under, Leaf.content,
              Function.comp_def]
          · rw [GitTree.written, named] at mem
            dsimp only at mem
            rw [GitTree.written, List.append_nil] at mem
            obtain ⟨own, isOwn, rfl⟩ := List.mem_map.mp mem
            exact inner.blobs own isOwn
    refine front.append (ih front.bounded later) ?_ ?_
    · simp [GitTree.written]
    · simp [GitTree.exclusions]

end Run

/-! ### When the snapshot is the tree -/

variable {leaves : List Leaf}

theorem foldl_putLeaf_of_not_mem {dest path : FsPath} (files : FsPath → Option (List UInt8))
    (absent : path ∉ leaves.map fun leaf => target dest leaf.path) : leaves.foldl (putLeaf dest) files path = files path := by
  induction leaves generalizing files with
  | nil => rfl
  | cons leaf rest ih =>
    rw [List.map_cons, List.mem_cons, not_or] at absent
    rw [List.foldl_cons, ih _ absent.2, putLeaf, Function.update_of_ne absent.1]

theorem foldl_putLeaf_of_mem {dest : FsPath} (files : FsPath → Option (List UInt8))
    (apart : (leaves.map fun leaf => target dest leaf.path).Nodup) {leaf : Leaf} (mem : leaf ∈ leaves) :
    leaves.foldl (putLeaf dest) files (target dest leaf.path) = some leaf.content := by
  induction leaves generalizing files with
  | nil => cases mem
  | cons first rest ih =>
    rw [List.map_cons, List.nodup_cons] at apart
    rw [List.foldl_cons]
    rcases List.mem_cons.mp mem with rfl | mem
    · rw [foldl_putLeaf_of_not_mem _ apart.1, putLeaf, Function.update_self]
    · exact ih _ apart.2 mem

theorem target_eq_ownPath {dest : FsPath} {path : List (List UInt8)} (utf8 : ∀ name ∈ path, isUtf8 name = true) :
    target dest path = ownPath dest path := by
  unfold target ownPath
  rw [List.map_congr_left fun name mem => component_eq_iff.mpr (utf8 name mem), List.map_id']

theorem isUtf8_of_ownPath_eq_target {dest : FsPath} {path other : List (List UInt8)}
    (same : ownPath dest path = target dest other) : ∀ name ∈ path, isUtf8 name = true := by
  unfold target ownPath at same
  obtain rfl := List.reverse_injective (List.append_cancel_right same)
  intro name mem
  obtain ⟨original, _, rfl⟩ := List.mem_map.mp mem
  exact isUtf8_component original

theorem ownPath_injective {dest : FsPath} {a b : List (List UInt8)} (same : ownPath dest a = ownPath dest b) : a = b :=
  List.reverse_injective (List.append_cancel_right same)

theorem path_ne_nil_of_mem_leaves {tree : GitTree} {leaf : Leaf} (mem : leaf ∈ tree.leaves) : leaf.path ≠ [] := by
  induction tree with
  | nil => cases mem
  | leaf name filemode object rest ih =>
    rw [GitTree.leaves] at mem
    rcases List.mem_cons.mp mem with rfl | mem
    · exact List.cons_ne_nil _ _
    · exact ih mem
  | subtree name filemode children rest below ih =>
    rw [GitTree.leaves, List.mem_append] at mem
    rcases mem with inside | mem
    · obtain ⟨inner, _, rfl⟩ := List.mem_map.mp inside
      exact List.cons_ne_nil _ _
    · exact ih mem

/-- The destination is a directory with nothing in it. -/
def Fresh (disk : Disk) (dest : FsPath) : Prop := disk dest = some .directory ∧ ∀ p, Below dest p → disk p = none

def GitTree.writtenBytes (tree : GitTree) : Nat := (tree.written.map fun leaf => leaf.content.length).sum

/-- The snapshot is the tree, and the report is about it. -/
structure Faithful (tree : GitTree) (dest : FsPath) (disk disk' : Disk) (report : MaterializationReport) : Prop where
  contained : ∀ p, ¬ Below dest p → disk' p = disk p
  /-- Each leaf is written, or covered by one excluded entry: its own or one above it. -/
  parted : (tree.written ++ (tree.exclusions []).flatMap Prod.snd).Perm tree.leaves
  excluded : report.excluded = (tree.exclusions []).map Prod.fst
  covers : ∀ pair ∈ tree.exclusions [], ∃ names, pair.1.path = textPath names ∧ ∀ leaf ∈ pair.2, names <+: leaf.path
  /-- What is written has its own path and the bytes of its blob. -/
  files : ∀ leaf ∈ tree.written, ∃ content, leaf.object = .blob content ∧
    disk' (ownPath dest leaf.path) = some (.file content)
  apart : (tree.written.map fun leaf => target dest leaf.path).Nodup
  filesWritten : report.filesWritten = tree.written.length
  bytesWritten : report.bytesWritten = tree.writtenBytes

/-- What a tree must be like: the directories above what is written have UTF-8 names, no two
written entries have one path, and their bytes can be counted. -/
structure GitTree.Sound (tree : GitTree) : Prop where
  names : ∀ leaf ∈ tree.written, ∀ name ∈ leaf.path, isUtf8 name = true
  paths : (tree.written.map Leaf.path).Nodup
  bytes : tree.writtenBytes ≤ U64_MAX

theorem files_eq_some_iff {disk : Disk} {path : FsPath} {content : List UInt8} :
    files disk path = some content ↔ disk path = some (.file content) := by
  unfold files
  cases disk path with
  | none => simp
  | some node => cases node <;> simp

theorem faithful_iff_sound {tree : GitTree} {dest : FsPath} {disk disk' : Disk}
    {report : MaterializationReport} (fresh : Fresh disk dest) (contained : ∀ p, ¬ Below dest p → disk' p = disk p)
    (ran : Ran tree dest [] ⟨disk, ⟨0, 0, []⟩⟩ ⟨disk', report⟩) :
    Faithful tree dest disk disk' report ↔ tree.Sound := by
  have written : ∀ leaf ∈ tree.written, leaf.path ≠ [] := fun leaf mem =>
    path_ne_nil_of_mem_leaves ((written_append_covered_perm tree []).subset (List.mem_append_left _ mem))
  have count : report = MaterializationReport.after ⟨0, 0, []⟩ tree.written (tree.exclusions []) := ran.report
  constructor
  · intro faithful
    refine ⟨fun leaf mem name inPath => ?_, ?_, ?_⟩
    · obtain ⟨content, _, found⟩ := faithful.files leaf mem
      have below : Below dest (ownPath dest leaf.path) :=
        ⟨leaf.path.reverse, List.reverse_eq_nil_iff.not.mpr (written leaf mem), rfl⟩
      have nothing : files disk (ownPath dest leaf.path) = none := by
        unfold files
        rw [fresh.2 _ below]
      -- a file that was not there before is where some leaf was written
      have isTarget : ownPath dest leaf.path ∈ tree.written.map fun leaf => target dest leaf.path := by
        by_contra absent
        have unchanged := foldl_putLeaf_of_not_mem (files disk) absent
        rw [nothing] at unchanged
        have now : files disk' (ownPath dest leaf.path) = none := (congrFun ran.files _).trans unchanged
        rw [files_eq_some_iff.mpr found] at now
        cases now
      obtain ⟨other, _, same⟩ := List.mem_map.mp isTarget
      exact isUtf8_of_ownPath_eq_target same.symm name inPath
    · have apart : ((tree.written.map Leaf.path).map (target dest)).Nodup := by
        rw [List.map_map]
        exact faithful.apart
      exact apart.of_map _
    · have bytes := faithful.bytesWritten
      rw [count] at bytes
      simp only [MaterializationReport.after, Nat.zero_add] at bytes
      exact bytes ▸ Nat.min_le_right _ _
  · intro sound
    have own : ∀ leaf ∈ tree.written, target dest leaf.path = ownPath dest leaf.path := fun leaf mem =>
      target_eq_ownPath (sound.names leaf mem)
    have apart : (tree.written.map fun leaf => target dest leaf.path).Nodup := by
      have inOrder : ((tree.written.map Leaf.path).map (ownPath dest)).Nodup :=
        sound.paths.map fun a b => ownPath_injective
      rw [List.map_map] at inOrder
      rwa [List.map_congr_left own]
    refine ⟨contained, written_append_covered_perm tree [], ?_, ?_, fun leaf mem => ?_, apart, ?_, ?_⟩
    · rw [count]
      rfl
    · exact exclusions_covers tree [] (.inl rfl)
    · obtain ⟨content, blob⟩ := ran.blobs leaf mem
      refine ⟨content, blob, files_eq_some_iff.mp ?_⟩
      rw [← own leaf mem]
      refine (congrFun ran.files _).trans ((foldl_putLeaf_of_mem _ apart mem).trans ?_)
      rw [Leaf.content, blob]
    · rw [count]
      exact Nat.zero_add _
    · rw [count]
      simp only [MaterializationReport.after, Nat.zero_add]
      exact Nat.min_eq_left sound.bytes

/-- A materialization changes nothing outside of its destination, and one that answers gives a
faithful snapshot exactly of a sound tree. -/
theorem materializeCommit_faithful_iff {faulty : FsPath → Bool} {tree : GitTree} {dest : FsPath} {disk disk' : Disk}
    {outcome : Except SnapshotError MaterializationReport} (fresh : Fresh disk dest)
    (run : materializeCommit faulty tree dest disk = (outcome, disk')) :
    (∀ p, ¬ Below dest p → disk' p = disk p) ∧
      ∀ report, outcome = .ok report → (Faithful tree dest disk disk' report ↔ tree.Sound) := by
  unfold materializeCommit at run
  cases inner : materializeTree faulty tree dest [] ⟨disk, ⟨0, 0, []⟩⟩ with
  | mk answer s =>
    have contained := materializeTree_contained (s := ⟨disk, ⟨0, 0, []⟩⟩) fresh.1 inner
    rw [inner] at run
    cases answer with
    | error e =>
      obtain ⟨rfl, rfl⟩ := Prod.mk.inj run
      exact ⟨contained, fun report failed => by cases failed⟩
    | ok u =>
      obtain ⟨rfl, rfl⟩ := Prod.mk.inj run
      have ran := materializeTree_ran (s := ⟨disk, ⟨0, 0, []⟩⟩) (Nat.zero_le _) inner
      refine ⟨contained, fun report ok => ?_⟩
      obtain rfl := Except.ok.inj ok
      exact faithful_iff_sound fresh contained ran

namespace Sample

def emptyDest : Disk := fun path => if path = [[116]] then some .directory else none

theorem emptyDest_fresh : Fresh emptyDest [[116]] := by
  refine ⟨rfl, ?_⟩
  rintro p ⟨more, some, rfl⟩
  exact if_neg fun same => some (by simpa using same)

def bothLossy : GitTree :=
  .subtree [100, 0xFE] 0o40000 (.leaf [97] 0o100644 (.blob [1]) .nil)
    (.subtree [100, 0xFF] 0o40000 (.leaf [97] 0o100644 (.blob [2]) .nil) .nil)

/-- Both files are counted and nothing is excluded, but neither is at its path, and only one
is there. -/
theorem bothLossy_share_a_file :
    ((materializeCommit (fun _ => false) bothLossy [[116]] emptyDest).1.toOption.map fun report =>
        (report.filesWritten, report.bytesWritten, report.excluded)) = some (2, 2, []) ∧
      (materializeCommit (fun _ => false) bothLossy [[116]] emptyDest).2 [[97], [100, 0xFE], [116]] = none ∧
        (materializeCommit (fun _ => false) bothLossy [[116]] emptyDest).2 [[97], [100, 0xFF], [116]] = none ∧
          (materializeCommit (fun _ => false) bothLossy [[116]] emptyDest).2 [[97], [100, 0xEF, 0xBF, 0xBD], [116]] =
            some (.file [2]) := by
  refine ⟨?_, ?_, ?_, ?_⟩
  all_goals decide +kernel

def plain : GitTree :=
  .subtree [100] 0o40000 (.leaf [97] 0o100644 (.blob [1]) .nil) (.leaf [46, 46] 0o100644 (.blob [2]) .nil)

theorem plain_sound : plain.Sound := ⟨by decide +kernel, by decide +kernel, by decide +kernel⟩

theorem materializeCommit_faithful_plain : ∃ report,
    (materializeCommit (fun _ => false) plain [[116]] emptyDest).1 = .ok report ∧
      Faithful plain [[116]] emptyDest (materializeCommit (fun _ => false) plain [[116]] emptyDest).2 report := by
  have answers : (materializeCommit (fun _ => false) plain [[116]] emptyDest).1.toOption.isSome = true := by
    decide +kernel
  cases outcome : (materializeCommit (fun _ => false) plain [[116]] emptyDest).1 with
  | error _ =>
    rw [outcome] at answers
    cases answers
  | ok report =>
    have run : materializeCommit (fun _ => false) plain [[116]] emptyDest =
        (.ok report, (materializeCommit (fun _ => false) plain [[116]] emptyDest).2) := Prod.ext outcome rfl
    exact ⟨report, rfl, ((materializeCommit_faithful_iff emptyDest_fresh run).2 report rfl).mpr plain_sound⟩

end Sample

end OrbitGraph.Snapshot
