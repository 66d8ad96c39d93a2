import OrbitGraph.Cache.Verdicts

/-!
What a clean of a snapshot cache deletes and keeps.

The report is put together from the verdicts, the policy and the locks.
-/

namespace OrbitGraph.Cache.Retention

open Lib Changes

variable {env : Surroundings} {options : CleanOptions} {cache cache' : CacheDir}

def reportOf (env : Surroundings) (options : CleanOptions) (cache : CacheDir) (verdicts : List Verdict) : CleanReport where
  cacheDir := cache.dir
  wouldDelete := (retain env options (.of verdicts)).1.filterMap (deletedOf env.euid cache)
  kept := (retain env options (.of verdicts)).2 ++
    (retain env options (.of verdicts)).1.filterMap (sparedOf env.euid cache)
  applied := options.apply

theorem candidates_nodup {verdicts : List Verdict} (run : cache.entries.mapM (judge env cache) = .ok verdicts) :
    ((retain env options (.of verdicts)).1.map fun c => c.1.path).Nodup := by
  have all := (@retain_perm env options (.of verdicts)).nodup_iff.mpr (sorting_nodup run)
  exact (List.nodup_append.mp all).1

/-- A clean that answers: its report is that of the verdicts, a plan leaves the directory, and an
apply takes away what it reports. -/
theorem cleanEntries_spec {report : CleanReport} (run : cleanEntries env options cache = (.ok report, cache')) :
    ∃ verdicts, cache.entries.mapM (judge env cache) = .ok verdicts ∧
      report = (reportOf env options cache verdicts).sorted ∧ (options.apply = false → cache' = cache) ∧
        (options.apply = true →
          cache'.paths = cache.paths.filter (fun p => p ∉ report.wouldDelete.map CleanedEntry.path) ∧
            cleanEntries env { options with apply := false } cache =
              (.ok { report with applied := false }, cache)) := by
  unfold cleanEntries at run
  cases listed : cache.listing with
  | none =>
    rw [listed] at run
    cases (Prod.mk.inj run).1
  | some entries =>
    have same : cache.entries = entries := by
      unfold CacheDir.entries
      rw [listed]
      rfl
    rw [listed] at run
    dsimp only at run
    cases judged : entries.mapM (judge env cache) with
    | error _ =>
      rw [judged] at run
      cases (Prod.mk.inj run).1
    | ok verdicts =>
      rw [judged] at run
      dsimp only at run
      have verdictsRun : cache.entries.mapM (judge env cache) = .ok verdicts := by rw [same, judged]
      have distinct := @candidates_nodup env options cache verdicts verdictsRun
      cases settled : settle env (modeOf options) (retain env options (.of verdicts)).1
          ⟨cache.dir, [], (retain env options (.of verdicts)).2, options.apply⟩ cache with
      | mk outcome after =>
        rw [settled] at run
        cases outcome with
        | error _ => cases (Prod.mk.inj run).1
        | ok r =>
          obtain ⟨answer, rfl⟩ := Prod.mk.inj run
          obtain rfl := Except.ok.inj answer
          obtain ⟨rfl, plan, apply⟩ := settle_spec distinct settled
          refine ⟨verdicts, verdictsRun, rfl, fun off => ?_, fun on => ⟨?_, ?_⟩⟩
          · exact plan (by rw [modeOf, off]; rfl)
          · rw [apply (by rw [modeOf, on]; rfl)]
            apply List.filter_congr
            intro p _
            have perm := (List.perm_insertionSort byPath
              ((retain env options (.of verdicts)).1.filterMap (deletedOf env.euid cache))).map CleanedEntry.path
            simp only [CleanReport.sorted, List.nil_append, perm.mem_iff]
          · have mode : modeOf options = .apply := by rw [modeOf, on]; rfl
            rw [mode] at settled
            obtain ⟨r, planned⟩ := settle_plan
              ⟨cache.dir, [], (retain env options (.of verdicts)).2, false⟩ (answers_of_apply distinct settled)
            obtain ⟨rfl, -, -⟩ := settle_spec distinct planned
            unfold cleanEntries
            rw [listed]
            dsimp only
            rw [judged]
            dsimp only
            have off : modeOf { options with apply := false } = .plan := rfl
            rw [off]
            have retained : retain env { options with apply := false } (.of verdicts) =
                retain env options (.of verdicts) := rfl
            rw [retained, planned]
            rfl

def Keeps (report : CleanReport) (path : Path) (reason : CleanReason) (detail : Option Text) : Prop :=
  ∃ size, ⟨path, reason, size, detail⟩ ∈ report.kept

structure Exact (env : Surroundings) (options : CleanOptions) (cache : CacheDir) (report : CleanReport) : Prop where
  /-- Each entry is reported once, but for the marker and what vanished. -/
  once : ((report.wouldDelete ++ report.kept).map CleanedEntry.path).Perm
    ((cache.entries.filter fun e => Accounted e).map fun e => cache.join e.name)
  apart : ∀ p ∈ report.wouldDelete.map CleanedEntry.path, p ∉ report.kept.map CleanedEntry.path
  /-- A live entry is deleted exactly if nobody holds its lock and its age is known to be beyond a limit. -/
  live : ∀ e ∈ cache.entries, ∀ document, LiveCurrent env cache e document →
    (cache.join e.name ∈ report.wouldDelete.map CleanedEntry.path ↔
      lockVerdict env.euid e.inUse = .removed ∧ ∃ used, lastUse env cache e document = some used ∧
        (TooOld env options used ∨ OutsideKeep env options cache e used))
  newer : ∀ e ∈ cache.entries, ∀ document, Documented env cache e document →
    document.metadata.keyMatch env.ours e.text = .newer → Keeps report (cache.join e.name) .newerIdentity none
  otherCommit : ∀ e ∈ cache.entries, ∀ document, Documented env cache e document →
    document.metadata.keyMatch env.ours e.text = .otherCommit → Keeps report (cache.join e.name) .unrecognized none
  unverifiable : ∀ e ∈ cache.entries, ∀ document detail, Documented env cache e document →
    document.metadata.keyMatch env.ours e.text = .current → env.isLive e.text = .unknown detail →
      Keeps report (cache.join e.name) .unverifiable (some detail)
  unreadable : ∀ e ∈ cache.entries, PrivateEntry cache e →
    (∀ document, readMetadata env.euid (cache.join e.name) e ≠ .ok (some document)) →
      Keeps report (cache.join e.name) .unreadable none
  foreign : ∀ e ∈ cache.entries, IsEntry e → provenance cache.stat (cache.join e.name) e = .ok .foreign →
    Keeps report (cache.join e.name) .untrusted none
  unrecognized : ∀ e ∈ cache.entries, e.text ≠ CACHE_MARKER_FILE → ¬ IsEntry e →
    ¬ (Text.startsWith STAGING_PREFIX e.text = true ∧ e.isDir = true) →
      Keeps report (cache.join e.name) .unrecognized none

section Exact

variable {verdicts : List Verdict} (run : cache.entries.mapM (judge env cache) = .ok verdicts)

include run

theorem reportOf_perm : (((reportOf env options cache verdicts).wouldDelete ++
    (reportOf env options cache verdicts).kept).map CleanedEntry.path).Perm
      ((cache.entries.filter fun e => Accounted e).map fun e => cache.join e.name) := by
  rw [← verdicts_toPath run]
  refine List.Perm.trans ?_ (sorting_perm verdicts)
  have settled := settled_perm env.euid cache (retain env options (.of verdicts)).1
  have retained := @retain_perm env options (.of verdicts)
  simp only [reportOf, List.map_append]
  rw [List.perm_iff_count] at settled retained ⊢
  intro p
  have settled := settled p
  have retained := retained p
  simp only [List.count_append] at settled retained ⊢
  omega

variable {e : DirEntry} {document : EntryDocument}

theorem mem_wouldDelete_iff_of_live (listed : e ∈ cache.entries) (live : LiveCurrent env cache e document) :
    cache.join e.name ∈ (reportOf env options cache verdicts).wouldDelete.map CleanedEntry.path ↔
      lockVerdict env.euid e.inUse = .removed ∧ ∃ used, lastUse env cache e document = some used ∧
        (TooOld env options used ∨ OutsideKeep env options cache e used) := by
  obtain ⟨v, _, judged⟩ := exists_verdict run listed
  obtain ⟨size, sized, _⟩ := judge_of_live live judged
  have lock := @CacheDir.lockAt_of_mem cache .inUse e listed
  constructor
  · intro deleted
    obtain ⟨entry, isDeleted, path⟩ := List.mem_map.mp deleted
    obtain ⟨candidate, mem, free⟩ := List.mem_filterMap.mp isDeleted
    unfold deletedOf at free
    cases verdict : lockVerdict env.euid (cache.lockAt candidate.1.path candidate.2) with
    | busy | refused _ => simp [verdict] at free
    | removed =>
      simp only [verdict, Option.some.injEq] at free
      obtain rfl := free
      obtain ⟨size', used, _, age, ⟨old, rfl⟩ | ⟨_, outside, rfl⟩⟩ :=
        (mem_candidates_of_live run listed live path).mp mem
      · exact ⟨(congrArg (lockVerdict env.euid) lock).symm.trans verdict, used, age, .inl old⟩
      · exact ⟨(congrArg (lockVerdict env.euid) lock).symm.trans verdict, used, age, .inr outside⟩
  · rintro ⟨free, used, age, beyond⟩
    obtain ⟨candidate, mem, path, file⟩ : ∃ candidate ∈ (retain env options (.of verdicts)).1,
        candidate.1.path = cache.join e.name ∧ candidate.2 = .inUse := by
      by_cases old : TooOld env options used
      · exact ⟨(.new (cache.join e.name) .expired size, .inUse),
          (mem_candidates_of_live run listed live rfl).mpr ⟨size, used, sized, age, .inl ⟨old, rfl⟩⟩, rfl, rfl⟩
      · have outside := beyond.resolve_left old
        exact ⟨(.new (cache.join e.name) .evictedLru size, .inUse),
          (mem_candidates_of_live run listed live rfl).mpr ⟨size, used, sized, age, .inr ⟨old, outside, rfl⟩⟩, rfl, rfl⟩
    refine List.mem_map.mpr ⟨candidate.1, List.mem_filterMap.mpr ⟨candidate, mem, ?_⟩, path⟩
    have verdict : lockVerdict env.euid (cache.lockAt candidate.1.path candidate.2) = .removed := by
      rw [path, file, lock]
      exact free
    rw [deletedOf, verdict]

variable {reason : CleanReason} {detail : Option Text}

theorem keeps_of_judge {v : Verdict} (listed : e ∈ cache.entries) (judged : judge env cache e = .ok v) (size : Nat)
    (kept : v = .keep ⟨cache.join e.name, reason, size, detail⟩) :
    Keeps (reportOf env options cache verdicts) (cache.join e.name) reason detail := by
  obtain rfl := kept
  exact ⟨size, List.mem_append_left _ (mem_kept run listed judged)⟩

theorem keeps_of_documented
    (listed : e ∈ cache.entries) (documented : Documented env cache e document) (verdict : ∀ size,
      judgeKey env (cache.join e.name) size e document = .keep ⟨cache.join e.name, reason, size, detail⟩) :
    Keeps (reportOf env options cache verdicts) (cache.join e.name) reason detail := by
  obtain ⟨v, _, judged⟩ := exists_verdict run listed
  obtain ⟨size, _, same⟩ := judge_of_documented documented judged
  exact keeps_of_judge run listed judged size (same.trans (verdict size))

theorem reportOf_exact : Exact env options cache (reportOf env options cache verdicts) where
  once := reportOf_perm run
  apart := by
    have distinct := (@reportOf_perm env options cache verdicts run).nodup_iff.mpr
      (cache.paths_nodup.sublist (List.filter_sublist.map _))
    rw [List.map_append] at distinct
    exact List.disjoint_of_nodup_append distinct
  live e listed _ live := mem_wouldDelete_iff_of_live run listed live
  newer e listed document documented key := keeps_of_documented run listed documented fun _ => by
    unfold judgeKey
    rw [key]
    rfl
  otherCommit e listed document documented key := keeps_of_documented run listed documented fun _ => by
    unfold judgeKey
    rw [key]
    rfl
  unverifiable e listed document detail documented key unknown := keeps_of_documented run listed documented fun _ => by
    unfold judgeKey
    rw [key, unknown]
    rfl
  unreadable e listed own absent := by
    obtain ⟨v, _, judged⟩ := exists_verdict run listed
    obtain ⟨size, _, verdict⟩ := judge_of_private own judged
    refine keeps_of_judge run listed judged size (verdict.trans ?_)
    unfold judgePrivate
    cases read : readMetadata env.euid (cache.join e.name) e with
    | error _ => rfl
    | ok content =>
      cases content with
      | none => rfl
      | some document => exact absurd read (absent document)
  foreign e listed named foreign := by
    obtain ⟨v, _, judged⟩ := exists_verdict run listed
    obtain ⟨size, origin, _, found, verdict⟩ := judge_of_entry named judged
    obtain rfl := Except.ok.inj (found.symm.trans foreign)
    exact keeps_of_judge run listed judged size verdict
  unrecognized e listed marker other staging := by
    obtain ⟨v, _, judged⟩ := exists_verdict run listed
    rcases judge_of_not_entry other judged with ⟨is, _⟩ | ⟨_, size, sized, rfl | rfl⟩
    · exact absurd is marker
    · unfold judge at judged
      dsimp only at judged
      rw [if_neg marker, sized] at judged
      dsimp only at judged
      have notStaging : (Text.startsWith STAGING_PREFIX e.text && e.isDir) = false := by
        rw [← Bool.not_eq_true, Bool.and_eq_true]
        exact staging
      rw [notStaging] at judged
      have named : (!isCommitSha e.text || !e.isDir) = true := by
        rw [Bool.or_eq_true, Bool.not_eq_true', Bool.not_eq_true', ← Bool.not_eq_true, ← Bool.not_eq_true]
        exact not_and_or.mp other
      rw [named] at judged
      cases judged
    · exact keeps_of_judge run listed judged size rfl

end Exact

theorem Exact.sorted {report : CleanReport} (exact' : Exact env options cache report) :
    Exact env options cache report.sorted := by
  have deletes := List.perm_insertionSort byPath report.wouldDelete
  have keeps := List.perm_insertionSort byPath report.kept
  have mem : ∀ p, p ∈ report.sorted.wouldDelete.map CleanedEntry.path ↔ p ∈ report.wouldDelete.map CleanedEntry.path :=
    fun p => (deletes.map CleanedEntry.path).mem_iff
  have stays : ∀ p reason detail, Keeps report p reason detail → Keeps report.sorted p reason detail :=
    fun p reason detail kept => kept.imp fun size mem => keeps.mem_iff.mpr mem
  exact {
    once := ((deletes.append keeps).map _).trans exact'.once
    apart := fun p deleted kept =>
      exact'.apart p ((mem p).mp deleted) ((keeps.map CleanedEntry.path).mem_iff.mp kept)
    live := fun e listed document live => (mem _).trans (exact'.live e listed document live)
    newer := fun e listed document documented key => stays _ _ _ (exact'.newer e listed document documented key)
    otherCommit := fun e listed document documented key =>
      stays _ _ _ (exact'.otherCommit e listed document documented key)
    unverifiable := fun e listed document detail documented key unknown =>
      stays _ _ _ (exact'.unverifiable e listed document detail documented key unknown)
    unreadable := fun e listed own absent => stays _ _ _ (exact'.unreadable e listed own absent)
    foreign := fun e listed named foreign => stays _ _ _ (exact'.foreign e listed named foreign)
    unrecognized := fun e listed marker other staging =>
      stays _ _ _ (exact'.unrecognized e listed marker other staging) }

/-- The directory is there and has the marker. -/
def Marked (env : Surroundings) (cache : CacheDir) : Prop :=
  cache.located = .ok true ∧ isStateFile env.euid cache.marker = true

/-- The retention of a marked directory is exact; nothing in another is judged. A plan leaves the
directory as it is, and an apply that answers takes away what a plan lists. -/
theorem cleanWithOptions_exact {report : CleanReport}
    (run : cleanWithOptions env options cache = (.ok report, cache')) :
    (Marked env cache → Exact env options cache report) ∧
      (¬ Marked env cache → report.wouldDelete = [] ∧ ∀ entry ∈ report.kept, entry.path = cache.dir) ∧
        (options.apply = false → cache' = cache) ∧
          (options.apply = true →
            cache'.paths = cache.paths.filter (fun p => p ∉ report.wouldDelete.map CleanedEntry.path) ∧
              cleanWithOptions env { options with apply := false } cache =
                (.ok { report with applied := false }, cache)) := by
  unfold cleanWithOptions at run ⊢
  cases located : cache.located with
  | error _ =>
    rw [located] at run
    cases (Prod.mk.inj run).1
  | ok there =>
    rw [located] at run
    dsimp only at run ⊢
    cases there with
    | false =>
      obtain ⟨answer, rfl⟩ := Prod.mk.inj run
      obtain rfl := Except.ok.inj answer
      have unmarked : ¬ Marked env cache := fun marked => by cases located.symm.trans marked.1
      refine ⟨fun marked => absurd marked unmarked, fun _ => ⟨rfl, fun entry mem => ?_⟩, fun _ => rfl,
        fun _ => ⟨?_, rfl⟩⟩
      · exact absurd mem List.not_mem_nil
      · simp
    | true =>
      dsimp only at run ⊢
      by_cases marker : isStateFile env.euid cache.marker = true
      · rw [if_pos marker] at run
        obtain ⟨verdicts, judged, rfl, plan, apply⟩ := cleanEntries_spec run
        refine ⟨fun _ => (reportOf_exact judged).sorted, fun not => absurd ⟨located, marker⟩ not, plan, fun on => ?_⟩
        rw [if_pos marker]
        exact apply on
      · rw [if_neg marker] at run
        obtain ⟨answer, rfl⟩ := Prod.mk.inj run
        obtain rfl := Except.ok.inj answer
        refine ⟨fun marked => absurd marked.2 marker, fun _ => ⟨rfl, fun entry mem => ?_⟩, fun _ => rfl,
          fun _ => ⟨?_, by rw [if_neg marker]⟩⟩
        · rw [List.mem_singleton.mp mem]
          rfl
        · simp

namespace Sample

def user : Surroundings := ⟨⟨1, 5, 7⟩, 1000, fun _ => .live, 1000⟩

def entryOf (digit : UInt8) (mode extractorVersion : Nat) (inUse : StateFile LockState) : DirEntry where
  name := List.replicate 40 digit
  isDir := true
  size := some 10
  found := .directory ⟨1000, mode⟩
  entryJson := .file ⟨1000, 0o600⟩ true true
    (some ⟨⟨List.replicate 40 (Char.ofNat digit.toNat), ⟨1, extractorVersion, 7⟩⟩, some 900⟩)
  lastUsed := .missing true
  building := .missing true
  inUse := inUse
  removable := true

def cacheOf (marker : StateFile Unit) (a b : DirEntry) (apart : a.name ≠ b.name) : CacheDir where
  dir := [[], [99]]
  located := .ok true
  stat := ⟨1000, 0o700⟩
  marker := marker
  listing := some [a, b]
  distinct := by
    intro entries listed
    obtain rfl := Option.some.inj listed
    simpa using apart

def marker : StateFile Unit := .file ⟨1000, 0o600⟩ true true ()

def noLimits (apply : Bool) : CleanOptions := ⟨none, none, none, apply⟩

def pathsOf (outcome : Except CacheError CleanReport) : Option (List Path × List Path) :=
  outcome.toOption.map fun report =>
    (report.wouldDelete.map CleanedEntry.path, report.kept.map CleanedEntry.path)

def shared : CacheDir :=
  cacheOf marker (entryOf 97 0o755 5 (.missing true)) (entryOf 98 0o755 6 (.missing true)) (by decide)

def unmarked : CacheDir :=
  cacheOf (.missing true) (entryOf 97 0o700 5 (.missing true)) (entryOf 98 0o700 6 (.missing true)) (by decide)

def directoryLock : CacheDir :=
  cacheOf marker (entryOf 97 0o700 4 (.missing true)) (entryOf 98 0o700 4 (.directory true)) (by decide)

theorem shared_entries_removed :
    (pathsOf (cleanWithOptions user (noLimits true) shared).1 = some (shared.paths, []) ∧
      (cleanWithOptions user (noLimits true) shared).2.paths = [] ∧
        (shared.entries.map fun e => (readMetadata user.euid (shared.join e.name) e).toOption.bind fun document =>
          document.map fun d => d.metadata.keyMatch user.ours e.text) = [some .current, some .newer]) ∧
      (pathsOf (cleanWithOptions user (noLimits false) unmarked).1 = some ([], [unmarked.dir]) ∧
        unmarked.dir ∉ unmarked.paths) ∧
      (pathsOf (cleanWithOptions user (noLimits false) directoryLock).1 =
          some ([[[], [99], List.replicate 40 97]], [[[], [99], List.replicate 40 98]]) ∧
        pathsOf (cleanWithOptions user (noLimits true) directoryLock).1 = none) := by
  refine ⟨⟨?_, ?_, ?_⟩, ⟨?_, ?_⟩, ?_, ?_⟩
  all_goals decide +kernel

def pair : CacheDir :=
  cacheOf marker (entryOf 97 0o700 5 (.missing true)) (entryOf 98 0o700 5 (.missing true)) (by decide)

def bounded : CleanOptions := ⟨some ⟨3600, 0, by decide⟩, some 1, none, true⟩

theorem cleanWithOptions_exact_pair : ∃ report cache',
    cleanWithOptions user bounded pair = (.ok report, cache') ∧ Exact user bounded pair report := by
  have answers : (cleanWithOptions user bounded pair).1.toOption.isSome = true := by decide +kernel
  cases run : cleanWithOptions user bounded pair with
  | mk outcome cache' =>
    rw [run] at answers
    cases outcome with
    | error _ => cases answers
    | ok report => exact ⟨report, cache', rfl, (cleanWithOptions_exact run).1 ⟨rfl, by decide⟩⟩

end Sample

end OrbitGraph.Cache.Retention
