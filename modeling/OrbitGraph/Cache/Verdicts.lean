import OrbitGraph.Lib.Ranking
import OrbitGraph.Cache.Removal

/-!
The verdicts of a clean on the entries, and its retention policy.

Each verdict is about one entry. The policy takes the current entries of a known age: those
beyond the age limit first, then what is left beyond the most recently used.
-/

namespace OrbitGraph.Cache.Retention

open Lib Changes

variable {env : Surroundings} {options : CleanOptions} {cache : CacheDir} {path : Path}

/-! ### The policy -/

/-- A current entry of a known age beyond the limit. -/
def expiredOf (limit : Option Nat) (now : Nat) : Option Nat × CleanedEntry → Option Candidate
  | (none, _) => none
  | (some lastUsed, entry) =>
    if limit.any fun limit => limit < now - lastUsed then some ({ entry with reason := .expired }, .inUse) else none

/-- A current entry of a known age within the limit. -/
def remainsOf (limit : Option Nat) (now : Nat) : Option Nat × CleanedEntry → Option (Nat × CleanedEntry)
  | (none, _) => none
  | (some lastUsed, entry) => if limit.any fun limit => limit < now - lastUsed then none else some (lastUsed, entry)

def unknownOf : Option Nat × CleanedEntry → Option CleanedEntry
  | (none, entry) => some { entry with reason := .unknownAge }
  | (some _, _) => none

theorem ageStep_eq (limit : Option Nat) (now : Nat) (r : Retained) (pair : Option Nat × CleanedEntry) :
    ageStep limit now r pair =
      ⟨r.candidates ++ (expiredOf limit now pair).toList, r.retained ++ (remainsOf limit now pair).toList,
        r.kept ++ (unknownOf pair).toList⟩ := by
  obtain ⟨age, entry⟩ := pair
  cases age with
  | none => simp [ageStep, expiredOf, remainsOf, unknownOf]
  | some lastUsed =>
    simp only [ageStep, expiredOf, remainsOf, unknownOf]
    split <;> simp

theorem foldl_ageStep (limit : Option Nat) (now : Nat) (current : List (Option Nat × CleanedEntry)) (r : Retained) :
    current.foldl (ageStep limit now) r =
      ⟨r.candidates ++ current.filterMap (expiredOf limit now), r.retained ++ current.filterMap (remainsOf limit now),
        r.kept ++ current.filterMap unknownOf⟩ := by
  induction current generalizing r with
  | nil => simp
  | cons pair rest ih =>
    rw [List.foldl_cons, ih, ageStep_eq, filterMap_cons_toList, filterMap_cons_toList, filterMap_cons_toList]
    simp

theorem aged_perm (limit : Option Nat) (now : Nat) (current : List (Option Nat × CleanedEntry)) :
    ((current.filterMap (expiredOf limit now)).map (fun c => c.1.path) ++
      ((current.filterMap (remainsOf limit now)).map (fun pair => pair.2.path) ++
        (current.filterMap unknownOf).map CleanedEntry.path)).Perm (current.map fun pair => pair.2.path) := by
  rw [List.map_filterMap, List.map_filterMap, List.map_filterMap, ← List.filterMap_eq_map]
  have known := filterMap_append_perm (f := fun pair => (remainsOf limit now pair).map fun r => r.2.path)
    (g := fun pair => (unknownOf pair).map CleanedEntry.path)
    (h := fun pair => if (expiredOf limit now pair).isSome then none else some pair.2.path) ?_ current
  · refine (List.Perm.append_left _ known).trans (filterMap_append_perm (fun pair => ?_) current)
    obtain ⟨age, entry⟩ := pair
    cases age with
    | none => exact .refl _
    | some lastUsed =>
      simp only [expiredOf, Function.comp]
      split <;> exact .refl _
  · rintro ⟨age, entry⟩
    cases age with
    | none => exact .refl _
    | some lastUsed =>
      simp only [expiredOf, remainsOf, unknownOf]
      split <;> exact .refl _

/-- The entries beyond the `keep` most recently used. -/
def evicted (keep : Option Nat) (retained : List (Nat × CleanedEntry)) : List (Nat × CleanedEntry) :=
  match keep with
  | none => []
  | some keep => (retained.insertionSort recentFirst).drop keep

def stay (keep : Option Nat) (retained : List (Nat × CleanedEntry)) : List (Nat × CleanedEntry) :=
  match keep with
  | none => retained
  | some keep => (retained.insertionSort recentFirst).take keep

def toEvicted (pair : Nat × CleanedEntry) : Candidate := ({ pair.2 with reason := .evictedLru }, .inUse)

theorem evict_eq (keep : Option Nat) (r : Retained) :
    evict keep r = ⟨r.candidates ++ (evicted keep r.retained).map toEvicted, stay keep r.retained, r.kept⟩ := by
  cases keep with
  | none => simp [evict, evicted, stay]
  | some keep => rfl

theorem evicted_perm (keep : Option Nat) (retained : List (Nat × CleanedEntry)) :
    (evicted keep retained ++ stay keep retained).Perm retained := by
  cases keep with
  | none => exact .refl _
  | some keep =>
    refine List.perm_append_comm.trans ?_
    unfold evicted stay
    rw [List.take_append_drop]
    exact List.perm_insertionSort _ _

/-- The limit and the time that the policy goes by. -/
def CleanOptions.limit (options : CleanOptions) : Option Nat := options.olderThan.map Duration.secs

def CleanOptions.now (options : CleanOptions) (env : Surroundings) : Nat := options.nowSeconds.getD env.clock

variable {sorting : Sorting}

theorem retain_policy (policy : (options.olderThan.isSome || options.keep.isSome) = true) :
    retain env options sorting =
      (sorting.candidates ++ sorting.current.filterMap (expiredOf options.limit (options.now env)) ++
        (evicted options.keep (sorting.current.filterMap (remainsOf options.limit (options.now env)))).map toEvicted,
       sorting.kept ++ sorting.current.filterMap unknownOf ++
        (stay options.keep (sorting.current.filterMap (remainsOf options.limit (options.now env)))).map Prod.snd) := by
  unfold retain
  rw [if_pos policy]
  simp only [foldl_ageStep, evict_eq, List.nil_append, CleanOptions.limit, CleanOptions.now]

theorem retain_no_policy (policy : ¬ (options.olderThan.isSome || options.keep.isSome) = true) :
    retain env options sorting = (sorting.candidates, sorting.kept ++ sorting.current.map Prod.snd) := if_neg policy

theorem retain_candidates (sorting : Sorting) : (retain env options sorting).1 =
    sorting.candidates ++ sorting.current.filterMap (expiredOf options.limit (options.now env)) ++
      (evicted options.keep (sorting.current.filterMap (remainsOf options.limit (options.now env)))).map toEvicted := by
  by_cases policy : (options.olderThan.isSome || options.keep.isSome) = true
  · rw [retain_policy policy]
  · rw [retain_no_policy policy]
    rw [Bool.not_eq_true, Bool.or_eq_false_iff, Option.isSome_eq_false_iff, Option.isSome_eq_false_iff,
      Option.isNone_iff_eq_none, Option.isNone_iff_eq_none] at policy
    have unexpired : sorting.current.filterMap (expiredOf options.limit (options.now env)) = [] := by
      rw [List.filterMap_eq_nil_iff]
      rintro ⟨age, entry⟩ _
      unfold CleanOptions.limit
      rw [policy.1]
      cases age <;> rfl
    rw [unexpired, policy.2]
    simp [evicted]

theorem retain_perm (sorting : Sorting) :
    ((retain env options sorting).1.map (fun c => c.1.path) ++ (retain env options sorting).2.map CleanedEntry.path).Perm
      (sorting.candidates.map (fun c => c.1.path) ++
        (sorting.current.map (fun pair => pair.2.path) ++ sorting.kept.map CleanedEntry.path)) := by
  by_cases policy : (options.olderThan.isSome || options.keep.isSome) = true
  · rw [retain_policy policy]
    generalize options.limit = limit, options.now env = now
    have parts := aged_perm limit now sorting.current
    have split := (evicted_perm options.keep (sorting.current.filterMap (remainsOf limit now))).map fun pair => pair.2.path
    have evictedPaths : ∀ xs : List (Nat × CleanedEntry),
        (xs.map toEvicted).map (fun c => c.1.path) = xs.map fun pair => pair.2.path := fun xs => by
      rw [List.map_map]
      rfl
    have stayPaths : ∀ xs : List (Nat × CleanedEntry),
        (xs.map Prod.snd).map CleanedEntry.path = xs.map fun pair => pair.2.path := fun xs => by
      rw [List.map_map]
      rfl
    simp only [List.map_append, evictedPaths, stayPaths] at split ⊢
    rw [List.perm_iff_count] at parts split ⊢
    intro p
    have parts := parts p
    have split := split p
    simp only [List.count_append] at parts split ⊢
    omega
  · rw [retain_no_policy policy]
    simp only [List.map_append, List.map_map]
    exact List.Perm.append_left _ List.perm_append_comm

/-! ### Verdicts -/

def Verdict.toPath : Verdict → Option Path
  | .skip => none
  | .keep entry => some entry.path
  | .candidate entry _ => some entry.path
  | .current _ entry => some entry.path

theorem sorting_perm (verdicts : List Verdict) : ((Sorting.of verdicts).candidates.map (fun c => c.1.path) ++
      ((Sorting.of verdicts).current.map (fun pair => pair.2.path) ++
        (Sorting.of verdicts).kept.map CleanedEntry.path)).Perm (verdicts.filterMap Verdict.toPath) := by
  simp only [Sorting.of, List.map_filterMap]
  have later := filterMap_append_perm (f := fun v => (Verdict.toCurrent v).map fun pair => pair.2.path)
    (g := fun v => (Verdict.toKept v).map CleanedEntry.path)
    (h := fun v => if (Verdict.toCandidate v).isSome then none else v.toPath) ?_ verdicts
  · refine (List.Perm.append_left _ later).trans (filterMap_append_perm (fun v => ?_) verdicts)
    cases v <;> exact .refl _
  · intro v
    cases v <;> exact .refl _

/-- A directory with the name of a commit. -/
def IsEntry (e : DirEntry) : Prop := isCommitSha e.text = true ∧ e.isDir = true

instance : DecidablePred IsEntry := fun e => inferInstanceAs (Decidable (isCommitSha e.text = true ∧ e.isDir = true))

/-- An entry that was taken away after it was listed. -/
def Vanished (e : DirEntry) : Prop := IsEntry e ∧ e.found = .missing

instance : DecidablePred Vanished := fun e => inferInstanceAs (Decidable (IsEntry e ∧ e.found = .missing))

/-- What a report has to account for. -/
def Accounted (e : DirEntry) : Prop := e.text ≠ CACHE_MARKER_FILE ∧ ¬ Vanished e

instance : DecidablePred Accounted := fun e =>
  inferInstanceAs (Decidable (e.text ≠ CACHE_MARKER_FILE ∧ ¬ Vanished e))

theorem not_marker_of_isCommitSha {value : Text} (sha : isCommitSha value = true) : value ≠ CACHE_MARKER_FILE := by
  rintro rfl
  revert sha
  decide

theorem not_staging_of_isCommitSha {value : Text} (sha : isCommitSha value = true) :
    Text.startsWith STAGING_PREFIX value = false := by
  rw [← Bool.not_eq_true]
  intro starts
  obtain ⟨rest, found⟩ := Option.isSome_iff_exists.mp starts
  rw [Text.stripPrefix_eq_some] at found
  rw [isCommitSha, Bool.and_eq_true, List.all_eq_true] at sha
  have first : '.' ∈ STAGING_PREFIX := List.mem_cons_self
  have dot : isHexDigit '.' = true := sha.2 '.' (by rw [found]; exact List.mem_append_left rest first)
  revert dot
  decide

variable {v : Verdict}

theorem judge_of_not_entry {e : DirEntry} (other : ¬ IsEntry e) (run : judge env cache e = .ok v) :
    (e.text = CACHE_MARKER_FILE ∧ v = .skip) ∨ (e.text ≠ CACHE_MARKER_FILE ∧ ∃ size, e.size = some size ∧
      (v = .candidate (.new (cache.join e.name) .abandonedStaging size) .building ∨
        v = .keep (.new (cache.join e.name) .unrecognized size))) := by
  unfold judge at run
  dsimp only at run
  by_cases marker : e.text = CACHE_MARKER_FILE
  · rw [if_pos marker] at run
    exact .inl ⟨marker, (Except.ok.inj run).symm⟩
  · rw [if_neg marker] at run
    refine .inr ⟨marker, ?_⟩
    cases size : e.size with
    | none =>
      rw [size] at run
      cases run
    | some bytes =>
      rw [size] at run
      dsimp only at run
      split at run
      · exact ⟨bytes, rfl, .inl (Except.ok.inj run).symm⟩
      · split at run
        · exact ⟨bytes, rfl, .inr (Except.ok.inj run).symm⟩
        · next _ entry =>
          simp only [Bool.or_eq_true, Bool.not_eq_true', not_or, Bool.not_eq_false] at entry
          exact absurd entry other

theorem judge_of_entry {e : DirEntry} (entry : IsEntry e) (run : judge env cache e = .ok v) :
    ∃ size origin, e.size = some size ∧ provenance cache.stat (cache.join e.name) e = .ok origin ∧
      v = match origin with
        | .private' => judgePrivate env (cache.join e.name) size e
        | .missing => .skip
        | .loose => .candidate (.new (cache.join e.name) .untrusted size) .inUse
        | .foreign => .keep (.new (cache.join e.name) .untrusted size) := by
  unfold judge at run
  dsimp only at run
  rw [if_neg (not_marker_of_isCommitSha entry.1)] at run
  cases size : e.size with
  | none =>
    rw [size] at run
    cases run
  | some bytes =>
    rw [size] at run
    dsimp only at run
    rw [not_staging_of_isCommitSha entry.1, entry.1, entry.2] at run
    cases found : provenance cache.stat (cache.join e.name) e with
    | error _ =>
      rw [found] at run
      cases run
    | ok origin =>
      rw [found] at run
      refine ⟨bytes, origin, rfl, rfl, ?_⟩
      cases origin <;> exact (Except.ok.inj run).symm

theorem provenance_missing_iff {stat : Stat} {e : DirEntry} {origin : Provenance}
    (found : provenance stat path e = .ok origin) : origin = .missing ↔ e.found = .missing := by
  unfold provenance at found
  cases what : e.found with
  | missing | notDirectory =>
    rw [what] at found
    simp [(Except.ok.inj found).symm]
  | unreachable =>
    rw [what] at found
    cases found
  | directory own =>
    rw [what] at found
    dsimp only at found
    split at found
    · obtain ⟨key, _, found⟩ := bind_eq_ok.mp found
      rw [← Except.ok.inj found]
      split <;> simp
    · simp [(Except.ok.inj found).symm]

theorem toPath_judgePrivate (size : Nat) (e : DirEntry) : (judgePrivate env path size e).toPath = some path := by
  unfold judgePrivate
  split
  · unfold judgeKey
    split
    · rfl
    · rfl
    · rfl
    · split <;> rfl
  · rfl
  · rfl

theorem judge_toPath {e : DirEntry} (run : judge env cache e = .ok v) :
    v.toPath = if Accounted e then some (cache.join e.name) else none := by
  by_cases entry : IsEntry e
  · obtain ⟨size, origin, _, found, rfl⟩ := judge_of_entry entry run
    have missing := provenance_missing_iff found
    have marker := not_marker_of_isCommitSha entry.1
    cases origin with
    | missing => rw [if_neg fun accounted => accounted.2 ⟨entry, missing.mp rfl⟩]; rfl
    | private' =>
      rw [if_pos ⟨marker, fun gone => by cases missing.mpr gone.2⟩]
      exact toPath_judgePrivate size e
    | loose | foreign => rw [if_pos ⟨marker, fun gone => by cases missing.mpr gone.2⟩]; rfl
  · rcases judge_of_not_entry entry run with ⟨marker, rfl⟩ | ⟨marker, size, _, rfl | rfl⟩
    · rw [if_neg fun accounted => accounted.1 marker]
      rfl
    · rw [if_pos ⟨marker, fun gone => entry gone.1⟩]
      rfl
    · rw [if_pos ⟨marker, fun gone => entry gone.1⟩]
      rfl

theorem verdicts_toPath {entries : List DirEntry} {verdicts : List Verdict}
    (run : entries.mapM (judge env cache) = .ok verdicts) :
    verdicts.filterMap Verdict.toPath = (entries.filter fun e => Accounted e).map fun e => cache.join e.name := by
  rw [filterMap_of_mapM run, ← List.filterMap_eq_map, List.filterMap_filter]
  apply List.filterMap_congr
  intro e mem
  obtain ⟨v, _, judged⟩ := ok_of_mapM run mem
  rw [judged]
  refine (judge_toPath judged).trans ?_
  by_cases accounted : Accounted e <;> simp [accounted]

/-! ### Live entries -/

def PrivateEntry (cache : CacheDir) (e : DirEntry) : Prop :=
  IsEntry e ∧ provenance cache.stat (cache.join e.name) e = .ok .private'

/-- What `entry.json` holds, for an entry that is this user's private state. -/
structure Documented (env : Surroundings) (cache : CacheDir) (e : DirEntry) (document : EntryDocument) : Prop where
  isPrivate : PrivateEntry cache e
  read : readMetadata env.euid (cache.join e.name) e = .ok (some document)

/-- A private entry with the key of the binary, for a commit that the repository has. -/
structure LiveCurrent (env : Surroundings) (cache : CacheDir) (e : DirEntry) (document : EntryDocument) : Prop
    extends Documented env cache e document where
  current : document.metadata.keyMatch env.ours e.text = .current
  live : env.isLive e.text = .live

def lastUse (env : Surroundings) (cache : CacheDir) (e : DirEntry) (document : EntryDocument) : Option Nat :=
  (readLastUsed env.euid (cache.join e.name) e).or document.publishedAt

theorem judge_of_private {e : DirEntry} (own : PrivateEntry cache e) (run : judge env cache e = .ok v) :
    ∃ size, e.size = some size ∧ v = judgePrivate env (cache.join e.name) size e := by
  obtain ⟨size, origin, sized, found, rfl⟩ := judge_of_entry own.1 run
  obtain rfl := Except.ok.inj (found.symm.trans own.2)
  exact ⟨size, sized, rfl⟩

theorem judge_of_documented {e : DirEntry} {document : EntryDocument}
    (documented : Documented env cache e document) (run : judge env cache e = .ok v) :
    ∃ size, e.size = some size ∧ v = judgeKey env (cache.join e.name) size e document := by
  obtain ⟨size, sized, rfl⟩ := judge_of_private documented.isPrivate run
  refine ⟨size, sized, ?_⟩
  unfold judgePrivate
  rw [documented.read]

theorem judge_of_live {e : DirEntry} {document : EntryDocument}
    (live : LiveCurrent env cache e document) (run : judge env cache e = .ok v) : ∃ size, e.size = some size ∧
      v = .current (lastUse env cache e document) (.new (cache.join e.name) .current size) := by
  obtain ⟨size, sized, rfl⟩ := judge_of_documented live.toDocumented run
  refine ⟨size, sized, ?_⟩
  unfold judgeKey
  rw [live.current, live.live]
  rfl

/-- The verdict `current` is for live entries only. -/
theorem live_of_judge {e : DirEntry} {age : Option Nat} {entry : CleanedEntry}
    (run : judge env cache e = .ok (.current age entry)) : ∃ document, LiveCurrent env cache e document ∧
      age = lastUse env cache e document ∧ entry.path = cache.join e.name := by
  by_cases named : IsEntry e
  · obtain ⟨size, origin, _, found, same⟩ := judge_of_entry named run
    cases origin with
    | missing | loose | foreign => cases same
    | private' =>
      unfold judgePrivate at same
      cases read : readMetadata env.euid (cache.join e.name) e with
      | error _ =>
        rw [read] at same
        cases same
      | ok content =>
        rw [read] at same
        cases content with
        | none => cases same
        | some document =>
          dsimp only [judgeKey] at same
          cases key : document.metadata.keyMatch env.ours e.text with
          | older | newer | otherCommit => rw [key] at same; cases same
          | current =>
            rw [key] at same
            cases live : env.isLive e.text with
            | gone | unknown _ => rw [live] at same; cases same
            | live =>
              rw [live] at same
              cases same
              exact ⟨document, ⟨⟨⟨named, found⟩, read⟩, key, live⟩, rfl, rfl⟩
  · rcases judge_of_not_entry named run with ⟨_, same⟩ | ⟨_, size, _, same | same⟩ <;> cases same

/-- Beyond the age limit. -/
def TooOld (env : Surroundings) (options : CleanOptions) (lastUsed : Nat) : Prop :=
  ∃ limit, options.olderThan = some limit ∧ limit.asNanos < (options.now env - lastUsed) * 1000000000

theorem tooOld_iff {lastUsed : Nat} : TooOld env options lastUsed ↔
    (options.limit.any fun limit => limit < options.now env - lastUsed) = true := by
  unfold TooOld CleanOptions.limit
  cases options.olderThan with
  | none => simp
  | some limit =>
    have small := limit.nanos_lt
    simp only [Option.some.injEq, exists_eq_left', Option.map_some, Option.any_some, decide_eq_true_eq, Duration.asNanos]
    omega

/-- A live entry of a known age that the age limit leaves. -/
def Remaining (env : Surroundings) (options : CleanOptions) (cache : CacheDir) (e : DirEntry) (lastUsed : Nat) : Prop :=
  ∃ document, LiveCurrent env cache e document ∧ lastUse env cache e document = some lastUsed ∧
    ¬ TooOld env options lastUsed

/-- At least `keep` of the remaining entries were used more recently, or then and have a smaller
path. -/
def OutsideKeep (env : Surroundings) (options : CleanOptions) (cache : CacheDir) (e : DirEntry) (lastUsed : Nat) :
    Prop :=
  ∃ keep, options.keep = some keep ∧ ∃ others : List DirEntry, others.Sublist cache.entries ∧ others.length = keep ∧
    ∀ f ∈ others, ∃ used, Remaining env options cache f used ∧
      (lastUsed < used ∨ (used = lastUsed ∧ cache.join f.name < cache.join e.name))

/-! ### The most recently used -/

theorem recentFirst_total (a b : Nat × CleanedEntry) : recentFirst a b ∨ recentFirst b a := by
  unfold recentFirst
  rcases Nat.lt_trichotomy a.1 b.1 with less | same | more
  · exact .inr (.inl less)
  · rcases List.le_total a.2.path b.2.path with le | le
    · exact .inl (.inr ⟨same, le⟩)
    · exact .inr (.inr ⟨same.symm, le⟩)
  · exact .inl (.inl more)

theorem recentFirst_trans {a b c : Nat × CleanedEntry} (left : recentFirst a b) (right : recentFirst b c) :
    recentFirst a c := by
  unfold recentFirst at *
  rcases left with less | ⟨same, le⟩
  · rcases right with less' | ⟨same', le'⟩
    · exact .inl (by omega)
    · exact .inl (by omega)
  · rcases right with less' | ⟨same', le'⟩
    · exact .inl (by omega)
    · exact .inr ⟨same.trans same', List.le_trans le le'⟩

instance : Std.Total recentFirst := ⟨recentFirst_total⟩

instance : IsTrans (Nat × CleanedEntry) recentFirst := ⟨fun _ _ _ => recentFirst_trans⟩

theorem not_recentFirst_iff {a b : Nat × CleanedEntry} :
    ¬ recentFirst a b ↔ a.1 < b.1 ∨ (b.1 = a.1 ∧ b.2.path < a.2.path) := by
  unfold recentFirst
  rw [not_or, Nat.not_lt]
  constructor
  · rintro ⟨le, apart⟩
    rcases Nat.lt_or_eq_of_le le with less | same
    · exact .inl less
    · exact .inr ⟨same.symm, List.not_le.mp fun path => apart ⟨same, path⟩⟩
  · rintro (less | ⟨same, path⟩)
    · exact ⟨by omega, fun both => by omega⟩
    · exact ⟨by omega, fun both => List.not_le.mpr path both.2⟩

/-- What is beyond the most recently used is what so many entries come before. -/
theorem mem_evicted_iff {keep : Option Nat} {retained : List (Nat × CleanedEntry)} {x : Nat × CleanedEntry}
    (distinct : (retained.map fun pair => pair.2.path).Nodup) : x ∈ evicted keep retained ↔
      x ∈ retained ∧ ∃ k, keep = some k ∧ k ≤ retained.countP fun y => decide (¬ recentFirst x y) := by
  cases keep with
  | none => simp [evicted]
  | some k =>
    have perm := List.perm_insertionSort recentFirst retained
    have sortedDistinct : ((retained.insertionSort recentFirst).map fun pair => pair.2.path).Nodup :=
      (perm.map fun pair => pair.2.path).nodup_iff.mpr distinct
    have apart : (retained.insertionSort recentFirst).Pairwise fun a b => a.2.path ≠ b.2.path :=
      List.pairwise_map.mp sortedDistinct
    have strict : (retained.insertionSort recentFirst).Pairwise fun a b => ¬ recentFirst b a := by
      refine ((List.pairwise_insertionSort recentFirst retained).and apart).imp ?_
      rintro a b ⟨first, path⟩ back
      unfold recentFirst at first back
      rcases first with less | ⟨same, le⟩
      · rcases back with less' | ⟨same', _⟩ <;> omega
      · rcases back with less' | ⟨_, le'⟩
        · omega
        · exact path (List.le_antisymm le le')
    have asymm : ∀ a b : Nat × CleanedEntry, ¬ recentFirst b a → ¬ ¬ recentFirst a b := fun a b not both =>
      (recentFirst_total a b).elim both not
    simp only [evicted, Option.some.injEq, exists_eq_left']
    rw [mem_drop_iff asymm strict, perm.mem_iff, perm.countP_eq]

/-- What an entry is sorted by, if it is live, of a known age and within the age limit. -/
def remainingOf (env : Surroundings) (options : CleanOptions) (cache : CacheDir) (e : DirEntry) :
    Option (Nat × CleanedEntry) :=
  ((judge env cache e).toOption.bind Verdict.toCurrent).bind (remainsOf options.limit (options.now env))

theorem remainsOf_eq_some_iff {pair : Option Nat × CleanedEntry} {used : Nat} {entry : CleanedEntry} :
    remainsOf options.limit (options.now env) pair = some (used, entry) ↔
      pair = (some used, entry) ∧ ¬ TooOld env options used := by
  obtain ⟨age, own⟩ := pair
  cases age with
  | none => simp [remainsOf]
  | some lastUsed =>
    simp only [remainsOf, Option.ite_none_left_eq_some, ← tooOld_iff, Prod.mk.injEq, Option.some.injEq]
    constructor
    · rintro ⟨young, rfl, rfl⟩
      exact ⟨⟨rfl, rfl⟩, young⟩
    · rintro ⟨⟨rfl, rfl⟩, young⟩
      exact ⟨young, rfl, rfl⟩

theorem expiredOf_eq_some_iff {pair : Option Nat × CleanedEntry} {candidate : Candidate} :
    expiredOf options.limit (options.now env) pair = some candidate ↔ ∃ used, pair.1 = some used ∧
      TooOld env options used ∧ candidate = ({ pair.2 with reason := .expired }, .inUse) := by
  obtain ⟨age, own⟩ := pair
  cases age with
  | none => simp [expiredOf]
  | some lastUsed =>
    simp only [expiredOf, Option.ite_none_right_eq_some, ← tooOld_iff, Option.some.injEq, exists_eq_left']
    exact and_congr_right fun _ => eq_comm

theorem remainingOf_eq_some {e : DirEntry} {used : Nat} {entry : CleanedEntry}
    (found : remainingOf env options cache e = some (used, entry)) :
    Remaining env options cache e used ∧ entry.path = cache.join e.name := by
  obtain ⟨pair, current, remains⟩ := Option.bind_eq_some_iff.mp found
  obtain ⟨v, judged, isCurrent⟩ := Option.bind_eq_some_iff.mp current
  obtain ⟨rfl, young⟩ := remainsOf_eq_some_iff.mp remains
  cases v with
  | skip | keep _ | candidate _ _ => cases isCurrent
  | current age own =>
    cases isCurrent
    have run : judge env cache e = .ok (.current (some used) entry) := by
      cases judgement : judge env cache e with
      | error _ => rw [judgement] at judged; cases judged
      | ok v => rw [judgement] at judged; exact congrArg Except.ok (Option.some.inj judged)
    obtain ⟨document, live, age, path⟩ := live_of_judge run
    exact ⟨⟨document, live, age.symm, young⟩, path⟩

theorem remainingOf_of_remaining {e : DirEntry} {used : Nat} (judged : judge env cache e = .ok v)
    (remaining : Remaining env options cache e used) :
    ∃ entry, remainingOf env options cache e = some (used, entry) := by
  obtain ⟨document, live, age, young⟩ := remaining
  obtain ⟨size, _, rfl⟩ := judge_of_live live judged
  refine ⟨.new (cache.join e.name) .current size, ?_⟩
  unfold remainingOf
  rw [judged]
  exact remainsOf_eq_some_iff.mpr ⟨by rw [age], young⟩

section Verdicts

variable {verdicts : List Verdict} (run : cache.entries.mapM (judge env cache) = .ok verdicts)

include run

theorem sorting_nodup : ((Sorting.of verdicts).candidates.map (fun c => c.1.path) ++
    ((Sorting.of verdicts).current.map (fun pair => pair.2.path) ++
      (Sorting.of verdicts).kept.map CleanedEntry.path)).Nodup := by
  rw [(sorting_perm verdicts).nodup_iff, verdicts_toPath run]
  exact cache.paths_nodup.sublist (List.filter_sublist.map _)

theorem remaining_eq : (Sorting.of verdicts).current.filterMap (remainsOf options.limit (options.now env)) =
    cache.entries.filterMap (remainingOf env options cache) := by
  change (verdicts.filterMap Verdict.toCurrent).filterMap _ = _
  rw [filterMap_of_mapM run, List.filterMap_filterMap]
  rfl

variable {e : DirEntry}

theorem exists_verdict (mem : e ∈ cache.entries) : ∃ v ∈ verdicts, judge env cache e = .ok v :=
  ok_of_mapM run mem

theorem eq_of_verdict {v w : Verdict} (listed : e ∈ cache.entries) (judged : judge env cache e = .ok v)
    (mem : w ∈ verdicts) (same : w.toPath = some (cache.join e.name)) : w = v := by
  obtain ⟨f, other, judgedOther⟩ := (mem_of_mapM run).mp mem
  have path := judge_toPath judgedOther
  rw [same] at path
  split at path
  · obtain rfl := CacheDir.eq_of_join_eq listed other (Option.some.inj path)
    exact Except.ok.inj (judgedOther.symm.trans judged)
  · cases path

variable {entry : CleanedEntry}

theorem mem_evicted_iff_outsideKeep {used : Nat} (path : entry.path = cache.join e.name)
    (mem : (used, entry) ∈ (Sorting.of verdicts).current.filterMap (remainsOf options.limit (options.now env))) :
    (used, entry) ∈ evicted options.keep
        ((Sorting.of verdicts).current.filterMap (remainsOf options.limit (options.now env))) ↔
      OutsideKeep env options cache e used := by
  have current := (List.nodup_append.mp (List.nodup_append.mp (sorting_nodup run)).2.1).1
  rw [← (aged_perm options.limit (options.now env) (Sorting.of verdicts).current).nodup_iff] at current
  have distinct := (List.nodup_append.mp (List.nodup_append.mp current).2.1).1
  rw [mem_evicted_iff distinct, and_iff_right mem, remaining_eq run, List.countP_filterMap]
  unfold OutsideKeep
  refine exists_congr fun keep => and_congr_right fun _ => ?_
  rw [le_countP_iff]
  refine exists_congr fun others => and_congr_right fun part => and_congr_right fun _ => ?_
  refine forall₂_congr fun f other => ?_
  obtain ⟨v, _, judged⟩ := exists_verdict run (part.subset other)
  constructor
  · intro before
    cases found : remainingOf env options cache f with
    | none =>
      rw [found] at before
      cases before
    | some pair =>
      obtain ⟨used', entry'⟩ := pair
      rw [found] at before
      obtain ⟨remaining, path'⟩ := remainingOf_eq_some found
      have order := not_recentFirst_iff.mp (of_decide_eq_true before)
      rw [path, path'] at order
      exact ⟨used', remaining, order⟩
  · rintro ⟨used', remaining, order⟩
    obtain ⟨entry', found⟩ := remainingOf_of_remaining judged remaining
    have path' := (remainingOf_eq_some found).2
    rw [found]
    rw [← path, ← path'] at order
    exact decide_eq_true (not_recentFirst_iff.mpr order)

theorem mem_candidates_of_live {document : EntryDocument} (listed : e ∈ cache.entries)
    (live : LiveCurrent env cache e document) {candidate : Candidate} (path : candidate.1.path = cache.join e.name) :
    candidate ∈ (retain env options (.of verdicts)).1 ↔ ∃ size used, e.size = some size ∧
      lastUse env cache e document = some used ∧
        ((TooOld env options used ∧ candidate = (.new (cache.join e.name) .expired size, .inUse)) ∨
          (¬ TooOld env options used ∧ OutsideKeep env options cache e used ∧
            candidate = (.new (cache.join e.name) .evictedLru size, .inUse))) := by
  obtain ⟨v, mem, judged⟩ := exists_verdict run listed
  obtain ⟨size, sized, rfl⟩ := judge_of_live live judged
  -- the entry is in the list of the current ones, and no other verdict is about it
  have current : (lastUse env cache e document, CleanedEntry.new (cache.join e.name) .current size) ∈
      (Sorting.of verdicts).current := List.mem_filterMap.mpr ⟨_, mem, rfl⟩
  have only : ∀ pair ∈ (Sorting.of verdicts).current, pair.2.path = cache.join e.name →
      pair = (lastUse env cache e document, CleanedEntry.new (cache.join e.name) .current size) := by
    intro pair inCurrent same
    obtain ⟨w, other, found⟩ := List.mem_filterMap.mp inCurrent
    cases w with
    | skip | keep _ | candidate _ _ => cases found
    | current age entry =>
      cases found
      cases eq_of_verdict run listed judged other (congrArg some same)
      rfl
  have noCandidate : candidate ∉ (Sorting.of verdicts).candidates := by
    intro inCandidates
    obtain ⟨w, other, found⟩ := List.mem_filterMap.mp inCandidates
    cases w with
    | skip | keep _ | current _ _ => cases found
    | candidate entry lock =>
      cases found
      cases eq_of_verdict run listed judged other (congrArg some path)
  rw [retain_candidates, List.mem_append, List.mem_append, or_iff_right noCandidate]
  constructor
  · rintro (expired | evicts)
    · obtain ⟨pair, inCurrent, found⟩ := List.mem_filterMap.mp expired
      obtain ⟨used, age, old, rfl⟩ := expiredOf_eq_some_iff.mp found
      obtain rfl := only pair inCurrent path
      exact ⟨size, used, sized, age, .inl ⟨old, rfl⟩⟩
    · obtain ⟨⟨used, entry⟩, isEvicted, rfl⟩ := List.mem_map.mp evicts
      have remains := (evicted_perm options.keep _).subset (List.mem_append_left _ isEvicted)
      obtain ⟨pair, inCurrent, found⟩ := List.mem_filterMap.mp remains
      obtain ⟨rfl, young⟩ := remainsOf_eq_some_iff.mp found
      have same := only _ inCurrent path
      obtain ⟨age, rfl⟩ := Prod.mk.inj same
      have outside := (mem_evicted_iff_outsideKeep run rfl remains).mp isEvicted
      exact ⟨size, used, sized, age.symm, .inr ⟨young, outside, rfl⟩⟩
  · rintro ⟨size', used, sized', age, ⟨old, rfl⟩ | ⟨young, outside, rfl⟩⟩
    · obtain rfl := Option.mem_unique sized sized'
      exact .inl (List.mem_filterMap.mpr ⟨_, current, expiredOf_eq_some_iff.mpr ⟨used, age, old, rfl⟩⟩)
    · obtain rfl := Option.mem_unique sized sized'
      rw [age] at current
      have remains := List.mem_filterMap.mpr ⟨_, current, remainsOf_eq_some_iff.mpr ⟨rfl, young⟩⟩
      exact .inr (List.mem_map.mpr ⟨_, (mem_evicted_iff_outsideKeep run rfl remains).mpr outside, rfl⟩)

theorem mem_kept (listed : e ∈ cache.entries)
    (judged : judge env cache e = .ok (.keep entry)) : entry ∈ (retain env options (.of verdicts)).2 := by
  have kept : entry ∈ (Sorting.of verdicts).kept :=
    List.mem_filterMap.mpr ⟨_, (mem_of_mapM run).mpr ⟨e, listed, judged⟩, rfl⟩
  by_cases policy : (options.olderThan.isSome || options.keep.isSome) = true
  · rw [retain_policy policy]
    exact List.mem_append_left _ (List.mem_append_left _ kept)
  · rw [retain_no_policy policy]
    exact List.mem_append_left _ kept

end Verdicts

end OrbitGraph.Cache.Retention
