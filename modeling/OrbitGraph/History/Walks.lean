import OrbitGraph.History.System

/-!
The two bounded walks along first parents.

`pending_batch` walks until its batch is full and says where to resume;
`pending_commits` walks to the end and fails when its limit is passed. Both follow
one walk: the commits that are passed, and what ends it (the cursor, the root, or a
commit that cannot be read). Each answer is read off that walk. The answers differ
where the walk comes to the root: `pending_commits` tests its limit before it sees the
root, so that with exactly as many deliveries as the limit it reports the limit, and
with a cursor off a chain of so many or more it does not come to reject the cursor.
-/

namespace OrbitGraph.History

open Lib


section Batches

variable [GitObjects] (repo : Repository) (cursor : Option Oid)

/-- The commits of the batches from `start` on, each resumed where the last one
stopped, under one limit after the other; `none` when the limits run out first. -/
def batches : List HistoryLimit → Oid → Option (Except GraphError (List Oid))
  | [], _ => none
  | limit :: limits, start =>
    match pendingBatch repo cursor start limit with
    | .error e => some (.error e)
    | .ok batch =>
      match batch.resumeFrom with
      | none => some (.ok batch.commits)
      | some next => (batches limits next).map fun rest => rest.map (batch.commits ++ ·)

end Batches

/-- The error of `pending_batch` for a cursor that is not on the chain. -/
def cursorOffFrozenChain : GraphError :=
  .invalidData "validate history cursor"
    "stored cursor is not on the frozen landing-branch first-parent chain"

/-- The error of `pending_commits` for a cursor that is not on the chain. -/
def cursorOffChain : GraphError :=
  .invalidData "validate history cursor"
    ("stored cursor is not on the landing branch first-parent chain " ++
      "(history diverged or was rebound)").toList

/-- The error of `pending_commits` at its limit. -/
def limitExceeded (limit : HistoryLimit) : GraphError :=
  .invalidData "traverse first-parent history"
    ("history exceeds bounded traversal limit " ++ decimal limit.value ++
      "; increase --limit explicitly")

theorem cursorOffChain_ne_limitExceeded (limit : HistoryLimit) : cursorOffChain ≠ limitExceeded limit := by
  intro same
  have operations : "validate history cursor".toList = "traverse first-parent history".toList :=
    (GraphError.invalidData.inj same).1
  exact absurd operations (by decide)

/-! ### The walk -/

inductive WalkEnd where
  | cursor
  | root
  | unreadable (reason : Text)

/-- What is answered at the end of a walk that passed `commits`: `stale` at the root
when a cursor was looked for, an error of `operation` at a commit that cannot be read. -/
def WalkEnd.answer (ending : WalkEnd) (operation : Text) (stale : GraphError) (cursor : Option Oid)
    (commits : List Oid) : Except GraphError (List Oid) :=
  match ending with
  | .cursor => .ok commits
  | .root => if cursor.isSome then .error stale else .ok commits
  | .unreadable reason => .error (.git operation reason)

theorem WalkEnd.answer_append {ending : WalkEnd} {operation : Text} {stale : GraphError}
    {cursor : Option Oid} {done rest : List Oid} : (ending.answer operation stale cursor rest).map (done ++ ·) =
      ending.answer operation stale cursor (done ++ rest) := by
  cases ending with
  | cursor => rfl
  | root => cases cursor <;> rfl
  | unreadable reason => rfl

section Walk

variable [GitObjects]

/-- From `current`, which has been loaded, a walk passes `commits` until `ending` ends it. -/
inductive Walked (repo : Repository) (cursor : Option Oid) : Oid → List Oid → WalkEnd → Prop where
  | cursor {current : Oid} : cursor = some current → Walked repo cursor current [] .cursor
  | root {current : Oid} : cursor ≠ some current → firstParent current = none →
      Walked repo cursor current [] .root
  | unreadable {current parent : Oid} {reason : Text} : cursor ≠ some current →
      firstParent current = some parent → repo.commitError parent = some reason →
      Walked repo cursor current [] (.unreadable reason)
  | passed {current parent : Oid} {commits : List Oid} {ending : WalkEnd} : cursor ≠ some current →
      firstParent current = some parent → repo.commitError parent = none →
      Walked repo cursor parent commits ending → Walked repo cursor current (current :: commits) ending

variable {repo : Repository} {cursor : Option Oid} {start current : Oid} {rest commits : List Oid}
  {ending : WalkEnd} {limit : HistoryLimit} {operation : Text}

theorem findCommit_readable (readable : repo.commitError current = none) :
    repo.findCommit operation current = .ok (GitObjects.commit current) := by
  simp only [Repository.findCommit, readable]

theorem findCommit_unreadable {reason : Text} (unreadable : repo.commitError current = some reason) :
    repo.findCommit operation current = .error (.git operation reason) := by
  simp only [Repository.findCommit, unreadable]

namespace Walked

theorem exists_walked (repo : Repository) (cursor : Option Oid) (current : Oid) :
    ∃ commits ending, Walked repo cursor current commits ending := by
  generalize rank : GitObjects.height current = n
  induction n using Nat.strongRecOn generalizing current with
  | _ n ih =>
    by_cases found : cursor = some current
    · exact ⟨[], .cursor, .cursor found⟩
    · cases parents : firstParent current with
      | none => exact ⟨[], .root, .root found parents⟩
      | some parent =>
        cases readable : repo.commitError parent with
        | some reason => exact ⟨[], .unreadable reason, .unreadable found parents readable⟩
        | none =>
          have lower : GitObjects.height parent < n := rank ▸ firstParents.descends parents
          obtain ⟨commits, ending, walked⟩ := ih _ lower parent rfl
          exact ⟨current :: commits, ending, .passed found parents readable walked⟩

theorem prefix_nonRootCommits (walked : Walked repo cursor current commits ending) :
    commits <+: nonRootCommits current := by
  induction walked with
  | cursor | root | unreadable => exact List.nil_prefix
  | passed _ parents _ _ ih =>
    rw [nonRootCommits, Descent.trail_of_some (D := firstParents) parents]
    exact List.prefix_cons_inj _ |>.mpr ih

end Walked

/-! ### What the walks answer -/

variable {room : Nat}

theorem pendingBatchFrom_of_le (walked : Walked repo cursor current rest ending)
    (fits : rest.length ≤ room) :
    pendingBatchFrom repo cursor room current commits =
      (ending.answer "walk bounded first-parent history" cursorOffFrozenChain cursor
        (commits ++ rest)).map fun commits => { commits, complete := true, resumeFrom := none } := by
  induction walked generalizing commits room with
  | cursor found =>
    unfold pendingBatchFrom
    rw [if_pos found, List.append_nil]
    rfl
  | root unfound parents =>
    unfold pendingBatchFrom
    rw [if_neg unfound, parents, List.append_nil]
    cases cursor <;> rfl
  | unreadable unfound parents reason =>
    unfold pendingBatchFrom
    simp only [if_neg unfound, parents, findCommit_unreadable reason]
    rfl
  | @passed current parent later ending unfound parents readable _ ih =>
    obtain ⟨room, rfl⟩ : ∃ before, room = before + 1 := ⟨room - 1, by simp at fits; omega⟩
    have shorter : later.length ≤ room := by simpa using fits
    unfold pendingBatchFrom
    simp only [if_neg unfound, parents, findCommit_readable readable]
    rw [ih shorter, List.append_assoc, List.singleton_append]

theorem pendingBatchFrom_of_lt (walked : Walked repo cursor current rest ending) (commits : List Oid)
    (full : room < rest.length) :
    ∃ next, repo.commitError next = none ∧ Walked repo cursor next (rest.drop (room + 1)) ending ∧
      pendingBatchFrom repo cursor room current commits =
        .ok { commits := commits ++ rest.take (room + 1), complete := false, resumeFrom := some next } := by
  induction walked generalizing commits room with
  | cursor | root | unreadable => simp at full
  | @passed current parent later ending unfound parents readable walked ih =>
    unfold pendingBatchFrom
    simp only [if_neg unfound, parents, findCommit_readable readable]
    cases room with
    | zero => exact ⟨parent, readable, walked, rfl⟩
    | succ room =>
      obtain ⟨next, loaded, onward, answer⟩ :=
        ih (commits ++ [current]) (by simpa using full : room < later.length)
      refine ⟨next, loaded, onward, ?_⟩
      change pendingBatchFrom repo cursor room parent (commits ++ [current]) = _
      rw [answer, List.append_assoc, List.singleton_append]
      rfl

/-- The loop of a batch is its body: the early test of the cursor is the loop's own. -/
theorem pendingBatch_of_readable (readable : repo.commitError start = none) :
    pendingBatch repo cursor start limit = pendingBatchFrom repo cursor (limit.value - 1) start [] := by
  unfold pendingBatch
  by_cases found : cursor = some start
  · unfold pendingBatchFrom
    rw [if_pos found, if_pos found]
    rfl
  · rw [if_neg found, findCommit_readable readable]
    rfl

theorem batches_of_walked (walked : Walked repo cursor start rest ending) (limits : List HistoryLimit)
    (readable : repo.commitError start = none) :
    batches repo cursor limits start = some (ending.answer "walk bounded first-parent history"
        cursorOffFrozenChain cursor rest) ∨
      batches repo cursor limits start = none ∧ limits.length ≤ rest.length := by
  induction limits generalizing start rest with
  | nil => exact .inr ⟨rfl, Nat.zero_le _⟩
  | cons limit limits ih =>
    have positive := limit.positive
    unfold batches
    rw [pendingBatch_of_readable readable]
    by_cases full : limit.value - 1 < rest.length
    · obtain ⟨next, loaded, onward, answer⟩ := pendingBatchFrom_of_lt walked [] full
      rw [answer]
      rcases ih onward loaded with resumed | ⟨resumed, short⟩
      · left
        simp only [resumed, Option.map_some, WalkEnd.answer_append, List.nil_append, List.take_append_drop]
      · right
        simp only [resumed, Option.map_none, true_and, List.length_cons]
        rw [List.length_drop] at short
        omega
    · left
      rw [pendingBatchFrom_of_le walked (by omega), List.nil_append]
      cases ending.answer "walk bounded first-parent history" cursorOffFrozenChain cursor rest with
      | error e => rfl
      | ok all => rfl

/-- The whole walk can be answered within `room` more commits. -/
def WalkEnd.Within (ending : WalkEnd) (room : Nat) (rest : List Oid) : Prop :=
  rest.length < room ∨ rest.length = room ∧ ending = .cursor

/-- Within its limit, the loop of `pending_commits` answers what the end of the walk says. -/
theorem pendingCommitsFrom_of_within (walked : Walked repo cursor current rest ending)
    (within : ending.Within room rest) :
    pendingCommitsFrom repo limit cursor room current commits =
      ending.answer "walk first-parent history" cursorOffChain cursor (commits ++ rest) := by
  induction walked generalizing commits room with
  | cursor found =>
    unfold pendingCommitsFrom
    rw [if_pos found, List.append_nil]
    rfl
  | root unfound parents =>
    obtain ⟨room, rfl⟩ : ∃ before, room = before + 1 := by
      rcases within with short | ⟨-, ends⟩
      · exact ⟨room - 1, by simp at short; omega⟩
      · cases ends
    unfold pendingCommitsFrom
    simp only [if_neg unfound, parents, List.append_nil]
    cases cursor <;> rfl
  | unreadable unfound parents reason =>
    obtain ⟨room, rfl⟩ : ∃ before, room = before + 1 := by
      rcases within with short | ⟨-, ends⟩
      · exact ⟨room - 1, by simp at short; omega⟩
      · cases ends
    unfold pendingCommitsFrom
    simp only [if_neg unfound, parents, findCommit_unreadable reason]
    rfl
  | @passed current parent later ending unfound parents readable _ ih =>
    obtain ⟨room, rfl⟩ : ∃ before, room = before + 1 := by
      rcases within with short | ⟨exact, -⟩
      · exact ⟨room - 1, by simp at short; omega⟩
      · exact ⟨room - 1, by simp at exact; omega⟩
    have within : ending.Within room later := by
      simpa [WalkEnd.Within] using within
    unfold pendingCommitsFrom
    simp only [if_neg unfound, parents, findCommit_readable readable]
    rw [ih within, List.append_assoc, List.singleton_append]

theorem pendingCommitsFrom_of_not_within (walked : Walked repo cursor current rest ending)
    (beyond : ¬ ending.Within room rest) :
    pendingCommitsFrom repo limit cursor room current commits = .error (limitExceeded limit) := by
  induction walked generalizing commits room with
  | cursor found =>
    refine absurd ?_ beyond
    rcases Nat.eq_zero_or_pos room with rfl | positive
    · exact .inr ⟨rfl, rfl⟩
    · exact .inl positive
  | root unfound parents | unreadable unfound parents reason =>
    cases room with
    | zero =>
      unfold pendingCommitsFrom
      simp only [if_neg unfound]
      rfl
    | succ room => exact absurd (.inl (Nat.succ_pos room)) beyond
  | @passed current parent later ending unfound parents readable _ ih =>
    unfold pendingCommitsFrom
    cases room with
    | zero =>
      simp only [if_neg unfound]
      rfl
    | succ room =>
      have beyond : ¬ ending.Within room later := by
        simpa [WalkEnd.Within] using beyond
      simp only [if_neg unfound, parents, findCommit_readable readable]
      exact ih beyond

theorem pendingCommits_of_readable (readable : repo.commitError start = none) :
    pendingCommits repo start cursor limit =
      (pendingCommitsFrom repo limit cursor limit.value start []).map List.reverse := by
  unfold pendingCommits
  by_cases found : cursor = some start
  · unfold pendingCommitsFrom
    rw [if_pos found, if_pos found]
    rfl
  · rw [if_neg found, findCommit_readable readable]
    cases pendingCommitsFrom repo limit cursor limit.value start [] with
    | error e => rfl
    | ok pending => rfl

/-! ### The agreement -/

/-- `repo` can read every commit on the first-parent chain of `start`. -/
def Repository.ReadsChain (repo : Repository) (start : Oid) : Prop :=
  ∀ oid, FirstParentAncestor oid start → repo.commitError oid = none

/-- The two walks from `start` agree: the batches come to an end, and `pending_commits`
answers their commits in reverse, or its limit error exactly when they are more than
its limit. Where the batches fail it answers nothing, and it rejects a cursor exactly
when they do. -/
structure WalksAgree (repo : Repository) (cursor : Option Oid) (start : Oid) (limit : HistoryLimit) :
    Prop where
  completes : ∀ limits, (nonRootCommits start).length < limits.length →
    (batches repo cursor limits start).isSome
  returns : ∀ limits all, batches repo cursor limits start = some (.ok all) →
    all.length ≤ limit.value → pendingCommits repo start cursor limit = .ok all.reverse
  limited : ∀ limits all, batches repo cursor limits start = some (.ok all) →
    (pendingCommits repo start cursor limit = .error (limitExceeded limit) ↔ limit.value < all.length)
  refuses : ∀ limits e, batches repo cursor limits start = some (.error e) →
    ∃ e', pendingCommits repo start cursor limit = .error e'
  rejects : ∀ limits answer, batches repo cursor limits start = some answer →
    (answer = .error cursorOffFrozenChain ↔ pendingCommits repo start cursor limit = .error cursorOffChain)

/-- Agreement, where every sequence of batches that comes to an end has one answer. -/
theorem WalksAgree.of_answer {answer : Except GraphError (List Oid)}
    (resumed : ∀ limits, batches repo cursor limits start = some answer ∨
      batches repo cursor limits start = none ∧ limits.length ≤ (nonRootCommits start).length)
    (returns : ∀ all, answer = .ok all → all.length ≤ limit.value →
      pendingCommits repo start cursor limit = .ok all.reverse) (limited : ∀ all, answer = .ok all →
      (pendingCommits repo start cursor limit = .error (limitExceeded limit) ↔ limit.value < all.length))
    (refuses : ∀ e, answer = .error e → ∃ e', pendingCommits repo start cursor limit = .error e')
    (rejects : answer = .error cursorOffFrozenChain ↔
      pendingCommits repo start cursor limit = .error cursorOffChain) :
    WalksAgree repo cursor start limit := by
  have only : ∀ limits other, batches repo cursor limits start = some other → other = answer := by
    intro limits other ended
    rcases resumed limits with same | ⟨unended, -⟩
    · exact Option.mem_unique ended same
    · cases ended.symm.trans unended
  constructor
  · intro limits enough
    rcases resumed limits with same | ⟨-, short⟩
    · exact Option.isSome_of_mem same
    · omega
  · exact fun limits all ended => returns all (only limits _ ended).symm
  · exact fun limits all ended => limited all (only limits _ ended).symm
  · exact fun limits e ended => refuses e (only limits _ ended).symm
  · exact fun limits other ended => only limits other ended ▸ rejects

theorem walksAgree_of_start (found : cursor = some start) : WalksAgree repo cursor start limit := by
  have nothing : pendingCommits repo start cursor limit = .ok [] := by
    unfold pendingCommits
    rw [if_pos found]
    rfl
  have resumed : ∀ limits, batches repo cursor limits start = some (.ok []) ∨
      batches repo cursor limits start = none ∧ limits.length ≤ (nonRootCommits start).length := by
    intro limits
    cases limits with
    | nil => exact .inr ⟨rfl, Nat.zero_le _⟩
    | cons first limits =>
      left
      unfold batches pendingBatch
      rw [if_pos found]
      rfl
  apply WalksAgree.of_answer resumed
  · rintro all same -
    rw [nothing, ← Except.ok.inj same]
    rfl
  · intro all same
    rw [nothing, ← Except.ok.inj same]
    simp
  · intro e same
    cases same
  · constructor
    · intro same
      cases same
    · intro same
      cases nothing.symm.trans same

theorem walksAgree_of_unreadable {reason : Text} (unfound : cursor ≠ some start)
    (unreadable : repo.commitError start = some reason) : WalksAgree repo cursor start limit := by
  have fails : pendingCommits repo start cursor limit =
      .error (.git "load history branch tip" reason) := by
    unfold pendingCommits
    rw [if_neg unfound, findCommit_unreadable unreadable]
    rfl
  have resumed : ∀ limits, batches repo cursor limits start =
        some (.error (.git "load history batch frontier" reason)) ∨
      batches repo cursor limits start = none ∧ limits.length ≤ (nonRootCommits start).length := by
    intro limits
    cases limits with
    | nil => exact .inr ⟨rfl, Nat.zero_le _⟩
    | cons first limits =>
      left
      unfold batches pendingBatch
      rw [if_neg unfound, findCommit_unreadable unreadable]
      rfl
  apply WalksAgree.of_answer resumed
  · intro all same
    cases same
  · intro all same
    cases same
  · exact fun e _ => ⟨_, fails⟩
  · constructor
    · intro same
      cases same
    · intro same
      cases fails.symm.trans same

theorem pendingCommits_of_walked (limit : HistoryLimit) (walked : Walked repo cursor start rest ending)
    (readable : repo.commitError start = none) :
    (ending.Within limit.value rest → pendingCommits repo start cursor limit =
        (ending.answer "walk first-parent history" cursorOffChain cursor rest).map List.reverse) ∧
      (¬ ending.Within limit.value rest →
        pendingCommits repo start cursor limit = .error (limitExceeded limit)) := by
  rw [pendingCommits_of_readable readable]
  constructor
  · intro within
    rw [pendingCommitsFrom_of_within walked within, List.nil_append]
  · intro beyond
    rw [pendingCommitsFrom_of_not_within walked beyond]
    rfl

/-- Along a walk, the two walks agree unless the root is found exactly at the limit, or,
with a cursor, beyond it. -/
theorem walksAgree_of_walked (walked : Walked repo cursor start rest ending)
    (readable : repo.commitError start = none) (inexact : ending = .root → rest.length ≠ limit.value)
    (seen : ending = .root → cursor ≠ none → rest.length ≤ limit.value) : WalksAgree repo cursor start limit := by
  obtain ⟨within, beyond⟩ := pendingCommits_of_walked limit walked readable
  have resumed : ∀ limits, _ ∨ batches repo cursor limits start = none ∧
      limits.length ≤ (nonRootCommits start).length := fun limits =>
    (batches_of_walked walked limits readable).imp_right fun short =>
      ⟨short.1, short.2.trans walked.prefix_nonRootCommits.length_le⟩
  -- An answer that lists commits lists those of the walk, and is in reach of the limit.
  have listed : ∀ all, ending.answer "walk bounded first-parent history" cursorOffFrozenChain
      cursor rest = .ok all → all = rest ∧
        ending.answer "walk first-parent history" cursorOffChain cursor rest = .ok rest ∧
        (ending.Within limit.value rest ↔ rest.length ≤ limit.value) := by
    intro all same
    cases ending with
    | cursor =>
      refine ⟨(Except.ok.inj same).symm, rfl, ?_⟩
      simp only [WalkEnd.Within, and_true]
      omega
    | root =>
      cases cursor with
      | some c => cases same
      | none =>
        have differs := inexact rfl
        refine ⟨(Except.ok.inj same).symm, rfl, ?_⟩
        simp only [WalkEnd.Within, reduceCtorEq, and_false, or_false]
        omega
    | unreadable reason => cases same
  apply WalksAgree.of_answer resumed
  · intro all same fits
    obtain ⟨rfl, answer, reach⟩ := listed all same
    rw [within (reach.mpr fits), answer]
    rfl
  · intro all same
    obtain ⟨rfl, answer, reach⟩ := listed all same
    constructor
    · intro limited
      by_contra fits
      rw [within (reach.mpr (by omega)), answer] at limited
      cases limited
    · intro more
      exact beyond (by rw [reach]; omega)
  · intro e failed
    by_cases reach : ending.Within limit.value rest
    · rw [within reach]
      cases ending with
      | cursor => cases failed
      | root =>
        cases cursor with
        | some c => exact ⟨_, rfl⟩
        | none => cases failed
      | unreadable reason => exact ⟨_, rfl⟩
    · exact ⟨_, beyond reach⟩
  · by_cases reach : ending.Within limit.value rest
    · rw [within reach]
      cases ending with
      | cursor | unreadable => exact iff_of_false nofun nofun
      | root => cases cursor with
        | some c => exact iff_of_true rfl rfl
        | none => exact iff_of_false nofun nofun
    · rw [beyond reach]
      refine iff_of_false (fun rejected => ?_) fun same =>
        cursorOffChain_ne_limitExceeded limit (Except.error.inj same).symm
      cases ending with
      | cursor | unreadable => cases rejected
      | root => cases cursor with
        | some c =>
          have short := seen rfl (Option.some_ne_none c)
          exact reach (.inl (lt_of_le_of_ne short (inexact rfl)))
        | none => cases rejected

/-- The cursor, if there is one, is not on the first-parent chain of `start`. -/
def OffChain (cursor : Option Oid) (start : Oid) : Prop := ∀ c, cursor = some c → ¬ FirstParentAncestor c start

theorem OffChain.parent {parent : Oid} (off : OffChain cursor start) (parents : firstParent start = some parent) :
    OffChain cursor parent :=
  fun c same ⟨_, path⟩ => off c same ⟨_, .cons parents path⟩

namespace Walked

/-- A walk that ends at the root has passed all deliveries and read the whole chain,
without finding the cursor. -/
theorem reads_chain (walked : Walked repo cursor start commits .root) (readable : repo.commitError start = none) :
    commits = nonRootCommits start ∧ repo.ReadsChain start ∧ OffChain cursor start := by
  generalize ends : WalkEnd.root = ending at walked
  induction walked with
  | cursor | unreadable => cases ends
  | @root current unfound parents =>
    have only : ∀ oid, FirstParentAncestor oid current → oid = current := by
      rintro oid ⟨_, path⟩
      cases path with
      | nil => rfl
      | cons first _ => cases first.symm.trans parents
    refine ⟨(Descent.trail_of_none (D := firstParents) parents).symm, ?_, ?_⟩
    · intro oid chain
      rw [only oid chain]
      exact readable
    · rintro c rfl chain
      exact unfound (congrArg some (only c chain).symm).symm
  | @passed current parent _ _ unfound parents loaded _ ih =>
    obtain ⟨rfl, reads, off⟩ := ih loaded ends
    have onward : ∀ oid, FirstParentAncestor oid current → oid = current ∨ FirstParentAncestor oid parent := by
      rintro oid ⟨_, path⟩
      cases path with
      | nil => exact .inl rfl
      | cons first rest =>
        obtain rfl := Option.mem_unique first parents
        exact .inr ⟨_, rest⟩
    refine ⟨(Descent.trail_of_some (D := firstParents) parents).symm, ?_, ?_⟩
    · intro oid chain
      rcases onward oid chain with rfl | later
      · exact readable
      · exact reads oid later
    · rintro c rfl chain
      rcases onward c chain with rfl | later
      · exact unfound rfl
      · exact off c rfl later

theorem ends_root (walked : Walked repo cursor start commits ending) (reads : repo.ReadsChain start)
    (off : OffChain cursor start) : ending = .root := by
  induction walked with
  | cursor found => exact absurd ⟨_, .nil _⟩ (off _ found)
  | root => rfl
  | unreadable _ parents unreadable =>
    have loaded := reads _ ⟨_, .cons parents (.nil _)⟩
    cases loaded.symm.trans unreadable
  | passed _ parents _ _ ih =>
    exact ih (fun oid ⟨_, path⟩ => reads oid ⟨_, .cons parents path⟩) (off.parent parents)

end Walked

/-- The walks agree unless the whole chain can be read, the cursor is not on it, and it
has exactly as many deliveries as `pending_commits` allows, or, with a cursor, more. -/
theorem walksAgree_iff : WalksAgree repo cursor start limit ↔
    ¬ (repo.ReadsChain start ∧ OffChain cursor start ∧ limit.value ≤ (nonRootCommits start).length ∧
      (cursor = none → (nonRootCommits start).length = limit.value)) := by
  constructor
  · rintro agree ⟨reads, off, many, exact⟩
    have readable := reads start ⟨_, .nil start⟩
    obtain ⟨rest, ending, walked⟩ := Walked.exists_walked repo cursor start
    obtain rfl := walked.ends_root reads off
    obtain ⟨rfl, -⟩ := walked.reads_chain readable
    obtain ⟨-, beyond⟩ := pendingCommits_of_walked limit walked readable
    have limited := beyond (by simp only [WalkEnd.Within, reduceCtorEq, and_false, or_false]; omega)
    rcases batches_of_walked walked (List.replicate ((nonRootCommits start).length + 1) limit) readable with
      ended | ⟨-, short⟩
    · cases cursor with
      | none =>
        have more := (agree.limited _ _ ended).mp limited
        have same := exact rfl
        omega
      | some c =>
        have rejected := (agree.rejects _ _ ended).mp rfl
        exact cursorOffChain_ne_limitExceeded limit (Except.error.inj (rejected.symm.trans limited))
    · rw [List.length_replicate] at short
      omega
  · intro agreeable
    by_cases found : cursor = some start
    · exact walksAgree_of_start found
    · cases readable : repo.commitError start with
      | some reason => exact walksAgree_of_unreadable found readable
      | none =>
        obtain ⟨rest, ending, walked⟩ := Walked.exists_walked repo cursor start
        apply walksAgree_of_walked walked readable
        · rintro rfl exact
          obtain ⟨rfl, reads, off⟩ := walked.reads_chain readable
          exact agreeable ⟨reads, off, exact.ge, fun _ => exact⟩
        · rintro rfl given
          obtain ⟨rfl, reads, off⟩ := walked.reads_chain readable
          by_contra beyond
          exact agreeable ⟨reads, off, by omega, fun none => absurd none given⟩

end Walk

namespace Sample

local instance walkObjects : GitObjects := objects

def twoCommits : HistoryLimit := ⟨2, by decide⟩

theorem walks_differ_at_limit :
    batches (repository second) none [twoCommits, twoCommits] second = some (.ok [second, first]) ∧
      pendingCommits (repository second) second none twoCommits = .error (limitExceeded twoCommits) ∧
      ¬ WalksAgree (repository second) none second twoCommits := by
  have ended : batches (repository second) none [twoCommits, twoCommits] second =
      some (.ok [second, first]) := by decide
  have limited : pendingCommits (repository second) second none twoCommits =
      .error (limitExceeded twoCommits) := by decide
  refine ⟨ended, limited, fun agree => ?_⟩
  have more := (agree.limited _ _ ended).mp limited
  exact absurd more (by decide)

end Sample

end OrbitGraph.History
