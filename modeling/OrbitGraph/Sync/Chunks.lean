import OrbitGraph.Lib.Text
import Mathlib.Algebra.BigOperators.Group.List.Basic

/-!
The chunks of pass 1.

`plan_chunks` cuts the changed files into ranges of their positions, so that no range has too many files or too many
bytes. The files and bytes of the range it is in are carried from one file to the next.
-/

namespace OrbitGraph.Sync

open Lib

/-- Bounds on how much pass 1 extracts before writing it. -/
structure Pass1Limits where
  chunkFiles : Nat
  chunkBytes : UInt64

/-- `u64::MAX` -/
def u64Max : Nat := UInt64.size - 1

/-- `u64::saturating_add` -/
def saturatingAdd (a b : Nat) : Nat := min (a + b) u64Max

/-- The chunks that are closed, and where the one in work begins and its bytes. -/
structure ChunkPlan where
  chunks : List (Nat × Nat)
  start : Nat
  bytes : Nat

/-- One round of the loop of `plan_chunks`. -/
def ChunkPlan.next (limits : Pass1Limits) (plan : ChunkPlan) (index len : Nat) : ChunkPlan :=
  if plan.start < index ∧ (max limits.chunkFiles 1 ≤ index - plan.start ∨
      limits.chunkBytes.toNat < saturatingAdd plan.bytes len) then
    ⟨plan.chunks ++ [(plan.start, index)], index, saturatingAdd 0 len⟩
  else { plan with bytes := saturatingAdd plan.bytes len }

section Files

variable (metadata : Text → Option UInt64)

/-- The length of a file on disk; an unreadable file counts as empty. -/
def fileLen (relPath : Text) : Nat := (metadata relPath).elim 0 UInt64.toNat

/-- The loop of `plan_chunks`. -/
def planFrom (limits : Pass1Limits) : Nat → ChunkPlan → List Text → ChunkPlan
  | _, plan, [] => plan
  | index, plan, relPath :: rest => planFrom limits (index + 1) (plan.next limits index (fileLen metadata relPath)) rest

def planChunks (changed : List Text) (limits : Pass1Limits) : List (Nat × Nat) :=
  let plan := planFrom metadata limits 0 ⟨[], 0, 0⟩ changed
  if plan.start < changed.length then plan.chunks ++ [(plan.start, changed.length)] else plan.chunks

def filesIn (changed : List Text) (range : Nat × Nat) : List Text := (changed.take range.2).drop range.1

def totalLen (files : List Text) : Nat := (files.map (fileLen metadata)).sum

/-- At most so many files, and at most so many bytes unless it is one file that is larger. -/
structure WithinLimits (fileLimit : Nat) (byteLimit : Option Nat) (chunk : List Text) : Prop where
  files : chunk.length ≤ fileLimit
  bytes : ∀ most ∈ byteLimit, totalLen metadata chunk ≤ most ∨ ∃ file, chunk = [file] ∧ most < fileLen metadata file

/-- Ranges that are not empty, stand one behind the other, cover the files and keep to the limits. -/
structure Plans (fileLimit : Nat) (byteLimit : Option Nat) (changed : List Text) (chunks : List (Nat × Nat)) : Prop where
  inside : ∀ range ∈ chunks, range.1 < range.2 ∧ range.2 ≤ changed.length
  concat : chunks.flatMap (filesIn changed) = changed
  within : ∀ range ∈ chunks, WithinLimits metadata fileLimit byteLimit (filesIn changed range)

def Pass1Limits.fileLimit (limits : Pass1Limits) : Nat := max limits.chunkFiles 1

/-- No sum of bytes that stops at `u64::MAX` is above it. -/
def Pass1Limits.byteLimit (limits : Pass1Limits) : Option Nat :=
  if limits.chunkBytes.toNat = u64Max then none else some limits.chunkBytes.toNat

section Plan

variable {metadata} {limits : Pass1Limits} {seen chunk : List Text} {plan : ChunkPlan}

theorem filesIn_append {range : Nat × Nat} (inside : range.2 ≤ seen.length) (more : List Text) :
    filesIn (seen ++ more) range = filesIn seen range := by
  rw [filesIn, List.take_append_of_le_length inside, filesIn]

theorem filesIn_last (start : Nat) (changed : List Text) : filesIn changed (start, changed.length) = changed.drop start := by
  rw [filesIn, List.take_length]

theorem totalLen_concat (file : Text) : totalLen metadata (chunk ++ [file]) = totalLen metadata chunk + fileLen metadata file := by
  simp [totalLen]

theorem within_singleton (file : Text) : WithinLimits metadata limits.fileLimit limits.byteLimit [file] where
  files := le_max_right _ _
  bytes most _ := by
    rcases Nat.lt_or_ge most (fileLen metadata file) with above | below
    · exact .inr ⟨file, rfl, above⟩
    · exact .inl (by simpa [totalLen] using below)

theorem within_concat {file : Text} (room : chunk.length + 1 ≤ limits.fileLimit)
    (fits : min (totalLen metadata chunk + fileLen metadata file) u64Max ≤ limits.chunkBytes.toNat) :
    WithinLimits metadata limits.fileLimit limits.byteLimit (chunk ++ [file]) where
  files := by simpa using room
  bytes most limit := by
    have small := limits.chunkBytes.toNat_lt_size
    unfold Pass1Limits.byteLimit at limit
    split_ifs at limit with unlimited
    · cases limit
    · obtain rfl := Option.some.inj limit
      refine .inl ?_
      rw [totalLen_concat]
      unfold u64Max at fits unlimited
      omega

/-- What the loop keeps, for the files it has seen. -/
structure ChunkPlan.Covers (metadata : Text → Option UInt64) (limits : Pass1Limits) (seen : List Text) (plan : ChunkPlan) :
    Prop where
  inside : ∀ range ∈ plan.chunks, range.1 < range.2 ∧ range.2 ≤ plan.start
  concat : plan.chunks.flatMap (filesIn seen) = seen.take plan.start
  within : ∀ range ∈ plan.chunks, WithinLimits metadata limits.fileLimit limits.byteLimit (filesIn seen range)
  start_le : plan.start ≤ seen.length
  bytes : plan.bytes = min (totalLen metadata (seen.drop plan.start)) u64Max
  current : plan.start < seen.length → WithinLimits metadata limits.fileLimit limits.byteLimit (seen.drop plan.start)
  started : seen ≠ [] → plan.start < seen.length

namespace ChunkPlan.Covers

theorem initial : Covers metadata limits [] ⟨[], 0, 0⟩ where
  inside _ mem := by cases mem
  concat := rfl
  within _ mem := by cases mem
  start_le := le_refl 0
  bytes := rfl
  current := fun below => absurd below (Nat.lt_irrefl 0)
  started := fun some => absurd rfl some

theorem plans (covers : Covers metadata limits seen plan) (started : plan.start < seen.length) :
    Plans metadata limits.fileLimit limits.byteLimit seen (plan.chunks ++ [(plan.start, seen.length)]) where
  inside range mem := by
    rcases List.mem_append.mp mem with earlier | last
    · obtain ⟨order, below⟩ := covers.inside range earlier
      exact ⟨order, below.trans covers.start_le⟩
    · obtain rfl := List.mem_singleton.mp last
      exact ⟨started, le_refl _⟩
  concat := by
    rw [List.flatMap_append, covers.concat, List.flatMap_singleton, filesIn_last, List.take_append_drop]
  within range mem := by
    rcases List.mem_append.mp mem with earlier | last
    · exact covers.within range earlier
    · obtain rfl := List.mem_singleton.mp last
      rw [filesIn_last]
      exact covers.current started

/-- One round: the file begins a chunk or is put behind the others of the one in work. -/
theorem next (covers : Covers metadata limits seen plan) (file : Text) :
    Covers metadata limits (seen ++ [file]) (plan.next limits seen.length (fileLen metadata file)) := by
  have length : (seen ++ [file]).length = seen.length + 1 := List.length_append
  unfold ChunkPlan.next
  split_ifs with closes
  · have plans := covers.plans closes.1
    have kept : ∀ range ∈ plan.chunks ++ [(plan.start, seen.length)], filesIn (seen ++ [file]) range = filesIn seen range :=
      fun range mem => filesIn_append (plans.inside range mem).2 _
    have last : (seen ++ [file]).drop seen.length = [file] := List.drop_left
    exact {
      inside := plans.inside
      concat := (List.flatMap_congr kept).trans (plans.concat.trans List.take_left.symm)
      within := fun range mem => by rw [kept range mem]; exact plans.within range mem
      start_le := by rw [length]; exact Nat.le_succ _
      bytes := by rw [last]; simp [saturatingAdd, totalLen]
      current := fun _ => by rw [last]; exact within_singleton file
      started := fun _ => by rw [length]; exact Nat.lt_succ_self _ }
  · have kept : ∀ range ∈ plan.chunks, filesIn (seen ++ [file]) range = filesIn seen range :=
      fun range mem => filesIn_append ((covers.inside range mem).2.trans covers.start_le) _
    have last : (seen ++ [file]).drop plan.start = seen.drop plan.start ++ [file] :=
      List.drop_append_of_le_length covers.start_le
    exact {
      inside := covers.inside
      concat := by
        rw [List.take_append_of_le_length covers.start_le, ← covers.concat]
        exact List.flatMap_congr kept
      within := fun range mem => by rw [kept range mem]; exact covers.within range mem
      start_le := by rw [length]; exact covers.start_le.trans (Nat.le_succ _)
      bytes := by
        change saturatingAdd plan.bytes _ = min (totalLen metadata (List.drop plan.start _)) u64Max
        rw [last, totalLen_concat, saturatingAdd, covers.bytes]
        omega
      current := fun _ => by
        rw [last]
        rcases Nat.lt_or_ge plan.start seen.length with more | none
        · have room : seen.length - plan.start < limits.fileLimit := Nat.lt_of_not_le fun full => closes ⟨more, .inl full⟩
          have fits : saturatingAdd plan.bytes (fileLen metadata file) ≤ limits.chunkBytes.toNat :=
            Nat.le_of_not_lt fun above => closes ⟨more, .inr above⟩
          refine within_concat (by rw [List.length_drop]; exact room) ?_
          rw [saturatingAdd, covers.bytes] at fits
          omega
        · rw [List.drop_eq_nil_of_le none, List.nil_append]
          exact within_singleton file
      started := fun _ => by rw [length]; exact Nat.lt_succ_of_le covers.start_le }

theorem run (covers : Covers metadata limits seen plan) (rest : List Text) :
    Covers metadata limits (seen ++ rest) (planFrom metadata limits seen.length plan rest) := by
  induction rest generalizing seen plan with
  | nil => rwa [List.append_nil]
  | cons file rest ih =>
    have later := ih (covers.next file)
    rw [List.length_append, List.append_assoc] at later
    exact later

end ChunkPlan.Covers

end Plan

/-- The chunks are ranges that are not empty and cover the changed files in order. Each keeps to the limits, or is one
file above the byte limit, where a file limit of zero is one and a byte limit of `u64::MAX` is none. -/
theorem planChunks_plans (changed : List Text) (limits : Pass1Limits) :
    Plans metadata limits.fileLimit limits.byteLimit changed (planChunks metadata changed limits) := by
  have covers := (@ChunkPlan.Covers.initial metadata limits).run changed
  rw [List.nil_append] at covers
  unfold planChunks
  dsimp only
  split_ifs with started
  · exact covers.plans started
  · have whole : changed = [] := by
      by_contra some
      exact started (covers.started some)
    subst whole
    exact ⟨(fun _ mem => nomatch mem), rfl, (fun _ mem => nomatch mem)⟩

end Files

/-- A file limit of zero is not kept, and neither is a byte limit of `u64::MAX` by files of more bytes. -/
theorem limits_not_kept :
    ¬ Plans (fun _ => some 1) 0 (some 10) ["a.rs"] (planChunks (fun _ => some 1) ["a.rs"] ⟨0, 10⟩) ∧
      ¬ Plans (fun _ => some (.ofNat u64Max)) 2 (some u64Max) ["a.rs", "b.rs"]
        (planChunks (fun _ => some (.ofNat u64Max)) ["a.rs", "b.rs"] ⟨2, .ofNat u64Max⟩) := by
  constructor
  · intro plans
    exact absurd (plans.within (0, 1) (by decide)).files (by decide)
  · intro plans
    rcases (plans.within (0, 2) (by decide)).bytes u64Max rfl with small | ⟨file, single, -⟩
    · exact absurd small (by decide)
    · exact absurd (congrArg List.length single) (by simp [filesIn])

end OrbitGraph.Sync
