import Mathlib.Data.List.Nodup
import Mathlib.Data.List.Perm.Subperm
import OrbitGraph.Lib.Loop

/-!
Breadth-first search with a depth and a cap.

What the search looks for are keys; some of them have a seed, by which they are expanded
into hits. A key is entered when it is first hit, with its distance, until the cap is
reached and another key is left to enter. Whatever the order of the hits, the distances
are the shortest, and without the cap all keys within the depth are entered.
-/

namespace Lib

universe u v w x

/-- A neighbor: its key, what is kept of it, and the seed that it is expanded by. -/
structure Hit (κ : Type u) (α : Type v) (σ : Type w) where
  key : κ
  item : α
  seed : Option σ

/-- A key that is entered. -/
structure Touched (κ : Type u) (α : Type v) where
  key : κ
  distance : Nat
  item : α

structure BreadthState (κ : Type u) (α : Type v) (σ : Type w) where
  queue : List (σ × Nat)
  seen : List κ
  touched : List (Touched κ α)

section

variable {κ : Type u} {α : Type v} {σ : Type w} {ε : Type x} [DecidableEq κ] (cap depth : Nat)

def BreadthState.enter (nextDistance : Nat) (hit : Hit κ α σ) (s : BreadthState κ α σ) : BreadthState κ α σ where
  queue := s.queue ++ if nextDistance < depth then hit.seed.toList.map fun seed => (seed, nextDistance) else []
  seen := s.seen ++ [hit.key]
  touched := s.touched ++ [⟨hit.key, nextDistance, hit.item⟩]

/-- Enter the hits that are not seen; the second part of the answer says that the cap ended it. -/
def visitHits (nextDistance : Nat) : List (Hit κ α σ) → BreadthState κ α σ → BreadthState κ α σ × Bool
  | [], s => (s, false)
  | hit :: rest, s =>
    if hit.key ∈ s.seen then visitHits nextDistance rest s
    else if cap ≤ s.touched.length then (s, true)
    else visitHits nextDistance rest (s.enter depth nextDistance hit)

variable (next : σ → Except ε (List (Hit κ α σ)))

/-- Expand the first seed of the queue. -/
def breadthRound (s : BreadthState κ α σ) : BreadthState κ α σ ⊕ Except ε (BreadthState κ α σ × Bool) :=
  match s.queue with
  | [] => .inr (.ok (s, false))
  | (seed, distance) :: queue =>
    if depth ≤ distance then .inl { s with queue }
    else
      match next seed with
      | .error e => .inr (.error e)
      | .ok hits =>
        match visitHits cap depth (distance + 1) hits { s with queue } with
        | (s, true) => .inr (.ok (s, true))
        | (s, false) => .inl s

def BreadthState.start (origin : κ) (seed : σ) : BreadthState κ α σ := ⟨[(seed, 0)], [origin], []⟩

/-- The search from a key with a seed; a key is queued at most once, so there are not more rounds than this. -/
def breadthFirst (origin : κ) (seed : σ) : Option (Except ε (BreadthState κ α σ × Bool)) :=
  runLoop (breadthRound cap depth next) (cap + 2) (.start origin seed)

end

section

variable {κ : Type u} {α : Type v} {σ : Type w} {ε : Type x}

/-- So many steps lead from the origin to a key. -/
inductive Walk (step : κ → κ → Prop) (origin : κ) : Nat → κ → Prop where
  | nil : Walk step origin 0 origin
  | snoc {n : Nat} {k l : κ} : Walk step origin n k → step k l → Walk step origin (n + 1) l

theorem Walk.mono {step step' : κ → κ → Prop} {origin k : κ} {n : Nat} (weaker : ∀ k l, step k l → step' k l)
    (walk : Walk step origin n k) : Walk step' origin n k := by
  induction walk with
  | nil => exact .nil
  | snoc _ last ih => exact .snoc ih (weaker _ _ last)

structure Explores (next : σ → Except ε (List (Hit κ α σ))) (lookup : κ → Option σ) (step : κ → κ → Prop) : Prop where
  seed_eq : ∀ {k s hits}, lookup k = some s → next s = .ok hits → ∀ h ∈ hits, h.seed = lookup h.key
  step_iff : ∀ {k s hits}, lookup k = some s → next s = .ok hits → ∀ l, step k l ↔ ∃ h ∈ hits, h.key = l
  seeded : ∀ {k l}, step k l → ∃ s, lookup k = some s

def Reached (origin : κ) (s : BreadthState κ α σ) (k : κ) (n : Nat) : Prop :=
  (k = origin ∧ n = 0) ∨ ∃ t ∈ s.touched, t.key = k ∧ t.distance = n

variable {cap depth : Nat} {next : σ → Except ε (List (Hit κ α σ))} {lookup : κ → Option σ}
  {step : κ → κ → Prop} {origin : κ} {s s' : BreadthState κ α σ} {cut : Bool} {seed : σ} {distance : Nat}

/-- What is entered, whatever is still to expand. -/
structure Entered (step : κ → κ → Prop) (origin : κ) (cap depth : Nat) (s : BreadthState κ α σ) : Prop where
  seen_iff : ∀ k, k ∈ s.seen ↔ ∃ n, Reached origin s k n
  nodup : (origin :: s.touched.map Touched.key).Nodup
  walk : ∀ {k n}, Reached origin s k n → Walk step origin n k ∧ n ≤ depth
  shortest : ∀ {k n}, Reached origin s k n → ∀ m, Walk step origin m k → n ≤ m
  capped : s.touched.length ≤ cap

/-- The steps of a key lead to what is entered. -/
def Closed (step : κ → κ → Prop) (origin : κ) (s : BreadthState κ α σ) (k : κ) (n : Nat) : Prop :=
  ∀ l, step k l → ∃ m ≤ n + 1, Reached origin s l m

/-- Where the keys nearer than `q` are closed, everything at a distance up to `q` is entered. -/
theorem reached_of_walk (q depth : Nat) (closed : ∀ k n, Reached origin s k n → n < q → n < depth → Closed step origin s k n)
    {k : κ} {m : Nat} (walk : Walk step origin m k) (near : m ≤ q) (within : m ≤ depth) :
    ∃ n ≤ m, Reached origin s k n := by
  induction walk with
  | nil => exact ⟨0, le_rfl, .inl ⟨rfl, rfl⟩⟩
  | @snoc m j l _ last ih =>
    obtain ⟨n, bound, reached⟩ := ih (by omega) (by omega)
    obtain ⟨n', bound', reached'⟩ := closed j n reached (by omega) (by omega) l last
    exact ⟨n', by omega, reached'⟩

/-- Between two rounds. -/
structure Searching (lookup : κ → Option σ) (step : κ → κ → Prop) (origin : κ) (cap depth : Nat)
    (s : BreadthState κ α σ) : Prop extends Entered step origin cap depth s where
  queued : ∀ t n, (t, n) ∈ s.queue → ∃ k, lookup k = some t ∧ Reached origin s k n
  ordered : s.queue.Pairwise fun a b => a.2 ≤ b.2
  near : ∀ t m, (t, m) ∈ s.queue → ∀ k n, Reached origin s k n → n ≤ m + 1
  closed : ∀ k n, Reached origin s k n → n < depth → ∀ t, lookup k = some t →
    (t, n) ∈ s.queue ∨ Closed step origin s k n

/-- While a seed is expanded. -/
structure Visiting (lookup : κ → Option σ) (step : κ → κ → Prop) (origin : κ) (cap depth : Nat) (seed : σ) (distance : Nat)
    (s : BreadthState κ α σ) : Prop extends Entered step origin cap depth s where
  queued : ∀ t n, (t, n) ∈ s.queue → distance ≤ n ∧ ∃ k, lookup k = some t ∧ Reached origin s k n
  ordered : s.queue.Pairwise fun a b => a.2 ≤ b.2
  near : ∀ k n, Reached origin s k n → n ≤ distance + 1
  closed : ∀ k n, Reached origin s k n → n < depth → ∀ t, lookup k = some t →
    (t, n) ∈ s.queue ∨ (t = seed ∧ n = distance) ∨ Closed step origin s k n

variable {hit : Hit κ α σ}

theorem Reached.enter {nextDistance : Nat} {k : κ} {n : Nat} :
    Reached origin (s.enter depth nextDistance hit) k n ↔ Reached origin s k n ∨ (k = hit.key ∧ n = nextDistance) := by
  unfold Reached BreadthState.enter
  simp only [List.mem_append, List.mem_singleton, or_and_right, exists_or, exists_eq_left, or_assoc]
  refine or_congr_right (or_congr_right ?_)
  exact ⟨fun ⟨key, far⟩ => ⟨key.symm, far.symm⟩, fun ⟨key, far⟩ => ⟨key.symm, far.symm⟩⟩

/-- A key that is hit for the first time is entered with its shortest distance. -/
theorem Visiting.enter (visiting : Visiting lookup step origin cap depth seed distance s)
    (seeded : ∀ k l, step k l → ∃ t, lookup k = some t) (deep : distance < depth) (own : hit.seed = lookup hit.key)
    (walk : Walk step origin (distance + 1) hit.key) (fresh : hit.key ∉ s.seen) (room : s.touched.length < cap) :
    Visiting lookup step origin cap depth seed distance (s.enter depth (distance + 1) hit) := by
  have unreached : ∀ n, ¬ Reached origin s hit.key n := fun n reached => fresh ((visiting.seen_iff _).mpr ⟨n, reached⟩)
  have queue_mem : ∀ t n, (t, n) ∈ (s.enter depth (distance + 1) hit).queue →
      (t, n) ∈ s.queue ∨ (lookup hit.key = some t ∧ n = distance + 1) := by
    intro t n mem
    rcases List.mem_append.mp mem with before | new
    · exact .inl before
    · split_ifs at new
      · obtain ⟨u, inSeed, eq⟩ := List.mem_map.mp new
        obtain ⟨rfl, rfl⟩ := Prod.mk.inj eq
        exact .inr ⟨own ▸ Option.mem_toList.mp inSeed, rfl⟩
      · cases new
  have nearer : ∀ t n, (t, n) ∈ (s.enter depth (distance + 1) hit).queue → n ≤ distance + 1 := by
    intro t n mem
    rcases queue_mem t n mem with before | ⟨_, rfl⟩
    · obtain ⟨_, k, _, reached⟩ := visiting.queued t n before
      exact visiting.near k n reached
    · exact le_rfl
  constructor
  · constructor
    · intro k
      have seen : k ∈ (s.enter depth (distance + 1) hit).seen ↔ k ∈ s.seen ∨ k = hit.key := by
        unfold BreadthState.enter
        rw [List.mem_append, List.mem_singleton]
      simp only [seen, visiting.seen_iff, Reached.enter, exists_or, exists_and_left, exists_eq, and_true]
    · have keys : origin :: (s.enter depth (distance + 1) hit).touched.map Touched.key =
          (origin :: s.touched.map Touched.key) ++ [hit.key] := by
        unfold BreadthState.enter
        rw [List.map_append]
        rfl
      rw [keys]
      refine List.nodup_append.mpr ⟨visiting.nodup, List.nodup_singleton _, fun k left l right same => ?_⟩
      rw [List.mem_singleton.mp right] at same
      rcases List.mem_cons.mp left with start | mem
      · exact unreached 0 (.inl ⟨same ▸ start, rfl⟩)
      · obtain ⟨t, mem, key⟩ := List.mem_map.mp mem
        exact unreached t.distance (.inr ⟨t, mem, key.trans same, rfl⟩)
    · intro k n reached
      rcases Reached.enter.mp reached with before | ⟨rfl, rfl⟩
      · exact visiting.walk before
      · exact ⟨walk, deep⟩
    · intro k n reached m other
      rcases Reached.enter.mp reached with before | ⟨rfl, rfl⟩
      · exact visiting.shortest before m other
      · -- A shorter walk would have led here already, from keys that are all expanded.
        by_contra shorter
        obtain ⟨n, _, reached⟩ := reached_of_walk (s := s) distance depth (fun j n reached low below => by
          intro l last
          obtain ⟨t, found⟩ := seeded j l last
          rcases visiting.closed j n reached below t found with waits | ⟨_, same⟩ | closed
          · have := (visiting.queued t n waits).1
            omega
          · omega
          · exact closed l last) other (by omega) (by omega)
        exact unreached n reached
    · unfold BreadthState.enter
      rw [List.length_append, List.length_singleton]
      exact room
  · intro t n mem
    rcases queue_mem t n mem with before | ⟨found, rfl⟩
    · obtain ⟨bound, k, found, reached⟩ := visiting.queued t n before
      exact ⟨bound, k, found, Reached.enter.mpr (.inl reached)⟩
    · exact ⟨by omega, hit.key, found, Reached.enter.mpr (.inr ⟨rfl, rfl⟩)⟩
  · refine List.pairwise_append.mpr ⟨visiting.ordered, ?_, fun a left b right => ?_⟩
    · split_ifs
      · cases hit.seed with
        | none => exact .nil
        | some t => exact List.pairwise_singleton _ _
      · exact .nil
    · have last : b.2 = distance + 1 := by
        split_ifs at right
        · obtain ⟨t, _, rfl⟩ := List.mem_map.mp right
          rfl
        · cases right
      rw [last]
      exact nearer a.1 a.2 (List.mem_append_left _ left)
  · intro k n reached
    rcases Reached.enter.mp reached with before | ⟨rfl, rfl⟩
    · exact visiting.near k n before
    · exact le_rfl
  · intro k n reached below t found
    rcases Reached.enter.mp reached with before | ⟨rfl, rfl⟩
    · rcases visiting.closed k n before below t found with waits | busy | closed
      · exact .inl (List.mem_append_left _ waits)
      · exact .inr (.inl busy)
      · refine .inr (.inr fun l last => ?_)
        obtain ⟨m, bound, reached⟩ := closed l last
        exact ⟨m, bound, Reached.enter.mpr (.inl reached)⟩
    · refine .inl (List.mem_append_right _ ?_)
      rw [if_pos below, own, found]
      exact List.mem_singleton_self _

theorem searching_start (found : lookup origin = some seed) :
    Searching (α := α) lookup step origin cap depth (.start origin seed) := by
  have only : ∀ {k n}, Reached (α := α) (σ := σ) origin (.start origin seed) k n ↔ k = origin ∧ n = 0 := by
    intro k n
    simp [Reached, BreadthState.start]
  refine ⟨⟨fun k => ?_, ?_, ?_, ?_, Nat.zero_le _⟩, fun t n mem => ?_, List.pairwise_singleton _ _, fun t m mem k n reached => ?_,
    fun k n reached below t own => ?_⟩
  · simp only [only]
    simp [BreadthState.start]
  · exact List.nodup_singleton _
  · intro k n reached
    obtain ⟨rfl, rfl⟩ := only.mp reached
    exact ⟨.nil, Nat.zero_le _⟩
  · intro k n reached m _
    rw [(only.mp reached).2]
    exact Nat.zero_le _
  · obtain ⟨rfl, rfl⟩ := Prod.mk.inj (List.mem_singleton.mp mem)
    exact ⟨origin, found, only.mpr ⟨rfl, rfl⟩⟩
  · rw [(only.mp reached).2]
    exact Nat.zero_le _
  · obtain ⟨rfl, rfl⟩ := only.mp reached
    obtain rfl := Option.mem_unique found own
    exact .inl (List.mem_singleton_self _)

/-- The rounds that are left, at most. -/
def BreadthState.rounds (cap : Nat) (s : BreadthState κ α σ) : Nat := cap - s.touched.length + s.queue.length

/-- What the search ends with. -/
structure Searched (step : κ → κ → Prop) (origin : κ) (cap depth : Nat) (s : BreadthState κ α σ) (cut : Bool) : Prop
    extends Entered step origin cap depth s where
  whole : cut = false → ∀ k m, Walk step origin m k → m ≤ depth → ∃ n, Reached origin s k n
  more : cut = true → s.touched.length = cap ∧ ∃ k ∉ s.seen, ∃ m ≤ depth, Walk step origin m k

/-! ### The result -/

def BreadthState.keys (s : BreadthState κ α σ) : List κ := s.touched.map Touched.key

def Within (step : κ → κ → Prop) (origin : κ) (depth : Nat) (k : κ) : Prop :=
  k ≠ origin ∧ ∃ m ≤ depth, Walk step origin m k

namespace Searched

theorem within_of_mem (searched : Searched step origin cap depth s cut) {k : κ} (mem : k ∈ s.keys) :
    Within step origin depth k := by
  obtain ⟨t, touched, rfl⟩ := List.mem_map.mp mem
  obtain ⟨walk, bound⟩ := searched.walk (.inr ⟨t, touched, rfl, rfl⟩)
  exact ⟨fun same => (List.nodup_cons.mp searched.nodup).1 (same ▸ mem), t.distance, bound, walk⟩

theorem mem_of_reached {k : κ} {n : Nat} (reached : Reached origin s k n) (other : k ≠ origin) : k ∈ s.keys := by
  rcases reached with ⟨same, _⟩ | ⟨t, mem, rfl, _⟩
  · exact absurd same other
  · exact List.mem_map_of_mem mem

theorem mem_iff (searched : Searched step origin cap depth s cut) (whole : cut = false) (k : κ) :
    k ∈ s.keys ↔ Within step origin depth k := by
  refine ⟨searched.within_of_mem, fun ⟨other, m, bound, walk⟩ => ?_⟩
  obtain ⟨n, reached⟩ := searched.whole whole k m walk bound
  exact mem_of_reached reached other

theorem cut_iff (searched : Searched step origin cap depth s cut) :
    cut = true ↔ ∃ ks : List κ, ks.Nodup ∧ ks.length = cap + 1 ∧ ∀ k ∈ ks, Within step origin depth k := by
  obtain ⟨absent, nodup⟩ := List.nodup_cons.mp searched.nodup
  constructor
  · intro ended
    obtain ⟨full, k, unseen, m, bound, walk⟩ := searched.more ended
    have unreached : ∀ n, ¬ Reached origin s k n := fun n reached => unseen ((searched.seen_iff k).mpr ⟨n, reached⟩)
    refine ⟨k :: s.keys, List.nodup_cons.mpr ⟨fun mem => ?_, nodup⟩, ?_, fun l mem => ?_⟩
    · obtain ⟨t, mem, key⟩ := List.mem_map.mp mem
      exact unreached t.distance (.inr ⟨t, mem, key, rfl⟩)
    · rw [List.length_cons, BreadthState.keys, List.length_map, full]
    · rcases List.mem_cons.mp mem with rfl | mem
      · exact ⟨fun same => unreached 0 (.inl ⟨same, rfl⟩), m, bound, walk⟩
      · exact searched.within_of_mem mem
  · rintro ⟨ks, distinct, many, within⟩
    by_contra whole
    have inside : ks ⊆ s.keys := fun k mem => (searched.mem_iff (Bool.eq_false_iff.mpr whole) k).mpr (within k mem)
    have few := (distinct.subperm inside).length_le
    have capped := searched.capped
    rw [BreadthState.keys, List.length_map] at few
    omega

/-- What is entered has its shortest distance. -/
theorem distance_least (searched : Searched step origin cap depth s cut) {t : Touched κ α} (mem : t ∈ s.touched) :
    Walk step origin t.distance t.key ∧ t.distance ≤ depth ∧ ∀ m, Walk step origin m t.key → t.distance ≤ m := by
  have reached : Reached origin s t.key t.distance := .inr ⟨t, mem, rfl, rfl⟩
  exact ⟨(searched.walk reached).1, (searched.walk reached).2, searched.shortest reached⟩

end Searched

/-! ### Rounds -/

variable [DecidableEq κ]

/-- Entering hits keeps the invariant: all of them are entered then, or the cap is reached and one is not. -/
theorem visitHits_spec (seeded : ∀ k l, step k l → ∃ t, lookup k = some t) (deep : distance < depth) :
    ∀ (hits : List (Hit κ α σ)) (s : BreadthState κ α σ),
      (∀ h ∈ hits, h.seed = lookup h.key ∧ Walk step origin (distance + 1) h.key) →
      Visiting lookup step origin cap depth seed distance s → visitHits cap depth (distance + 1) hits s = (s', cut) →
      Visiting lookup step origin cap depth seed distance s' ∧ s'.rounds cap ≤ s.rounds cap ∧
        (∀ k n, Reached origin s k n → Reached origin s' k n) ∧
        (cut = false → ∀ h ∈ hits, ∃ n ≤ distance + 1, Reached origin s' h.key n) ∧
        (cut = true → s'.touched.length = cap ∧ ∃ h ∈ hits, h.key ∉ s'.seen)
  | [], s, _, visiting, run => by
    obtain ⟨rfl, rfl⟩ := Prod.mk.inj run
    exact ⟨visiting, le_rfl, fun _ _ reached => reached, nofun,
      nofun⟩
  | hit :: rest, s, valid, visiting, run => by
    obtain ⟨own, walk⟩ := valid hit List.mem_cons_self
    have others : ∀ h ∈ rest, h.seed = lookup h.key ∧ Walk step origin (distance + 1) h.key := fun h mem =>
      valid h (List.mem_cons_of_mem _ mem)
    rw [visitHits] at run
    split at run
    next old =>
      obtain ⟨kept, fewer, grows, whole, ended⟩ := visitHits_spec seeded deep rest s others visiting run
      refine ⟨kept, fewer, grows, fun cut h mem => ?_, fun cut => ?_⟩
      · rcases List.mem_cons.mp mem with rfl | mem
        · obtain ⟨n, reached⟩ := (visiting.seen_iff _).mp old
          exact ⟨n, visiting.near _ n reached, grows _ n reached⟩
        · exact whole cut h mem
      · obtain ⟨full, h, mem, unseen⟩ := ended cut
        exact ⟨full, h, List.mem_cons_of_mem _ mem, unseen⟩
    next fresh =>
      split at run
      next full =>
        obtain ⟨rfl, rfl⟩ := Prod.mk.inj run
        exact ⟨visiting, le_rfl, fun _ _ reached => reached, nofun,
          fun _ => ⟨le_antisymm visiting.capped full, hit, List.mem_cons_self, fresh⟩⟩
      next room =>
        have room := not_le.mp room
        obtain ⟨kept, fewer, grows, whole, ended⟩ := visitHits_spec seeded deep rest _ others
          (visiting.enter seeded deep own walk fresh room) run
        have entered : ∀ k n, Reached origin s k n → Reached origin s' k n := fun k n reached =>
          grows k n (Reached.enter.mpr (.inl reached))
        have first : Reached origin s' hit.key (distance + 1) := grows _ _ (Reached.enter.mpr (.inr ⟨rfl, rfl⟩))
        have one : (s.enter depth (distance + 1) hit).rounds cap ≤ s.rounds cap := by
          have few : (if distance + 1 < depth then hit.seed.toList.map fun seed => (seed, distance + 1) else []).length ≤ 1 := by
            split_ifs
            · cases hit.seed <;> simp
            · simp
          unfold BreadthState.rounds BreadthState.enter
          rw [List.length_append, List.length_append, List.length_singleton]
          omega
        refine ⟨kept, fewer.trans one, entered, fun cut h mem => ?_, fun cut => ?_⟩
        · rcases List.mem_cons.mp mem with rfl | mem
          · exact ⟨distance + 1, le_rfl, first⟩
          · exact whole cut h mem
        · obtain ⟨full, h, mem, unseen⟩ := ended cut
          exact ⟨full, h, List.mem_cons_of_mem _ mem, unseen⟩

/-- A round keeps the invariant, and the last round ends the search. -/
theorem breadthRound_spec (explores : Explores next lookup step) (searching : Searching lookup step origin cap depth s) :
    (∀ s', breadthRound cap depth next s = .inl s' →
      Searching lookup step origin cap depth s' ∧ s'.rounds cap < s.rounds cap) ∧
    ∀ s' cut, breadthRound cap depth next s = .inr (.ok (s', cut)) → Searched step origin cap depth s' cut := by
  obtain ⟨queue, seen, touched⟩ := s
  unfold breadthRound
  cases queue with
  | nil =>
    refine ⟨nofun, fun s' cut run => ?_⟩
    obtain ⟨rfl, rfl⟩ := Prod.mk.inj (Except.ok.inj (Sum.inr.inj run))
    refine ⟨searching.toEntered, fun _ k m walk within => ?_, nofun⟩
    obtain ⟨n, _, reached⟩ := reached_of_walk m depth (fun j n reached _ below => by
      intro l last
      obtain ⟨t, found⟩ := explores.seeded last
      exact (searching.closed j n reached below t found).elim nofun
        fun closed => closed l last) walk le_rfl within
    exact ⟨n, reached⟩
  | cons entry rest =>
    obtain ⟨seed, distance⟩ := entry
    obtain ⟨own, found, here⟩ := searching.queued seed distance List.mem_cons_self
    obtain ⟨first, ordered⟩ := List.pairwise_cons.mp searching.ordered
    dsimp only
    split
    next shallow =>
      refine ⟨fun s' run => ?_, nofun⟩
      obtain rfl := Sum.inl.inj run
      refine ⟨⟨⟨searching.seen_iff, searching.nodup, searching.walk, searching.shortest, searching.capped⟩,
        fun t n mem => searching.queued t n (List.mem_cons_of_mem _ mem), ordered,
        fun t n mem => searching.near t n (List.mem_cons_of_mem _ mem), fun k n reached below t found => ?_⟩, ?_⟩
      · rcases searching.closed k n reached below t found with waits | closed
        · rcases List.mem_cons.mp waits with same | waits
          · obtain ⟨_, rfl⟩ := Prod.mk.inj same
            omega
          · exact .inl waits
        · exact .inr closed
      · simp only [BreadthState.rounds, List.length_cons]
        omega
    next deep =>
      have deep := not_le.mp deep
      cases expanded : next seed with
      | error e => exact ⟨nofun, nofun⟩
      | ok hits =>
        have visiting : Visiting lookup step origin cap depth seed distance ⟨rest, seen, touched⟩ := by
          refine ⟨⟨searching.seen_iff, searching.nodup, searching.walk, searching.shortest, searching.capped⟩,
            fun t n mem => ⟨first (t, n) mem, searching.queued t n (List.mem_cons_of_mem _ mem)⟩, ordered,
            fun k n reached => searching.near seed distance List.mem_cons_self k n reached,
            fun k n reached below t found => ?_⟩
          rcases searching.closed k n reached below t found with waits | closed
          · rcases List.mem_cons.mp waits with same | waits
            · exact .inr (.inl (Prod.mk.inj same))
            · exact .inl waits
          · exact .inr (.inr closed)
        have seeded : ∀ k l, step k l → ∃ t, lookup k = some t := fun _ _ => explores.seeded
        have valid : ∀ h ∈ hits, h.seed = lookup h.key ∧ Walk step origin (distance + 1) h.key := fun h mem =>
          ⟨explores.seed_eq found expanded h mem,
            .snoc (searching.walk here).1 ((explores.step_iff found expanded h.key).mpr ⟨h, mem, rfl⟩)⟩
        dsimp only
        cases visited : visitHits cap depth (distance + 1) hits ⟨rest, seen, touched⟩ with
        | mk after ended =>
          obtain ⟨kept, fewer, grows, whole, more⟩ := visitHits_spec seeded deep hits _ valid
            visiting visited
          cases ended with
          | true =>
            refine ⟨nofun, fun s' cut run => ?_⟩
            obtain ⟨rfl, rfl⟩ := Prod.mk.inj (Except.ok.inj (Sum.inr.inj run))
            obtain ⟨full, h, mem, unseen⟩ := more rfl
            exact ⟨kept.toEntered, nofun,
              fun _ => ⟨full, h.key, unseen, distance + 1, deep, (valid h mem).2⟩⟩
          | false =>
            refine ⟨fun s' run => ?_, nofun⟩
            obtain rfl := Sum.inl.inj run
            refine ⟨⟨kept.toEntered, fun t n mem => (kept.queued t n mem).2, kept.ordered,
              fun t n mem k m reached => ?_, fun k n reached below t holds => ?_⟩, ?_⟩
            · have := (kept.queued t n mem).1
              have := kept.near k m reached
              omega
            · rcases kept.closed k n reached below t holds with waits | ⟨rfl, rfl⟩ | closed
              · exact .inl waits
              · refine .inr fun l last => ?_
                obtain ⟨h, mem, rfl⟩ := (explores.step_iff holds expanded l).mp last
                exact whole rfl h mem
              · exact .inr closed
            · refine fewer.trans_lt ?_
              simp only [BreadthState.rounds, List.length_cons]
              omega

/-- The search ends, with an error of an expansion or with what it searches for. -/
theorem breadthFirst_spec (explores : Explores next lookup step) (found : lookup origin = some seed) :
    ∃ answer, breadthFirst cap depth next origin seed = some answer ∧
      ∀ s cut, answer = .ok (s, cut) → Searched step origin cap depth s cut := by
  refine runLoop_of_invariant (BreadthState.rounds cap) (Searching lookup step origin cap depth)
    (fun answer => ∀ s cut, answer = .ok (s, cut) → Searched step origin cap depth s cut)
    (fun s t searching round => (breadthRound_spec explores searching).1 t round)
    (fun s answer searching round s' cut eq => (breadthRound_spec explores searching).2 s' cut (round.trans (by rw [eq])))
    (searching_start found) ?_
  unfold BreadthState.start BreadthState.rounds
  simp

/-! ### A larger depth -/

variable {depth' : Nat}

def Keeps (P : List (Touched κ α) → Prop) (hit : Hit κ α σ) : Prop := ∀ n ts, P ts → P (ts ++ [⟨hit.key, n, hit.item⟩])

variable {P : List (Touched κ α) → Prop}

theorem visitHits_keeps (cap depth nextDistance : Nat) :
    ∀ (hits : List (Hit κ α σ)) (s : BreadthState κ α σ), (∀ h ∈ hits, Keeps P h) → P s.touched →
      P (visitHits cap depth nextDistance hits s).1.touched
  | [], s, _, holds => holds
  | hit :: rest, s, keeps, holds => by
    have others : ∀ h ∈ rest, Keeps P h := fun h mem => keeps h (List.mem_cons_of_mem _ mem)
    rw [visitHits]
    split_ifs
    · exact visitHits_keeps cap depth nextDistance rest s others holds
    · exact holds
    · exact visitHits_keeps cap depth nextDistance rest (s.enter depth nextDistance hit) others
        (keeps hit List.mem_cons_self _ _ holds)

theorem breadthRound_inl (run : breadthRound cap depth next s = .inl s') :
    ∃ t n rest, s.queue = (t, n) :: rest ∧ ((depth ≤ n ∧ s' = { s with queue := rest }) ∨
      n < depth ∧ ∃ hits, next t = .ok hits ∧ visitHits cap depth (n + 1) hits { s with queue := rest } = (s', false)) := by
  unfold breadthRound at run
  split at run
  next => cases run
  next t n rest queue =>
    refine ⟨t, n, rest, queue, ?_⟩
    split at run
    next shallow => exact .inl ⟨shallow, (Sum.inl.inj run).symm⟩
    next deep =>
      refine .inr ⟨not_le.mp deep, ?_⟩
      split at run
      next => cases run
      next hits expanded =>
        split at run
        next => cases run
        next after visited => exact ⟨hits, expanded, by rw [visited, Sum.inl.inj run]⟩

theorem breadthRound_inr (run : breadthRound cap depth next s = .inr (.ok (s', cut))) :
    (s.queue = [] ∧ s' = s) ∨ ∃ t n rest, s.queue = (t, n) :: rest ∧ n < depth ∧ ∃ hits, next t = .ok hits ∧
      visitHits cap depth (n + 1) hits { s with queue := rest } = (s', true) := by
  unfold breadthRound at run
  split at run
  next queue => exact .inl ⟨queue, (Prod.mk.inj (Except.ok.inj (Sum.inr.inj run))).1.symm⟩
  next t n rest queue =>
    refine .inr ⟨t, n, rest, queue, ?_⟩
    split at run
    next => cases run
    next deep =>
      refine ⟨not_le.mp deep, ?_⟩
      split at run
      next => cases run
      next hits expanded =>
        split at run
        next after visited =>
          exact ⟨hits, expanded, by rw [visited, (Prod.mk.inj (Except.ok.inj (Sum.inr.inj run))).1]⟩
        next => cases run

theorem runLoop_keeps (keeps : ∀ t hits, next t = .ok hits → ∀ h ∈ hits, Keeps P h)
    {rounds : Nat} {s r : BreadthState κ α σ} (holds : P s.touched)
    (run : runLoop (breadthRound cap depth next) rounds s = some (.ok (r, cut))) : P r.touched := by
  induction rounds generalizing s with
  | zero => cases run
  | succ rounds ih =>
    rw [runLoop] at run
    cases round : breadthRound cap depth next s with
    | inl t =>
      rw [round] at run
      obtain ⟨u, n, rest, _, ⟨_, rfl⟩ | ⟨_, hits, expanded, visited⟩⟩ := breadthRound_inl round
      · exact ih (s := { s with queue := rest }) holds run
      · have kept := visitHits_keeps cap depth (n + 1) hits { s with queue := rest } (keeps u hits expanded) holds
        rw [visited] at kept
        exact ih kept run
    | inr answer =>
      rw [round] at run
      obtain rfl := Option.some.inj run
      rcases breadthRound_inr round with ⟨_, rfl⟩ | ⟨u, n, rest, _, _, hits, expanded, visited⟩
      · exact holds
      · have kept := visitHits_keeps cap depth (n + 1) hits { s with queue := rest } (keeps u hits expanded) holds
        rwa [visited] at kept

theorem breadthFirst_items {Q : κ → α → Prop} (sound : ∀ t hits, next t = .ok hits → ∀ h ∈ hits, Q h.key h.item)
    (run : breadthFirst cap depth next origin seed = some (.ok (s, cut))) : ∀ t ∈ s.touched, Q t.key t.item := by
  refine runLoop_keeps (P := fun ts => ∀ t ∈ ts, Q t.key t.item) (fun t hits expanded h mem n ts all u inside => ?_)
    (fun u inside => absurd inside List.not_mem_nil) run
  rcases List.mem_append.mp inside with before | new
  · exact all u before
  · rw [List.mem_singleton.mp new]
    exact sound t hits expanded h mem

theorem runLoop_prefix {rounds : Nat} {s r : BreadthState κ α σ}
    (run : runLoop (breadthRound cap depth next) rounds s = some (.ok (r, cut))) : s.touched <+: r.touched :=
  runLoop_keeps (P := fun ts => s.touched <+: ts) (fun _ _ _ _ _ _ _ before => before.trans (List.prefix_append _ _))
    (List.prefix_refl _) run

/-- The searches with two depths have entered the same, and the deeper one has more to expand, later. -/
structure Lockstep (depth : Nat) (s s' : BreadthState κ α σ) (extra : List (σ × Nat)) : Prop where
  seen : s'.seen = s.seen
  touched : s'.touched = s.touched
  queue : s'.queue = s.queue ++ extra
  shallow : ∀ e ∈ s.queue, e.2 < depth
  deep : ∀ e ∈ extra, depth ≤ e.2

theorem Lockstep.visit (cap nextDistance : Nat) (deeper : depth ≤ depth') : ∀ (hits : List (Hit κ α σ))
    (s s' : BreadthState κ α σ) (extra : List (σ × Nat)), Lockstep depth s s' extra → (nextDistance < depth → extra = []) →
    (visitHits cap depth nextDistance hits s).2 = (visitHits cap depth' nextDistance hits s').2 ∧
      ∃ extra, Lockstep depth (visitHits cap depth nextDistance hits s).1 (visitHits cap depth' nextDistance hits s').1 extra
  | [], s, s', extra, same, _ => ⟨rfl, extra, same⟩
  | hit :: rest, s, s', extra, same, quiet => by
    rw [visitHits, visitHits, same.seen, same.touched]
    split_ifs
    · exact Lockstep.visit cap nextDistance deeper rest s s' extra same quiet
    · exact ⟨rfl, extra, same⟩
    · by_cases within : nextDistance < depth
      · obtain rfl := quiet within
        refine Lockstep.visit cap nextDistance deeper rest _ _ [] ⟨?_, ?_, ?_, fun e mem => ?_, nofun⟩
          fun _ => rfl
        · simp only [BreadthState.enter, same.seen]
        · simp only [BreadthState.enter, same.touched]
        · simp only [BreadthState.enter, same.queue, List.append_nil, if_pos within, if_pos (within.trans_le deeper)]
        · rcases List.mem_append.mp mem with before | new
          · exact same.shallow e before
          · rw [if_pos within] at new
            obtain ⟨t, _, rfl⟩ := List.mem_map.mp new
            exact within
      · refine Lockstep.visit cap nextDistance deeper rest _ _
          (extra ++ if nextDistance < depth' then hit.seed.toList.map fun seed => (seed, nextDistance) else [])
          ⟨?_, ?_, ?_, fun e mem => ?_, fun e mem => ?_⟩ fun less => absurd less within
        · simp only [BreadthState.enter, same.seen]
        · simp only [BreadthState.enter, same.touched]
        · simp only [BreadthState.enter, same.queue, if_neg within, List.append_nil, List.append_assoc]
        · simp only [BreadthState.enter, if_neg within, List.append_nil] at mem
          exact same.shallow e mem
        · rcases List.mem_append.mp mem with before | new
          · exact same.deep e before
          · split_ifs at new
            · obtain ⟨t, _, rfl⟩ := List.mem_map.mp new
              exact not_lt.mp within
            · cases new

variable {extra : List (σ × Nat)} {n : Nat} {t : σ}

omit [DecidableEq κ] in
/-- While a seed is expanded that leads to less than the depth, the deeper search has nothing more to expand. -/
theorem Lockstep.quiet (same : Lockstep depth s s' extra)
    (searching : Searching lookup step origin cap depth' s') (mem : (t, n) ∈ s.queue) (within : n + 1 < depth) :
    extra = [] := by
  refine List.eq_nil_iff_forall_not_mem.mpr fun entry waits => ?_
  have queued : entry ∈ s'.queue := same.queue ▸ List.mem_append_right _ waits
  obtain ⟨k, _, reached⟩ := searching.queued entry.1 entry.2 queued
  have bound := searching.near t n (same.queue ▸ List.mem_append_left _ mem) k entry.2 reached
  have := same.deep entry waits
  omega

variable {hits : List (Hit κ α σ)}

theorem Lockstep.expand {extra rest : List (σ × Nat)} {r : BreadthState κ α σ}
    {ended : Bool} (same : Lockstep depth s s' extra) (searching : Searching lookup step origin cap depth' s')
    (deeper : depth ≤ depth') (first : s.queue = (t, n) :: rest) (expanded : next t = .ok hits)
    (visited : visitHits cap depth (n + 1) hits { s with queue := rest } = (r, ended)) :
    ∃ r' extra, Lockstep depth r r' extra ∧
      breadthRound cap depth' next s' = bif ended then .inr (.ok (r', true)) else .inl r' := by
  have shallow : n < depth := same.shallow (t, n) (first ▸ List.mem_cons_self)
  obtain ⟨alike, extra', kept⟩ := Lockstep.visit cap (n + 1) deeper hits { s with queue := rest }
    { s' with queue := rest ++ extra } extra
    ⟨same.seen, same.touched, rfl, fun e mem => same.shallow e (first ▸ List.mem_cons_of_mem _ mem), same.deep⟩
    (same.quiet searching (first ▸ List.mem_cons_self))
  rw [visited] at alike kept
  refine ⟨_, extra', kept, ?_⟩
  unfold breadthRound
  rw [same.queue, first, List.cons_append]
  dsimp only
  rw [if_neg (not_le.mpr (shallow.trans_le deeper)), expanded]
  dsimp only
  cases visited' : visitHits cap depth' (n + 1) hits { s' with queue := rest ++ extra } with
  | mk r' ended' =>
    rw [visited'] at alike
    obtain rfl : ended = ended' := alike
    cases ended <;> rfl

variable {r r' : BreadthState κ α σ}

theorem lockstep_run (explores : Explores next lookup step) (deeper : depth ≤ depth') {rounds rounds' : Nat}
    {cut cut' : Bool} (same : Lockstep depth s s' extra)
    (searching : Searching lookup step origin cap depth' s')
    (run : runLoop (breadthRound cap depth next) rounds s = some (.ok (r, cut)))
    (run' : runLoop (breadthRound cap depth' next) rounds' s' = some (.ok (r', cut'))) : r.touched <+: r'.touched := by
  induction rounds generalizing rounds' s s' extra with
  | zero => cases run
  | succ rounds ih =>
    have grows := runLoop_prefix run'
    rw [runLoop] at run
    cases rounds' with
    | zero => cases run'
    | succ rounds' =>
      rw [runLoop] at run'
      cases round : breadthRound cap depth next s with
      | inl u =>
        rw [round] at run
        obtain ⟨t, n, rest, first, ⟨deep, _⟩ | ⟨_, hits, expanded, visited⟩⟩ := breadthRound_inl round
        · have := same.shallow (t, n) (first ▸ List.mem_cons_self)
          omega
        · obtain ⟨u', extra', kept, round'⟩ := same.expand searching deeper first expanded visited
          rw [cond_false] at round'
          rw [round'] at run'
          exact ih kept ((breadthRound_spec explores searching).1 u' round').1 run run'
      | inr answer =>
        rw [round] at run
        obtain rfl := Option.some.inj run
        rcases breadthRound_inr round with ⟨_, rfl⟩ | ⟨t, n, rest, first, _, hits, expanded, visited⟩
        · rwa [same.touched] at grows
        · obtain ⟨u', extra', kept, round'⟩ := same.expand searching deeper first expanded visited
          rw [cond_true] at round'
          rw [round'] at run'
          obtain ⟨rfl, -⟩ := Prod.mk.inj (Except.ok.inj (Option.some.inj run'))
          simp only [kept.touched, List.prefix_refl]

/-- A deeper search lists first what the other one lists. -/
theorem breadthFirst_deeper (explores : Explores next lookup step) (found : lookup origin = some seed) (positive : 0 < depth)
    (deeper : depth ≤ depth') {cut cut' : Bool}
    (run : breadthFirst cap depth next origin seed = some (.ok (r, cut)))
    (run' : breadthFirst cap depth' next origin seed = some (.ok (r', cut'))) : r.touched <+: r'.touched := by
  refine lockstep_run explores deeper ⟨rfl, rfl, (List.append_nil _).symm, fun e mem => ?_,
    nofun⟩ (searching_start found) run run'
  rw [List.mem_singleton.mp mem]
  exact positive

/-! ### New hits -/

omit [DecidableEq κ] in
theorem keys_enter {nextDistance : Nat} {hit : Hit κ α σ} : (s.enter depth nextDistance hit).keys = s.keys ++ [hit.key] := by
  unfold BreadthState.keys BreadthState.enter
  rw [List.map_append]
  rfl

theorem visitHits_new (cap depth nextDistance : Nat) : ∀ (hits : List (Hit κ α σ)) (s : BreadthState κ α σ),
    (hits.map Hit.key).Nodup → (∀ h ∈ hits, h.key ∉ s.seen) → s.touched.length ≤ cap →
      (visitHits cap depth nextDistance hits s).1.keys = s.keys ++ (hits.map Hit.key).take (cap - s.touched.length)
  | [], s, _, _, _ => by rw [visitHits, List.map_nil, List.take_nil, List.append_nil]
  | hit :: rest, s, distinct, new, capped => by
    obtain ⟨once, distinct⟩ := List.nodup_cons.mp distinct
    rw [visitHits, if_neg (new hit List.mem_cons_self)]
    split_ifs with full
    · rw [Nat.sub_eq_zero_of_le full, List.take_zero, List.append_nil]
    · have room : cap - s.touched.length = (cap - (s.enter depth nextDistance hit).touched.length) + 1 := by
        unfold BreadthState.enter
        rw [List.length_append, List.length_singleton]
        omega
      have others : ∀ h ∈ rest, h.key ∉ (s.enter depth nextDistance hit).seen := by
        intro h mem seen
        rcases List.mem_append.mp seen with before | same
        · exact new h (List.mem_cons_of_mem _ mem) before
        · exact once (List.mem_singleton.mp same ▸ List.mem_map_of_mem mem)
      have fits : (s.enter depth nextDistance hit).touched.length ≤ cap := by
        unfold BreadthState.enter
        rw [List.length_append, List.length_singleton]
        omega
      rw [visitHits_new cap depth nextDistance rest _ distinct others fits, keys_enter, room, List.map_cons,
        List.take_succ_cons, List.append_assoc, List.singleton_append]

theorem visitHits_queue (cap nextDistance : Nat) : ∀ (hits : List (Hit κ α σ)) (s : BreadthState κ α σ),
    (visitHits cap nextDistance nextDistance hits s).1.queue = s.queue
  | [], s => rfl
  | hit :: rest, s => by
    rw [visitHits]
    split_ifs
    · exact visitHits_queue cap nextDistance rest s
    · rfl
    · rw [visitHits_queue cap nextDistance rest]
      simp only [BreadthState.enter, lt_irrefl, if_false, List.append_nil]

/-- A search to the depth 1 enters the hits of the origin, up to the cap. -/
theorem breadthFirst_one (next : σ → Except ε (List (Hit κ α σ))) (expanded : next seed = .ok hits)
    (distinct : (origin :: hits.map Hit.key).Nodup) :
    ∃ s cut, breadthFirst cap 1 next origin seed = some (.ok (s, cut)) ∧ s.keys = (hits.map Hit.key).take cap := by
  obtain ⟨other, distinct⟩ := List.nodup_cons.mp distinct
  have entered := visitHits_new cap 1 1 hits ⟨[], [origin], []⟩ distinct (fun h mem seen =>
    other (List.mem_singleton.mp seen ▸ List.mem_map_of_mem mem)) (Nat.zero_le _)
  have empty := visitHits_queue cap 1 hits ⟨[], [origin], []⟩
  have positive : ¬ 1 ≤ 0 := by omega
  unfold breadthFirst
  rw [runLoop, breadthRound, BreadthState.start]
  dsimp only
  rw [if_neg positive, expanded]
  dsimp only
  cases visited : visitHits cap 1 1 hits ⟨[], [origin], []⟩ with
  | mk s cut =>
    rw [visited] at entered empty
    have keys : s.keys = (hits.map Hit.key).take cap := entered
    cases cut with
    | true => exact ⟨s, true, rfl, keys⟩
    | false =>
      refine ⟨s, false, ?_, keys⟩
      dsimp only
      rw [runLoop, breadthRound, show s.queue = [] from empty]

end

end Lib
