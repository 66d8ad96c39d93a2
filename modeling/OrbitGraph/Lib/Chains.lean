import Mathlib.Data.List.Nodup
import Mathlib.Data.List.Perm.Subperm
import OrbitGraph.Lib.Loop

/-!
A breadth-first search that reports chains of links.

Every link that is met is reported with the chain that led to it, unless it leads back to
that chain. A node is expanded once, so a shortest chain leads to whatever a chain leads
to, if the search is not cut short.
-/

namespace Lib

/-- What is searched, and how far. Nodes go by their keys; a link leads to a key, and to a node there if one may go on. -/
structure ChainSearch (κ ν ε α δ : Type) where
  key : ν → κ
  far : ε → κ
  node : ε → Option ν
  /-- The links of a node, and what else is said of it. -/
  next : ν → Except δ (List ε × α)
  origin : ν
  cap : Nat
  depth : Nat

/-- Chains have their last link first. With the key of a node that is expanded, or will be, stands how long the chain is
that led to it. -/
structure Chains (κ ν ε α : Type) where
  queue : List (ν × List ε)
  expanded : List (κ × Nat)
  found : List (List ε)
  answers : List α
  cycles : Nat
  deep : Bool

inductive ChainsEnd where
  | finished
  | late
  | capped
  deriving DecidableEq

variable {κ ν ε α δ : Type}

section Search

variable [DecidableEq κ] (P : ChainSearch κ ν ε α δ)

/-- Report a chain, and queue the node that it opens. -/
def Chains.enter (s : Chains κ ν ε α) (e : ε) (path : List ε) (opened : Option ν) : Chains κ ν ε α where
  queue := s.queue ++ (opened.map fun node => (node, e :: path)).toList
  expanded := s.expanded ++ (opened.map fun _ => (P.far e, path.length + 1)).toList
  found := s.found ++ [e :: path]
  answers := s.answers
  cycles := s.cycles
  deep := s.deep || ((P.node e).isSome && decide (P.depth ≤ path.length + 1))

/-- The node that a link opens, if it is new and not too deep. -/
def Chains.opened (s : Chains κ ν ε α) (e : ε) (path : List ε) : Option ν :=
  if path.length + 1 < P.depth ∧ P.far e ∉ s.expanded.map Prod.fst then P.node e else none

/-- One link of the node that `path` leads to; the second part of the answer says that the cap ends the search. -/
def visitLink (onPath : List κ) (path : List ε) (e : ε) (s : Chains κ ν ε α) : Chains κ ν ε α × Bool :=
  if P.far e ∈ onPath then ({ s with cycles := s.cycles + 1 }, false)
  else if P.cap ≤ s.found.length then (s, true)
  else if (s.opened P e path).isSome ∧ P.cap ≤ s.expanded.length then (s.enter P e path none, true)
  else (s.enter P e path (s.opened P e path), false)

def visitLinks (onPath : List κ) (path : List ε) : List ε → Chains κ ν ε α → Chains κ ν ε α × Bool
  | [], s => (s, false)
  | e :: rest, s =>
    match visitLink P onPath path e s with
    | (s, true) => (s, true)
    | (s, false) => visitLinks onPath path rest s

/-- Expand the first node of the queue; `late` says after how many of them the time is up. -/
def chainRound (late : Nat → Bool) (s : Chains κ ν ε α) :
    Chains κ ν ε α ⊕ Except δ (Chains κ ν ε α × ChainsEnd) :=
  match s.queue with
  | [] => .inr (.ok (s, .finished))
  | (node, path) :: queue =>
    if late s.answers.length then .inr (.ok (s, .late))
    else if P.depth ≤ path.length then .inl { s with queue, deep := true }
    else
      match P.next node with
      | .error error => .inr (.error error)
      | .ok (links, answer) =>
        match visitLinks P (P.key node :: P.key P.origin :: path.map P.far) path links
          { s with queue, answers := s.answers ++ [answer] } with
        | (s, true) => .inr (.ok (s, .capped))
        | (s, false) => .inl s

def ChainSearch.start : Chains κ ν ε α := ⟨[(P.origin, [])], [(P.key P.origin, 0)], [], [], 0, false⟩

/-- The search from a node; a node is queued at most once, so there are not more rounds than this. -/
def searchChains (late : Nat → Bool) : Option (Except δ (Chains κ ν ε α × ChainsEnd)) :=
  runLoop (chainRound P late) (P.cap + 1) P.start

end Search

/-! ### Chains -/

section

variable (P : ChainSearch κ ν ε α δ)

def ChainSearch.Links (n : ν) (e : ε) : Prop := ∃ links answer, P.next n = .ok (links, answer) ∧ e ∈ links

/-- The node that a chain leads to. -/
def ChainSearch.Leads (path : List ε) (n : ν) : Prop :=
  match path with
  | [] => n = P.origin
  | e :: _ => P.node e = some n

inductive Chained : List ε → Prop where
  | nil : Chained []
  | cons {e : ε} {n : ν} {path : List ε} : Chained path → P.Leads path n → P.Links n e → Chained (e :: path)

/-- Nodes with one key have the same links, as far as keys go. -/
structure ChainSearch.Keyed : Prop where
  key_node : ∀ e n, P.node e = some n → P.key n = P.far e
  alike : ∀ n m, P.key n = P.key m → ∀ e, P.Links n e →
    ∃ e', P.Links m e' ∧ P.far e' = P.far e ∧ (P.node e').isSome = (P.node e).isSome

/-- A chain of genuine links within the depth, on which no key comes twice. -/
structure Proper (path : List ε) : Prop where
  chained : Chained P path
  short : path.length ≤ P.depth
  simple : (path.map P.far ++ [P.key P.origin]).Nodup

/-- A link of a node at level `l` has been followed: its end is entered at the next level at most, or only reported. -/
def Followed (s : Chains κ ν ε α) (l : Nat) (e : ε) : Prop :=
  (∃ l' ≤ l + 1, (P.far e, l') ∈ s.expanded) ∨
    (∃ e' path, e' :: path ∈ s.found ∧ P.far e' = P.far e ∧ path.length ≤ l) ∧
      ((P.node e).isSome → P.depth ≤ l + 1 ∧ s.deep = true)

/-- What waits to be expanded was met by a proper chain, whose keys are entered. -/
structure Waiting (s : Chains κ ν ε α) (q : ν × List ε) : Prop extends Proper P q.2 where
  leads : P.Leads q.2 q.1
  shallow : q.2.length < P.depth
  entered : (P.key q.1, q.2.length) ∈ s.expanded
  path : ∀ e ∈ q.2, ∃ l ≤ q.2.length, (P.far e, l) ∈ s.expanded
  /-- What waits is at the last level that is entered, or the one before. -/
  near : ∀ kl ∈ s.expanded, kl.2 ≤ q.2.length + 1

/-- The invariant; while a node is expanded, it is still at the head of `queue`. -/
structure SearchingChains (s : Chains κ ν ε α) (queue : List (ν × List ε)) : Prop where
  found : ∀ c ∈ s.found, c ≠ [] ∧ Proper P c
  few : s.found.length ≤ P.cap
  once : (s.expanded.map Prod.fst).Nodup ∧ s.expanded.length ≤ P.cap
  deep : s.deep = true → ∃ e path, e :: path ∈ s.found ∧ (P.node e).isSome ∧ P.depth ≤ path.length + 1
  start : (P.key P.origin, 0) ∈ s.expanded
  reported : ∀ kl ∈ s.expanded, kl.1 = P.key P.origin ∨ ∃ e path, e :: path ∈ s.found ∧ P.far e = kl.1 ∧ path.length < kl.2
  waiting : ∀ q ∈ queue, Waiting P s q
  sorted : queue.Pairwise fun p q => p.2.length ≤ q.2.length
  each : ∀ kl ∈ s.expanded, (∃ q ∈ queue, P.key q.1 = kl.1 ∧ q.2.length = kl.2) ∨
    ∃ n, P.key n = kl.1 ∧ ∀ e, P.Links n e → Followed P s kl.2 e

/-- What the end of a search says. -/
def Ended : Except δ (Chains κ ν ε α × ChainsEnd) → Prop
  | .error error => ∃ path n, Chained P path ∧ P.Leads path n ∧ P.next n = .error error
  | .ok (s, stop) => (∃ queue, SearchingChains P s queue ∧ (stop = .finished → queue = [])) ∧
      (stop = .capped → P.cap ≤ s.found.length)

end

/-! ### Steps -/

/-- A later state of the search. -/
structure Grows (s s' : Chains κ ν ε α) : Prop where
  expanded : s.expanded ⊆ s'.expanded
  found : s.found ⊆ s'.found
  deep : s.deep = true → s'.deep = true

theorem Grows.refl (s : Chains κ ν ε α) : Grows s s := ⟨List.Subset.refl _, List.Subset.refl _, id⟩

/-- How many nodes are to be expanded yet, at most. -/
def Chains.ahead (cap : Nat) (s : Chains κ ν ε α) : Nat := cap - s.expanded.length + s.queue.length

section Sound

variable {P : ChainSearch κ ν ε α δ} {n : ν} {l : Nat} {s s' : Chains κ ν ε α} {path : List ε} {e : ε}

theorem Followed.grow (followed : Followed P s l e) (grows : Grows s s') : Followed P s' l e := by
  rcases followed with ⟨l', le, mem⟩ | ⟨⟨e', path, mem, rest⟩, low⟩
  · exact .inl ⟨l', le, grows.expanded mem⟩
  · exact .inr ⟨⟨e', path, grows.found mem, rest⟩, fun opens => ⟨(low opens).1, grows.deep (low opens).2⟩⟩

theorem Waiting.grow {q : ν × List ε} (waiting : Waiting P s q) (grows : Grows s s')
    (near : ∀ kl ∈ s'.expanded, kl.2 ≤ q.2.length + 1) : Waiting P s' q :=
  { waiting with
    entered := grows.expanded waiting.entered
    near
    path := fun e on => (waiting.path e on).imp fun _ known => ⟨known.1, grows.expanded known.2⟩ }

theorem grows_enter (opened : Option ν) : Grows s (s.enter P e path opened) :=
  ⟨List.subset_append_left _ _, List.subset_append_left _ _, fun deep => by rw [Chains.enter, deep, Bool.true_or]⟩

theorem Waiting.proper_cons (here : Waiting P s (n, path)) (links : P.Links n e)
    (new : P.far e ∉ P.key n :: P.key P.origin :: path.map P.far) : Proper P (e :: path) := by
  refine ⟨.cons here.chained here.leads links, here.shallow, List.nodup_cons.mpr ⟨fun mem => new ?_, here.simple⟩⟩
  rcases List.mem_append.mp mem with mem | mem
  · exact List.mem_cons_of_mem _ (List.mem_cons_of_mem _ mem)
  · rw [List.mem_singleton.mp mem]
    exact List.mem_cons_of_mem _ List.mem_cons_self

/-- Entering a link keeps the invariant; what it opens is new, is at the next level, and is below the cap. -/
theorem SearchingChains.enter (searching : SearchingChains P s ((n, path) :: s.queue))
    (proper : Proper P (e :: path)) (room : s.found.length < P.cap) (opened : Option ν)
    (fits : ∀ node ∈ opened, P.node e = some node ∧ P.key node = P.far e ∧ path.length + 1 < P.depth ∧
      P.far e ∉ s.expanded.map Prod.fst ∧ s.expanded.length < P.cap) :
    SearchingChains P (s.enter P e path opened) ((n, path) :: (s.enter P e path opened).queue) := by
  have here := searching.waiting (n, path) List.mem_cons_self
  have grows : Grows s (s.enter P e path opened) := grows_enter opened
  have first : e :: path ∈ (s.enter P e path opened).found := List.mem_append_right _ (List.mem_singleton_self _)
  have after : ∀ q ∈ (n, path) :: s.queue, path.length ≤ q.2.length :=
    List.forall_mem_cons.mpr ⟨le_rfl, (List.pairwise_cons.mp searching.sorted).1⟩
  have level : ∀ kl ∈ (s.enter P e path opened).expanded, kl.2 ≤ path.length + 1 := by
    refine List.forall_mem_append.mpr ⟨here.near, fun kl mem => ?_⟩
    cases opened with
    | none => cases mem
    | some node => rw [List.mem_singleton.mp mem]
  have kept : ∀ q ∈ (n, path) :: s.queue, Waiting P (s.enter P e path opened) q := fun q mem =>
    (searching.waiting q mem).grow grows fun kl known => (level kl known).trans (Nat.succ_le_succ (after q mem))
  have closed : ∀ kl ∈ s.expanded, (∃ q ∈ (n, path) :: (s.enter P e path opened).queue, P.key q.1 = kl.1 ∧ q.2.length = kl.2) ∨
      ∃ n, P.key n = kl.1 ∧ ∀ e', P.Links n e' → Followed P (s.enter P e path opened) kl.2 e' := fun kl known =>
    (searching.each kl known).imp (fun ⟨q, mem, same⟩ => ⟨q, (List.mem_append_left _ mem : q ∈ ((n, path) :: s.queue) ++ _), same⟩)
      fun ⟨m, key, all⟩ => ⟨m, key, fun e' links => (all e' links).grow grows⟩
  have earlier : ∀ kl ∈ s.expanded, kl.1 = P.key P.origin ∨
      ∃ e' path', e' :: path' ∈ (s.enter P e path opened).found ∧ P.far e' = kl.1 ∧ path'.length < kl.2 := fun kl known =>
    (searching.reported kl known).imp_right fun ⟨e', path', mem, rest⟩ => ⟨e', path', grows.found mem, rest⟩
  have found := List.forall_mem_append.mpr ⟨searching.found, List.forall_mem_singleton.mpr ⟨List.cons_ne_nil _ _, proper⟩⟩
  have few : (s.found ++ [e :: path]).length ≤ P.cap := by
    rw [List.length_append]
    exact room
  have deep : (s.enter P e path opened).deep = true → ∃ e' path', e' :: path' ∈ (s.enter P e path opened).found ∧
      (P.node e').isSome ∧ P.depth ≤ path'.length + 1 := fun deep => by
    rcases (Bool.or_eq_true _ _).mp deep with deep | deep
    · obtain ⟨e', path', mem, rest⟩ := searching.deep deep
      exact ⟨e', path', grows.found mem, rest⟩
    · rw [Bool.and_eq_true, decide_eq_true_eq] at deep
      exact ⟨e, path, first, deep⟩
  cases opened with
  | none =>
    have same : (s.enter P e path none).expanded = s.expanded ∧ (s.enter P e path none).queue = s.queue :=
      ⟨List.append_nil _, List.append_nil _⟩
    refine ⟨found, few, same.1 ▸ searching.once, deep, grows.expanded searching.start, same.1 ▸ earlier, ?_, ?_, same.1 ▸ closed⟩
    · rw [same.2]
      exact kept
    · rw [same.2]
      exact searching.sorted
  | some node =>
    obtain ⟨leads, key, short, new, few'⟩ := fits node rfl
    have last : (P.far e, path.length + 1) ∈ (s.enter P e path (some node)).expanded :=
      List.mem_append_right _ (List.mem_singleton_self _)
    refine ⟨found, few, ⟨?_, ?_⟩, deep, grows.expanded searching.start, List.forall_mem_append.mpr ⟨earlier,
      List.forall_mem_singleton.mpr (.inr ⟨e, path, first, rfl, Nat.lt_succ_self _⟩)⟩,
      List.forall_mem_append.mpr ⟨kept, List.forall_mem_singleton.mpr ?_⟩,
      List.pairwise_append.mpr ⟨searching.sorted, List.pairwise_singleton _ _, fun q mem q' only => ?_⟩,
      List.forall_mem_append.mpr ⟨closed, List.forall_mem_singleton.mpr (.inl ⟨(node, e :: path),
        List.mem_cons_of_mem _ (List.mem_append_right _ (List.mem_singleton_self _)), key, rfl⟩)⟩⟩
    · rw [Chains.enter, List.map_append]
      exact searching.once.1.append (List.nodup_singleton _) (List.disjoint_singleton.mpr new)
    · rw [Chains.enter, List.length_append]
      exact few'
    · refine ⟨proper, leads, short, key ▸ last, List.forall_mem_cons.mpr ⟨⟨_, le_rfl, last⟩, fun e' on => ?_⟩,
        fun kl known => (level kl known).trans (Nat.le_succ _)⟩
      obtain ⟨l, le, known⟩ := here.path e' on
      exact ⟨l, Nat.le_succ_of_le le, grows.expanded known⟩
    · rw [List.mem_singleton.mp only]
      exact here.near _ (searching.waiting q mem).entered

/-- Whatever is expanded, but for the start, has been reported. -/
theorem SearchingChains.expanded_le {queue : List (ν × List ε)} (searching : SearchingChains P s queue) :
    s.expanded.length ≤ s.found.length + 1 := by
  have known : s.expanded.map Prod.fst ⊆ P.key P.origin :: s.found.filterMap fun c => c.head?.map P.far := by
    intro k mem
    obtain ⟨kl, entered, rfl⟩ := List.mem_map.mp mem
    rcases searching.reported kl entered with same | ⟨e, path, reported, far, _⟩
    · exact same ▸ List.mem_cons_self
    · exact List.mem_cons_of_mem _ (List.mem_filterMap.mpr ⟨_, reported, congrArg some far⟩)
  calc s.expanded.length = (s.expanded.map Prod.fst).length := (List.length_map _).symm
    _ ≤ _ := (searching.once.1.subperm known).length_le
    _ ≤ s.found.length + 1 := Nat.succ_le_succ (List.length_filterMap_le _ _)

variable [DecidableEq κ]

/-- A link of the node that is expanded is followed, unless the cap ends the search. -/
theorem visitLink_spec {stop : Bool} (keyed : P.Keyed) (searching : SearchingChains P s ((n, path) :: s.queue))
    (links : P.Links n e) (run : visitLink P (P.key n :: P.key P.origin :: path.map P.far) path e s = (s', stop)) :
    SearchingChains P s' ((n, path) :: s'.queue) ∧ Grows s s' ∧ s'.ahead P.cap ≤ s.ahead P.cap ∧
      (stop = true → P.cap ≤ s'.found.length) ∧ (stop = false → Followed P s' path.length e) := by
  have here := searching.waiting (n, path) List.mem_cons_self
  unfold visitLink at run
  split_ifs at run with known full many
  · obtain ⟨rfl, rfl⟩ := Prod.mk.inj run
    have grows : Grows s { s with cycles := s.cycles + 1 } := ⟨List.Subset.refl _, List.Subset.refl _, id⟩
    refine ⟨{ searching with waiting := fun q mem => (searching.waiting q mem).grow grows (searching.waiting q mem).near },
      grows, le_rfl, nofun, fun _ => .inl ?_⟩
    -- a key on the chain is that of the start, or of a link of the chain
    have on : P.far e = P.key P.origin ∨ ∃ e' ∈ path, P.far e' = P.far e := by
      rcases List.mem_cons.mp known with same | known
      · cases path with
        | nil => exact .inl (same.trans (congrArg P.key here.leads))
        | cons last _ => exact .inr ⟨last, List.mem_cons_self, (same.trans (keyed.key_node _ _ here.leads)).symm⟩
      · exact (List.mem_cons.mp known).imp_right List.mem_map.mp
    rcases on with same | ⟨e', mem, same⟩
    · exact ⟨0, Nat.zero_le _, same ▸ searching.start⟩
    · obtain ⟨l, le, known⟩ := here.path e' mem
      exact ⟨l, Nat.le_succ_of_le le, same ▸ known⟩
  · obtain ⟨rfl, rfl⟩ := Prod.mk.inj run
    exact ⟨searching, .refl s, le_rfl, fun _ => full, nofun⟩
  · obtain ⟨rfl, rfl⟩ := Prod.mk.inj run
    refine ⟨searching.enter (here.proper_cons links known) (not_le.mp full) none nofun,
      grows_enter none, ?_, fun _ => ?_, nofun⟩
    · simp [Chains.ahead, Chains.enter]
    · rw [Chains.enter, List.length_append]
      exact many.2.trans searching.expanded_le
  · obtain ⟨rfl, rfl⟩ := Prod.mk.inj run
    refine ⟨searching.enter (here.proper_cons links known) (not_le.mp full) _ fun node opens => ?_, grows_enter _, ?_,
      nofun, fun _ => ?_⟩
    · have few := not_le.mp fun much => many ⟨Option.isSome_iff_exists.mpr ⟨node, opens⟩, much⟩
      obtain ⟨⟨short, new⟩, leads⟩ := Option.ite_none_right_eq_some.mp opens
      exact ⟨leads, keyed.key_node e node leads, short, new, few⟩
    · cases opens : s.opened P e path with
      | none => simp [Chains.ahead, Chains.enter]
      | some node =>
        have few := not_le.mp fun much => many ⟨Option.isSome_iff_exists.mpr ⟨node, opens⟩, much⟩
        simp only [Chains.ahead, Chains.enter, Option.map_some, Option.toList_some, List.length_append, List.length_singleton]
        omega
    · have first : e :: path ∈ (s.enter P e path (s.opened P e path)).found :=
        List.mem_append_right _ (List.mem_singleton_self _)
      by_cases seen : P.far e ∈ s.expanded.map Prod.fst
      · obtain ⟨⟨k, l⟩, mem, rfl⟩ := List.mem_map.mp seen
        exact .inl ⟨l, here.near _ mem, List.mem_append_left _ mem⟩
      · by_cases short : path.length + 1 < P.depth
        · cases leads : P.node e with
          | none => exact .inr ⟨⟨e, path, first, rfl, le_rfl⟩, fun opens => (by rw [leads] at opens; cases opens)⟩
          | some node =>
            refine .inl ⟨_, le_rfl, List.mem_append_right _ ?_⟩
            rw [Chains.opened, if_pos ⟨short, seen⟩, leads]
            exact List.mem_singleton_self _
        · refine .inr ⟨⟨e, path, first, rfl, le_rfl⟩, fun opens => ⟨not_lt.mp short, ?_⟩⟩
          rw [Chains.enter, opens, decide_eq_true (not_lt.mp short), Bool.and_self, Bool.or_true]

theorem visitLinks_spec (keyed : P.Keyed) : ∀ (links : List ε) (s : Chains κ ν ε α) {stop : Bool},
    (∀ e ∈ links, P.Links n e) → SearchingChains P s ((n, path) :: s.queue) →
    visitLinks P (P.key n :: P.key P.origin :: path.map P.far) path links s = (s', stop) →
    SearchingChains P s' ((n, path) :: s'.queue) ∧ Grows s s' ∧ s'.ahead P.cap ≤ s.ahead P.cap ∧
      (stop = true → P.cap ≤ s'.found.length) ∧ (stop = false → ∀ e ∈ links, Followed P s' path.length e)
  | [], s, stop, _, searching, run => by
    obtain ⟨rfl, rfl⟩ := Prod.mk.inj run
    exact ⟨searching, .refl s, le_rfl, nofun, nofun⟩
  | e :: rest, s, stop, genuine, searching, run => by
    rw [visitLinks] at run
    split at run
    next s₁ visited =>
      obtain ⟨rfl, rfl⟩ := Prod.mk.inj run
      obtain ⟨searching, grows, fewer, full, _⟩ := visitLink_spec keyed searching (genuine e List.mem_cons_self) visited
      exact ⟨searching, grows, fewer, full, nofun⟩
    next s₁ visited =>
      obtain ⟨searching, grows, fewer, _, first⟩ := visitLink_spec keyed searching (genuine e List.mem_cons_self) visited
      obtain ⟨searching, grows', fewer', full, others⟩ :=
        visitLinks_spec keyed rest s₁ (fun e mem => genuine e (List.mem_cons_of_mem _ mem)) searching run
      exact ⟨searching, ⟨List.Subset.trans grows.expanded grows'.expanded, List.Subset.trans grows.found grows'.found,
        grows'.deep ∘ grows.deep⟩, fewer'.trans fewer, full, fun goes =>
        List.forall_mem_cons.mpr ⟨(first rfl).grow grows', others goes⟩⟩

/-- A round goes on with one node less ahead, or ends the search. -/
theorem chainRound_spec (keyed : P.Keyed) {late : Nat → Bool} (searching : SearchingChains P s s.queue) :
    (∀ s', chainRound P late s = .inl s' → SearchingChains P s' s'.queue ∧ s'.ahead P.cap < s.ahead P.cap) ∧
    ∀ answer, chainRound P late s = .inr answer → Ended P answer := by
  unfold chainRound
  cases waits : s.queue with
  | nil =>
    refine ⟨nofun, fun answer run => ?_⟩
    obtain rfl := Sum.inr.inj run
    exact ⟨⟨_, searching, fun _ => waits⟩, nofun⟩
  | cons q queue =>
    obtain ⟨n, path⟩ := q
    have popped := waits ▸ searching
    have here := popped.waiting (n, path) List.mem_cons_self
    dsimp only
    -- the depth of what is queued is checked when it is queued
    rw [if_neg (not_le.mpr here.shallow : ¬ P.depth ≤ path.length)]
    split_ifs with up
    · refine ⟨nofun, fun answer run => ?_⟩
      obtain rfl := Sum.inr.inj run
      exact ⟨⟨_, searching, nofun⟩, nofun⟩
    · cases known : P.next n with
      | error error =>
        refine ⟨nofun, fun answer run => ?_⟩
        obtain rfl := Sum.inr.inj run
        exact ⟨path, n, here.chained, here.leads, known⟩
      | ok answered =>
        obtain ⟨links, answer⟩ := answered
        have started : SearchingChains P { s with queue, answers := s.answers ++ [answer] }
            ((n, path) :: queue) := { popped with
          waiting := fun q mem => (popped.waiting q mem).grow ⟨List.Subset.refl _, List.Subset.refl _, id⟩
            (popped.waiting q mem).near }
        dsimp only
        cases visited : visitLinks P (P.key n :: P.key P.origin :: path.map P.far) path links
          { s with queue, answers := s.answers ++ [answer] } with
        | mk after stop =>
          obtain ⟨kept, _, fewer, full, followed⟩ := visitLinks_spec keyed links _
            (fun e mem => ⟨links, answer, known, mem⟩) started visited
          cases stop with
          | true =>
            refine ⟨nofun, fun answer run => ?_⟩
            obtain rfl := Sum.inr.inj run
            exact ⟨⟨_, kept, nofun⟩, fun _ => full rfl⟩
          | false =>
            refine ⟨fun s' run => ?_, nofun⟩
            obtain rfl := Sum.inl.inj run
            refine ⟨{ kept with
              waiting := (List.forall_mem_cons.mp kept.waiting).2
              sorted := (List.pairwise_cons.mp kept.sorted).2
              each := fun kl entered => ?_ }, fewer.trans_lt ?_⟩
            · rcases kept.each kl entered with ⟨q, mem, key, level⟩ | closed
              · rcases List.mem_cons.mp mem with rfl | mem
                · refine .inr ⟨n, key, fun e ⟨_, _, known', mem⟩ => ?_⟩
                  obtain ⟨rfl, _⟩ := Prod.mk.inj (Except.ok.inj (known'.symm.trans known))
                  exact level ▸ followed rfl e mem
                · exact .inl ⟨q, mem, key, level⟩
              · exact .inr closed
            · simp only [Chains.ahead, waits, List.length_cons]
              omega

/-- The search ends, however the graph is. -/
theorem searchChains_spec (keyed : P.Keyed) (late : Nat → Bool) (positive : 0 < P.cap) (deep : 0 < P.depth) :
    ∃ answer, searchChains P late = some answer ∧ Ended P answer := by
  have start : SearchingChains P P.start [(P.origin, [])] := by
    refine ⟨nofun, Nat.zero_le _, ⟨List.nodup_singleton _, positive⟩, nofun,
      List.mem_singleton_self _, List.forall_mem_singleton.mpr (.inl rfl), List.forall_mem_singleton.mpr ?_,
      List.pairwise_singleton _ _, List.forall_mem_singleton.mpr (.inl ⟨_, List.mem_singleton_self _, rfl, rfl⟩)⟩
    exact ⟨⟨.nil, Nat.zero_le _, List.nodup_singleton _⟩, rfl, deep, List.mem_singleton_self _, nofun,
      List.forall_mem_singleton.mpr (Nat.zero_le _)⟩
  refine runLoop_of_invariant (Chains.ahead P.cap) (fun s => SearchingChains P s s.queue)
    (Ended P) (fun s t searching round => (chainRound_spec keyed searching).1 t round)
    (fun s answer searching round => (chainRound_spec keyed searching).2 answer round) start ?_
  simp only [Chains.ahead, ChainSearch.start, List.length_singleton]
  omega

omit [DecidableEq κ] in
/-- With the queue empty, every chain within the depth leads to what a chain that is not longer was reported for. -/
theorem SearchingChains.shortest (searching : SearchingChains P s []) (keyed : P.Keyed)
    (chained : Chained P (e :: path)) (within : path.length < P.depth ∨ s.deep = false) :
    P.far e = P.key P.origin ∨ ∃ e' path', e' :: path' ∈ s.found ∧ P.far e' = P.far e ∧ path'.length ≤ path.length := by
  have followed : ∀ {l : Nat} {n : ν} {e : ε}, (P.key n, l) ∈ s.expanded → P.Links n e →
      ∃ e', P.far e' = P.far e ∧ (P.node e').isSome = (P.node e).isSome ∧ Followed P s l e' := by
    intro l n e known links
    rcases searching.each _ known with ⟨q, mem, _⟩ | ⟨m, key, all⟩
    · cases mem
    · obtain ⟨e', links', far, opens⟩ := keyed.alike n m key.symm e links
      exact ⟨e', far, opens, all e' links'⟩
  have level : ∀ {path : List ε}, Chained P path → path.length < P.depth ∨ s.deep = false →
      ∀ n, P.Leads path n → ∃ l ≤ path.length, (P.key n, l) ∈ s.expanded := by
    intro path chained
    induction chained with
    | nil =>
      rintro _ n rfl
      exact ⟨0, le_rfl, searching.start⟩
    | @cons e m path _ leads links ih =>
      intro within n last
      obtain ⟨l, le, known⟩ := ih (within.imp_left Nat.lt_of_succ_lt) m leads
      obtain ⟨e', far, opens, next⟩ := followed known links
      rw [keyed.key_node e n last, ← far]
      rcases next with ⟨l', le', known'⟩ | ⟨_, low⟩
      · exact ⟨l', le'.trans (Nat.succ_le_succ le), known'⟩
      · obtain ⟨low, deep⟩ := low (opens.trans (congrArg Option.isSome last))
        rcases within with short | shallow
        · rw [List.length_cons] at short
          omega
        · exact absurd (deep.symm.trans shallow) Bool.noConfusion
  cases chained with
  | cons chained leads links =>
    obtain ⟨l, le, known⟩ := level chained within _ leads
    obtain ⟨e', far, _, ⟨l', le', known'⟩ | ⟨⟨e'', path', mem, same, short⟩, _⟩⟩ := followed known links
    · rw [← far]
      refine (searching.reported _ known').imp_right fun ⟨e'', path', mem, same, short⟩ => ⟨e'', path', mem, same, ?_⟩
      exact Nat.le_of_lt_succ (short.trans_le (le'.trans (Nat.succ_le_succ le)))
    · exact .inr ⟨e'', path', mem, same.trans far, short.trans le⟩

end Sound

end Lib
