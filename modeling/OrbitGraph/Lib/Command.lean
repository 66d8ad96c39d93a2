import OrbitGraph.Lib.Lists

/-!
Commands over a state that may fail, and triples about them.

A command that fails leaves the state it had got to; only a `transaction` takes
its writes back. A triple has two postconditions, one for the result and one
for the state after a failure. The first section is about the pure part:
computations in `Except`.
-/

namespace Lib

universe u v

variable {ε : Type u} {σ α β : Type v}

variable {x : Except ε α}

theorem bind_eq_ok {f : α → Except ε β} {b : β} : (x >>= f) = .ok b ↔ ∃ a, x = .ok a ∧ f a = .ok b := by
  cases x with
  | error e | ok a => simp [bind, Except.bind]

theorem map_eq_ok {f : α → β} {b : β} : (f <$> x) = .ok b ↔ ∃ a, x = .ok a ∧ f a = b := by
  cases x with
  | error e | ok a => simp [Functor.map, Except.map]

/-- Succeed if a condition holds. -/
def ensure (condition : Prop) [Decidable condition] (otherwise : ε) : Except ε Unit :=
  if condition then .ok () else .error otherwise

theorem mapError_eq_ok {δ : Type u} {f : ε → δ} {a : α} : x.mapError f = .ok a ↔ x = .ok a := by
  cases x with
  | error e => constructor <;> nofun
  | ok b => exact ⟨fun same => congrArg Except.ok (Except.ok.inj same), fun same => congrArg Except.ok (Except.ok.inj same)⟩

theorem ensure_eq_ok {condition : Prop} [Decidable condition] {otherwise : ε} {u : Unit} :
    ensure condition otherwise = .ok u ↔ condition := by
  unfold ensure
  by_cases h : condition <;> simp [h]

variable {as : List α}

variable {f : σ → α → Except ε σ}

/-- What every step of a fold that succeeds keeps, the fold keeps. -/
theorem foldlM_keeps {P : σ → Prop} (keep : ∀ s a t, a ∈ as → P s → f s a = .ok t → P t) {s t : σ} (hs : P s)
    (run : as.foldlM f s = .ok t) : P t := by
  induction as generalizing s with
  | nil =>
    obtain rfl : s = t := Except.ok.inj run
    exact hs
  | cons a rest ih =>
    rw [List.foldlM_cons, bind_eq_ok] at run
    obtain ⟨u, first, run⟩ := run
    refine ih (fun s b t mem => keep s b t (List.mem_cons_of_mem _ mem)) ?_ run
    exact keep s a u List.mem_cons_self hs first

/-- A fold whose steps do on a part of the state what those of another fold do, does what that fold does. -/
theorem foldlM_map {τ γ : Type v} {g : σ → τ} {h : α → γ} {f' : τ → γ → Except ε τ}
    (step : ∀ s a, (f s a).map g = f' (g s) (h a)) (as : List α) (s : σ) :
    (as.foldlM f s).map g = (as.map h).foldlM f' (g s) := by
  induction as generalizing s with
  | nil => rfl
  | cons a rest ih =>
    rw [List.map_cons, List.foldlM_cons, List.foldlM_cons, ← step]
    cases f s a with
    | error e => rfl
    | ok t => exact ih t

/-- A fold whose steps succeed and keep `P` succeeds. -/
theorem foldlM_answers {P : σ → Prop} (step : ∀ s a, a ∈ as → P s → ∃ t, f s a = .ok t ∧ P t) {s : σ} (hs : P s) :
    ∃ t, as.foldlM f s = .ok t ∧ P t := by
  induction as generalizing s with
  | nil => exact ⟨s, rfl, hs⟩
  | cons a rest ih =>
    obtain ⟨u, first, hu⟩ := step s a List.mem_cons_self hs
    obtain ⟨t, run, ht⟩ := ih (fun s b mem => step s b (List.mem_cons_of_mem _ mem)) hu
    exact ⟨t, by rw [List.foldlM_cons, first]; exact run, ht⟩

/-- A fold that succeeds from one state succeeds from a related one whose steps follow. -/
theorem foldlM_related {τ : Type v} {R : σ → τ → Prop} {g : τ → α → Except ε τ}
    (step : ∀ s t a s', R s t → f s a = .ok s' → ∃ t', g t a = .ok t' ∧ R s' t') {s s' : σ} {t : τ}
    (related : R s t) (run : as.foldlM f s = .ok s') : ∃ t', as.foldlM g t = .ok t' ∧ R s' t' := by
  induction as generalizing s t with
  | nil =>
    obtain rfl := Except.ok.inj run
    exact ⟨t, rfl, related⟩
  | cons a rest ih =>
    rw [List.foldlM_cons, bind_eq_ok] at run
    obtain ⟨u, first, run⟩ := run
    obtain ⟨v, first', related⟩ := step s t a u related first
    obtain ⟨t', others, related⟩ := ih related run
    exact ⟨t', by rw [List.foldlM_cons, first']; exact others, related⟩

/-- A fold that succeeds, followed by the elements it has done. -/
theorem foldlM_split {P : List α → σ → Prop}
    (keep : ∀ done a rest s t, as = done ++ a :: rest → P done s → f s a = .ok t → P (done ++ [a]) t)
    {s t : σ} (hs : P [] s) (run : as.foldlM f s = .ok t) : P as t := by
  suffices h : ∀ done rest s, as = done ++ rest → P done s → rest.foldlM f s = .ok t → P as t from
    h [] as s rfl hs run
  intro done rest
  induction rest generalizing done with
  | nil =>
    intro s split hs run
    obtain rfl : s = t := Except.ok.inj run
    simpa [split] using hs
  | cons a rest ih =>
    intro s split hs run
    rw [List.foldlM_cons, bind_eq_ok] at run
    obtain ⟨u, first, run⟩ := run
    exact ih (done ++ [a]) u (by simp [split]) (keep done a rest s u split hs first) run

/-- A fold that succeeds, followed by an index: what holds after `done` and the
steps that come first holds at the end of all steps. -/
theorem foldlM_invariant {P : List α → σ → Prop}
    (keep : ∀ done s a t, P done s → f s a = .ok t → P (done ++ [a]) t) {as done : List α} {s t : σ}
    (hs : P done s) (run : as.foldlM f s = .ok t) : P (done ++ as) t := by
  refine foldlM_split (P := fun xs => P (done ++ xs)) (fun xs a _ s t _ hs first => ?_) (s := s)
    (by simpa using hs) run
  simpa using keep (done ++ xs) s a t hs first

theorem forM_eq_ok {f : α → Except ε PUnit} {u : PUnit} : as.forM f = .ok u ↔ ∀ a ∈ as, f a = .ok u := by
  induction as with
  | nil => simp [pure, Except.pure]
  | cons a rest ih =>
    change (f a >>= fun _ => rest.forM f) = .ok u ↔ _
    rw [bind_eq_ok, List.forall_mem_cons, ← ih]
    constructor
    · rintro ⟨_, first, others⟩
      exact ⟨first, others⟩
    · rintro ⟨first, others⟩
      exact ⟨u, first, others⟩

theorem allM_eq_true {f : α → Except ε Bool} : as.allM f = .ok true ↔ ∀ a ∈ as, f a = .ok true := by
  induction as with
  | nil => simp [pure, Except.pure]
  | cons a rest ih =>
    rw [List.forall_mem_cons, ← ih, List.allM, bind_eq_ok]
    constructor
    · rintro ⟨b, first, others⟩
      cases b with
      | true => exact ⟨first, others⟩
      | false => cases others
    · rintro ⟨first, others⟩
      exact ⟨true, first, others⟩

theorem filterM_eq_ok {α ε : Type} {p : α → Bool} {f : α → Except ε Bool} {as bs : List α}
    (reads : ∀ a b, f a = .ok b → b = p a) (run : as.filterM f = .ok bs) : bs = as.filter p := by
  suffices h : ∀ as acc bs, List.filterAuxM f as acc = .ok bs → bs.reverse = acc.reverse ++ as.filter p by
    rw [List.filterM, bind_eq_ok] at run
    obtain ⟨found, run, eq⟩ := run
    obtain rfl := Except.ok.inj eq
    simpa using h as [] found run
  intro as
  induction as with
  | nil =>
    intro acc bs run
    obtain rfl := Except.ok.inj run
    simp
  | cons a rest ih =>
    intro acc bs run
    rw [List.filterAuxM, bind_eq_ok] at run
    obtain ⟨b, first, run⟩ := run
    rw [ih _ _ run, List.filter_cons, ← reads a b first]
    cases b <;> simp

theorem filterM_answers {α ε : Type} {f : α → Except ε Bool} {as : List α} :
    (∃ bs, as.filterM f = .ok bs) ↔ ∀ a ∈ as, ∃ b, f a = .ok b := by
  suffices h : ∀ as acc, (∃ bs, List.filterAuxM f as acc = .ok bs) ↔ ∀ a ∈ as, ∃ b, f a = .ok b by
    rw [← h as [], List.filterM]
    cases List.filterAuxM f as [] with
    | error e => simp [bind, Except.bind]
    | ok found => simp [bind, Except.bind, pure, Except.pure]
  intro as
  induction as with
  | nil => exact fun acc => ⟨fun _ => nofun, fun _ => ⟨acc, rfl⟩⟩
  | cons a rest ih =>
    intro acc
    rw [List.filterAuxM, List.forall_mem_cons]
    cases f a with
    | error e => simp [bind, Except.bind]
    | ok b => simpa [bind, Except.bind] using ih (bif b then a :: acc else acc)

variable {bs : List β}

/-- A traversal that succeeds relates the elements to the results one by one. -/
theorem forall₂_of_mapM {f : α → Except ε β}
    (run : as.mapM f = .ok bs) : List.Forall₂ (fun a b => f a = .ok b) as bs := by
  induction as generalizing bs with
  | nil =>
    obtain rfl : [] = bs := Except.ok.inj run
    exact .nil
  | cons a rest ih =>
    rw [List.mapM_cons, bind_eq_ok] at run
    obtain ⟨b, first, run⟩ := run
    obtain ⟨cs, others, run⟩ := bind_eq_ok.mp run
    obtain rfl := Except.ok.inj run
    exact .cons first (ih others)

theorem mem_of_mapM {f : α → Except ε β} (run : as.mapM f = .ok bs) {b : β} : b ∈ bs ↔ ∃ a ∈ as, f a = .ok b := by
  have related := forall₂_of_mapM run
  clear run
  induction related with
  | nil => simp
  | cons first _ ih => simp [ih, first, eq_comm]

theorem ok_of_mapM {f : α → Except ε β} (run : as.mapM f = .ok bs) {a : α} (mem : a ∈ as) : ∃ b ∈ bs, f a = .ok b :=
  exists_of_forall₂ (forall₂_of_mapM run).flip mem

theorem mapM_of_forall_ok {f : α → Except ε β} {g : α → β} (each : ∀ a ∈ as, f a = .ok (g a)) :
    as.mapM f = .ok (as.map g) := by
  induction as with
  | nil => rfl
  | cons a rest ih =>
    rw [List.mapM_cons, each a List.mem_cons_self, ih fun b mem => each b (List.mem_cons_of_mem _ mem)]
    rfl

theorem filterMap_of_mapM {γ : Type v} {f : α → Except ε β} (run : as.mapM f = .ok bs)
    (g : β → Option γ) : bs.filterMap g = as.filterMap fun a => (f a).toOption.bind g := by
  have related := forall₂_of_mapM run
  clear run
  induction related with
  | nil => rfl
  | @cons a b as bs first _ ih =>
    have same : (f a).toOption.bind g = g b := by
      rw [first]
      rfl
    simp only [List.filterMap_cons, same, ih]

/-- A command: it reads and writes a state, and fails or answers. -/
def Command (ε : Type u) (σ α : Type v) := σ → Except ε α × σ

namespace Command

/-- Answer `a`. -/
def answer (a : α) : Command ε σ α := fun s => (.ok a, s)

def fail (e : ε) : Command ε σ α := fun s => (.error e, s)

/-- `c`, then `f` of its answer; a failure of `c` ends the command. -/
def andThen (c : Command ε σ α) (f : α → Command ε σ β) : Command ε σ β := fun s =>
  match c s with
  | (.ok a, t) => f a t
  | (.error e, t) => (.error e, t)

instance : Monad (Command ε σ) where
  pure := answer
  bind := andThen

/-- A computation on the state as it is. -/
def query (f : σ → Except ε α) : Command ε σ α := fun s => (f s, s)

/-- How `c` ends, as an answer; a failure does not end the command. -/
def attempt {δ σ α : Type v} (c : Command δ σ α) : Command δ σ (Except δ α) := fun s => (.ok (c s).1, (c s).2)

/-- All of `body`'s writes or none: `interruption` stands for a failure of the
surroundings at any point up to the commit. -/
def transaction (interruption : Option ε) (body : σ → Except ε (α × σ)) : Command ε σ α := fun s =>
  match interruption with
  | some e => (.error e, s)
  | none =>
    match body s with
    | .ok (a, t) => (.ok a, t)
    | .error e => (.error e, s)

/-- From a state in `P`, an answer and the state after it are in `Q`, and the state
after a failure is in `E`. -/
def Triple (P : σ → Prop) (c : Command ε σ α) (Q : α → σ → Prop) (E : σ → Prop) : Prop :=
  ∀ s, P s → match c s with
    | (.ok a, t) => Q a t
    | (.error _, t) => E t

variable {P P' E : σ → Prop} {Q Q' : α → σ → Prop} {R : β → σ → Prop} {c : Command ε σ α}

namespace Triple

theorem ok (h : Triple P c Q E) {s t : σ} {a : α} (hs : P s) (run : c s = (.ok a, t)) : Q a t := by
  have := h s hs
  rwa [run] at this

theorem outcome (h : Triple P c Q E) {s : σ} (hs : P s) :
    (∃ a, (c s).1 = .ok a ∧ Q a (c s).2) ∨ ∃ e, (c s).1 = .error e ∧ E (c s).2 := by
  have := h s hs
  cases hc : c s with
  | mk result t =>
    rw [hc] at this
    cases result with
    | error e => exact .inr ⟨e, rfl, this⟩
    | ok a => exact .inl ⟨a, rfl, this⟩

theorem answered (h : Triple P c Q E) {s : σ} {a : α} (hs : P s) (run : (c s).1 = .ok a) : Q a (c s).2 :=
  h.ok hs (Prod.ext run rfl)

theorem answer {a : α} (h : ∀ s, P s → Q a s) : Triple P (Command.answer a : Command ε σ α) Q E :=
  h

theorem andThen {f : α → Command ε σ β} (hc : Triple P c Q E) (hf : ∀ a, Triple (Q a) (f a) R E) :
    Triple P (c >>= f) R E := by
  intro s hs
  have first := hc s hs
  cases h : c s with
  | mk result t =>
    rw [h] at first
    cases result with
    | error e => simpa [bind, Command.andThen, h] using first
    | ok a =>
      have second := hf a t first
      simpa [bind, Command.andThen, h] using second

theorem query {f : σ → Except ε α} (h : ∀ s a, P s → f s = .ok a → Q a s) (err : ∀ s, P s → E s) :
    Triple P (Command.query f) Q E := by
  intro s hs
  cases hf : f s with
  | error e => simpa [Command.query, hf] using err s hs
  | ok a => simpa [Command.query, hf] using h s a hs hf

variable {body : σ → Except ε (α × σ)}

theorem transaction {interruption : Option ε}
    (commit : ∀ s a t, P s → body s = .ok (a, t) → Q a t) (back : ∀ s, P s → E s) :
    Triple P (Command.transaction interruption body) Q E := by
  intro s hs
  cases interruption with
  | some e => simpa [Command.transaction] using back s hs
  | none =>
    cases h : body s with
    | error e => simpa [Command.transaction, h] using back s hs
    | ok result => simpa [Command.transaction, h] using commit s result.1 result.2 hs h

theorem query_answers {f : σ → Except ε α} (h : ∀ s, P s → ∃ a, f s = .ok a ∧ Q a s) :
    Triple P (Command.query f) Q E := by
  intro s hs
  obtain ⟨a, answer, post⟩ := h s hs
  simpa [Command.query, answer] using post

/-- A transaction that nothing interrupts, of a body that answers, cannot fail. -/
theorem transaction_answers (h : ∀ s, P s → ∃ a t, body s = .ok (a, t) ∧ Q a t) :
    Triple P (Command.transaction none body) Q E := by
  intro s hs
  obtain ⟨a, t, answer, post⟩ := h s hs
  simpa [Command.transaction, answer] using post

theorem weaken (h : Triple P c Q E) (pre : ∀ s, P' s → P s) (post : ∀ a s, Q a s → Q' a s) : Triple P' c Q' E := by
  intro s hs
  have := h s (pre s hs)
  cases hc : c s with
  | mk result t =>
    rw [hc] at this
    cases result with
    | error e => exact this
    | ok a => exact post a t this

theorem weakenError {E' : σ → Prop} (h : Triple P c Q E) (err : ∀ s, E s → E' s) : Triple P c Q E' := by
  intro s hs
  have := h s hs
  cases hc : c s with
  | mk result t =>
    rw [hc] at this
    cases result with
    | error e => exact err t this
    | ok a => exact this

/-- A triple may be proved for one state at a time. -/
theorem of_each (h : ∀ s, P s → Triple (· = s) c Q E) : Triple P c Q E :=
  fun s hs => h s hs s rfl

end Triple

/-- A command keeps `P`, whether it answers or fails. -/
def Keeps (P : σ → Prop) (c : Command ε σ α) : Prop := Triple P c (fun _ => P) P

namespace Keeps

theorem state (h : Keeps P c) {s : σ} (hs : P s) : P (c s).2 := by
  have := h s hs
  cases hc : c s with
  | mk result t =>
    rw [hc] at this
    cases result with
    | error e => exact this
    | ok a => exact this

theorem answer {a : α} : Keeps P (Command.answer a : Command ε σ α) := Triple.answer fun _ h => h

theorem query {f : σ → Except ε α} : Keeps P (Command.query f) :=
  Triple.query (fun _ _ h _ => h) fun _ h => h

theorem andThen {f : α → Command ε σ β} (hc : Keeps P c) (hf : ∀ a, Keeps P (f a)) : Keeps P (c >>= f) :=
  Triple.andThen hc hf

theorem transaction {interruption : Option ε} {body : σ → Except ε (α × σ)}
    (commit : ∀ s a t, P s → body s = .ok (a, t) → P t) : Keeps P (Command.transaction interruption body) :=
  Triple.transaction commit fun _ h => h

end Keeps

def committed (result : Except ε (α × σ)) (s : σ) : σ :=
  match result with
  | .ok (_, t) => t
  | .error _ => s

variable {f : α → Command ε σ β} {s t : σ}

theorem andThen_cases {outcome : Except ε β} (run : andThen c f s = (outcome, t)) :
    (∃ a u, c s = (.ok a, u) ∧ f a u = (outcome, t)) ∨ ∃ e, c s = (.error e, t) ∧ outcome = .error e := by
  unfold andThen at run
  cases first : c s with
  | mk answer u =>
    rw [first] at run
    cases answer with
    | ok a => exact .inl ⟨a, u, rfl, run⟩
    | error e =>
      obtain ⟨rfl, rfl⟩ := Prod.mk.inj run
      exact .inr ⟨e, rfl, rfl⟩

theorem of_andThen_ok {b : β} (run : andThen c f s = (.ok b, t)) : ∃ a u, c s = (.ok a, u) ∧ f a u = (.ok b, t) := by
  rcases andThen_cases run with ran | ⟨e, _, failed⟩
  · exact ran
  · cases failed

theorem andThen_of_ok {a : α} (run : c s = (.ok a, t)) : (c >>= f) s = f a t := by
  simp [bind, andThen, run]

theorem andThen_of_error {e : ε} (run : c s = (.error e, t)) : (c >>= f) s = (.error e, t) := by
  simp [bind, andThen, run]

theorem transaction_state (interruption : Option ε) (body : σ → Except ε (α × σ)) (s : σ) :
    (transaction interruption body s).2 = match interruption with
      | some _ => s
      | none => committed (body s) s := by
  cases interruption with
  | some _ => rfl
  | none =>
    rw [transaction]
    cases body s <;> rfl

theorem committed_cases (result : Except ε (α × σ)) (s : σ) :
    committed result s = s ∨ ∃ a, result = .ok (a, committed result s) := by
  cases result with
  | error _ => exact .inl rfl
  | ok answer => exact .inr ⟨answer.1, rfl⟩

theorem andThen_unchanged {s : σ} (first : (c s).2 = s) (rest : ∀ a, (f a s).2 = s) : ((c >>= f) s).2 = s := by
  cases ran : c s with
  | mk result t =>
    rw [ran] at first
    obtain rfl : t = s := first
    cases result with
    | error _ => rw [andThen_of_error ran]
    | ok a =>
      rw [andThen_of_ok ran]
      exact rest a

end Command

end Lib
