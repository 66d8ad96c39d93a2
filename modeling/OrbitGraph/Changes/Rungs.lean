import OrbitGraph.Changes.Pairer
import OrbitGraph.Lib.Command
import OrbitGraph.Lib.Crossing

/-!
The steps of the rungs that may pair, in one form.

Whichever rung it is of, a step groups the unpaired symbols of two files by a key of each
side, and makes an entry of a group of one and one, or one uncertain entry.
-/

namespace OrbitGraph.Changes

open Lib

attribute [local instance] lexOrd

namespace Pairer

/-- A step of the later rungs that may pair. -/
inductive GroupStep where
  | moved (basePath headPath : Text) (kind : FileChangeKind)
  | renamed (basePath headPath : Text) (kind : FileChangeKind)
  | bodies (path : Text) (fileChange : FileChangeKind)

/-- The steps of rungs 3, 4 and 5, in their order. -/
def groupSteps (files : ChangedFiles) : List GroupStep :=
  files.renamedPairs.flatMap (fun (basePath, headPath, kind) =>
    [.moved basePath headPath kind, .renamed basePath headPath kind]) ++
  files.sameFilePaths.map fun (path, fileChange) => .bodies path fileChange

namespace GroupStep

def basePath : GroupStep → Text
  | moved basePath _ _ | renamed basePath _ _ => basePath
  | bodies path _ => path

def headPath : GroupStep → Text
  | moved _ headPath _ | renamed _ headPath _ => headPath
  | bodies path _ => path

def kind : GroupStep → FileChangeKind
  | moved _ _ kind | renamed _ _ kind => kind
  | bodies _ fileChange => fileChange

def status : GroupStep → ChangeStatus
  | moved _ _ _ => .moved
  | renamed _ _ _ | bodies _ _ => .renamed

end GroupStep

def GroupStep.evidence : GroupStep → PairingEvidence
  | moved _ _ kind | renamed _ _ kind => gitEvidence kind
  | bodies _ _ => .bodyHash

def take (p : Pairer) : GroupStep → Except ChangesError Pairer
  | .moved basePath headPath kind => p.pairMovedInFile basePath headPath kind (gitEvidence kind)
  | .renamed basePath headPath kind => p.pairRenamedInFile basePath headPath kind (gitEvidence kind)
  | .bodies path fileChange => p.pairBodiesInFile path fileChange

variable (o : Pairer)

/-- The body key of a symbol whose source can be read. -/
def bodyKeyOf (inventory : SideInventory) (s : Text) : Option (Text × Text × UInt64 × List UInt8) :=
  (o.bodyKey inventory s).toOption.join

/-- Symbols of one key, whichever key the step has. -/
def KeyedAlike : GroupStep → Text → Text → Prop
  | .moved _ _ _ => SameKey (nameAndKind o.base) (nameAndKind o.head)
  | .renamed _ _ _ => SameKey (kindOf o.base) (kindOf o.head)
  | .bodies _ _ => SameKey (o.bodyKeyOf o.base) (o.bodyKeyOf o.head)

variable {o}

/-- The entry of a step for a pair. -/
structure PairEntry (p : Pairer) (step : GroupStep) (b h : Text) (e : ChangedSymbol) : Prop where
  status : e.status = step.status
  evidence : e.pairingEvidence = step.evidence
  base : e.base = some (p.base.symbolRef b)
  head : e.head = some (p.head.symbolRef h)
  fileChange : e.fileChange = step.kind
  paths : (e.basePath, e.headPath) = (p.fileChangeForBase b).2

def without (p : Pairer) (base head : Text) : Pairer :=
  { p with unpairedBase := p.unpairedBase.erase base, unpairedHead := p.unpairedHead.erase head }

variable {p q : Pairer}

section Groups

variable {κ : Type}

/-- What a step does with the symbols of one key: a pair, or candidates. -/
def TakesGroups (step : GroupStep) (emit : Pairer → κ → List Text → List Text → Except ChangesError Pairer) : Prop :=
  ∀ p k bases heads q, emit p k bases heads = .ok q →
    (∃ b h e, bases = [b] ∧ heads = [h] ∧ q = (p.without b h).push e ∧ p.PairEntry step b h e ∧
      e.uncertainCandidates = []) ∨
    (∀ b h, bases = [b] → heads ≠ [h]) ∧ ∃ kind reason, q = p.emitUncertainGroup bases heads kind reason

theorem takesGroups {step : GroupStep} {pairOne : Pairer → Text → Text → Except ChangesError Pairer}
    (pair : ∀ p b h q, pairOne p b h = .ok q → ∃ e, q = (p.without b h).push e ∧ p.PairEntry step b h e ∧
      e.uncertainCandidates = []) (kind : FileChangeKind) (reason : κ → Text) :
    TakesGroups step fun p k => p.emitGroup (pairOne p) kind (reason k) := by
  intro p k bases heads q run
  replace run : p.emitGroup (pairOne p) kind (reason k) bases heads = .ok q := run
  unfold emitGroup at run
  split at run
  next b h =>
    obtain ⟨e, rest⟩ := pair p b h q run
    exact .inl ⟨b, h, e, rfl, rfl, rest⟩
  next several =>
    obtain rfl := Except.ok.inj run
    exact .inr ⟨fun b h one one' => several b h one one', kind, _, rfl⟩

end Groups

/-- The groups of the bodies are those of the body key. -/
theorem getElem?_bodyGroups {inventory : SideInventory} {path : Text}
    {found : Std.TreeMap (Text × Text × UInt64 × List UInt8) (List Text)} (run : p.bodyGroups inventory path = .ok found)
    (k : Text × Text × UInt64 × List UInt8) :
    found[k]? = (groups (p.bodyKeyOf inventory) (p.unpairedIn inventory path))[k]? := by
  obtain ⟨keys, mapped, rest⟩ := bind_eq_ok.mp run
  obtain rfl := Except.ok.inj rest
  have read : ∀ {selectors keys}, List.Forall₂ (fun s key => p.bodyKey inventory s = .ok key) selectors keys →
      keys = selectors.map (p.bodyKeyOf inventory) := by
    intro selectors keys related
    induction related with
    | nil => rfl
    | cons first _ ih =>
      have here : p.bodyKeyOf inventory _ = _ := congrArg (fun key => (Except.toOption key).join) first
      rw [List.map_cons, here, ← ih]
      rfl
  rw [read (forall₂_of_mapM mapped), getElem?_groups_zip]

/-- **What every step is**: groups by a key of each side, each of them taken. -/
theorem groups_of_take {C : Prop} {step : GroupStep} (run : p.take step = .ok q)
    (rule : ∀ {κ : Type} [Ord κ] [Std.TransOrd κ] [Std.LawfulEqOrd κ] [DecidableEq κ]
      {emit : Pairer → κ → List Text → List Text → Except ChangesError Pairer}
      {baseGroups headGroups : Std.TreeMap κ (List Text)} (baseKey headKey : Text → Option κ),
      TakesGroups step emit →
      (∀ k : κ, baseGroups[k]? = (groups baseKey (p.unpairedIn p.base step.basePath))[k]?) →
      (∀ k : κ, headGroups[k]? = (groups headKey (p.unpairedIn p.head step.headPath))[k]?) →
      p.KeyedAlike step = SameKey baseKey headKey → p.overGroups emit baseGroups headGroups = .ok q → C) : C := by
  cases step with
  | moved basePath headPath kind =>
    rw [take, pairMovedInFile] at run
    refine rule _ _ (takesGroups (fun p b h q run => ?_) kind _) (fun _ => rfl) (fun _ => rfl) rfl run
    obtain ⟨baseSource, -, run⟩ := bind_eq_ok.mp run
    obtain ⟨headSource, -, run⟩ := bind_eq_ok.mp run
    exact ⟨_, (Except.ok.inj run).symm, ⟨rfl, rfl, rfl, rfl, rfl, rfl⟩, rfl⟩
  | renamed basePath headPath kind =>
    rw [take, pairRenamedInFile] at run
    refine rule _ _ (takesGroups (fun p b h q run => ?_) kind _) (fun _ => rfl) (fun _ => rfl) rfl run
    exact ⟨_, (Except.ok.inj run).symm, ⟨rfl, rfl, rfl, rfl, rfl, rfl⟩, rfl⟩
  | bodies path fileChange =>
    obtain ⟨baseGroups, baseRun, run⟩ := bind_eq_ok.mp run
    obtain ⟨headGroups, headRun, run⟩ := bind_eq_ok.mp run
    refine rule _ _ (takesGroups (fun p b h q run => ?_) fileChange _) (getElem?_bodyGroups baseRun)
      (getElem?_bodyGroups headRun) rfl run
    exact ⟨_, (Except.ok.inj run).symm, ⟨rfl, rfl, rfl, rfl, rfl, rfl⟩, rfl⟩

end Pairer

end OrbitGraph.Changes
