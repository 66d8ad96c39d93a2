import OrbitGraph.Lib.Text

/-!
The values of delivery history: import envelopes, what is extracted from Git for
one delivery, and the errors of the history index.

A stored `payload_json` is the value it encodes.
-/

namespace OrbitGraph.History

open Lib

/-- The errors of the history index. The first argument of most is the operation
that failed. -/
inductive GraphError where
  | io (operation reason : Text)
  | sqlite (operation reason : Text)
  | git (operation reason : Text)
  | invalidInput (operation field reason : Text)
  | invalidData (operation reason : Text)
  | timeout (operation detail : Text)
  | indexMissing (path reason : Text)
  | indexIncompatible (path reason : Text)
  | versionMismatch (key found expected path command : Text)
  deriving DecidableEq

def decimal (n : Nat) : Text := Nat.toDigits 10 n

/-- A signed number, as `i64::to_string` writes it. -/
def signedDecimal : Int → Text
  | .ofNat n => decimal n
  | .negSucc n => '-' :: decimal (n + 1)

/-- `i64_len`: a count that SQLite can hold. -/
def i64Len (value : Nat) : Except GraphError Nat :=
  if value < 2 ^ 63 then .ok value
  else .error (.invalidData "store history count"
    "out of range integral type conversion attempted")

theorem i64Len_ok {value stored : Nat} (h : i64Len value = .ok stored) : stored = value := by
  unfold i64Len at h
  split at h
  · exact (Except.ok.inj h).symm
  · cases h

/-! ### Object ids -/

/-- The digits of an object id. -/
def hexDigits : List Char := "0123456789abcdef"

/-- A Git object id: its forty hexadecimal digits, which is how it prints. -/
structure Oid where
  hex : Text
  wellFormed : hex.length = 40 ∧ ∀ c ∈ hex, c ∈ hexDigits
  deriving DecidableEq

theorem replicate_wellFormed {digit : Char} (isHex : digit ∈ hexDigits) :
    (List.replicate 40 digit).length = 40 ∧ ∀ c ∈ List.replicate 40 digit, c ∈ hexDigits :=
  ⟨List.length_replicate, fun c mem => by
    rw [List.eq_of_mem_replicate mem]
    exact isHex⟩

def Oid.ofDigit (digit : Char) (isHex : digit ∈ hexDigits) : Oid :=
  ⟨List.replicate 40 digit, replicate_wellFormed isHex⟩

/-- `Oid::from_str`: a shorter id is filled up with zeros. -/
def Oid.fromStr (value : Text) : Option Oid :=
  let digits := value.map Char.toLower
  let filled := digits ++ List.replicate (40 - digits.length) '0'
  if h : value ≠ [] ∧ filled.length = 40 ∧ filled.all (· ∈ hexDigits) = true then
    some ⟨filled, h.2.1, fun c mem => of_decide_eq_true (List.all_eq_true.mp h.2.2 c mem)⟩
  else none

private theorem toLower_hexDigit : ∀ c ∈ hexDigits, c.toLower = c := fun c mem => by
  have all : hexDigits.all (fun c => c.toLower = c) = true := by decide
  exact of_decide_eq_true (List.all_eq_true.mp all c mem)

theorem Oid.fromStr_hex (oid : Oid) : Oid.fromStr oid.hex = some oid := by
  obtain ⟨hex, length, digits⟩ := oid
  have lower : hex.map Char.toLower = hex := by
    conv_rhs => rw [← List.map_id hex]
    exact List.map_congr_left fun c mem => toLower_hexDigit c (digits c mem)
  have nonempty : hex ≠ [] := by
    rintro rfl
    simp at length
  have filled : hex.map Char.toLower ++
      List.replicate (40 - (hex.map Char.toLower).length) '0' = hex := by
    rw [lower, length]
    simp
  simp only [Oid.fromStr, filled]
  rw [dif_pos ⟨nonempty, length, List.all_eq_true.mpr fun c mem => decide_eq_true (digits c mem)⟩]

theorem Oid.hex_injective {a b : Oid} (h : a.hex = b.hex) : a = b := by
  have := Oid.fromStr_hex a
  rw [h, Oid.fromStr_hex b] at this
  exact (Option.some.inj this).symm

/-! ### Envelopes -/

/-- Strength of evidence connecting a delivery to task metadata. -/
inductive DeliveryEvidence where
  | verifiedDelivery
  | callerAttested
  | gitOnly
  deriving DecidableEq

def DeliveryEvidence.asStr : DeliveryEvidence → Text
  | .verifiedDelivery => "verified_delivery"
  | .callerAttested => "caller_attested"
  | .gitOnly => "git_only"

/-- Who produced a record, and its id there. -/
structure Provenance where
  system : Text
  recordId : Option Text
  deriving DecidableEq

inductive TemporalStatus where
  | known
  | uncertain
  | unavailable
  deriving DecidableEq

/-- `temporal_status`. -/
def TemporalStatus.asStr : TemporalStatus → Text
  | .known => "known"
  | .uncertain => "uncertain"
  | .unavailable => "unavailable"

/-- A timestamp with its confidence and source. -/
structure TemporalFact where
  status : TemporalStatus
  timestamp : Option Text
  source : Provenance
  deriving DecidableEq

inductive TaskTextAvailability where
  | knownPreExecution
  | postExecution
  | uncertain
  deriving DecidableEq

/-- `task_text_availability`. -/
def TaskTextAvailability.asStr : TaskTextAvailability → Text
  | .knownPreExecution => "known_pre_execution"
  | .postExecution => "post_execution"
  | .uncertain => "uncertain"

/-- Task text associated with a delivered change. -/
structure TaskAssociation where
  taskId : Text
  title : Text
  description : Text
  acceptanceCriteria : List Text
  source : Provenance
  createdAt : TemporalFact
  snapshotAvailableAt : TemporalFact
  textAvailability : TaskTextAvailability
  capturedAt : Text
  deriving DecidableEq

/-- One delivered revision range, as its producer describes it. -/
structure DeliveryImport where
  schemaVersion : Nat
  repository : Text
  landingBranch : Text
  beforeRevision : Text
  afterRevision : Text
  deliveryId : Text
  evidence : DeliveryEvidence
  source : Provenance
  deliveredAt : TemporalFact
  capturedAt : Text
  tasks : List TaskAssociation
  deriving DecidableEq

/-! ### Extracted changes -/

inductive FileChangeKind where
  | added
  | modified
  | deleted
  | renamed
  | copied
  | typeChanged
  | unreadable
  deriving DecidableEq

def FileChangeKind.asStr : FileChangeKind → Text
  | .added => "added"
  | .modified => "modified"
  | .deleted => "deleted"
  | .renamed => "renamed"
  | .copied => "copied"
  | .typeChanged => "type_changed"
  | .unreadable => "unreadable"

inductive RevisionSide where
  | before
  | after
  deriving DecidableEq

inductive FileFallbackReason where
  | unsupportedLanguage
  | binary
  | parseOrExtractionUncertain
  | noEnclosingNamedSymbol
  | fileUnavailable
  deriving DecidableEq

inductive SymbolMatchConfidence where
  | exact
  | similar
  | uncertain
  | unmatched
  deriving DecidableEq

/-- A named symbol at one immutable revision. -/
structure SymbolIdentity where
  revision : Text
  side : RevisionSide
  filePath : Text
  name : Text
  qualified : Text
  kind : Text
  spanStart : Nat
  spanEnd : Nat
  signature : Option Text
  parent : Option Text
  deriving DecidableEq

structure SymbolAttribution where
  symbol : SymbolIdentity
  changedLines : List Nat
  deriving DecidableEq

structure SymbolChange where
  before : Option SymbolAttribution
  after : Option SymbolAttribution
  matchConfidence : SymbolMatchConfidence
  reason : Text
  liveAfter : Bool
  deriving DecidableEq

structure FileChange where
  oldPath : Option Text
  newPath : Option Text
  kind : FileChangeKind
  additions : Nat
  deletions : Nat
  symbols : List SymbolChange
  beforeFallback : Option FileFallbackReason
  afterFallback : Option FileFallbackReason
  deriving DecidableEq

/-- A delivery with what Git says changed, and the snapshots callers supplied for
its tasks. -/
structure DeliveredChange where
  delivery : DeliveryImport
  files : List FileChange
  suppliedSnapshots : List TaskAssociation
  deriving DecidableEq

end OrbitGraph.History
