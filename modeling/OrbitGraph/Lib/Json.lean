import OrbitGraph.Lib.Command
import OrbitGraph.Lib.Text

/-!
JSON values, and reading structures from them.

A structure is read from an object, by the names of its fields, or from an array, by
their order; a unit variant from its name, or from an object of one field that is null.
Fields that a structure does not have are ignored. Which of several errors is reported
depends on the order of an object's fields, and is the first in the structure's order here.
-/

namespace Lib

universe u

/-- A JSON value; the names of an object's fields are looked up from the front. -/
inductive Json where
  | null
  | bool (b : Bool)
  | nat (n : UInt64)
  | negative (n : Int)
  | float (digits : Text)
  | string (s : Text)
  | array (items : List Json)
  | object (fields : List (Text × Json))

/-- Why a value is not one of a type. -/
inductive SerdeError where
  | invalidType (expected : Text)
  | unknownVariant (found : Text)
  | missingField (field : Text)
  | invalidLength (length : Nat)

namespace Json

def get (name : Text) : Json → Option Json
  | .object fields => fields.lookup name
  | _ => none

def asU64 : Json → Option UInt64
  | .nat n => some n
  | _ => none

def decodeString : Json → Except SerdeError Text
  | .string s => .ok s
  | _ => .error (.invalidType "a string")

def decodeU64 : Json → Except SerdeError UInt64
  | .nat n => .ok n
  | _ => .error (.invalidType "u64")

def decodeU32 : Json → Except SerdeError UInt32
  | .nat n => if n.toNat < 2 ^ 32 then .ok n.toUInt32 else .error (.invalidType "u32")
  | _ => .error (.invalidType "u32")

def decodeArray {α : Type u} (decode : Json → Except SerdeError α) : Json → Except SerdeError (List α)
  | .array items => items.mapM decode
  | _ => .error (.invalidType "a sequence")

def decodeOption {α : Type u} (decode : Json → Except SerdeError α) : Json → Except SerdeError (Option α)
  | .null => .ok none
  | value => (decode value).map some

def decodeVariant {α : Type u} (variants : List (Text × α)) : Json → Except SerdeError α
  | .string name => (variants.lookup name).elim (.error (.unknownVariant name)) .ok
  | .object [(name, .null)] => (variants.lookup name).elim (.error (.unknownVariant name)) .ok
  | _ => .error (.invalidType "variant")

/-- The values of a structure's fields. -/
def fields (names : List Text) : Json → Except SerdeError (Text → Option Json)
  | .object entries => .ok fun name => entries.lookup name
  | .array items =>
    if items.length = names.length then .ok fun name => (names.zip items).lookup name
    else .error (.invalidLength items.length)
  | _ => .error (.invalidType "a structure")

/-- The values of the fields of a structure that may end early in an array, as the last of its fields may be
missing. -/
def leadingFields (names : List Text) : Json → Except SerdeError (Text → Option Json)
  | .object entries => .ok fun name => entries.lookup name
  | .array items =>
    if items.length ≤ names.length then .ok fun name => (names.zip items).lookup name
    else .error (.invalidLength items.length)
  | _ => .error (.invalidType "a structure")

variable {α : Type u} {values : Text → Option Json} {name : Text} {decode : Json → Except SerdeError α} {a : α}

def required (values : Text → Option Json) (name : Text) (decode : Json → Except SerdeError α) : Except SerdeError α :=
  match values name with
  | some value => decode value
  | none => .error (.missingField name)

/-- A field of an optional type, which may be missing. -/
def optional (values : Text → Option Json) (name : Text) (decode : Json → Except SerdeError α) :
    Except SerdeError (Option α) :=
  match values name with
  | some value => decodeOption decode value
  | none => .ok none

theorem required_ok (run : required values name decode = .ok a) : ∃ value, values name = some value ∧ decode value = .ok a := by
  unfold required at run
  split at run
  next value eq => exact ⟨value, eq, run⟩
  next => cases run

theorem decodeString_ok {value : Json} {s : Text} (run : decodeString value = .ok s) : value = .string s := by
  unfold decodeString at run
  split at run
  next found => rw [Except.ok.inj run]
  next => cases run

theorem decodeU32_toUInt64 (n : UInt32) : decodeU32 (.nat n.toUInt64) = .ok n := by
  have small : n.toUInt64.toNat < 2 ^ 32 := n.toNat_lt
  rw [decodeU32, if_pos small, UInt32.toUInt32_toUInt64]

theorem decodeArray_map {encode : α → Json} (readBack : ∀ a, decode (encode a) = .ok a) (items : List α) :
    decodeArray decode (.array (items.map encode)) = .ok items := by
  induction items with
  | nil => rfl
  | cons a items ih =>
    have rest : (items.map encode).mapM decode = .ok items := ih
    rw [decodeArray, List.map_cons, List.mapM_cons, readBack, rest]
    rfl

theorem fields_of_get {value found : Json} {names : List Text} (there : value.get name = some found)
    (run : fields names value = .ok values) : values = fun name => value.get name := by
  cases value with
  | object entries => exact (Except.ok.inj run).symm
  | null | bool b | nat n | negative n | float digits | string s | array items => cases there

end Json

end Lib
