import OrbitGraph.Lib.Json

/-!
JSON values as compact text.
-/

namespace Lib.Json

/-- `0`–`9` and `a`–`f`. -/
def hexDigit (n : Nat) : Char := Char.ofNat (if n < 10 then 48 + n else 87 + n)

/-- A character of a string. -/
def escape (c : Char) : Text :=
  if c = '"' then ['\\', '"']
  else if c = '\\' then ['\\', '\\']
  else if c = '\x08' then ['\\', 'b']
  else if c = '\x0c' then ['\\', 'f']
  else if c = '\n' then ['\\', 'n']
  else if c = '\x0d' then ['\\', 'r']
  else if c = '\t' then ['\\', 't']
  else if c.toNat < 32 then ['\\', 'u', '0', '0', hexDigit (c.toNat / 16), hexDigit (c.toNat % 16)]
  else [c]

def quote (s : Text) : Text := '"' :: s.flatMap escape ++ ['"']

mutual

/-- `serde_json::to_vec`, as text. -/
def write : Json → Text
  | .null => "null"
  | .bool b => if b then "true" else "false"
  | .nat n => Nat.toDigits 10 n.toNat
  | .negative n => '-' :: Nat.toDigits 10 n.natAbs
  | .float digits => digits
  | .string s => quote s
  | .array items => '[' :: writeItems items
  | .object fields => '\x7b' :: writeFields fields

/-- The items of an array, from the bracket on. -/
def writeItems : List Json → Text
  | [] => [']']
  | [item] => write item ++ [']']
  | item :: next :: rest => write item ++ ',' :: writeItems (next :: rest)

/-- The fields of an object, from the brace on. -/
def writeFields : List (Text × Json) → Text
  | [] => ['\x7d']
  | [(name, value)] => quote name ++ ':' :: write value ++ ['\x7d']
  | (name, value) :: next :: rest => quote name ++ ':' :: write value ++ ',' :: writeFields (next :: rest)

end

def serializedLen (value : Json) : Nat := Text.byteLen (write value)

end Lib.Json
