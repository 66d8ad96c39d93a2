import OrbitGraph.Changes.Inventory

/-!
The source of a symbol: its signature line, and the hash of its body.

The body is compared with the symbol's own name replaced and white space removed; the
normalized bytes stand next to their hash, so two bodies with one hash are no match.
-/

namespace OrbitGraph.Changes

open Lib

def DEFAULT_SHOW_MAX_BYTES : Nat := 64 * 1024

structure SymbolSource where
  bytes : List UInt8
  signature : Text
  truncated : Bool
  deriving DecidableEq

/-- A character that is not complete yet: the bits so far, and the range of its next byte. -/
structure Partial where
  bits : Nat
  missing : Nat
  low : UInt8
  high : UInt8

def replacement : Char := Char.ofNat 0xFFFD

/-- The first byte of a character. -/
def leadByte (b : UInt8) : Text × Option Partial :=
  let n := b.toNat
  if n < 0x80 then ([Char.ofNat n], none)
  else if 0xC2 ≤ n ∧ n ≤ 0xDF then ([], some ⟨n - 0xC0, 1, 0x80, 0xBF⟩)
  else if n = 0xE0 then ([], some ⟨0, 2, 0xA0, 0xBF⟩)
  else if n = 0xED then ([], some ⟨n - 0xE0, 2, 0x80, 0x9F⟩)
  else if 0xE1 ≤ n ∧ n ≤ 0xEF then ([], some ⟨n - 0xE0, 2, 0x80, 0xBF⟩)
  else if n = 0xF0 then ([], some ⟨0, 3, 0x90, 0xBF⟩)
  else if n = 0xF4 then ([], some ⟨n - 0xF0, 3, 0x80, 0x8F⟩)
  else if 0xF1 ≤ n ∧ n ≤ 0xF3 then ([], some ⟨n - 0xF0, 3, 0x80, 0xBF⟩)
  else ([replacement], none)

def nextByte : Option Partial → UInt8 → Text × Option Partial
  | none, b => leadByte b
  | some p, b =>
    if p.low ≤ b ∧ b ≤ p.high then
      let bits := p.bits * 64 + (b.toNat - 0x80)
      if p.missing = 1 then ([Char.ofNat bits], none) else ([], some ⟨bits, p.missing - 1, 0x80, 0xBF⟩)
    else
      -- the bytes so far are no character, and this one may begin another
      let (text, next) := leadByte b
      (replacement :: text, next)

def decodeFrom : Option Partial → List UInt8 → Text
  | none, [] => []
  | some _, [] => [replacement]
  | state, b :: bytes =>
    let (text, next) := nextByte state b
    text ++ decodeFrom next bytes

theorem decodeFrom_cons (state : Option Partial) (b : UInt8) (bytes : List UInt8) :
    decodeFrom state (b :: bytes) = (nextByte state b).1 ++ decodeFrom (nextByte state b).2 bytes := by
  rw [decodeFrom]

/-- `String::from_utf8_lossy`. -/
def fromUtf8Lossy (bytes : List UInt8) : Text := decodeFrom none bytes

/-- The first line that is not empty. -/
def signatureLine (bytes : List UInt8) : Text :=
  (((Text.splitChar '\n' (fromUtf8Lossy bytes)).map Text.trim).find? fun line => line ≠ []).getD []

/-- The qualified prefix of a name. -/
def parentQualified (qualified : Text) : Text := ((Text.rsplitOnce "::" qualified).map Prod.fst).getD []

def identifierByte (b : UInt8) : Bool :=
  (0x30 ≤ b && b ≤ 0x39) || (0x41 ≤ b && b ≤ 0x5A) || (0x61 ≤ b && b ≤ 0x7A) || b == 0x5F || 0x80 ≤ b

def asciiWhitespace (b : UInt8) : Bool := b == 0x20 || b == 0x09 || b == 0x0A || b == 0x0C || b == 0x0D

def encode (text : Text) : List UInt8 := text.flatMap String.utf8EncodeChar

/-- The bytes with the identifier replaced and without white space; `previous` is the byte before, and
`skip` the number of bytes of an identifier that are still to be skipped. -/
def normalizedFrom (identifier : List UInt8) : Option UInt8 → Nat → List UInt8 → List UInt8
  | _, _, [] => []
  | _, skip + 1, b :: rest => normalizedFrom identifier (some b) skip rest
  | previous, 0, b :: rest =>
    if identifier.isPrefixOf (b :: rest) && !previous.any identifierByte &&
        !((b :: rest).drop identifier.length).head?.any identifierByte then
      encode "<identifier>" ++ normalizedFrom identifier (some b) (identifier.length - 1) rest
    else if asciiWhitespace b then normalizedFrom identifier (some b) 0 rest
    else b :: normalizedFrom identifier (some b) 0 rest

/-- `normalized_body_hash`: the FNV-1a hash of the normalized bytes, and these. -/
def normalizedBodyHash (source : SymbolSource) (identifier : Text) : Option (UInt64 × List UInt8) :=
  if source.truncated ∨ identifier = [] then none
  else
    let normalized := normalizedFrom (encode identifier) none 0 source.bytes
    some (normalized.foldl (fun hash b => (hash ^^^ b.toUInt64) * 0x100000001b3) 0xcbf29ce484222325, normalized)

end OrbitGraph.Changes
