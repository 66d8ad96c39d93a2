import Mathlib.Tactic.IntervalCases
import OrbitGraph.Lib.Text

/-!
Text that may be written to a terminal or to a line of records.

A cell is escaped so that it holds no tab, line break or control character. The escape
character is escaped itself, so every escaped cell is read back in one way.
-/

namespace OrbitGraph.Output

open Lib

/-- `char::is_control`: the general category `Cc`. -/
def isControl (c : Char) : Bool := c.toNat < 0x20 || (0x7F ≤ c.toNat && c.toNat ≤ 0x9F)

def hexDigit (n : Nat) : Char := if n < 10 then Char.ofNat (48 + n) else Char.ofNat (55 + n)

/-- Upper-case hexadecimal, as `{:X}` writes it. -/
def upperHex (n : Nat) : Text := (Nat.toDigits 16 n).map Char.toUpper

/-- Two upper-case digits, as `{:02X}` writes a byte. -/
def byteHex (n : Nat) : Text := [hexDigit (n / 16), hexDigit (n % 16)]

def escapeChar (preserveLayout : Bool) (c : Char) : Text :=
  if c = '\\' ∧ ¬ preserveLayout then ['\\', '\\']
  else if c = '\t' ∧ ¬ preserveLayout then ['\\', 't']
  else if c = '\n' ∧ ¬ preserveLayout then ['\\', 'n']
  else if c = '\t' ∨ c = '\n' then [c]
  else if c = '\r' then ['\\', 'r']
  else if isControl c ∧ c.toNat ≤ 0xFF then '\\' :: 'x' :: byteHex c.toNat
  else if isControl c then '\\' :: 'u' :: '\x7b' :: upperHex c.toNat ++ ['\x7d']
  else [c]

def escape (preserveLayout : Bool) (value : Text) : Text := value.flatMap (escapeChar preserveLayout)

def escapeCell (value : Text) : Text := escape false value

/-- The value of an upper-case hexadecimal digit. -/
def hexValue (c : Char) : Option Nat :=
  if 48 ≤ c.toNat ∧ c.toNat ≤ 57 then some (c.toNat - 48)
  else if 65 ≤ c.toNat ∧ c.toNat ≤ 70 then some (c.toNat - 55)
  else none

/-- The text that an escaped cell stands for. -/
def unescape : Text → Option Text
  | [] => some []
  | '\\' :: '\\' :: rest => (unescape rest).map ('\\' :: ·)
  | '\\' :: 't' :: rest => (unescape rest).map ('\t' :: ·)
  | '\\' :: 'n' :: rest => (unescape rest).map ('\n' :: ·)
  | '\\' :: 'r' :: rest => (unescape rest).map ('\r' :: ·)
  | '\\' :: 'x' :: high :: low :: rest => do
      let high ← hexValue high
      let low ← hexValue low
      let rest ← unescape rest
      return Char.ofNat (16 * high + low) :: rest
  | '\\' :: _ => none
  | c :: rest => (unescape rest).map (c :: ·)

variable {n : Nat}

theorem hexValue_hexDigit (digit : n < 16) : hexValue (hexDigit n) = some n := by
  interval_cases n <;> rfl

theorem le_of_isControl {c : Char} (control : isControl c = true) : c.toNat ≤ 0x9F := by
  unfold isControl at control
  simp only [Bool.or_eq_true, Bool.and_eq_true, decide_eq_true_eq] at control
  omega

theorem escapeChar_cases (c : Char) : c = '\\' ∧ escapeChar false c = ['\\', '\\'] ∨
      c = '\t' ∧ escapeChar false c = ['\\', 't'] ∨ c = '\n' ∧ escapeChar false c = ['\\', 'n'] ∨
      c = '\r' ∧ escapeChar false c = ['\\', 'r'] ∨
      c.toNat ≤ 0xFF ∧ escapeChar false c = '\\' :: 'x' :: byteHex c.toNat ∨
      c ≠ '\\' ∧ c ≠ '\t' ∧ c ≠ '\n' ∧ isControl c = false ∧ escapeChar false c = [c] := by
  unfold escapeChar
  by_cases backslash : c = '\\'
  · exact .inl ⟨backslash, by simp [backslash]⟩
  by_cases tab : c = '\t'
  · exact .inr (.inl ⟨tab, by simp [tab]⟩)
  by_cases line : c = '\n'
  · exact .inr (.inr (.inl ⟨line, by simp [line]⟩))
  by_cases back : c = '\r'
  · exact .inr (.inr (.inr (.inl ⟨back, by simp [back]⟩)))
  by_cases control : isControl c = true
  · have byte : c.toNat ≤ 0xFF := (le_of_isControl control).trans (by decide)
    exact .inr (.inr (.inr (.inr (.inl ⟨byte, by simp [backslash, tab, line, back, control, byte]⟩))))
  · rw [Bool.not_eq_true] at control
    exact .inr (.inr (.inr (.inr (.inr ⟨backslash, tab, line, control, by simp [backslash, tab, line, back, control]⟩))))

theorem unescape_byteHex (byte : n ≤ 0xFF) (rest : Text) :
    unescape ('\\' :: 'x' :: byteHex n ++ rest) = (unescape rest).map (Char.ofNat n :: ·) := by
  have high : hexValue (hexDigit (n / 16)) = some (n / 16) := hexValue_hexDigit (by omega)
  have low : hexValue (hexDigit (n % 16)) = some (n % 16) := hexValue_hexDigit (Nat.mod_lt n (by decide))
  have whole : 16 * (n / 16) + n % 16 = n := Nat.div_add_mod n 16
  simp only [byteHex, List.cons_append, List.nil_append, unescape, high, low, Option.bind_eq_bind, Option.bind_some,
    whole]
  cases unescape rest <;> rfl

theorem unescape_escapeChar (c : Char) (rest : Text) :
    unescape (escapeChar false c ++ rest) = (unescape rest).map (c :: ·) := by
  rcases escapeChar_cases c with ⟨rfl, same⟩ | ⟨rfl, same⟩ | ⟨rfl, same⟩ | ⟨rfl, same⟩ | ⟨byte, same⟩ | ⟨plain, -, -, -, same⟩
  · rw [same]
    rfl
  · rw [same]
    rfl
  · rw [same]
    rfl
  · rw [same]
    rfl
  · rw [same, unescape_byteHex byte, Char.ofNat_toNat]
  · rw [same, List.cons_append, List.nil_append, unescape]
    all_goals simp_all

theorem unescape_escapeCell (value : Text) : unescape (escapeCell value) = some value := by
  unfold escapeCell escape
  induction value with
  | nil => rfl
  | cons c rest ih => rw [List.flatMap_cons, unescape_escapeChar, ih, Option.map_some]

theorem hexDigit_printable (digit : n < 16) : 0x30 ≤ (hexDigit n).toNat ∧ (hexDigit n).toNat ≤ 0x46 := by
  interval_cases n <;> exact ⟨by decide, by decide⟩

/-- An escaped cell has no tab, no line break and no other control character. -/
theorem not_isControl_of_mem_escapeCell {value : Text} {c : Char} (mem : c ∈ escapeCell value) : isControl c = false := by
  obtain ⟨d, -, inside⟩ := List.mem_flatMap.mp mem
  rcases escapeChar_cases d with ⟨-, same⟩ | ⟨-, same⟩ | ⟨-, same⟩ | ⟨-, same⟩ | ⟨byte, same⟩ | ⟨-, -, -, plain, same⟩ <;>
    rw [same] at inside
  · simp only [List.mem_cons, List.not_mem_nil, or_false, or_self] at inside
    rw [inside]
    decide
  · simp only [List.mem_cons, List.not_mem_nil, or_false] at inside
    rcases inside with rfl | rfl <;> decide
  · simp only [List.mem_cons, List.not_mem_nil, or_false] at inside
    rcases inside with rfl | rfl <;> decide
  · simp only [List.mem_cons, List.not_mem_nil, or_false] at inside
    rcases inside with rfl | rfl <;> decide
  · have digit : ∀ n < 16, isControl (hexDigit n) = false := by
      intro n small
      obtain ⟨least, most⟩ := hexDigit_printable small
      simp only [isControl, Bool.or_eq_false_iff, Bool.and_eq_false_iff, decide_eq_false_iff_not]
      omega
    simp only [byteHex, List.mem_cons, List.not_mem_nil, or_false] at inside
    rcases inside with rfl | rfl | rfl | rfl
    · decide
    · decide
    · exact digit _ (by omega)
    · exact digit _ (Nat.mod_lt _ (by decide))
  · rw [List.mem_singleton.mp inside]
    exact plain

theorem tab_not_mem_escapeCell (value : Text) : '\t' ∉ escapeCell value := fun mem => by
  cases not_isControl_of_mem_escapeCell mem

theorem newline_not_mem_escapeCell (value : Text) : '\n' ∉ escapeCell value := fun mem => by
  cases not_isControl_of_mem_escapeCell mem

end OrbitGraph.Output
