import Mathlib.Data.List.Infix

/-!
UTF-8 as lists of bytes, and the check that bytes are UTF-8.

The check reads one character after the other. Where it stops it says how many bytes are
characters, and whether what follows is wrong or only not finished.
-/

namespace Lib.Utf8

abbrev Bytes := List UInt8

/-! ### Encoding -/

def encode (text : List Char) : Bytes := text.flatMap String.utf8EncodeChar

/-- The bytes that stand for a scalar value. -/
inductive Encodes : Nat → Bytes → Prop where
  | one {v : Nat} {a : UInt8} : v < 0x80 → a.toNat = v → Encodes v [a]
  | two {v : Nat} {a b : UInt8} : 0x80 ≤ v → v < 0x800 → a.toNat = 0xC0 + v / 64 → b.toNat = 0x80 + v % 64 →
      Encodes v [a, b]
  | three {v : Nat} {a b c : UInt8} : 0x800 ≤ v → v < 0x10000 → a.toNat = 0xE0 + v / 4096 →
      b.toNat = 0x80 + v / 64 % 64 → c.toNat = 0x80 + v % 64 → Encodes v [a, b, c]
  | four {v : Nat} {a b c d : UInt8} : 0x10000 ≤ v → v < 0x110000 → a.toNat = 0xF0 + v / 262144 →
      b.toNat = 0x80 + v / 4096 % 64 → c.toNat = 0x80 + v / 64 % 64 → d.toNat = 0x80 + v % 64 → Encodes v [a, b, c, d]

theorem toNat_ofNat_of_lt {n : Nat} (small : n < 256) : (UInt8.ofNat n).toNat = n := by
  rw [UInt8.toNat_ofNat']
  exact Nat.mod_eq_of_lt small

theorem toNat_lt (c : Char) : c.toNat < 0xD800 ∨ (0xDFFF < c.toNat ∧ c.toNat < 0x110000) := c.valid

theorem encodes (c : Char) : Encodes c.toNat (String.utf8EncodeChar c) := by
  have bound := toNat_lt c
  unfold String.utf8EncodeChar
  rw [Char.toNat_val]
  generalize c.toNat = v at bound
  dsimp only
  split_ifs with one two three
  · exact .one (by omega) (toNat_ofNat_of_lt (by omega))
  · refine .two (by omega) (by omega) ?_ ?_ <;> rw [toNat_ofNat_of_lt] <;> omega
  · refine .three (by omega) (by omega) ?_ ?_ ?_ <;> rw [toNat_ofNat_of_lt] <;> omega
  · refine .four (by omega) (by omega) ?_ ?_ ?_ ?_ <;> rw [toNat_ofNat_of_lt] <;> omega

variable {v : Nat}

theorem Encodes.functional {left right : Bytes} (l : Encodes v left) (r : Encodes v right) : left = right := by
  cases l <;> cases r <;> try omega
  all_goals
    simp only [List.cons.injEq, ← UInt8.toNat_inj, and_true]
    omega

theorem Encodes.unique {v w : Nat} {left right s t : Bytes} (l : Encodes v left) (r : Encodes w right)
    (same : left ++ s = right ++ t) : v = w := by
  cases l <;> cases r <;>
    simp only [List.cons_append, List.nil_append, List.cons.injEq, ← UInt8.toNat_inj] at same <;> omega

theorem exists_char (valid : v < 0xD800 ∨ (0xDFFF < v ∧ v < 0x110000)) : ∃ c : Char, c.toNat = v := by
  have small : v < 2 ^ 32 := by omega
  refine ⟨⟨UInt32.ofNatLT v small, ?_⟩, ?_⟩
  · exact valid
  · rfl

theorem Encodes.char {bytes : Bytes} (valid : v < 0xD800 ∨ (0xDFFF < v ∧ v < 0x110000))
    (encodes' : Encodes v bytes) : ∃ c : Char, c.toNat = v ∧ bytes = String.utf8EncodeChar c := by
  obtain ⟨c, rfl⟩ := exists_char valid
  exact ⟨c, rfl, encodes'.functional (encodes c)⟩

@[simp] theorem encode_nil : encode [] = [] := rfl

@[simp] theorem encode_cons (c : Char) (text : List Char) : encode (c :: text) = String.utf8EncodeChar c ++ encode text := rfl

@[simp] theorem encode_append (s t : List Char) : encode (s ++ t) = encode s ++ encode t := List.flatMap_append

/-- A character begins with a byte that continues none, … -/
def isContinuation (b : UInt8) : Bool := 0x80 ≤ b.toNat && b.toNat < 0xC0

/-- … and all its other bytes do. -/
theorem encodeChar_eq_cons (c : Char) : ∃ first rest, String.utf8EncodeChar c = first :: rest ∧
    isContinuation first = false ∧ rest.all isContinuation = true ∧ rest.length ≤ 3 := by
  have bound := toNat_lt c
  have := encodes c
  generalize String.utf8EncodeChar c = bytes at this
  unfold isContinuation
  cases this with
  | one small a => exact ⟨_, _, rfl, by simp; omega, rfl, by simp⟩
  | two _ _ a b | three _ _ a b d | four _ _ a b d e => exact ⟨_, _, rfl, by simp; omega, by simp; omega, by simp⟩

theorem encodeChar_append_inj {c d : Char} {s t : Bytes}
    (same : String.utf8EncodeChar c ++ s = String.utf8EncodeChar d ++ t) : c = d ∧ s = t := by
  obtain rfl := Char.toNat_inj.mp ((encodes c).unique (encodes d) same)
  exact ⟨rfl, List.append_cancel_left same⟩

/-- No text is encoded by a part of the bytes of another, other than its own part. -/
theorem exists_of_encode_append {front text : List Char} {rest : Bytes} (same : encode front ++ rest = encode text) :
    ∃ back, text = front ++ back ∧ rest = encode back := by
  induction front generalizing text with
  | nil => exact ⟨text, rfl, same⟩
  | cons c front ih =>
    cases text with
    | nil =>
      obtain ⟨first, others, bytes, -⟩ := encodeChar_eq_cons c
      rw [encode_cons, bytes] at same
      cases same
    | cons d text =>
      rw [encode_cons, encode_cons, List.append_assoc] at same
      obtain ⟨rfl, later⟩ := encodeChar_append_inj same
      obtain ⟨back, rfl, rest_eq⟩ := ih later
      exact ⟨back, rfl, rest_eq⟩

theorem encode_injective {s t : List Char} (same : encode s = encode t) : s = t := by
  have same : encode s ++ [] = encode t := by rw [List.append_nil, same]
  obtain ⟨back, whole, rest⟩ := exists_of_encode_append same
  cases back with
  | nil => rw [whole, List.append_nil]
  | cons c back =>
    obtain ⟨first, others, bytes, -⟩ := encodeChar_eq_cons c
    rw [encode_cons, bytes] at rest
    cases rest

/-! ### Checking -/

/-- What is in front of bytes: a character of so many bytes, bytes that are wrong, or the beginning of a character
that the bytes do not finish. -/
inductive Scan where
  | char (width : Nat)
  | wrong (length : Nat)
  | unfinished
  deriving DecidableEq

def scanRest : Nat → Nat → Bytes → Scan
  | read, 0, _ => .char read
  | _, _ + 1, [] => .unfinished
  | read, more + 1, b :: rest => if isContinuation b then scanRest (read + 1) more rest else .wrong read

/-- The second byte of a character of more than two bytes, which keeps it from being spelled too long, from
being a surrogate and from being too large. -/
def scanSecond (low high : Nat) (more : Nat) : Bytes → Scan
  | [] => .unfinished
  | b :: rest => if low ≤ b.toNat ∧ b.toNat ≤ high then scanRest 2 more rest else .wrong 1

def scan : Bytes → Scan
  | [] => .unfinished
  | a :: rest =>
    let first := a.toNat
    if first < 0x80 then .char 1
    else if first < 0xC2 then .wrong 1
    else if first < 0xE0 then scanRest 1 1 rest
    else if first = 0xE0 then scanSecond 0xA0 0xBF 1 rest
    else if first = 0xED then scanSecond 0x80 0x9F 1 rest
    else if first < 0xF0 then scanSecond 0x80 0xBF 1 rest
    else if first = 0xF0 then scanSecond 0x90 0xBF 2 rest
    else if first < 0xF4 then scanSecond 0x80 0xBF 2 rest
    else if first = 0xF4 then scanSecond 0x80 0x8F 2 rest
    else .wrong 1

structure Utf8Error where
  validUpTo : Nat
  errorLen : Option Nat
  deriving DecidableEq

/-- The check from a position on. Every character has a byte, so that the number of bytes is fuel enough. -/
def checkFrom : Nat → Nat → Bytes → Except Utf8Error Unit
  | 0, _, _ => .ok ()
  | fuel + 1, pos, bytes =>
    if bytes = [] then .ok ()
    else
      match scan bytes with
      | .char width => checkFrom fuel (pos + width) (bytes.drop width)
      | .wrong length => .error ⟨pos, some length⟩
      | .unfinished => .error ⟨pos, none⟩

/-- `str::from_utf8`. -/
def fromUtf8 (bytes : Bytes) : Except Utf8Error Unit := checkFrom bytes.length 0 bytes

theorem isContinuation_of_bounds {b : UInt8} (low : 0x80 ≤ b.toNat) (high : b.toNat < 0xC0) : isContinuation b = true := by
  unfold isContinuation
  rw [decide_eq_true low, decide_eq_true high]
  rfl

theorem bounds_of_isContinuation {b : UInt8} (continues : isContinuation b = true) : 0x80 ≤ b.toNat ∧ b.toNat < 0xC0 := by
  unfold isContinuation at continues
  rw [Bool.and_eq_true, decide_eq_true_eq, decide_eq_true_eq] at continues
  exact continues

theorem scanRest_of_continues {read more : Nat} {b : UInt8} {rest : Bytes} (low : 0x80 ≤ b.toNat) (high : b.toNat < 0xC0) :
    scanRest read (more + 1) (b :: rest) = scanRest (read + 1) more rest := by
  rw [scanRest, if_pos (isContinuation_of_bounds low high)]

theorem scanSecond_of_bounds {low high more : Nat} {b : UInt8} {rest : Bytes} (least : low ≤ b.toNat) (most : b.toNat ≤ high) :
    scanSecond low high more (b :: rest) = scanRest 2 more rest := by
  rw [scanSecond, if_pos ⟨least, most⟩]

/-- The bytes of a character are found, whatever follows. -/
theorem Encodes.scan {bytes : Bytes} (encodes' : Encodes v bytes)
    (valid : v < 0xD800 ∨ (0xDFFF < v ∧ v < 0x110000)) (rest : Bytes) : scan (bytes ++ rest) = .char bytes.length := by
  cases encodes' with
  | @one a small first =>
    simp only [List.cons_append, List.nil_append, Utf8.scan]
    rw [if_pos (by omega)]
    rfl
  | @two a b low high first second =>
    simp only [List.cons_append, List.nil_append, Utf8.scan]
    rw [if_neg (by omega), if_neg (by omega), if_pos (by omega), scanRest_of_continues (by omega) (by omega)]
    rfl
  | @three a b c low high first second third =>
    simp only [List.cons_append, List.nil_append, Utf8.scan]
    rw [if_neg (by omega), if_neg (by omega), if_neg (by omega)]
    split_ifs with e0 ed <;> try omega
    all_goals rw [scanSecond_of_bounds (by omega) (by omega), scanRest_of_continues (by omega) (by omega)]; rfl
  | @four a b c d low high first second third fourth =>
    simp only [List.cons_append, List.nil_append, Utf8.scan]
    rw [if_neg (by omega), if_neg (by omega), if_neg (by omega), if_neg (by omega), if_neg (by omega), if_neg (by omega)]
    split_ifs with f0 f3 f4 <;> try omega
    all_goals
      rw [scanSecond_of_bounds (by omega) (by omega), scanRest_of_continues (by omega) (by omega),
        scanRest_of_continues (by omega) (by omega)]
      rfl

theorem scan_encodeChar (c : Char) (rest : Bytes) :
    scan (String.utf8EncodeChar c ++ rest) = .char (String.utf8EncodeChar c).length :=
  (encodes c).scan (toNat_lt c) rest

theorem scanRest_eq_char {read more width : Nat} {bytes : Bytes} (found : scanRest read more bytes = .char width) :
    width = read + more ∧ ∃ middle rest, bytes = middle ++ rest ∧ middle.length = more ∧ middle.all isContinuation = true := by
  induction more generalizing read bytes with
  | zero =>
    obtain rfl := Scan.char.inj found
    exact ⟨rfl, [], bytes, rfl, rfl, rfl⟩
  | succ more ih =>
    cases bytes with
    | nil => cases found
    | cons b bytes =>
      rw [scanRest] at found
      split_ifs at found with continues
      obtain ⟨width_eq, middle, rest, rfl, length, all⟩ := ih found
      refine ⟨by omega, b :: middle, rest, rfl, by rw [List.length_cons, length], ?_⟩
      rw [List.all_cons, continues, all]
      rfl

theorem scanSecond_eq_char {low high more width : Nat} {bytes : Bytes} (found : scanSecond low high more bytes = .char width) :
    width = 2 + more ∧ ∃ b middle rest, bytes = b :: (middle ++ rest) ∧ low ≤ b.toNat ∧ b.toNat ≤ high ∧
      middle.length = more ∧ middle.all isContinuation = true := by
  cases bytes with
  | nil => cases found
  | cons b bytes =>
    rw [scanSecond] at found
    split_ifs at found with bounds
    obtain ⟨width_eq, middle, rest, rfl, length, all⟩ := scanRest_eq_char found
    exact ⟨width_eq, b, middle, rest, rfl, bounds.1, bounds.2, length, all⟩

theorem exists_pair {a b : UInt8} (low : 0xC2 ≤ a.toNat) (high : a.toNat < 0xE0) (second : isContinuation b = true) :
    ∃ v, Encodes v [a, b] ∧ (v < 0xD800 ∨ (0xDFFF < v ∧ v < 0x110000)) := by
  have second := bounds_of_isContinuation second
  refine ⟨(a.toNat - 0xC0) * 64 + (b.toNat - 0x80), .two ?_ ?_ ?_ ?_, ?_⟩ <;> omega

/-- Three bytes, where the second keeps the value from being too small and from being a surrogate. -/
theorem exists_triple {a b c : UInt8} (low : 0xE0 ≤ a.toNat) (high : a.toNat < 0xF0) (least : 0x80 ≤ b.toNat)
    (most : b.toNat ≤ 0xBF) (long : a.toNat = 0xE0 → 0xA0 ≤ b.toNat) (surrogate : a.toNat = 0xED → b.toNat ≤ 0x9F)
    (third : isContinuation c = true) : ∃ v, Encodes v [a, b, c] ∧ (v < 0xD800 ∨ (0xDFFF < v ∧ v < 0x110000)) := by
  have third := bounds_of_isContinuation third
  refine ⟨(a.toNat - 0xE0) * 4096 + (b.toNat - 0x80) * 64 + (c.toNat - 0x80), .three ?_ ?_ ?_ ?_ ?_, ?_⟩ <;> omega

/-- Four bytes, where the second keeps the value from being too small and from being too large. -/
theorem exists_quadruple {a b c d : UInt8} (low : 0xF0 ≤ a.toNat) (high : a.toNat < 0xF5) (least : 0x80 ≤ b.toNat)
    (most : b.toNat ≤ 0xBF) (long : a.toNat = 0xF0 → 0x90 ≤ b.toNat) (large : a.toNat = 0xF4 → b.toNat ≤ 0x8F)
    (third : isContinuation c = true) (fourth : isContinuation d = true) :
    ∃ v, Encodes v [a, b, c, d] ∧ (v < 0xD800 ∨ (0xDFFF < v ∧ v < 0x110000)) := by
  have third := bounds_of_isContinuation third
  have fourth := bounds_of_isContinuation fourth
  refine ⟨(a.toNat - 0xF0) * 262144 + (b.toNat - 0x80) * 4096 + (c.toNat - 0x80) * 64 + (d.toNat - 0x80),
    .four ?_ ?_ ?_ ?_ ?_ ?_, ?_⟩ <;> omega

theorem exists_of_scan {bytes : Bytes} {width : Nat} (found : scan bytes = .char width) :
    ∃ c rest, bytes = String.utf8EncodeChar c ++ rest ∧ width = (String.utf8EncodeChar c).length := by
  suffices ∃ v front rest, bytes = front ++ rest ∧ width = front.length ∧ Encodes v front ∧
      (v < 0xD800 ∨ (0xDFFF < v ∧ v < 0x110000)) by
    obtain ⟨v, front, rest, rfl, length, encodes', valid⟩ := this
    obtain ⟨c, -, rfl⟩ := encodes'.char valid
    exact ⟨c, rest, rfl, length⟩
  cases bytes with
  | nil => cases found
  | cons a bytes =>
    have three {low high : Nat} (found : scanSecond low high 1 bytes = .char width)
        (build : ∀ b c, low ≤ b.toNat → b.toNat ≤ high → isContinuation c = true →
          ∃ v, Encodes v [a, b, c] ∧ (v < 0xD800 ∨ (0xDFFF < v ∧ v < 0x110000))) :
        ∃ v front rest, a :: bytes = front ++ rest ∧ width = front.length ∧ Encodes v front ∧
          (v < 0xD800 ∨ (0xDFFF < v ∧ v < 0x110000)) := by
      obtain ⟨rfl, b, middle, rest, rfl, least, most, length, all⟩ := scanSecond_eq_char found
      obtain ⟨c, rfl⟩ := List.length_eq_one_iff.mp length
      rw [List.all_cons, List.all_nil, Bool.and_true] at all
      obtain ⟨v, encodes', valid⟩ := build b c least most all
      exact ⟨v, [a, b, c], rest, rfl, rfl, encodes', valid⟩
    have four {low high : Nat} (found : scanSecond low high 2 bytes = .char width)
        (build : ∀ b c d, low ≤ b.toNat → b.toNat ≤ high → isContinuation c = true → isContinuation d = true →
          ∃ v, Encodes v [a, b, c, d] ∧ (v < 0xD800 ∨ (0xDFFF < v ∧ v < 0x110000))) :
        ∃ v front rest, a :: bytes = front ++ rest ∧ width = front.length ∧ Encodes v front ∧
          (v < 0xD800 ∨ (0xDFFF < v ∧ v < 0x110000)) := by
      obtain ⟨rfl, b, middle, rest, rfl, least, most, length, all⟩ := scanSecond_eq_char found
      obtain ⟨c, d, rfl⟩ := List.length_eq_two.mp length
      rw [List.all_cons, List.all_cons, List.all_nil, Bool.and_true, Bool.and_eq_true] at all
      obtain ⟨v, encodes', valid⟩ := build b c d least most all.1 all.2
      exact ⟨v, [a, b, c, d], rest, rfl, rfl, encodes', valid⟩
    simp only [scan] at found
    split_ifs at found with ascii early pair e0 ed triple f0 quadruple f4
    · obtain rfl := Scan.char.inj found
      exact ⟨a.toNat, [a], bytes, rfl, rfl, .one ascii rfl, by omega⟩
    · obtain ⟨rfl, middle, rest, rfl, length, all⟩ := scanRest_eq_char found
      obtain ⟨b, rfl⟩ := List.length_eq_one_iff.mp length
      rw [List.all_cons, List.all_nil, Bool.and_true] at all
      obtain ⟨v, encodes', valid⟩ := exists_pair (by omega) pair all
      exact ⟨v, [a, b], rest, rfl, rfl, encodes', valid⟩
    · exact three found fun b c least most => exists_triple (by omega) (by omega) (by omega) most (by omega) (by omega)
    · exact three found fun b c least most => exists_triple (by omega) (by omega) (by omega) (by omega) (by omega) (by omega)
    · exact three found fun b c least most => exists_triple (by omega) (by omega) (by omega) most (by omega) (by omega)
    · exact four found fun b c d least most => exists_quadruple (by omega) (by omega) (by omega) most (by omega) (by omega)
    · exact four found fun b c d least most => exists_quadruple (by omega) (by omega) (by omega) most (by omega) (by omega)
    · exact four found fun b c d least most =>
        exists_quadruple (by omega) (by omega) (by omega) (by omega) (by omega) (by omega)

theorem scanRest_wrong_append {read more length : Nat} {bytes : Bytes} (found : scanRest read more bytes = .wrong length)
    (later : Bytes) : scanRest read more (bytes ++ later) = .wrong length := by
  induction more generalizing read bytes with
  | zero => cases found
  | succ more ih =>
    cases bytes with
    | nil => cases found
    | cons b bytes =>
      rw [List.cons_append, scanRest]
      rw [scanRest] at found
      split_ifs at found ⊢ with continues
      · exact ih found
      · exact found

theorem scanSecond_wrong_append {low high more length : Nat} {bytes : Bytes}
    (found : scanSecond low high more bytes = .wrong length) (later : Bytes) :
    scanSecond low high more (bytes ++ later) = .wrong length := by
  cases bytes with
  | nil => cases found
  | cons b bytes =>
    rw [List.cons_append, scanSecond]
    rw [scanSecond] at found
    split_ifs at found ⊢ with bounds
    · exact scanRest_wrong_append found later
    · exact found

theorem scan_wrong_append {bytes : Bytes} {length : Nat} (found : scan bytes = .wrong length) (later : Bytes) :
    scan (bytes ++ later) = .wrong length := by
  cases bytes with
  | nil => cases found
  | cons a bytes =>
    rw [List.cons_append]
    simp only [scan] at found ⊢
    split_ifs at found ⊢
    · exact found
    · exact scanRest_wrong_append found later
    · exact scanSecond_wrong_append found later
    · exact scanSecond_wrong_append found later
    · exact scanSecond_wrong_append found later
    · exact scanSecond_wrong_append found later
    · exact scanSecond_wrong_append found later
    · exact scanSecond_wrong_append found later
    · exact found

theorem scan_of_part {c : Char} {part later : Bytes} (whole : part ++ later = String.utf8EncodeChar c) (more : later ≠ []) :
    scan part = .unfinished := by
  have complete := scan_encodeChar c []
  rw [List.append_nil, ← whole] at complete
  cases found : scan part with
  | unfinished => rfl
  | wrong length =>
    rw [scan_wrong_append found later] at complete
    cases complete
  | char width =>
    obtain ⟨d, rest, rfl, -⟩ := exists_of_scan found
    rw [List.append_assoc] at whole
    obtain ⟨-, none⟩ := encodeChar_append_inj (whole.trans (List.append_nil _).symm)
    exact (more (List.append_eq_nil_iff.mp none).2).elim

/-! ### Where the check stops -/

theorem exists_characters (bytes : Bytes) : ∃ text rest, bytes = encode text ++ rest ∧ ∀ width, scan rest ≠ .char width := by
  induction length : bytes.length using Nat.strongRecOn generalizing bytes with
  | ind n ih =>
    cases found : scan bytes with
    | wrong length | unfinished => exact ⟨[], bytes, rfl, fun width other => by rw [found] at other; cases other⟩
    | char width =>
      obtain ⟨c, rest, rfl, -⟩ := exists_of_scan found
      have positive := c.utf8Size_pos
      rw [List.length_append, String.length_utf8EncodeChar] at length
      obtain ⟨text, rest', rfl, stop⟩ := ih rest.length (by omega) rest rfl
      exact ⟨c :: text, rest', by rw [encode_cons, List.append_assoc], stop⟩

theorem checkFrom_encode (text : List Char) (rest : Bytes) {fuel pos : Nat} (enough : (encode text ++ rest).length ≤ fuel) :
    ∃ fuel', rest.length ≤ fuel' ∧
      checkFrom fuel pos (encode text ++ rest) = checkFrom fuel' (pos + (encode text).length) rest := by
  induction text generalizing fuel pos with
  | nil => exact ⟨fuel, enough, rfl⟩
  | cons c text ih =>
    have positive := c.utf8Size_pos
    have length := String.length_utf8EncodeChar c
    rw [encode_cons, List.append_assoc] at enough ⊢
    rw [List.length_append] at enough
    cases fuel with
    | zero => omega
    | succ fuel =>
      obtain ⟨fuel', short, same⟩ := @ih fuel (pos + (String.utf8EncodeChar c).length) (by omega)
      refine ⟨fuel', short, ?_⟩
      have nonempty : String.utf8EncodeChar c ++ (encode text ++ rest) ≠ [] := fun empty => by
        have := congrArg List.length (List.append_eq_nil_iff.mp empty).1
        rw [length, List.length_nil] at this
        omega
      rw [checkFrom, if_neg nonempty, scan_encodeChar]
      dsimp only
      rw [List.drop_left, same, List.length_append, Nat.add_assoc]

/-- The check of characters with something behind them that does not begin with one. -/
theorem fromUtf8_encode_append (text : List Char) {rest : Bytes} (stop : ∀ width, scan rest ≠ .char width) :
    (rest = [] ∧ fromUtf8 (encode text ++ rest) = .ok ()) ∨ rest ≠ [] ∧ ((∃ length, scan rest = .wrong length ∧
          fromUtf8 (encode text ++ rest) = .error ⟨(encode text).length, some length⟩) ∨
        scan rest = .unfinished ∧ fromUtf8 (encode text ++ rest) = .error ⟨(encode text).length, none⟩) := by
  obtain ⟨fuel, enough, same⟩ := @checkFrom_encode text rest (encode text ++ rest).length 0 (le_refl _)
  unfold fromUtf8
  rw [same, Nat.zero_add]
  cases rest with
  | nil => exact .inl ⟨rfl, by cases fuel <;> rfl⟩
  | cons b rest =>
    refine .inr ⟨List.cons_ne_nil b rest, ?_⟩
    cases fuel with
    | zero => exact (Nat.not_succ_le_zero _ enough).elim
    | succ fuel =>
      rw [checkFrom, if_neg (List.cons_ne_nil b rest)]
      cases found : scan (b :: rest) with
      | char width => exact (stop width found).elim
      | wrong length => exact .inl ⟨length, rfl, rfl⟩
      | unfinished => exact .inr ⟨rfl, rfl⟩

theorem scan_nil_ne (width : Nat) : scan [] ≠ .char width := nofun

theorem fromUtf8_encode (text : List Char) : fromUtf8 (encode text) = .ok () := by
  rcases fromUtf8_encode_append text scan_nil_ne with ⟨-, ok⟩ | ⟨some, -⟩
  · rwa [List.append_nil] at ok
  · exact (some rfl).elim

theorem fromUtf8_ok_iff {bytes : Bytes} : fromUtf8 bytes = .ok () ↔ ∃ text, bytes = encode text := by
  constructor
  · intro ok
    obtain ⟨text, rest, rfl, stop⟩ := exists_characters bytes
    rcases fromUtf8_encode_append text stop with ⟨rfl, -⟩ | ⟨-, ⟨_, -, error⟩ | ⟨-, error⟩⟩
    · exact ⟨text, List.append_nil _⟩
    · cases error.symm.trans ok
    · cases error.symm.trans ok
  · rintro ⟨text, rfl⟩
    exact fromUtf8_encode text

theorem fromUtf8_error {bytes : Bytes} {e : Utf8Error} (error : fromUtf8 bytes = .error e) :
    ∃ text rest, bytes = encode text ++ rest ∧ rest ≠ [] ∧ e.validUpTo = (encode text).length ∧
      ((∃ length, scan rest = .wrong length ∧ e.errorLen = some length) ∨ scan rest = .unfinished ∧ e.errorLen = none) := by
  obtain ⟨text, rest, rfl, stop⟩ := exists_characters bytes
  refine ⟨text, rest, rfl, ?_⟩
  rcases fromUtf8_encode_append text stop with ⟨-, ok⟩ | ⟨some, ⟨length, found, error'⟩ | ⟨found, error'⟩⟩
  · cases ok.symm.trans error
  · obtain rfl := Except.error.inj (error'.symm.trans error)
    exact ⟨some, rfl, .inl ⟨length, found, rfl⟩⟩
  · obtain rfl := Except.error.inj (error'.symm.trans error)
    exact ⟨some, rfl, .inr ⟨found, rfl⟩⟩

/-- Bytes of a text that are cut anywhere are those of its first characters and a part of the next, of at most three
bytes. -/
theorem exists_of_take (text : List Char) (n : Nat) : ∃ front back part later, text = front ++ back ∧
    (encode text).take n = encode front ++ part ∧ (encode text).drop n = later ∧ part ++ later = encode back ∧
    (part = [] ∨ ∃ c back' rest, back = c :: back' ∧ rest ≠ [] ∧ part ++ rest = String.utf8EncodeChar c ∧
      later = rest ++ encode back') := by
  induction text generalizing n with
  | nil => exact ⟨[], [], [], [], rfl, List.take_nil, List.drop_nil, rfl, .inl rfl⟩
  | cons c text ih =>
    by_cases inside : n < (String.utf8EncodeChar c).length
    · refine ⟨[], c :: text, (String.utf8EncodeChar c).take n, (String.utf8EncodeChar c).drop n ++ encode text, rfl,
        ?_, ?_, ?_, .inr ⟨c, text, _, rfl, ?_, List.take_append_drop _ _, rfl⟩⟩
      · rw [encode_cons, List.take_append_of_le_length inside.le]
        rfl
      · rw [encode_cons, List.drop_append_of_le_length inside.le]
      · rw [← List.append_assoc, List.take_append_drop]
        rfl
      · exact fun none => absurd (List.drop_eq_nil_iff.mp none) (Nat.not_le.mpr inside)
    · obtain ⟨front, back, part, later, rfl, taken, dropped, whole, shape⟩ := ih (n - (String.utf8EncodeChar c).length)
      refine ⟨c :: front, back, part, later, rfl, ?_, ?_, whole, shape⟩
      · rw [encode_cons, List.take_append, List.take_of_length_le (Nat.not_lt.mp inside), taken, encode_cons,
          List.append_assoc]
      · rw [encode_cons, List.drop_append, List.drop_eq_nil_of_le (Nat.not_lt.mp inside), dropped]
        rfl

end Lib.Utf8
