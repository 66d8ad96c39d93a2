import OrbitGraph.Lib.Utf8
import OrbitGraph.Changes.Source

/-!
The names of Git tree entries, as bytes and as text.

Bytes that are UTF-8 are the encoding of their text. All others lose something on the way to
a text, so encoding it again gives other bytes.
-/

namespace OrbitGraph.Snapshot

open Lib Changes

/-! ### Decoding what was encoded -/

theorem nextByte_continues {p : Partial} {b : UInt8} (low : p.low.toNat ≤ b.toNat) (high : b.toNat ≤ p.high.toNat) :
    nextByte (some p) b = if p.missing = 1 then ([Char.ofNat (p.bits * 64 + (b.toNat - 0x80))], none)
      else ([], some ⟨p.bits * 64 + (b.toNat - 0x80), p.missing - 1, 0x80, 0xBF⟩) := by
  unfold nextByte
  dsimp only
  rw [if_pos ⟨UInt8.le_iff_toNat_le.mpr low, UInt8.le_iff_toNat_le.mpr high⟩]

variable {low high b : UInt8}

theorem decodeFrom_last {bits : Nat} (above : low.toNat ≤ b.toNat) (below : b.toNat ≤ high.toNat)
    (rest : List UInt8) : decodeFrom (some ⟨bits, 1, low, high⟩) (b :: rest) =
      Char.ofNat (bits * 64 + (b.toNat - 0x80)) :: decodeFrom none rest := by
  rw [decodeFrom_cons, nextByte_continues above below]
  rfl

theorem decodeFrom_inner {bits missing : Nat} (above : low.toNat ≤ b.toNat)
    (below : b.toNat ≤ high.toNat) (rest : List UInt8) : decodeFrom (some ⟨bits, missing + 2, low, high⟩) (b :: rest) =
      decodeFrom (some ⟨bits * 64 + (b.toNat - 0x80), missing + 1, 0x80, 0xBF⟩) rest := by
  rw [decodeFrom_cons, nextByte_continues above below]
  rfl

theorem decodeFrom_lead {b : UInt8} {p : Partial} (lead : leadByte b = ([], some p)) (rest : List UInt8) :
    decodeFrom none (b :: rest) = decodeFrom (some p) rest := by
  rw [decodeFrom_cons, nextByte, lead]
  rfl

theorem decodeFrom_encodes {v : Nat} {bytes : List UInt8} (valid : v < 0xD800 ∨ (0xDFFF < v ∧ v < 0x110000))
    (encodes : Utf8.Encodes v bytes) (rest : List UInt8) :
    decodeFrom none (bytes ++ rest) = Char.ofNat v :: decodeFrom none rest := by
  cases encodes with
  | @one a small first =>
    have lead : leadByte a = ([Char.ofNat v], none) := by
      unfold leadByte
      dsimp only
      rw [first, if_pos small]
    rw [List.singleton_append, decodeFrom_cons, nextByte, lead]
    rfl
  | @two a b least most first second =>
    have lead : leadByte a = ([], some ⟨v / 64, 1, 0x80, 0xBF⟩) := by
      unfold leadByte
      dsimp only
      rw [first, if_neg (by omega), if_pos (by omega), Nat.add_sub_cancel_left]
    rw [List.cons_append, decodeFrom_lead lead, List.singleton_append,
      decodeFrom_last (by rw [second]; exact Nat.le_add_right _ _) (by rw [second]; change _ ≤ 0xBF; omega), second]
    have bits : v / 64 * 64 + (0x80 + v % 64 - 0x80) = v := by omega
    rw [bits]
  | @three a b c least most first second third =>
    have lead : ∃ low high : UInt8, leadByte a = ([], some ⟨v / 4096, 2, low, high⟩) ∧ low.toNat ≤ b.toNat ∧
        b.toNat ≤ high.toNat := by
      unfold leadByte
      dsimp only
      rw [first, if_neg (by omega), if_neg (by omega)]
      by_cases lowest : v / 4096 = 0
      · rw [if_pos (by omega), lowest]
        exact ⟨0xA0, 0xBF, rfl, by rw [second]; change 0xA0 ≤ _; omega, by rw [second]; change _ ≤ 0xBF; omega⟩
      · rw [if_neg (by omega)]
        by_cases surrogates : v / 4096 = 13
        · rw [if_pos (by omega), surrogates]
          exact ⟨0x80, 0x9F, rfl, by rw [second]; exact Nat.le_add_right _ _, by rw [second]; change _ ≤ 0x9F; omega⟩
        · rw [if_neg (by omega), if_pos (by omega), Nat.add_sub_cancel_left]
          exact ⟨0x80, 0xBF, rfl, by rw [second]; exact Nat.le_add_right _ _, by rw [second]; change _ ≤ 0xBF; omega⟩
    obtain ⟨low, high, lead, above, below⟩ := lead
    rw [List.cons_append, decodeFrom_lead lead, List.cons_append, decodeFrom_inner above below, List.singleton_append,
      decodeFrom_last (by rw [third]; exact Nat.le_add_right _ _) (by rw [third]; change _ ≤ 0xBF; omega), second, third]
    have bits : (v / 4096 * 64 + (0x80 + v / 64 % 64 - 0x80)) * 64 + (0x80 + v % 64 - 0x80) = v := by omega
    rw [bits]
  | @four a b c d least most first second third fourth =>
    have lead : ∃ low high : UInt8, leadByte a = ([], some ⟨v / 262144, 3, low, high⟩) ∧ low.toNat ≤ b.toNat ∧
        b.toNat ≤ high.toNat := by
      unfold leadByte
      dsimp only
      rw [first, if_neg (by omega), if_neg (by omega), if_neg (by omega), if_neg (by omega), if_neg (by omega)]
      by_cases lowest : v / 262144 = 0
      · rw [if_pos (by omega), lowest]
        exact ⟨0x90, 0xBF, rfl, by rw [second]; change 0x90 ≤ _; omega, by rw [second]; change _ ≤ 0xBF; omega⟩
      · rw [if_neg (by omega)]
        by_cases highest : v / 262144 = 4
        · rw [if_pos (by omega), highest]
          exact ⟨0x80, 0x8F, rfl, by rw [second]; exact Nat.le_add_right _ _, by rw [second]; change _ ≤ 0x8F; omega⟩
        · rw [if_neg (by omega), if_pos (by omega), Nat.add_sub_cancel_left]
          exact ⟨0x80, 0xBF, rfl, by rw [second]; exact Nat.le_add_right _ _, by rw [second]; change _ ≤ 0xBF; omega⟩
    obtain ⟨low, high, lead, above, below⟩ := lead
    rw [List.cons_append, decodeFrom_lead lead, List.cons_append, decodeFrom_inner above below, List.cons_append,
      decodeFrom_inner (by rw [third]; exact Nat.le_add_right _ _) (by rw [third]; change _ ≤ 0xBF; omega),
      List.singleton_append,
      decodeFrom_last (by rw [fourth]; exact Nat.le_add_right _ _) (by rw [fourth]; change _ ≤ 0xBF; omega),
      second, third, fourth]
    have bits : ((v / 262144 * 64 + (0x80 + v / 4096 % 64 - 0x80)) * 64 + (0x80 + v / 64 % 64 - 0x80)) * 64 +
        (0x80 + v % 64 - 0x80) = v := by omega
    rw [bits]

theorem fromUtf8Lossy_encode (text : Text) : fromUtf8Lossy (Utf8.encode text) = text := by
  unfold fromUtf8Lossy
  induction text with
  | nil => rfl
  | cons c rest ih =>
    rw [Utf8.encode_cons, decodeFrom_encodes (Utf8.toNat_lt c) (Utf8.encodes c), ih, Char.ofNat_toNat]

/-! ### Decoding a first part -/

/-- The bytes that a state has read of a character that is not complete. -/
def Spent : Option Partial → Nat → Prop
  | none, k => k = 0
  | some p, k => p.missing + k = 4 ∧ 1 ≤ k ∧ k ≤ 3

theorem leadByte_spent (b : UInt8) : ∃ j, Spent (leadByte b).2 j ∧ 1 ≤ 4 * (leadByte b).1.length + j := by
  unfold leadByte
  dsimp only
  split_ifs
  · exact ⟨0, rfl, by simp⟩
  · exact ⟨3, by simp [Spent], by simp⟩
  · exact ⟨2, by simp [Spent], by simp⟩
  · exact ⟨2, by simp [Spent], by simp⟩
  · exact ⟨2, by simp [Spent], by simp⟩
  · exact ⟨1, by simp [Spent], by simp⟩
  · exact ⟨1, by simp [Spent], by simp⟩
  · exact ⟨1, by simp [Spent], by simp⟩
  · exact ⟨0, rfl, by simp⟩

variable {state : Option Partial} {k : Nat}

theorem nextByte_spent (spent : Spent state k) (b : UInt8) :
    ∃ j, Spent (nextByte state b).2 j ∧ k + 1 ≤ 4 * (nextByte state b).1.length + j := by
  cases state with
  | none =>
    obtain ⟨j, begun, bound⟩ := leadByte_spent b
    have none : k = 0 := spent
    exact ⟨j, begun, by rw [none]; exact bound⟩
  | some p =>
    obtain ⟨sum, least, most⟩ : p.missing + k = 4 ∧ 1 ≤ k ∧ k ≤ 3 := spent
    rw [nextByte]
    dsimp only
    split_ifs
    · exact ⟨0, rfl, by rw [List.length_singleton]; omega⟩
    · exact ⟨k + 1, ⟨by dsimp only; omega, by omega, by omega⟩, by omega⟩
    · obtain ⟨j, begun, bound⟩ := leadByte_spent b
      exact ⟨j, begun, by rw [List.length_cons]; omega⟩

/-- What is decoded of a first part stays when the bytes go on; a character is of four bytes at most. -/
theorem decodeFrom_split (spent : Spent state k) (front : List UInt8) :
    ∃ text pending, (∀ back, decodeFrom state (front ++ back) = text ++ decodeFrom pending back) ∧
      k + front.length ≤ 4 * text.length + 3 := by
  induction front generalizing state k with
  | nil =>
    refine ⟨[], state, fun back => rfl, ?_⟩
    cases state with
    | none => exact (show k = 0 from spent) ▸ Nat.zero_le _
    | some p => exact spent.2.2
  | cons b front ih =>
    obtain ⟨j, next, bound⟩ := nextByte_spent spent b
    obtain ⟨text, pending, continued, whole⟩ := ih next
    refine ⟨(nextByte state b).1 ++ text, pending, fun back => ?_, ?_⟩
    · rw [List.cons_append, decodeFrom_cons, List.append_assoc, ← continued]
    · rw [List.length_append, List.length_cons]
      omega

def component (name : List UInt8) : List UInt8 := Utf8.encode (fromUtf8Lossy name)

def isUtf8 (name : List UInt8) : Bool :=
  match Utf8.fromUtf8 name with
  | .ok _ => true
  | .error _ => false

variable {name : List UInt8}

theorem isUtf8_iff : isUtf8 name = true ↔ ∃ text, name = Utf8.encode text := by
  rw [← Utf8.fromUtf8_ok_iff]
  unfold isUtf8
  cases Utf8.fromUtf8 name <;> simp

theorem component_eq_iff : component name = name ↔ isUtf8 name = true := by
  rw [isUtf8_iff]
  constructor
  · exact fun same => ⟨_, same.symm⟩
  · rintro ⟨text, rfl⟩
    rw [component, fromUtf8Lossy_encode]

theorem isUtf8_component (name : List UInt8) : isUtf8 (component name) = true := isUtf8_iff.mpr ⟨_, rfl⟩

/-- `TreeEntry::name`. -/
def entryName (name : List UInt8) : Option Text := if isUtf8 name then some (fromUtf8Lossy name) else none

end OrbitGraph.Snapshot
