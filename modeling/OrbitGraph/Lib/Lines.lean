import OrbitGraph.Lib.Utf8Search

/-!
Where the lines of a sequence of bytes begin and end.

Lines are counted from 1 and end before a line feed, or at the end of the bytes. The starts
ascend, and the bytes of a text have as many as the text has line feeds, and one more.
-/

namespace Lib

open Utf8

/-- The places behind the line feeds, for bytes that begin at an offset. -/
def lineStartsFrom (offset : Nat) : Bytes → List Nat
  | [] => []
  | b :: rest =>
    if b = 10 then (offset + 1) :: lineStartsFrom (offset + 1) rest else lineStartsFrom (offset + 1) rest

def lineStarts (bytes : Bytes) : List Nat := 0 :: lineStartsFrom 0 bytes

def lineStart (bytes : Bytes) (line : Nat) : Nat := ((lineStarts bytes)[line - 1]?).getD bytes.length

def lineStop (bytes : Bytes) (line : Nat) : Nat :=
  match (lineStarts bytes)[line]? with
  | some next => next - 1
  | none => bytes.length

theorem lineStartsFrom_append (offset : Nat) (front back : Bytes) : lineStartsFrom offset (front ++ back) =
      lineStartsFrom offset front ++ lineStartsFrom (offset + front.length) back := by
  induction front generalizing offset with
  | nil => rfl
  | cons b front ih =>
    have later : offset + 1 + front.length = offset + (b :: front).length := by
      rw [List.length_cons]
      omega
    rw [List.cons_append, lineStartsFrom, lineStartsFrom, ih, later]
    split_ifs <;> rfl

theorem lineStarts_append (front back : Bytes) :
    lineStarts (front ++ back) = lineStarts front ++ lineStartsFrom front.length back := by
  rw [lineStarts, lineStartsFrom_append, Nat.zero_add]
  rfl

theorem length_lineStartsFrom (offset : Nat) (bytes : Bytes) : (lineStartsFrom offset bytes).length = bytes.count 10 := by
  induction bytes generalizing offset with
  | nil => rfl
  | cons b rest ih =>
    rw [lineStartsFrom]
    split_ifs with feed
    · rw [List.length_cons, ih, feed, List.count_cons_self]
    · rw [ih, List.count_cons_of_ne feed]

theorem length_lineStarts (bytes : Bytes) : (lineStarts bytes).length = bytes.count 10 + 1 := by
  rw [lineStarts, List.length_cons, length_lineStartsFrom]

theorem mem_lineStartsFrom {offset start : Nat} {bytes : Bytes} (mem : start ∈ lineStartsFrom offset bytes) :
    offset < start ∧ start ≤ offset + bytes.length ∧ bytes[start - offset - 1]? = some 10 := by
  induction bytes generalizing offset with
  | nil => cases mem
  | cons b rest ih =>
    have later : start ∈ lineStartsFrom (offset + 1) rest → offset < start ∧ start ≤ offset + (b :: rest).length ∧
        (b :: rest)[start - offset - 1]? = some 10 := by
      intro inside
      obtain ⟨above, below, feed⟩ := ih inside
      have next : start - offset - 1 = start - (offset + 1) - 1 + 1 := by omega
      rw [List.length_cons, next, List.getElem?_cons_succ]
      exact ⟨by omega, by omega, feed⟩
    rw [lineStartsFrom] at mem
    split_ifs at mem with here
    · rcases List.mem_cons.mp mem with rfl | inside
      · rw [List.length_cons]
        refine ⟨by omega, by omega, ?_⟩
        rw [show offset + 1 - offset - 1 = 0 by omega, here]
        rfl
      · exact later inside
    · exact later mem

theorem pairwise_lineStartsFrom (offset : Nat) (bytes : Bytes) : (lineStartsFrom offset bytes).Pairwise (· < ·) := by
  induction bytes generalizing offset with
  | nil => exact List.Pairwise.nil
  | cons b rest ih =>
    rw [lineStartsFrom]
    split_ifs
    · exact List.pairwise_cons.mpr ⟨fun start mem => (mem_lineStartsFrom mem).1, ih _⟩
    · exact ih _

theorem pairwise_lineStarts (bytes : Bytes) : (lineStarts bytes).Pairwise (· < ·) :=
  List.pairwise_cons.mpr ⟨fun _ mem => (mem_lineStartsFrom mem).1, pairwise_lineStartsFrom 0 bytes⟩

theorem le_length_of_mem_lineStarts {bytes : Bytes} {start : Nat} (mem : start ∈ lineStarts bytes) :
    start ≤ bytes.length := by
  rcases List.mem_cons.mp mem with rfl | later
  · exact Nat.zero_le _
  · have := (mem_lineStartsFrom later).2.1
    omega

theorem count_encode (text : List Char) : (encode text).count 10 = text.count '\n' := by
  induction text with
  | nil => rfl
  | cons c text ih =>
    have whole : encode (c :: text) = String.utf8EncodeChar c ++ encode text := rfl
    rw [whole, List.count_append, ih, List.count_cons]
    by_cases ascii : c.toNat < 128
    · have single : ([UInt8.ofNat c.toNat].count 10 : Nat) = if c = '\n' then 1 else 0 := by
        rw [List.count_singleton]
        by_cases feed : c = '\n'
        · subst feed
          rfl
        · have apart : ¬ UInt8.ofNat c.toNat = 10 := by
            intro same
            have number := congrArg UInt8.toNat same
            rw [toNat_ofNat_of_lt (by omega)] at number
            exact feed (Char.ext (UInt32.toNat_inj.mp number))
          rw [if_neg feed]
          simp [apart]
      rw [encodeChar_of_ascii ascii, single]
      simp only [beq_iff_eq]
      split_ifs <;> omega
    · have none : (String.utf8EncodeChar c).count 10 = 0 := by
        rw [List.count_eq_zero]
        intro mem
        have high := encodeChar_of_not_ascii (Nat.not_lt.mp ascii) 10 mem
        revert high
        decide
      have apart : ¬ c = '\n' := by
        rintro rfl
        exact ascii (by decide)
      rw [none, if_neg (by simpa using apart)]
      omega

section Lines

variable {bytes : Bytes} {m n : Nat}

theorem lineStart_lt (first : 1 ≤ m) (order : m < n) (inside : n ≤ (lineStarts bytes).length) :
    lineStart bytes m < lineStart bytes n := by
  have earlier : m - 1 < (lineStarts bytes).length := by omega
  have later : n - 1 < (lineStarts bytes).length := by omega
  rw [lineStart, lineStart, List.getElem?_eq_getElem earlier, List.getElem?_eq_getElem later]
  exact List.pairwise_iff_getElem.mp (pairwise_lineStarts bytes) _ _ earlier later (by omega)

theorem lineStart_le (first : 1 ≤ m) (order : m ≤ n) (inside : n ≤ (lineStarts bytes).length) :
    lineStart bytes m ≤ lineStart bytes n := by
  rcases order.lt_or_eq with less | rfl
  · exact (lineStart_lt first less inside).le
  · exact Nat.le_refl _

theorem lineStop_eq (first : 1 ≤ n) (inside : n < (lineStarts bytes).length) :
    lineStop bytes n + 1 = lineStart bytes (n + 1) ∧ bytes[lineStop bytes n]? = some 10 := by
  have found := List.getElem?_eq_getElem inside
  have mem : (lineStarts bytes)[n] ∈ lineStartsFrom 0 bytes := by
    obtain ⟨k, rfl⟩ := Nat.exists_eq_add_of_le' first
    exact List.getElem_mem _
  obtain ⟨above, -, feed⟩ := mem_lineStartsFrom mem
  rw [Nat.sub_zero] at feed
  unfold lineStop lineStart
  rw [Nat.add_sub_cancel, found]
  exact ⟨Nat.sub_add_cancel above, feed⟩

theorem lineStop_of_last (last : (lineStarts bytes).length ≤ n) : lineStop bytes n = bytes.length := by
  rw [lineStop, List.getElem?_eq_none last]

theorem lineStart_le_length (bytes : Bytes) (n : Nat) : lineStart bytes n ≤ bytes.length := by
  unfold lineStart
  cases found : (lineStarts bytes)[n - 1]? with
  | none => exact Nat.le_refl _
  | some start => exact le_length_of_mem_lineStarts (List.mem_of_getElem? found)

theorem lineStart_le_lineStop (first : 1 ≤ m) (order : m ≤ n) : lineStart bytes m ≤ lineStop bytes n := by
  by_cases last : n < (lineStarts bytes).length
  · have next := (@lineStop_eq bytes n (by omega) last).1
    have less := @lineStart_lt bytes m (n + 1) first (by omega) (by omega)
    omega
  · rw [lineStop_of_last (Nat.not_lt.mp last)]
    exact lineStart_le_length bytes m

theorem lineStop_le (first : 1 ≤ m) (order : m ≤ n) : lineStop bytes m ≤ lineStop bytes n := by
  by_cases last : m < (lineStarts bytes).length
  · rcases order.lt_or_eq with less | rfl
    · have next := (lineStop_eq first last).1
      have later := @lineStart_le_lineStop bytes (m + 1) n (by omega) less
      omega
    · exact Nat.le_refl _
  · rw [lineStop_of_last (Nat.not_lt.mp last), lineStop_of_last (by omega)]

end Lines

end Lib
