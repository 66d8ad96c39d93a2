import OrbitGraph.History.Types
import OrbitGraph.Lib.Command
import OrbitGraph.Lib.Utf8

/-!
Bounded reads of the source of a span.

A span that does not fit the limit is not read to its end: the window has the limit and
three more bytes, which finish the character that the limit may split. A span that fits
the window is treated by an older rule, which asks whether all of it is UTF-8.
-/

namespace OrbitGraph.Query

open Lib Lib.Utf8 History

def isCharBoundary (text : Bytes) (index : Nat) : Bool :=
  index = 0 || match text[index]? with
    | none => index = text.length
    | some b => !isContinuation b

/-- The loop of `rewind_to_char_boundary`. -/
def rewind (text : Bytes) : Nat → Nat
  | 0 => 0
  | byteCount + 1 => if isCharBoundary text (byteCount + 1) then byteCount + 1 else rewind text byteCount

def rewindToCharBoundary (source : Bytes) (byteCount : Nat) : Nat :=
  match fromUtf8 source with
  | .error _ => byteCount
  | .ok _ => rewind source byteCount

def utf8HasChar (bytes : Bytes) : Bool :=
  match fromUtf8 bytes with
  | .ok _ => bytes ≠ []
  | .error error => 0 < error.validUpTo

/-! ### The window -/

def utf8CharTail : Nat := 3

/-- `usize::MAX`. -/
def usizeMax : Nat := 2 ^ 64 - 1

def showReadLen (spanLen maxBytes : Nat) : Nat :=
  if maxBytes = 0 ∨ spanLen = 0 then 0
  else if spanLen ≤ maxBytes then spanLen
  else min spanLen (min (maxBytes + utf8CharTail) usizeMax)

def boundedSourceLen (source : Bytes) (maxBytes : Nat) (entireSpan : Bool) : Nat :=
  let byteCount := min source.length maxBytes
  if entireSpan then
    match fromUtf8 source with
    | .error _ => byteCount
    | .ok _ => rewindToCharBoundary source byteCount
  else
    match fromUtf8 (source.take byteCount) with
    | .ok _ => byteCount
    | .error error =>
      if error.errorLen = none then
        if error.validUpTo < byteCount ∧ utf8HasChar (source.drop error.validUpTo) then error.validUpTo else byteCount
      else byteCount

/-- What `read_show_window` returns. -/
structure ShowWindow where
  bytes : Bytes
  start : Nat
  stop : Nat
  truncated : Bool
  deriving DecidableEq

def i64ToUsize (operation : Text) (value : Int) : Except GraphError Nat :=
  if value < 0 then .error (.invalidData operation "out of range integral type conversion attempted")
  else .ok value.toNat

/-- `read_show_window`, of a file that opens as `opened`: with its bytes, if it is a regular file. -/
def readShowWindow (opened : Except GraphError Bytes) (spanOperation : Text) (spanStart spanEnd : Int) (maxBytes : Nat)
    (fileLabel : Text) : Except GraphError ShowWindow := do
  let source ← opened
  let start ← i64ToUsize spanOperation spanStart
  let stop ← i64ToUsize spanOperation spanEnd
  if start > stop ∨ stop > source.length then
    .error (.invalidData spanOperation ("invalid span " ++ decimal start ++ ".." ++ decimal stop ++
      " for " ++ fileLabel ++ " with " ++ decimal source.length ++ " bytes"))
  else
    let spanLen := stop - start
    let readLen := showReadLen spanLen maxBytes
    let buf := if readLen = 0 then [] else (source.drop start).take readLen
    let byteCount := boundedSourceLen buf maxBytes (readLen = spanLen)
    return ⟨buf.take byteCount, start, stop, byteCount < spanLen⟩

/-- What the rule for whole spans leaves of a span that is read to its end. -/
def wholeSpan (span : Bytes) (maxBytes : Nat) : Bytes := span.take (boundedSourceLen span maxBytes true)

/-! ### Boundaries of a text -/

theorem rewind_eq {text : Bytes} {least n : Nat} (below : least ≤ n) (boundary : isCharBoundary text least = true)
    (between : ∀ i, least < i → i ≤ n → isCharBoundary text i = false) : rewind text n = least := by
  induction n with
  | zero =>
    obtain rfl := Nat.le_zero.mp below
    rfl
  | succ n ih =>
    rw [rewind]
    rcases Nat.lt_or_eq_of_le below with less | rfl
    · rw [between (n + 1) less (le_refl _), if_neg Bool.false_ne_true]
      exact ih (Nat.le_of_lt_succ less) fun i low high => between i low (Nat.le_succ_of_le high)
    · rw [boundary, if_pos rfl]

theorem isCharBoundary_encode (front back : List Char) : isCharBoundary (encode (front ++ back)) (encode front).length = true := by
  unfold isCharBoundary
  rw [encode_append]
  cases back with
  | nil =>
    rw [encode_nil, List.append_nil, List.getElem?_eq_none (le_refl _)]
    simp
  | cons c back =>
    obtain ⟨first, rest, bytes, starts, -⟩ := encodeChar_eq_cons c
    rw [encode_cons, bytes, List.getElem?_append_right (le_refl _), Nat.sub_self]
    simp [starts]

theorem isCharBoundary_inside (front back : List Char) (c : Char) {i : Nat} (low : 0 < i)
    (high : i < (String.utf8EncodeChar c).length) :
    isCharBoundary (encode (front ++ c :: back)) ((encode front).length + i) = false := by
  obtain ⟨first, rest, bytes, -, continues, -⟩ := encodeChar_eq_cons c
  have inside : (encode (front ++ c :: back))[(encode front).length + i]? = rest[i - 1]? := by
    rw [encode_append, encode_cons, List.getElem?_append_right (Nat.le_add_right _ _), Nat.add_sub_cancel_left,
      List.getElem?_append_left high, bytes]
    cases i with
    | zero => exact (Nat.lt_irrefl 0 low).elim
    | succ i => rfl
  have short : i - 1 < rest.length := by
    rw [bytes, List.length_cons] at high
    omega
  unfold isCharBoundary
  rw [inside, List.getElem?_eq_getElem short]
  have middle : isContinuation rest[i - 1] = true := List.all_eq_true.mp continues _ (List.getElem_mem short)
  simp [middle]
  omega

structure Cut (text : List Char) (n : Nat) (front : List Char) (part : Bytes) : Prop where
  taken : (encode text).take n = encode front ++ part
  text : ∃ back, text = front ++ back ∧ (part = [] ∨ ∃ c back' rest, back = c :: back' ∧ rest ≠ [] ∧
    part ++ rest = String.utf8EncodeChar c)

theorem exists_cut (text : List Char) (n : Nat) : ∃ front part, Cut text n front part := by
  obtain ⟨front, back, part, later, rfl, taken, -, -, shape⟩ := exists_of_take text n
  refine ⟨front, part, taken, back, rfl, shape.imp_right ?_⟩
  rintro ⟨c, back', rest, same, some, whole, -⟩
  exact ⟨c, back', rest, same, some, whole⟩

namespace Cut

variable {text front : List Char} {n : Nat} {part : Bytes}

theorem length (cut : Cut text n front part) (inside : n ≤ (encode text).length) : (encode front).length + part.length = n := by
  have := congrArg List.length cut.taken
  rw [List.length_take, List.length_append] at this
  omega

theorem short (cut : Cut text n front part) : part.length ≤ 3 := by
  obtain ⟨back, -, rfl | ⟨c, back', rest, -, some, whole⟩⟩ := cut.text
  · exact Nat.zero_le 3
  · have length := congrArg List.length whole
    have positive := List.length_pos_iff.mpr some
    have most := c.utf8Size_le_four
    rw [List.length_append, String.length_utf8EncodeChar] at length
    omega

theorem rewind (cut : Cut text n front part) (inside : n ≤ (encode text).length) :
    rewind (encode text) n = (encode front).length := by
  have length := cut.length inside
  obtain ⟨back, rfl, shape⟩ := cut.text
  refine rewind_eq (by omega) (isCharBoundary_encode front back) fun i low high => ?_
  rcases shape with rfl | ⟨c, back', rest, rfl, some, whole⟩
  · rw [List.length_nil] at length
    omega
  · have size := congrArg List.length whole
    have positive := List.length_pos_iff.mpr some
    rw [List.length_append] at size
    obtain ⟨j, rfl⟩ : ∃ j, i = (encode front).length + j := ⟨i - (encode front).length, by omega⟩
    exact isCharBoundary_inside front back' c (by omega) (by omega)

theorem check (cut : Cut text n front part) : (part = [] ∧ fromUtf8 ((encode text).take n) = .ok ()) ∨
      part ≠ [] ∧ scan part = .unfinished ∧ fromUtf8 ((encode text).take n) = .error ⟨(encode front).length, none⟩ := by
  rw [cut.taken]
  obtain ⟨back, -, rfl | ⟨c, back', rest, -, some, whole⟩⟩ := cut.text
  · exact .inl ⟨rfl, by rw [List.append_nil, fromUtf8_encode]⟩
  · have unfinished := scan_of_part whole some
    have stop : ∀ width, scan part ≠ .char width := fun width found => by
      rw [unfinished] at found
      cases found
    rcases fromUtf8_encode_append front stop with ⟨rfl, ok⟩ | ⟨nonempty, ⟨_, wrong, -⟩ | ⟨-, error⟩⟩
    · exact .inl ⟨rfl, ok⟩
    · cases unfinished.symm.trans wrong
    · exact .inr ⟨nonempty, unfinished, error⟩

end Cut

variable {part : Bytes}

theorem boundedSourceLen_whole {text front : List Char} {maxBytes : Nat}
    (cut : Cut text (min (encode text).length maxBytes) front part) :
    boundedSourceLen (encode text) maxBytes true = (encode front).length := by
  unfold boundedSourceLen rewindToCharBoundary
  simp only [fromUtf8_encode, if_pos]
  exact cut.rewind (Nat.min_le_left _ _)

/-! ### The rule for windows -/

theorem utf8HasChar_encodeChar (c : Char) (rest : Bytes) : utf8HasChar (String.utf8EncodeChar c ++ rest) = true := by
  have positive := c.utf8Size_pos
  have length := String.length_utf8EncodeChar c
  unfold utf8HasChar
  cases check : fromUtf8 (String.utf8EncodeChar c ++ rest) with
  | ok _ =>
    refine decide_eq_true fun empty => ?_
    rw [(List.append_eq_nil_iff.mp empty).1, List.length_nil] at length
    omega
  | error e =>
    refine decide_eq_true ?_
    obtain ⟨text, rest', same, -, valid, stop⟩ := fromUtf8_error check
    cases text with
    | nil =>
      have found := scan_encodeChar c rest
      rw [same, encode_nil, List.nil_append] at found
      rcases stop with ⟨_, wrong, -⟩ | ⟨unfinished, -⟩
      · cases found.symm.trans wrong
      · cases found.symm.trans unfinished
    | cons d text =>
      have := d.utf8Size_pos
      rw [valid, encode_cons, List.length_append, String.length_utf8EncodeChar]
      omega

theorem exists_of_utf8HasChar {bytes : Bytes} (found : utf8HasChar bytes = true) :
    ∃ c rest, bytes = String.utf8EncodeChar c ++ rest := by
  unfold utf8HasChar at found
  cases check : fromUtf8 bytes with
  | ok _ =>
    rw [check] at found
    obtain ⟨text, rfl⟩ := fromUtf8_ok_iff.mp check
    cases text with
    | nil => exact (of_decide_eq_true found rfl).elim
    | cons c text => exact ⟨c, encode text, rfl⟩
  | error e =>
    rw [check] at found
    obtain ⟨text, rest, rfl, -, valid, -⟩ := fromUtf8_error check
    cases text with
    | nil =>
      rw [encode_nil, List.length_nil] at valid
      have found : 0 < e.validUpTo := of_decide_eq_true found
      omega
    | cons c text => exact ⟨c, encode text ++ rest, by rw [encode_cons, List.append_assoc]⟩

/-- The window leaves a character out that the limit splits. -/
theorem boundedSourceLen_of_char {text : List Char} {c : Char} {maxBytes : Nat} (rest : Bytes)
    (low : (encode text).length < maxBytes) (high : maxBytes < (encode text).length + (String.utf8EncodeChar c).length) :
    boundedSourceLen (encode text ++ (String.utf8EncodeChar c ++ rest)) maxBytes false = (encode text).length := by
  obtain ⟨k, rfl⟩ := Nat.exists_eq_add_of_le low.le
  have part : (encode text ++ (String.utf8EncodeChar c ++ rest)).take ((encode text).length + k) =
      encode text ++ (String.utf8EncodeChar c).take k := by
    rw [List.take_length_add_append, List.take_append_of_le_length (by omega)]
  have cut : Cut (text ++ [c]) ((encode text).length + k) text ((String.utf8EncodeChar c).take k) := by
    refine ⟨?_, [c], rfl, .inr ⟨c, [], (String.utf8EncodeChar c).drop k, rfl, ?_, List.take_append_drop _ _⟩⟩
    · rw [encode_append, encode_cons, encode_nil, List.take_length_add_append, List.append_nil]
    · rw [Ne, List.drop_eq_nil_iff]
      omega
  have check := cut.check
  rw [cut.taken, List.take_eq_nil_iff] at check
  have count : min (encode text ++ (String.utf8EncodeChar c ++ rest)).length ((encode text).length + k) =
      (encode text).length + k := by
    simp only [List.length_append]
    omega
  unfold boundedSourceLen
  simp only [count, part, if_neg Bool.false_ne_true]
  rcases check with ⟨empty, -⟩ | ⟨-, -, error⟩
  · have := empty.resolve_right fun none => by rw [none, List.length_nil] at high; omega
    omega
  · rw [error]
    dsimp only
    rw [if_pos rfl, if_pos ⟨low, by rw [List.drop_left]; exact utf8HasChar_encodeChar c rest⟩]

theorem boundedSourceLen_window {text front : List Char} {maxBytes : Nat}
    (long : maxBytes + 3 < (encode text).length) (cut : Cut text maxBytes front part) :
    boundedSourceLen ((encode text).take (maxBytes + 3)) maxBytes false = (encode front).length := by
  have length := cut.length (by omega)
  by_cases whole : part = []
  · have count : min ((encode text).take (maxBytes + 3)).length maxBytes = maxBytes := by
      rw [List.length_take]
      omega
    have ok := cut.taken
    rw [whole, List.append_nil] at ok
    unfold boundedSourceLen
    simp only [count, List.take_take, Nat.min_eq_left (Nat.le_add_right maxBytes 3), ok, fromUtf8_encode,
      if_neg Bool.false_ne_true]
    rw [whole, List.length_nil] at length
    exact length.symm
  · obtain ⟨back, rfl, rfl | ⟨c, back', rest, rfl, some, split⟩⟩ := cut.text
    · exact (whole rfl).elim
    · have most := c.utf8Size_le_four
      have size := congrArg List.length split
      have positive := List.length_pos_iff.mpr some
      have begun := List.length_pos_iff.mpr whole
      rw [List.length_append, String.length_utf8EncodeChar] at size
      obtain ⟨k, room⟩ : ∃ k, maxBytes + 3 = (encode front).length + ((String.utf8EncodeChar c).length + k) :=
        ⟨maxBytes + 3 - (encode front).length - c.utf8Size, by rw [String.length_utf8EncodeChar]; omega⟩
      rw [encode_append, encode_cons, room, List.take_length_add_append, List.take_length_add_append]
      exact boundedSourceLen_of_char _ (by omega) (by rw [String.length_utf8EncodeChar]; omega)

/-- Whatever the window holds, at most the bytes of a character that the limit splits are left out. -/
theorem boundedSourceLen_split {source : Bytes} {maxBytes : Nat} (enough : maxBytes ≤ source.length) :
    boundedSourceLen source maxBytes false = maxBytes ∨
      ∃ text c rest, source = encode text ++ (String.utf8EncodeChar c ++ rest) ∧
        boundedSourceLen source maxBytes false = (encode text).length ∧ (encode text).length < maxBytes ∧
        maxBytes < (encode text).length + (String.utf8EncodeChar c).length := by
  unfold boundedSourceLen
  simp only [Nat.min_eq_right enough, if_neg Bool.false_ne_true]
  cases check : fromUtf8 (source.take maxBytes) with
  | ok _ => exact .inl rfl
  | error e =>
    dsimp only
    split_ifs with none split
    · obtain ⟨less, has⟩ := split
      obtain ⟨text, part, taken, -, valid, ⟨_, -, some⟩ | ⟨unfinished, -⟩⟩ := fromUtf8_error check
      · cases some.symm.trans none
      · refine .inr ⟨text, ?_⟩
        rw [valid] at less has ⊢
        obtain ⟨later, whole⟩ : ∃ later, source = encode text ++ (part ++ later) := by
          refine ⟨source.drop maxBytes, ?_⟩
          rw [← List.append_assoc, ← taken, List.take_append_drop]
        rw [whole, List.drop_left] at has
        obtain ⟨c, rest, same⟩ := exists_of_utf8HasChar has
        refine ⟨c, rest, by rw [whole, same], rfl, less, ?_⟩
        -- The part in front of the limit is not the whole character, for that would be found in it.
        have length := congrArg List.length taken
        rw [List.length_take, Nat.min_eq_left enough, List.length_append] at length
        by_contra inside
        have behind : String.utf8EncodeChar c <+: part :=
          List.prefix_of_prefix_length_le ⟨rest, same.symm⟩ ⟨later, rfl⟩ (by omega)
        obtain ⟨others, rfl⟩ := behind
        rw [scan_encodeChar] at unfinished
        cases unfinished
    · exact .inl rfl
    · exact .inl rfl

/-! ### Bounded reads -/

/-- A character that the limit splits is left out of a long span. -/
def LeavesSplit (span : Bytes) (maxBytes : Nat) (bytes : Bytes) : Prop :=
  maxBytes + 3 < span.length → ∀ text c, encode text ++ String.utf8EncodeChar c <+: span →
    (encode text).length < maxBytes → maxBytes < (encode text ++ String.utf8EncodeChar c).length → bytes = encode text

structure BoundedRead (span : Bytes) (maxBytes : Nat) (window : ShowWindow) : Prop where
  starts : window.bytes <+: span
  limit : window.bytes.length ≤ maxBytes
  loss : min span.length maxBytes ≤ window.bytes.length + 3
  truncated : window.truncated = true ↔ window.bytes.length < span.length
  /-- Of a text, the longest text in front that is within the limit, as the rule for whole spans has it. -/
  text : fromUtf8 span = .ok () → isCharBoundary span window.bytes.length = true ∧ fromUtf8 window.bytes = .ok () ∧
    (∀ front, encode front <+: span → (encode front).length ≤ maxBytes → (encode front).length ≤ window.bytes.length) ∧
    window.bytes = wholeSpan span maxBytes
  /-- Of other bytes, the same, or all that is in front of a character that the limit splits. -/
  raw : fromUtf8 span ≠ .ok () → window.bytes = wholeSpan span maxBytes ∨
    maxBytes + 3 < span.length ∧ ∃ text c, window.bytes = encode text ∧
      encode text ++ String.utf8EncodeChar c <+: span ∧ maxBytes < (encode text ++ String.utf8EncodeChar c).length
  split : LeavesSplit span maxBytes window.bytes

theorem Cut.longest {text front : List Char} {n : Nat} (cut : Cut text n front part)
    (inside : n ≤ (encode text).length) {other : List Char} (starts : encode other <+: encode text)
    (fits : (encode other).length ≤ n) : (encode other).length ≤ (encode front).length := by
  by_contra longer
  have length := cut.length inside
  obtain ⟨back, rfl, rfl | ⟨c, back', rest, rfl, some, whole⟩⟩ := cut.text
  · rw [List.length_nil] at length
    omega
  · have positive := List.length_pos_iff.mpr some
    obtain ⟨tail, same⟩ := starts
    obtain ⟨back, split, -⟩ := exists_of_encode_append same
    -- `other` is longer than `front` and within the character that follows it.
    rcases List.append_eq_append_iff.mp split with ⟨more, rfl, later⟩ | ⟨more, rfl, later⟩
    · cases more with
      | nil =>
        rw [List.append_nil] at longer
        exact longer (le_refl _)
      | cons d more =>
        obtain ⟨rfl, -⟩ := List.cons.inj later
        have size := congrArg List.length whole
        rw [encode_append, encode_cons, List.length_append, List.length_append] at fits
        rw [List.length_append] at size
        omega
    · rw [encode_append, List.length_append] at longer
      omega

theorem boundedSourceLen_le (span : Bytes) (maxBytes : Nat) :
    boundedSourceLen span maxBytes true ≤ min span.length maxBytes ∧
      min span.length maxBytes ≤ boundedSourceLen span maxBytes true + 3 := by
  cases check : fromUtf8 span with
  | error e =>
    have raw : boundedSourceLen span maxBytes true = min span.length maxBytes := by
      unfold boundedSourceLen
      simp only [check, if_pos]
    omega
  | ok _ =>
    obtain ⟨text, rfl⟩ := fromUtf8_ok_iff.mp check
    obtain ⟨front, part, cut⟩ := exists_cut text (min (encode text).length maxBytes)
    have length := cut.length (Nat.min_le_left _ _)
    have short := cut.short
    rw [boundedSourceLen_whole cut]
    omega

variable {span : Bytes} {window : ShowWindow}

theorem BoundedRead.of_whole {maxBytes : Nat} (bytes : window.bytes = wholeSpan span maxBytes)
    (cutShort : window.truncated = decide (window.bytes.length < span.length))
    (split : LeavesSplit span maxBytes window.bytes) : BoundedRead span maxBytes window := by
  obtain ⟨most, least⟩ := boundedSourceLen_le span maxBytes
  have length : window.bytes.length = boundedSourceLen span maxBytes true := by
    rw [bytes, wholeSpan, List.length_take]
    omega
  refine ⟨bytes ▸ List.take_prefix _ _, by omega, by omega, by rw [cutShort, decide_eq_true_eq], fun valid => ?_,
    fun _ => .inl bytes, split⟩
  obtain ⟨text, rfl⟩ := fromUtf8_ok_iff.mp valid
  obtain ⟨front, part, cut⟩ := exists_cut text (min (encode text).length maxBytes)
  have whole := boundedSourceLen_whole cut
  obtain ⟨back, same, -⟩ := cut.text
  have kept : window.bytes = encode front := by
    rw [bytes, wholeSpan, whole, same, encode_append, List.take_left]
  refine ⟨?_, by rw [kept, fromUtf8_encode], fun other starts fits => ?_, bytes⟩
  · rw [kept, same]
    exact isCharBoundary_encode front back
  · rw [kept]
    have := starts.length_le
    exact cut.longest (Nat.min_le_left _ _) starts (by omega)

theorem BoundedRead.of_window {maxBytes : Nat} (long : maxBytes + 3 < span.length)
    (bytes : window.bytes = span.take (boundedSourceLen (span.take (maxBytes + 3)) maxBytes false))
    (cutShort : window.truncated = decide (window.bytes.length < span.length)) : BoundedRead span maxBytes window := by
  have splits : LeavesSplit span maxBytes window.bytes := by
    rintro - text c ⟨later, rfl⟩ low high
    have most := c.utf8Size_le_four
    rw [List.length_append, String.length_utf8EncodeChar] at high
    obtain ⟨k, room⟩ : ∃ k, maxBytes + 3 = (encode text).length + ((String.utf8EncodeChar c).length + k) :=
      ⟨maxBytes + 3 - (encode text).length - c.utf8Size, by rw [String.length_utf8EncodeChar]; omega⟩
    rw [bytes, List.append_assoc, room, List.take_length_add_append, List.take_length_add_append,
      boundedSourceLen_of_char _ low (by rwa [String.length_utf8EncodeChar]), List.take_left]
  by_cases valid : fromUtf8 span = .ok ()
  · obtain ⟨text, rfl⟩ := fromUtf8_ok_iff.mp valid
    obtain ⟨front, part, cut⟩ := exists_cut text maxBytes
    have cut' : Cut text (min (encode text).length maxBytes) front part := by
      rwa [Nat.min_eq_right (by omega)]
    refine BoundedRead.of_whole ?_ cutShort splits
    rw [bytes, boundedSourceLen_window long cut, wholeSpan, boundedSourceLen_whole cut']
  · have whole : wholeSpan span maxBytes = span.take maxBytes := by
      unfold wholeSpan boundedSourceLen
      cases check : fromUtf8 span with
      | ok _ => exact (valid check).elim
      | error e =>
        simp only [if_pos]
        rw [Nat.min_eq_right (by omega)]
    have room : maxBytes ≤ (span.take (maxBytes + 3)).length := by
      rw [List.length_take]
      omega
    rcases boundedSourceLen_split room with all | ⟨text, c, rest, taken, count, less, split⟩
    · exact BoundedRead.of_whole (by rw [bytes, all, whole]) cutShort splits
    · have inside : encode text ++ String.utf8EncodeChar c <+: span :=
        List.IsPrefix.trans ⟨rest, by rw [List.append_assoc, ← taken]⟩ (List.take_prefix _ _)
      have kept : window.bytes = encode text := by
        obtain ⟨later, rfl⟩ := inside
        rw [bytes, count, List.append_assoc, List.take_left]
      have most := c.utf8Size_le_four
      rw [String.length_utf8EncodeChar] at split
      refine ⟨bytes ▸ List.take_prefix _ _, by rw [kept]; omega, by rw [kept]; omega, by rw [cutShort, decide_eq_true_eq],
        fun text => (valid text).elim, fun _ => .inr ⟨long, text, c, kept, inside, ?_⟩, splits⟩
      rw [List.length_append, String.length_utf8EncodeChar]
      exact split

theorem i64ToUsize_ok {operation : Text} {value : Int} {n : Nat} (read : i64ToUsize operation value = .ok n) : value = n := by
  unfold i64ToUsize at read
  split_ifs at read with negative
  obtain rfl := Except.ok.inj read
  omega

theorem boundedSourceLen_le_length (source : Bytes) {maxBytes : Nat} {entireSpan : Bool}
    (enough : entireSpan = false → maxBytes ≤ source.length) :
    boundedSourceLen source maxBytes entireSpan ≤ source.length := by
  cases entireSpan with
  | true => exact (boundedSourceLen_le source maxBytes).1.trans (Nat.min_le_left _ _)
  | false =>
    rcases boundedSourceLen_split (enough rfl) with all | ⟨text, c, rest, -, count, less, -⟩
    · rw [all]
      exact enough rfl
    · rw [count]
      exact less.le.trans (enough rfl)

theorem boundedRead_of_readLen (small : span.length < 2 ^ 63) (maxBytes start stop : Nat) {buf : Bytes}
    (buffer : buf = span.take (showReadLen span.length maxBytes)) : BoundedRead span maxBytes
      ⟨buf.take (boundedSourceLen buf maxBytes (showReadLen span.length maxBytes = span.length)), start, stop,
        boundedSourceLen buf maxBytes (showReadLen span.length maxBytes = span.length) < span.length⟩ := by
  by_cases entire : showReadLen span.length maxBytes = span.length
  · rw [entire, List.take_length] at buffer
    subst buffer
    rw [decide_eq_true entire]
    refine .of_whole rfl ?_ fun long => ?_
    · rw [List.length_take, Nat.min_eq_left (boundedSourceLen_le_length _ (by simp))]
    · unfold showReadLen usizeMax utf8CharTail at entire
      split_ifs at entire <;> omega
  · rw [decide_eq_false entire]
    unfold showReadLen usizeMax utf8CharTail at entire buffer
    by_cases nothing : maxBytes = 0 ∨ span.length = 0
    · -- Nothing is read of a span if the limit is nothing.
      rw [if_pos nothing, List.take_zero] at buffer
      rw [if_pos nothing] at entire
      have limit : maxBytes = 0 := nothing.resolve_right (Ne.symm entire)
      subst buffer limit
      have none : boundedSourceLen [] 0 false = 0 := rfl
      rw [none]
      have bounds := (boundedSourceLen_le span 0).1
      refine .of_whole ?_ rfl fun _ _ _ _ low => (Nat.not_lt_zero _ low).elim
      rw [wholeSpan, Nat.le_zero.mp (bounds.trans (Nat.min_le_right _ _))]
      rfl
    · rw [if_neg nothing] at entire buffer
      by_cases fits : span.length ≤ maxBytes
      · rw [if_pos fits] at entire
        exact (entire rfl).elim
      · rw [if_neg fits] at entire buffer
        have window : min span.length (min (maxBytes + 3) (2 ^ 64 - 1)) = maxBytes + 3 := by omega
        rw [window] at entire buffer
        subst buffer
        have long : maxBytes + 3 < span.length := by omega
        have count : boundedSourceLen (span.take (maxBytes + 3)) maxBytes false ≤ (span.take (maxBytes + 3)).length :=
          boundedSourceLen_le_length _ fun _ => by rw [List.length_take]; omega
        rw [List.length_take] at count
        refine .of_window long ?_ ?_
        · rw [List.take_take, Nat.min_eq_left (by omega)]
        · rw [List.length_take, List.length_take, Nat.min_eq_left (by omega)]

/-- Every read of a file's bytes between two positions, which are of 64 bits, is a bounded read of that span. -/
theorem readShowWindow_bounded {content : Bytes} {operation label : Text} {spanStart spanEnd : Int} {maxBytes : Nat}
    {window : ShowWindow} (range : spanEnd < 2 ^ 63)
    (read : readShowWindow (.ok content) operation spanStart spanEnd maxBytes label = .ok window) :
    spanStart = window.start ∧ spanEnd = window.stop ∧ window.start ≤ window.stop ∧ window.stop ≤ content.length ∧
      BoundedRead ((content.drop window.start).take (window.stop - window.start)) maxBytes window := by
  obtain ⟨source, opened, afterOpen⟩ := bind_eq_ok.mp read
  obtain rfl := Except.ok.inj opened
  obtain ⟨start, readStart, afterStart⟩ := bind_eq_ok.mp afterOpen
  obtain ⟨stop, readStop, done⟩ := bind_eq_ok.mp afterStart
  obtain rfl := i64ToUsize_ok readStart
  obtain rfl := i64ToUsize_ok readStop
  split_ifs at done with outside
  rw [not_or, Nat.not_lt, Nat.not_lt] at outside
  obtain rfl := Except.ok.inj done
  refine ⟨rfl, rfl, outside.1, outside.2, ?_⟩
  have length : ((content.drop start).take (stop - start)).length = stop - start := by
    rw [List.length_take, List.length_drop]
    omega
  have most : showReadLen (stop - start) maxBytes ≤ stop - start := by
    unfold showReadLen
    split_ifs <;> omega
  have part : (content.drop start).take (showReadLen (stop - start) maxBytes) = ((content.drop start).take (stop - start)).take
      (showReadLen ((content.drop start).take (stop - start)).length maxBytes) := by
    rw [length, List.take_take, Nat.min_eq_left most]
  have bounded := boundedRead_of_readLen (by omega) maxBytes start stop part
  rw [length] at bounded
  have buffer : (if showReadLen (stop - start) maxBytes = 0 then [] else
      (content.drop start).take (showReadLen (stop - start) maxBytes)) =
        (content.drop start).take (showReadLen (stop - start) maxBytes) := by
    split_ifs with none
    · rw [none, List.take_zero]
    · rfl
  simp only [buffer]
  exact bounded

namespace Sample

def notText : Bytes := [0xC3, 0xA9, 0xFF, 0x61, 0x61, 0x61]

def accent : Bytes := [0x63, 0xC3, 0xA9, 0x73, 0x73, 0x73, 0x73]

theorem accent_read : readShowWindow (.ok accent) [] 0 7 2 [] = .ok ⟨[0x63], 0, 7, true⟩ := by decide +kernel

end Sample

theorem readShowWindow_bounded_accent : BoundedRead Sample.accent 2 ⟨[0x63], 0, 7, true⟩ :=
  (readShowWindow_bounded (by decide) Sample.accent_read).2.2.2.2

/-- Half of a character is left of bytes that are no text if they are read to their end, and nothing if they are read
through a window. -/
theorem window_differs_from_whole :
    readShowWindow (.ok Sample.notText) [] 0 6 1 [] = .ok ⟨[], 0, 6, true⟩ ∧ wholeSpan Sample.notText 1 = [0xC3] := by
  constructor <;> decide +kernel

end OrbitGraph.Query
