import OrbitGraph.Lib.Text
import OrbitGraph.Lib.Utf8

/-!
Searching a text in its bytes.

What a search for ASCII finds in the bytes of a text is what the same search finds in its
characters: a test of bytes that treats all bytes of other characters alike stops between
characters, and no text occurs inside the bytes of a character.
-/

namespace Lib.Utf8

/-! ### ASCII -/

/-- An ASCII character is one byte, … -/
theorem encodeChar_of_ascii {c : Char} (ascii : c.toNat < 128) : String.utf8EncodeChar c = [UInt8.ofNat c.toNat] := by
  have := encodes c
  generalize String.utf8EncodeChar c = bytes at this
  cases this with
  | one _ value =>
    rw [← value, UInt8.ofNat_toNat]
  | two low => omega
  | three low => omega
  | four low => omega

/-- … and the bytes of any other character are not ASCII. -/
theorem encodeChar_of_not_ascii {c : Char} (high : 128 ≤ c.toNat) : ∀ b ∈ String.utf8EncodeChar c, 128 ≤ b.toNat := by
  have := encodes c
  have bound := toNat_lt c
  generalize String.utf8EncodeChar c = bytes at this
  cases this with
  | one low => omega
  | two _ _ a b | three _ _ a b c | four _ _ a b c d =>
    simp only [List.forall_mem_cons, List.not_mem_nil, false_implies, implies_true, and_true]
    omega

theorem encodeChar_ne_nil (c : Char) : String.utf8EncodeChar c ≠ [] := by
  obtain ⟨first, rest, bytes, -⟩ := encodeChar_eq_cons c
  rw [bytes]
  exact List.cons_ne_nil first rest

theorem length_encode_of_ascii {text : List Char} (ascii : ∀ c ∈ text, c.toNat < 128) :
    (encode text).length = text.length := by
  induction text with
  | nil => rfl
  | cons c rest ih =>
    rw [encode_cons, encodeChar_of_ascii (ascii c List.mem_cons_self), List.length_append, List.length_cons,
      ih fun d mem => ascii d (List.mem_cons_of_mem _ mem)]
    exact Nat.add_comm 1 _

theorem length_le_length_encode (text : List Char) : text.length ≤ (encode text).length := by
  induction text with
  | nil => exact Nat.le_refl 0
  | cons c rest ih =>
    have := List.length_pos_iff_ne_nil.mpr (encodeChar_ne_nil c)
    rw [encode_cons, List.length_append, List.length_cons]
    omega

theorem toNat_ofNat_of_ascii {n : Nat} (ascii : n < 128) : (Char.ofNat n).toNat = n := by
  unfold Char.ofNat
  rw [dif_pos (.inl (by omega))]
  rfl

/-! ### Tests -/

/-- A test of bytes that is one of ASCII characters, and treats all others alike. -/
structure Tests (p : Char → Bool) (byte : UInt8 → Bool) : Prop where
  ascii : ∀ n < 128, byte (UInt8.ofNat n) = p (Char.ofNat n)
  others : ∃ d, (∀ c, 128 ≤ c.toNat → p c = d) ∧ ∀ b : UInt8, 128 ≤ b.toNat → byte b = d

namespace Tests

variable {p q : Char → Bool} {byte other : UInt8 → Bool}

theorem not (tests : Tests p byte) : Tests (fun c => !p c) (fun b => !byte b) where
  ascii n small := congrArg Bool.not (tests.ascii n small)
  others := by
    obtain ⟨d, chars, bytes⟩ := tests.others
    exact ⟨!d, fun c high => congrArg Bool.not (chars c high), fun b high => congrArg Bool.not (bytes b high)⟩

theorem or (tests : Tests p byte) (also : Tests q other) : Tests (fun c => p c || q c) (fun b => byte b || other b) where
  ascii n small := congrArg₂ Bool.or (tests.ascii n small) (also.ascii n small)
  others := by
    obtain ⟨d, chars, bytes⟩ := tests.others
    obtain ⟨e, chars', bytes'⟩ := also.others
    exact ⟨d || e, fun c high => congrArg₂ Bool.or (chars c high) (chars' c high),
      fun b high => congrArg₂ Bool.or (bytes b high) (bytes' b high)⟩

theorem eq {d : Char} (ascii : d.toNat < 128) :
    Tests (fun c => decide (c = d)) (fun b => decide (b = UInt8.ofNat d.toNat)) where
  ascii n small := by
    rw [decide_eq_decide]
    constructor
    · intro same
      have same := congrArg UInt8.toNat same
      rw [toNat_ofNat_of_lt (by omega), toNat_ofNat_of_lt (by omega)] at same
      rw [same, Char.ofNat_toNat]
    · rintro rfl
      rw [toNat_ofNat_of_ascii small]
  others := by
    refine ⟨false, fun c high => decide_eq_false ?_, fun b high => decide_eq_false ?_⟩
    · rintro rfl
      omega
    · rintro rfl
      rw [toNat_ofNat_of_lt (by omega)] at high
      omega

theorem mem (text : List Char) (ascii : text.all (fun c => decide (c.toNat < 128)) = true) :
    Tests (fun c => decide (c ∈ text)) (fun b => decide (b ∈ encode text)) := by
  induction text with
  | nil => exact ⟨fun n _ => rfl, false, fun _ _ => rfl, fun _ _ => rfl⟩
  | cons c rest ih =>
    rw [List.all_cons, Bool.and_eq_true, decide_eq_true_eq] at ascii
    have step := (Tests.eq ascii.1).or (ih ascii.2)
    simpa only [encode_cons, encodeChar_of_ascii ascii.1, List.singleton_append, List.mem_cons, Bool.decide_or] using step

theorem mem_encodeChar (tests : Tests p byte) {c : Char} {b : UInt8} (mem : b ∈ String.utf8EncodeChar c) :
    byte b = p c := by
  by_cases ascii : c.toNat < 128
  · rw [encodeChar_of_ascii ascii, List.mem_singleton] at mem
    rw [mem, tests.ascii _ ascii, Char.ofNat_toNat]
  · obtain ⟨d, chars, bytes⟩ := tests.others
    rw [chars c (Nat.not_lt.mp ascii), bytes b (encodeChar_of_not_ascii (Nat.not_lt.mp ascii) b mem)]

theorem all_encode (tests : Tests p byte) (text : List Char) : (encode text).all byte = text.all p := by
  induction text with
  | nil => rfl
  | cons c rest ih =>
    obtain ⟨first, others, bytes, -⟩ := encodeChar_eq_cons c
    have same : (String.utf8EncodeChar c).all byte = p c := by
      have first := tests.mem_encodeChar (bytes ▸ List.mem_cons_self : first ∈ String.utf8EncodeChar c)
      cases passes : p c with
      | true =>
        exact List.all_eq_true.mpr fun b mem => (tests.mem_encodeChar mem).trans passes
      | false =>
        rw [bytes, List.all_cons, first, passes]
        rfl
    rw [encode_cons, List.all_append, same, ih, List.all_cons]

theorem any_encode (tests : Tests p byte) (text : List Char) : (encode text).any byte = text.any p := by
  have := tests.not.all_encode text
  rw [← Bool.not_inj_iff, List.not_any_eq_all_not, List.not_any_eq_all_not]
  exact this

theorem findIdx_encode (tests : Tests p byte) (text : List Char) :
    (encode text).findIdx byte = (encode (text.takeWhile fun c => !p c)).length := by
  induction text with
  | nil => rfl
  | cons c rest ih =>
    cases passes : p c with
    | true =>
      obtain ⟨first, others, bytes, -⟩ := encodeChar_eq_cons c
      have here : byte first = true :=
        (tests.mem_encodeChar (bytes ▸ List.mem_cons_self : first ∈ String.utf8EncodeChar c)).trans passes
      rw [encode_cons, bytes, List.cons_append, List.findIdx_cons, here, List.takeWhile_cons, passes]
      rfl
    | false =>
      have later : ∀ b ∈ String.utf8EncodeChar c, byte b = false := fun b mem => (tests.mem_encodeChar mem).trans passes
      have skipped : (String.utf8EncodeChar c).findIdx byte = (String.utf8EncodeChar c).length :=
        List.findIdx_eq_length.mpr later
      rw [encode_cons, List.findIdx_append, skipped, if_neg (Nat.lt_irrefl _), ih, List.takeWhile_cons, passes]
      rw [Bool.not_false, if_pos rfl, encode_cons, List.length_append, Nat.add_comm]

theorem findIdx?_encode (tests : Tests p byte) (text : List Char) :
    (encode text).findIdx? byte = if text.any p then some (encode (text.takeWhile fun c => !p c)).length else none := by
  rw [← tests.any_encode, ← tests.findIdx_encode]
  cases passes : (encode text).any byte with
  | true => exact List.findIdx?_eq_some_of_exists (List.any_eq_true.mp passes)
  | false => exact List.findIdx?_eq_none_iff.mpr (by simpa using passes)

theorem head?_encode (tests : Tests p byte) (text : List Char) : (encode text).head?.all byte = text.head?.all p := by
  cases text with
  | nil => rfl
  | cons c rest =>
    obtain ⟨first, others, bytes, -⟩ := encodeChar_eq_cons c
    have := tests.mem_encodeChar (bytes ▸ List.mem_cons_self : first ∈ String.utf8EncodeChar c)
    rw [encode_cons, bytes]
    exact this

theorem getLast?_encode (tests : Tests p byte) (text : List Char) : (encode text).getLast?.all byte = text.getLast?.all p := by
  rcases List.eq_nil_or_concat text with rfl | ⟨front, c, rfl⟩
  · rfl
  · have last := List.getLast?_eq_some_getLast (encodeChar_ne_nil c)
    have := tests.mem_encodeChar (List.getLast_mem (encodeChar_ne_nil c))
    rw [List.concat_eq_append, encode_append, encode_cons, encode_nil, List.append_nil, List.getLast?_append, last,
      List.getLast?_concat]
    exact this

theorem all_take_encode (tests : Tests p byte) (ascii : ∀ c, p c = true → c.toNat < 128) (n : Nat) (text : List Char) :
    (n ≤ (encode text).length ∧ ((encode text).take n).all byte = true) ↔
      n ≤ text.length ∧ (text.take n).all p = true := by
  induction n generalizing text with
  | zero => simp
  | succ n ih =>
    cases text with
    | nil => simp
    | cons c rest =>
      obtain ⟨first, others, bytes, -⟩ := encodeChar_eq_cons c
      have head := tests.mem_encodeChar (bytes ▸ List.mem_cons_self : first ∈ String.utf8EncodeChar c)
      cases passes : p c with
      | false =>
        rw [encode_cons, bytes, List.cons_append, List.take_succ_cons, List.take_succ_cons, List.all_cons,
          List.all_cons, head, passes]
        simp
      | true =>
        rw [encode_cons, encodeChar_of_ascii (ascii c passes), List.singleton_append, List.take_succ_cons,
          List.take_succ_cons, List.all_cons, List.all_cons, tests.ascii _ (ascii c passes), Char.ofNat_toNat,
          passes, Bool.true_and, Bool.true_and, List.length_cons, List.length_cons, Nat.succ_le_succ_iff,
          Nat.succ_le_succ_iff]
        exact ih rest

end Tests

/-- `u8::is_ascii_whitespace`. -/
def isAsciiWhitespace (b : UInt8) : Bool := b == 32 || b == 9 || b == 10 || b == 12 || b == 13

theorem byteLen_eq (text : List Char) : Text.byteLen text = (encode text).length := by
  simp [Text.byteLen, encode, List.length_flatMap]

/-! ### Cuts between characters -/

/-- The place in the bytes of a text before its character `i`. -/
def offset (text : List Char) (i : Nat) : Nat := (encode (text.take i)).length

theorem offset_append (front back : List Char) (k : Nat) :
    offset (front ++ back) (front.length + k) = (encode front).length + (encode (back.take k)).length := by
  rw [offset, List.take_length_add_append, encode_append, List.length_append]

theorem offset_of_split {text : List Char} {i : Nat} (front back : List Char) (split : text = front ++ back) (length : i = front.length) :
    offset text i = (encode front).length := by
  rw [split, length, offset, List.take_left]

theorem take_offset (text : List Char) (i : Nat) : (encode text).take (offset text i) = encode (text.take i) := by
  conv_lhs => rw [← List.take_append_drop i text, encode_append]
  exact List.take_left' (by rw [offset, List.take_append_drop])

theorem drop_offset (text : List Char) (i : Nat) : (encode text).drop (offset text i) = encode (text.drop i) := by
  conv_lhs => rw [← List.take_append_drop i text, encode_append]
  exact List.drop_left' (by rw [offset, List.take_append_drop])

theorem offset_length (text : List Char) : offset text text.length = (encode text).length := by
  rw [offset, List.take_length]

theorem offset_lt {text : List Char} {i j : Nat} (below : i < j) (inside : j ≤ text.length) :
    offset text i < offset text j := by
  have split : text.take j = text.take i ++ (text.take j).drop i := by
    conv_lhs => rw [← List.take_append_drop i (text.take j), List.take_take, Nat.min_eq_left below.le]
  have some : (text.take j).drop i ≠ [] := fun none => by
    have := List.drop_eq_nil_iff.mp none
    rw [List.length_take] at this
    omega
  have := List.length_pos_iff_ne_nil.mpr some
  have := length_le_length_encode ((text.take j).drop i)
  rw [offset, offset, split, encode_append, List.length_append]
  omega

theorem offset_le_offset_iff (text : List Char) {i j : Nat} (insideI : i ≤ text.length) (insideJ : j ≤ text.length) :
    offset text i ≤ offset text j ↔ i ≤ j := by
  constructor
  · intro le
    by_contra above
    have := offset_lt (Nat.not_le.mp above) insideI
    omega
  · intro le
    rcases Nat.lt_or_eq_of_le le with below | rfl
    · exact (offset_lt below insideJ).le
    · exact Nat.le_refl _

theorem take_encode_of_ascii {text : List Char} {n : Nat} (inside : n ≤ text.length)
    (ascii : ∀ c ∈ text.take n, c.toNat < 128) : offset text n = n := by
  rw [offset, length_encode_of_ascii ascii, List.length_take, Nat.min_eq_left inside]

/-- The text before a byte and from it on, if a character begins there. -/
def splitAtByte : Nat → List Char → Option (List Char × List Char)
  | n, [] => if n = 0 then some ([], []) else none
  | n, c :: text =>
    if n = 0 then some ([], c :: text)
    else if c.utf8Size ≤ n then (splitAtByte (n - c.utf8Size) text).map fun parts => (c :: parts.1, parts.2)
    else none

/-- `str::get` of a range of bytes. -/
def getBytes (text : List Char) (start stop : Nat) : Option (List Char) :=
  if start ≤ stop then (splitAtByte stop text).bind fun parts => (splitAtByte start parts.1).map Prod.snd else none

theorem splitAtByte_append (front back : List Char) : splitAtByte (encode front).length (front ++ back) = some (front, back) := by
  induction front with
  | nil => cases back <;> exact if_pos rfl
  | cons c front ih =>
    have width : (String.utf8EncodeChar c).length = c.utf8Size := String.length_utf8EncodeChar c
    have := c.utf8Size_pos
    rw [List.cons_append, splitAtByte, encode_cons, List.length_append, width, if_neg (by omega), if_pos (by omega),
      Nat.add_sub_cancel_left, ih]
    rfl

theorem getBytes_append (front middle back : List Char) :
    getBytes (front ++ middle ++ back) (encode front).length (encode (front ++ middle)).length = some middle := by
  have order : (encode front).length ≤ (encode (front ++ middle)).length := by
    rw [encode_append, List.length_append]
    exact Nat.le_add_right _ _
  rw [getBytes, if_pos order, splitAtByte_append, Option.bind_some, splitAtByte_append]
  rfl

theorem exists_split_of_ascii {text : List Char} {n : Nat} {b : UInt8} (there : (encode text)[n]? = some b) (ascii : b.toNat < 128) :
    ∃ front c back, text = front ++ c :: back ∧ (encode front).length = n ∧ String.utf8EncodeChar c = [b] := by
  induction text generalizing n with
  | nil => cases there
  | cons c text ih =>
    rw [encode_cons] at there
    rcases Nat.lt_or_ge n (String.utf8EncodeChar c).length with inside | behind
    · rw [List.getElem?_append_left inside] at there
      rcases Nat.lt_or_ge c.toNat 128 with low | high
      · rw [encodeChar_of_ascii low] at there inside
        obtain rfl : n = 0 := Nat.lt_one_iff.mp inside
        refine ⟨[], c, text, rfl, rfl, ?_⟩
        rw [encodeChar_of_ascii low, Option.some.inj there]
      · have := encodeChar_of_not_ascii high b (List.mem_of_getElem? there)
        omega
    · rw [List.getElem?_append_right behind] at there
      obtain ⟨front, d, back, rfl, length, bytes⟩ := ih there
      refine ⟨c :: front, d, back, rfl, ?_, bytes⟩
      rw [encode_cons, List.length_append, length]
      omega

/-- Where all bytes of a range are below 128, it is a range of characters. -/
theorem exists_getBytes_of_ascii {text : List Char} {start stop : Nat} (order : start < stop)
    (ascii : ∀ i, start ≤ i → i < stop → ∃ b, (encode text)[i]? = some b ∧ b.toNat < 128) :
    ∃ part, getBytes text start stop = some part ∧ encode part = ((encode text).take stop).drop start := by
  obtain ⟨b, there, low⟩ := ascii start (Nat.le_refl _) order
  obtain ⟨e, there', low'⟩ := ascii (stop - 1) (by omega) (by omega)
  obtain ⟨front, c, back, split, length, bytes⟩ := exists_split_of_ascii there' low'
  have stop_eq : (encode (front ++ [c])).length = stop := by
    rw [encode_append, List.length_append, length, encode_cons, encode_nil, bytes]
    exact Nat.sub_add_cancel (by omega)
  have whole : text = (front ++ [c]) ++ back := by rw [split, List.append_assoc, List.singleton_append]
  have begins : (encode (front ++ [c]))[start]? = some b := by
    rw [whole, encode_append, List.getElem?_append_left (by omega)] at there
    exact there
  obtain ⟨before, d, after, split', length', -⟩ := exists_split_of_ascii begins low
  refine ⟨d :: after, ?_, ?_⟩
  · rw [← length', ← stop_eq, whole, split']
    exact getBytes_append before (d :: after) back
  · rw [← length', ← stop_eq, whole, encode_append (front ++ [c]) back, List.take_left, split', encode_append, List.drop_left]

/-! ### Occurrences -/

/-- `str::find`, of a text that is not empty. -/
def find (needle : Bytes) : Bytes → Option Nat
  | [] => none
  | b :: rest => if needle.isPrefixOf (b :: rest) then some 0 else (find needle rest).map (· + 1)

theorem isPrefixOf_encode (front text : List Char) :
    (encode front).isPrefixOf (encode text) = Text.startsWith front text := by
  rw [Bool.eq_iff_iff, List.isPrefixOf_iff_prefix, Text.startsWith, Option.isSome_iff_exists]
  constructor
  · rintro ⟨rest, same⟩
    obtain ⟨back, rfl, -⟩ := exists_of_encode_append same
    exact ⟨back, Text.stripPrefix_eq_some.mpr rfl⟩
  · rintro ⟨back, found⟩
    rw [Text.stripPrefix_eq_some.mp found, encode_append]
    exact List.prefix_append _ _

theorem isSuffixOf_encode {back : List Char} (nonempty : back ≠ []) (text : List Char) :
    (encode back).isSuffixOf (encode text) = Text.endsWith back text := by
  rw [Bool.eq_iff_iff, List.isSuffixOf_iff_suffix, Text.endsWith, Option.isSome_iff_exists]
  constructor
  · rintro ⟨front, same⟩
    obtain ⟨before, after, part, later, rfl, taken, dropped, whole, shape⟩ := exists_of_take text front.length
    rw [← same, List.drop_left] at dropped
    have between : part = [] := by
      rcases shape with none | ⟨c, after', rest, rfl, some, char, later_eq⟩
      · exact none
      · by_contra inside
        obtain ⟨first, others, bytes, -, continues, -⟩ := encodeChar_eq_cons c
        obtain ⟨d, back, rfl⟩ := List.exists_cons_of_ne_nil nonempty
        obtain ⟨start, more, bytes', begins, -⟩ := encodeChar_eq_cons d
        obtain ⟨b, part, rfl⟩ := List.exists_cons_of_ne_nil inside
        obtain ⟨next, rest, rfl⟩ := List.exists_cons_of_ne_nil some
        rw [bytes, List.cons_append] at char
        have mem : next ∈ others := by
          rw [← (List.cons.inj char).2]
          exact List.mem_append_right _ List.mem_cons_self
        rw [later_eq, encode_cons, bytes', List.cons_append, List.cons_append] at dropped
        rw [(List.cons.inj dropped).1, List.all_eq_true.mp continues next mem] at begins
        cases begins
    rw [between, List.nil_append, ← dropped] at whole
    exact ⟨before, Text.stripSuffix_eq_some.mpr (by rw [encode_injective whole])⟩
  · rintro ⟨front, found⟩
    rw [Text.stripSuffix_eq_some.mp found, encode_append]
    exact List.suffix_append _ _

variable {needle : List Char}

theorem find_append_of_continuation (nonempty : needle ≠ []) {others : Bytes}
    (continues : others.all isContinuation = true) (rest : Bytes) :
    find (encode needle) (others ++ rest) = (find (encode needle) rest).map (· + others.length) := by
  induction others with
  | nil => exact Option.map_id'.symm
  | cons b others ih =>
    rw [List.all_cons, Bool.and_eq_true] at continues
    have here : (encode needle).isPrefixOf (b :: (others ++ rest)) = false := by
      obtain ⟨c, needle, rfl⟩ := List.exists_cons_of_ne_nil nonempty
      obtain ⟨first, more, bytes, start, -⟩ := encodeChar_eq_cons c
      rw [encode_cons, bytes, List.cons_append, List.isPrefixOf_cons_cons]
      have different : first ≠ b := fun same => by
        rw [same, continues.1] at start
        cases start
      rw [beq_eq_false_iff_ne.mpr different, Bool.false_and]
    rw [List.cons_append, find, here, ih continues.2, Option.map_map]
    rfl

theorem find_encode (nonempty : needle ≠ []) (text : List Char) :
    find (encode needle) (encode text) = (Text.splitOnce needle text).map fun split => (encode split.1).length := by
  induction text with
  | nil =>
    rw [Text.splitOnce, if_neg nonempty]
    rfl
  | cons c rest ih =>
    obtain ⟨first, others, bytes, -, continues, -⟩ := encodeChar_eq_cons c
    have begins := isPrefixOf_encode needle (c :: rest)
    rw [Text.splitOnce]
    rw [encode_cons, bytes, List.cons_append] at begins ⊢
    rw [find, begins, Text.startsWith]
    cases Text.stripPrefix needle (c :: rest) with
    | some after => rfl
    | none =>
      rw [Option.isSome_none, if_neg Bool.false_ne_true, find_append_of_continuation nonempty continues, ih]
      simp only [Option.map_map]
      refine congrArg (fun f => (Text.splitOnce needle rest).map f) (funext fun split => ?_)
      simp only [Function.comp_apply, encode_cons, bytes, List.length_append, List.length_cons]
      omega

end Lib.Utf8
