import OrbitGraph.History.Detection
import OrbitGraph.Lib.Utf8Search

/-!
Redaction on bytes.

The source detects credentials in the bytes of a text, by positions in the whole of it. Here
its detectors are written so, and shown to detect the same as those on characters: each range
lies between characters, and what is masked are the bytes of the masked text.
-/

namespace OrbitGraph.History

namespace OnBytes

open Lib Utf8

def bytesOf (s : String) : Bytes := encode s.toList

/-- `&input[start..stop]` -/
def slice (input : Bytes) (start stop : Nat) : Bytes := (input.drop start).take (stop - start)

def isAsciiUppercase (b : UInt8) : Bool := 'A'.toUInt8 ≤ b && b ≤ 'Z'.toUInt8

def isAsciiLowercase (b : UInt8) : Bool := 'a'.toUInt8 ≤ b && b ≤ 'z'.toUInt8

def isAsciiDigit (b : UInt8) : Bool := '0'.toUInt8 ≤ b && b ≤ '9'.toUInt8

def isAsciiAlphanumeric (b : UInt8) : Bool := isAsciiUppercase b || isAsciiLowercase b || isAsciiDigit b

def isAsciiWhitespace (b : UInt8) : Bool := b ∈ bytesOf " \t\n\x0c\r"

def toAsciiLowercase (b : UInt8) : UInt8 := if isAsciiUppercase b then b + 32 else b

def tokenByte (b : UInt8) : Bool := isAsciiAlphanumeric b || b = '_'.toUInt8 || b = '-'.toUInt8

def boundary (bytes : Bytes) (start : Nat) : Bool := start = 0 || bytes[start - 1]?.all fun b => !tokenByte b

/-! ### Detectors -/

/-- The end of the PEM private key that begins at `pos`. -/
def privateKeyBlock (input : Bytes) (pos : Nat) : Option Nat := do
  guard ((bytesOf "-----BEGIN ").isPrefixOf (input.drop pos))
  let labelEnd ← find (bytesOf "-----") (input.drop (pos + 11))
  let label := slice input (pos + 11) (pos + 11 + labelEnd)
  guard ((bytesOf "PRIVATE KEY").isSuffixOf label)
  let footer := bytesOf "-----END " ++ label ++ bytesOf "-----"
  let stop ← find footer (input.drop pos)
  return pos + stop + footer.length

def schemeLen (rest : Bytes) : Nat :=
  if (bytesOf "https://").isPrefixOf rest then 8
  else if (bytesOf "http://").isPrefixOf rest then 7
  else 0

def endsAuthority (b : UInt8) : Bool := b ∈ bytesOf "/?# \n\r\t\"'<>"

/-- The password of the URL that begins at `pos`. -/
def urlPassword (input : Bytes) (pos : Nat) : Option Range := do
  let schemeLen := schemeLen (input.drop pos)
  guard (schemeLen > 0)
  let authority := pos + schemeLen
  let stop := authority + (input.drop authority).findIdx endsAuthority
  let offset ← (slice input authority stop).findIdx? fun b => b = '@'.toUInt8
  let atSign := authority + offset
  let colon ← (slice input authority atSign).findIdx? fun b => b = ':'.toUInt8
  let start := authority + colon + 1
  guard (start < atSign)
  return (start, atSign)

/-- The token of the bearer authorization that begins at `pos`. -/
def bearerToken (input : Bytes) (pos : Nat) : Option Range := do
  guard (22 ≤ (input.drop pos).length &&
    (slice input pos (pos + 22)).map toAsciiLowercase = bytesOf "authorization: bearer ")
  let start := pos + 22
  let stop := start + (input.drop start).findIdx fun b =>
    isAsciiWhitespace b || b = '"'.toUInt8 || b = '\''.toUInt8 || b = '<'.toUInt8 || b = '>'.toUInt8
  guard (stop > start)
  return (start, stop)

/-- The API token that begins at `pos`; only the first prefix that fits counts. -/
def apiToken (input : Bytes) (pos : Nat) : Option Range := do
  let (start, minTail) ← (tokenPrefixes.map fun entry => (encode entry.1, entry.2)).find? fun entry =>
    entry.1.isPrefixOf (input.drop pos)
  let stop := pos + start.length + (input.drop (pos + start.length)).findIdx fun b => !tokenByte b
  let tail := slice input (pos + start.length) stop
  let valid :=
    if (bytesOf "sk-").isPrefixOf start then minTail ≤ tail.length && tail.all isAsciiAlphanumeric
    else minTail ≤ tail.length && tail.any isAsciiAlphanumeric
  guard valid
  return (pos, stop)

/-- The access key id that begins at `pos`. -/
def accessKeyId (input : Bytes) (pos : Nat) : Option Range := do
  guard ((bytesOf "AKIA").isPrefixOf (input.drop pos) && input.length ≥ pos + 20)
  let key := slice input (pos + 4) (pos + 20)
  guard (key.all (fun b => isAsciiUppercase b || isAsciiDigit b) &&
    (pos + 20 = input.length || input[pos + 20]?.all fun b => !tokenByte b))
  return (pos, pos + 20)

/-- What is detected at `pos`, where no private key begins. -/
def rangesAt (input : Bytes) (pos : Nat) : List Range :=
  if boundary input pos then
    (urlPassword input pos).toList ++ (bearerToken input pos).toList ++ (apiToken input pos).toList ++
      (accessKeyId input pos).toList
  else []

/-- `char::len_utf8` of the first character, or one. -/
def width (rest : Bytes) : Nat :=
  match scan rest with
  | .char width => width
  | _ => 1

/-- The loop of `redact` from `pos` on. Every round reads at least one byte, so that their number is fuel enough. -/
def detect (input : Bytes) : Nat → Nat → List Range
  | 0, _ => []
  | fuel + 1, pos =>
    if pos < input.length then
      match privateKeyBlock input pos with
      | some stop => (pos, stop) :: detect input fuel stop
      | none => rangesAt input pos ++ detect input fuel (pos + width (input.drop pos))
    else []

/-- The ranges that `redact` pushes. -/
def ranges (input : Bytes) : List Range := detect input input.length 0

def redact (input : Bytes) : Bytes := Lib.mask (encode marker) input 0 ((ranges input).insertionSort Span.le)

/-! ### Tests of characters -/

theorem isAsciiAlphanumeric_of_high {b : UInt8} (high : 128 ≤ b.toNat) :
    isAsciiAlphanumeric b = false ∧ (isAsciiUppercase b || isAsciiDigit b) = false := by
  have upper : 'Z'.toUInt8.toNat = 90 := rfl
  have lower : 'z'.toUInt8.toNat = 122 := rfl
  have digit : '9'.toUInt8.toNat = 57 := rfl
  simp only [isAsciiAlphanumeric, isAsciiUppercase, isAsciiLowercase, isAsciiDigit, UInt8.le_iff_toNat_le]
  simp
  omega

theorem alphanumeric : Tests Char.isAlphanum isAsciiAlphanumeric where
  ascii := by decide +kernel
  others := ⟨false, fun _ high => (isAlphanum_of_high high).1, fun _ high => (isAsciiAlphanumeric_of_high high).1⟩

theorem uppercaseOrDigit : Tests (fun c => c.isUpper || c.isDigit) (fun b => isAsciiUppercase b || isAsciiDigit b) where
  ascii := by decide +kernel
  others := ⟨false, fun _ high => (isAlphanum_of_high high).2, fun _ high => (isAsciiAlphanumeric_of_high high).2⟩

theorem token : Tests History.tokenByte tokenByte :=
  (Tests.or alphanumeric (.eq (d := '_') (by decide))).or (.eq (d := '-') (by decide))

theorem authorityEnd : Tests History.endsAuthority endsAuthority :=
  .mem "/?# \n\r\t\"'<>" (by decide)

theorem bearerEnd : Tests
    (fun c => History.isAsciiWhitespace c || c = '"' || c = '\'' || c = '<' || c = '>')
    (fun b => isAsciiWhitespace b || b = '"'.toUInt8 || b = '\''.toUInt8 || b = '<'.toUInt8 || b = '>'.toUInt8) :=
  ((((Tests.mem " \t\n\x0c\r" (by decide)).or (.eq (d := '"') (by decide))).or
    (.eq (d := '\'') (by decide))).or (.eq (d := '<') (by decide))).or (.eq (d := '>') (by decide))

section Agree

variable (front back : Text)

def toBytes (text : Text) (range : Range) : Range := (offset text range.1, offset text range.2)

theorem drop_front : (encode (front ++ back)).drop (encode front).length = encode back := by
  rw [encode_append, List.drop_left]

theorem drop_front_add (n : Nat) : (encode (front ++ back)).drop ((encode front).length + n) = (encode back).drop n := by
  rw [← List.drop_drop, drop_front]

theorem drop_of_ascii (text : Text) (ascii : text.all (fun c => c.toNat < 128) = true) (rest : Text) :
    (encode (text ++ rest)).drop text.length = encode rest := by
  have length := length_encode_of_ascii fun c mem => of_decide_eq_true (List.all_eq_true.mp ascii c mem)
  rw [encode_append, ← length, List.drop_left]

theorem boundary_encode : boundary (encode (front ++ back)) (encode front).length = History.boundary front.getLast? := by
  rcases List.eq_nil_or_concat front with rfl | ⟨before, c, rfl⟩
  · rfl
  · have nonempty : 0 < (encode (before.concat c)).length := by
      rw [List.concat_eq_append, encode_append, List.length_append]
      exact Nat.add_pos_right _ (List.length_pos_iff_ne_nil.mpr (by simp))
    have last : (encode (before.concat c ++ back))[(encode (before.concat c)).length - 1]? =
        (encode (before.concat c)).getLast? := by
      rw [encode_append, List.getElem?_append_left (by omega), List.getLast?_eq_getElem?]
    rw [boundary, last, decide_eq_false (by omega), Bool.false_or, (Tests.not token).getLast?_encode]
    rfl

theorem schemeLen_encode : schemeLen (encode back) = History.schemeLen back := by
  unfold schemeLen History.schemeLen bytesOf
  rw [isPrefixOf_encode, isPrefixOf_encode]

theorem privateKeyBlock_eq_some {input : Bytes} {pos stop : Nat} : privateKeyBlock input pos = some stop ↔
    (bytesOf "-----BEGIN ").isPrefixOf (input.drop pos) = true ∧
      ∃ labelEnd, find (bytesOf "-----") (input.drop (pos + 11)) = some labelEnd ∧
        (bytesOf "PRIVATE KEY").isSuffixOf (slice input (pos + 11) (pos + 11 + labelEnd)) = true ∧
        ∃ i, find (bytesOf "-----END " ++ slice input (pos + 11) (pos + 11 + labelEnd) ++ bytesOf "-----")
            (input.drop pos) = some i ∧
          pos + i + (bytesOf "-----END " ++ slice input (pos + 11) (pos + 11 + labelEnd) ++ bytesOf "-----").length =
            stop := by
  unfold privateKeyBlock
  simp only [Option.bind_eq_bind, Option.bind_eq_some_iff, Option.guard_eq_some', Option.pure_def, Option.some.injEq,
    exists_const]

theorem label_encode {rest label after : Text} (labelled : Text.splitOnce "-----" rest = some (label, after)) :
    slice (encode (front ++ ("-----BEGIN " ++ rest))) ((encode front).length + 11)
      ((encode front).length + 11 + (encode label).length) = encode label := by
  have dropped : (encode ("-----BEGIN " ++ rest)).drop 11 = encode rest :=
    drop_of_ascii "-----BEGIN " (by decide) rest
  rw [slice, drop_front_add, dropped, Nat.add_sub_cancel_left, Text.eq_of_splitOnce labelled, List.append_assoc,
    encode_append, List.take_left]

/-- A private key of so many characters ends behind their bytes. -/
theorem privateKeyBlock_encode : privateKeyBlock (encode (front ++ back)) (encode front).length =
    (History.privateKeyBlock back).map fun length => offset (front ++ back) (front.length + length) := by
  have stops : ∀ {label body tail : Text},
      Text.splitOnce ("-----END " ++ label ++ "-----") back = some (body, tail) →
      (encode front).length + (encode body).length + (encode ("-----END " ++ label ++ "-----")).length =
        offset (front ++ back) (front.length + (body.length + ("-----END " ++ label ++ "-----").length)) := by
    intro label body tail split
    have taken : back.take (body.length + ("-----END " ++ label ++ "-----").length) =
        body ++ ("-----END " ++ label ++ "-----") := by
      rw [Text.eq_of_splitOnce split, ← List.length_append]
      exact List.take_left
    rw [offset_append, taken, encode_append body, List.length_append, Nat.add_assoc]
  have footed : ∀ label : Text, bytesOf "-----END " ++ encode label ++ bytesOf "-----" =
      encode ("-----END " ++ label ++ "-----") := fun label => by
    rw [encode_append, encode_append]
    rfl
  refine Option.ext fun stop => ?_
  rw [privateKeyBlock_eq_some, Option.map_eq_some_iff, drop_front, drop_front_add, bytesOf,
    isPrefixOf_encode, Text.startsWith, Option.isSome_iff_exists]
  constructor
  · rintro ⟨⟨rest, header⟩, labelEnd, labelled, suffix, i, found, rfl⟩
    obtain rfl := Text.stripPrefix_eq_some.mp header
    have dropped : (encode ("-----BEGIN " ++ rest)).drop 11 = encode rest :=
      drop_of_ascii "-----BEGIN " (by decide) rest
    rw [dropped, bytesOf, find_encode (by decide), Option.map_eq_some_iff] at labelled
    obtain ⟨⟨label, after⟩, labelled, rfl⟩ := labelled
    rw [label_encode front labelled] at suffix found ⊢
    rw [footed] at found ⊢
    rw [find_encode (by simp), Option.map_eq_some_iff] at found
    obtain ⟨⟨body, tail⟩, split, rfl⟩ := found
    rw [bytesOf, isSuffixOf_encode (by decide)] at suffix
    exact ⟨_, History.privateKeyBlock_eq_some.mpr ⟨rest, label, after, body, tail, rfl, labelled, suffix, split, rfl⟩,
      (stops split).symm⟩
  · rintro ⟨length, block, rfl⟩
    obtain ⟨rest, label, after, body, tail, rfl, labelled, suffix, split, rfl⟩ := History.privateKeyBlock_eq_some.mp block
    have dropped : (encode ("-----BEGIN " ++ rest)).drop 11 = encode rest :=
      drop_of_ascii "-----BEGIN " (by decide) rest
    refine ⟨⟨rest, Text.stripPrefix_eq_some.mpr rfl⟩, (encode label).length, ?_, ?_, (encode body).length, ?_, ?_⟩
    · rw [dropped, bytesOf, find_encode (by decide), labelled]
      rfl
    · rw [label_encode front labelled, bytesOf, isSuffixOf_encode (by decide), suffix]
    · rw [label_encode front labelled, footed, find_encode (by simp), split]
      rfl
    · rw [label_encode front labelled, footed]
      exact stops split

theorem slice_encode {s : Text} {start : Nat} (part rest : Text) (at_start : (encode s).drop start = encode (part ++ rest)) :
    slice (encode s) start (start + (encode part).length) = encode part := by
  rw [slice, at_start, Nat.add_sub_cancel_left, encode_append, List.take_left]

section Password

variable {scheme : Text} (name password behind : Text)

theorem offset_password_start (ascii : scheme.all (fun c => c.toNat < 128) = true) :
    offset (front ++ (scheme ++ (name ++ ':' :: (password ++ behind)))) (front.length + scheme.length + name.length + 1) =
      (encode front).length + scheme.length + (encode name).length + 1 := by
  have schemeWidth := length_encode_of_ascii fun c mem => of_decide_eq_true (List.all_eq_true.mp ascii c mem)
  rw [offset_of_split (front ++ (scheme ++ (name ++ [':']))) (password ++ behind)]
  · simp only [encode_append, List.length_append, schemeWidth, encode_cons, encode_nil,
      encodeChar_of_ascii (show ':'.toNat < 128 by decide), List.length_cons, List.length_nil]
    omega
  · simp only [List.append_assoc, List.cons_append, List.nil_append]
  · simp only [List.length_append, List.length_cons, List.length_nil]
    omega

theorem offset_password_end (ascii : scheme.all (fun c => c.toNat < 128) = true) :
    offset (front ++ (scheme ++ (name ++ ':' :: (password ++ behind))))
        (front.length + scheme.length + name.length + 1 + password.length) =
      (encode front).length + scheme.length + (encode name).length + 1 + (encode password).length := by
  have schemeWidth := length_encode_of_ascii fun c mem => of_decide_eq_true (List.all_eq_true.mp ascii c mem)
  rw [offset_of_split (front ++ (scheme ++ (name ++ ':' :: password))) behind]
  · simp only [encode_append, List.length_append, schemeWidth, encode_cons,
      encodeChar_of_ascii (show ':'.toNat < 128 by decide), List.length_cons, List.length_nil]
    omega
  · simp only [List.append_assoc, List.cons_append]
  · simp only [List.length_append, List.length_cons]
    omega

end Password

theorem urlPassword_encode : (urlPassword (encode (front ++ back)) (encode front).length).toList =
    (History.urlPassword front.length back).map (toBytes (front ++ back)) := by
  unfold urlPassword History.urlPassword
  rw [drop_front, schemeLen_encode]
  rcases schemeLen_cases back with none | ⟨scheme, rest, web, rfl, length⟩
  · rw [none, if_pos rfl]
    rfl
  · have some : 0 < scheme.length := by rcases web with rfl | rfl <;> decide
    have ascii : scheme.all (fun c => c.toNat < 128) = true := by rcases web with rfl | rfl <;> decide
    have dropped := (drop_front_add front (scheme ++ rest) scheme.length).trans (drop_of_ascii scheme ascii rest)
    rw [length, if_neg some.ne', List.drop_left]
    obtain ⟨tail, whole, -⟩ := takeWhile_cut (fun c => !History.endsAuthority c) rest
    have authority := Tests.findIdx_encode authorityEnd rest
    dsimp only
    rw [dropped, authority]
    generalize rest.takeWhile (fun c => !History.endsAuthority c) = written at *
    have writtenBytes := slice_encode _ _ (dropped.trans (congrArg encode whole))
    have isAt := Tests.eq (d := '@') (by decide)
    have isColon := Tests.eq (d := ':') (by decide)
    obtain ⟨behind, userinfo, -⟩ := takeWhile_cut (fun c => !decide (c = '@')) written
    have atSign : (encode written).findIdx? (fun b => b = '@'.toUInt8) = _ := isAt.findIdx?_encode written
    have notAt : (fun c : Char => decide (c ≠ '@')) = fun c => !decide (c = '@') := funext fun c => decide_not
    have notColon : (fun c : Char => decide (c ≠ ':')) = fun c => !decide (c = ':') := funext fun c => decide_not
    have hasAt := @takeWhile_length_lt_iff _ written fun c => decide (c = '@')
    rw [notAt, notColon]
    generalize written.takeWhile (fun c => !decide (c = '@')) = before at *
    have beforeBytes := slice_encode before (behind ++ tail)
      (dropped.trans (congrArg encode (by rw [whole, userinfo, List.append_assoc])))
    obtain ⟨rest', user, stop⟩ := takeWhile_cut (fun c => !decide (c = ':')) before
    have colon : (encode before).findIdx? (fun b => b = ':'.toUInt8) = _ := isColon.findIdx?_encode before
    have hasColon := @takeWhile_length_lt_iff _ before fun c => decide (c = ':')
    generalize before.takeWhile (fun c => !decide (c = ':')) = name at *
    rw [writtenBytes, atSign]
    have web : guard (scheme.length > 0) = Option.some () := if_pos some
    rw [web]
    by_cases ended : before.length < written.length
    · rw [if_pos (hasAt.mp ended)]
      by_cases named : name.length < before.length
      · cases rest' with
        | nil =>
          rw [user, List.append_nil] at named
          exact absurd named (Nat.lt_irrefl _)
        | cons c password =>
          obtain rfl : c = ':' := by simpa using stop c rfl
          have width : (encode before).length = (encode name).length + 1 + (encode password).length := by
            rw [user, encode_append, encode_cons, List.length_append, List.length_append,
              encodeChar_of_ascii (show ':'.toNat < 128 by decide), List.length_singleton, Nat.add_assoc]
          have chars : before.length = name.length + 1 + password.length := by
            rw [user, List.length_append, List.length_cons]
            omega
          simp only [Option.bind_eq_bind, Option.bind_some, beforeBytes, colon, if_pos (hasColon.mp named), ended, named,
            decide_true, Bool.true_and]
          have start := offset_password_start front name password (behind ++ tail) ascii
          have stop := offset_password_end front name password (behind ++ tail) ascii
          have shape : rest = name ++ ':' :: (password ++ (behind ++ tail)) := by
            rw [whole, userinfo, user]
            simp only [List.append_assoc, List.cons_append]
          rw [← shape] at start stop
          by_cases none : password = []
          · subst none
            simp only [encode_nil, List.length_nil] at width chars
            rw [if_neg (by rw [decide_eq_true_eq]; omega), guard, if_neg (by omega)]
            rfl
          · have many := List.length_pos_iff_ne_nil.mpr none
            have bytes := length_le_length_encode password
            rw [if_pos (by rw [decide_eq_true_eq]; omega), guard, if_pos (by omega), List.map_singleton, toBytes, start,
              chars, ← Nat.add_assoc, ← Nat.add_assoc, stop, width, ← Nat.add_assoc, ← Nat.add_assoc]
            rfl
      · have absent : (before.any fun c => decide (c = ':')) = false :=
          Bool.eq_false_iff.mpr fun found => named (hasColon.mpr found)
        simp only [Option.bind_eq_bind, Option.bind_some, beforeBytes, colon, absent, named, decide_false,
          Bool.false_and, Bool.and_false, Bool.false_eq_true, if_false, Option.bind_none]
        rfl
    · have absent : (written.any fun c => decide (c = '@')) = false :=
        Bool.eq_false_iff.mpr fun found => ended (hasAt.mpr found)
      simp only [Option.bind_eq_bind, Option.bind_some, absent, ended, decide_false, Bool.false_and, Bool.false_eq_true,
        if_false, Option.bind_none]
      rfl

/-! #### Bearer tokens -/

theorem toAsciiLowercase_of_high {b : UInt8} (high : 128 ≤ b.toNat) : toAsciiLowercase b = b := by
  have := (isAsciiAlphanumeric_of_high high).2
  rw [Bool.or_eq_false_iff] at this
  rw [toAsciiLowercase, this.1, if_neg Bool.false_ne_true]

theorem toAsciiLowercase_ascii : ∀ n < 128, toAsciiLowercase (UInt8.ofNat n) = UInt8.ofNat (Char.ofNat n).toLower.toNat := by
  decide +kernel

theorem toLower_ascii : ∀ n < 128, (Char.ofNat n).toLower.toNat < 128 := by decide +kernel

/-- Ignoring case, the first bytes are those of an ASCII text just if the first characters are. -/
theorem lowercase_take_encode (word : Text) (ascii : ∀ c ∈ word, c.toNat < 128) (s : Text) :
    (word.length ≤ (encode s).length ∧ ((encode s).take word.length).map toAsciiLowercase = encode word) ↔
      (s.take word.length).map Char.toLower = word := by
  induction word generalizing s with
  | nil => simp
  | cons d word ih =>
    have small := ascii d List.mem_cons_self
    have ih := ih fun c mem => ascii c (List.mem_cons_of_mem _ mem)
    cases s with
    | nil => simp
    | cons c rest =>
      rw [List.length_cons, List.take_succ_cons, List.map_cons, encode_cons d, encodeChar_of_ascii small]
      by_cases low : c.toNat < 128
      · have heads : toAsciiLowercase (UInt8.ofNat c.toNat) = UInt8.ofNat d.toNat ↔ c.toLower = d := by
          have lower := toLower_ascii _ low
          rw [toAsciiLowercase_ascii _ low, Char.ofNat_toNat] at *
          rw [← UInt8.toNat_inj, toNat_ofNat_of_lt (by omega), toNat_ofNat_of_lt (by omega), Char.toNat_inj]
        rw [encode_cons, encodeChar_of_ascii low, List.singleton_append, List.singleton_append, List.length_cons,
          List.take_succ_cons, List.map_cons, List.cons.injEq, List.cons.injEq, heads, Nat.succ_le_succ_iff, ← ih]
        tauto
      · have high := Nat.not_lt.mp low
        obtain ⟨first, others, bytes, -⟩ := encodeChar_eq_cons c
        have highByte := encodeChar_of_not_ascii high first (bytes ▸ List.mem_cons_self)
        have heads : first ≠ UInt8.ofNat d.toNat := by
          rintro rfl
          rw [toNat_ofNat_of_lt (by omega)] at highByte
          omega
        rw [encode_cons, bytes, List.cons_append, List.take_succ_cons, List.map_cons, List.singleton_append,
          toAsciiLowercase_of_high highByte, toLower_of_high high, List.cons.injEq, List.cons.injEq]
        constructor
        · exact fun same => absurd same.2.1 heads
        · rintro ⟨rfl, -⟩
          exact absurd small (Nat.not_lt.mpr high)

def bearerHeader : Text := "authorization: bearer "

theorem ascii_of_toLower {c : Char} (lower : c.toLower ∈ bearerHeader) : c.toNat < 128 := by
  by_contra low
  have high := Nat.not_lt.mp low
  rw [toLower_of_high high] at lower
  have ascii : bearerHeader.all (fun c => c.toNat < 128) = true := by decide
  exact low (of_decide_eq_true (List.all_eq_true.mp ascii c lower))

theorem toBytes_of_split (text : Text) {header : Text} (part behind : Text) (ascii : ∀ c ∈ header, c.toNat < 128)
    (split : text = front ++ (header ++ (part ++ behind))) :
    toBytes text (front.length + header.length, front.length + header.length + part.length) =
      ((encode front).length + header.length, (encode front).length + header.length + (encode part).length) := by
  have width := length_encode_of_ascii ascii
  refine Prod.ext ?_ ?_
  · refine (offset_of_split (front ++ header) (part ++ behind) ?_ ?_).trans ?_
    · rw [split, List.append_assoc]
    · rw [List.length_append]
    · rw [encode_append, List.length_append, width]
  · refine (offset_of_split (front ++ (header ++ part)) behind ?_ ?_).trans ?_
    · simp only [split, List.append_assoc]
    · simp only [List.length_append, Nat.add_assoc]
    · simp only [encode_append, List.length_append, width, Nat.add_assoc]

theorem bearerToken_encode : (bearerToken (encode (front ++ back)) (encode front).length).toList =
    (History.bearerToken front.length back).map (toBytes (front ++ back)) := by
  have headed := lowercase_take_encode bearerHeader
    (fun c mem => of_decide_eq_true (List.all_eq_true.mp (by decide : bearerHeader.all (fun c => c.toNat < 128) = true) c mem))
    back
  unfold bearerToken History.bearerToken
  have sliced : slice (encode (front ++ back)) (encode front).length ((encode front).length + 22) = (encode back).take 22 := by
    rw [slice, drop_front, Nat.add_sub_cancel_left]
  rw [sliced, drop_front]
  by_cases header : (back.take 22).map Char.toLower = bearerHeader
  · have bytes := headed.mpr header
    have ascii : ∀ c ∈ back.take 22, c.toNat < 128 := fun c mem =>
      ascii_of_toLower (header ▸ List.mem_map_of_mem mem)
    have long : 22 ≤ back.length := by
      have := congrArg List.length header
      rw [List.length_map, List.length_take] at this
      have width : bearerHeader.length = 22 := rfl
      omega
    have dropped : (encode (front ++ back)).drop ((encode front).length + 22) = encode (back.drop 22) := by
      rw [drop_front_add]
      conv_lhs => rw [← take_encode_of_ascii long ascii]
      exact drop_offset back 22
    obtain ⟨behind, token, -⟩ := takeWhile_cut (fun c =>
      !(History.isAsciiWhitespace c || c = '"' || c = '\'' || c = '<' || c = '>')) (back.drop 22)
    have ended := Tests.findIdx_encode bearerEnd (back.drop 22)
    have taken : back = back.take 22 ++ (back.drop 22) := (List.take_append_drop 22 back).symm
    have width : (back.take 22).length = 22 := by rw [List.length_take, Nat.min_eq_left long]
    have guarded : guard ((22 ≤ (encode back).length && decide (((encode back).take 22).map toAsciiLowercase =
        bytesOf "authorization: bearer ")) = true) = Option.some () :=
      if_pos (by rw [Bool.and_eq_true, decide_eq_true_eq, decide_eq_true_eq]; exact bytes)
    have lowered : (back.take 22).map Char.toLower = "authorization: bearer " := header
    rw [guarded, if_pos lowered]
    dsimp only
    rw [dropped, ended]
    generalize (back.drop 22).takeWhile (fun c =>
      !(History.isAsciiWhitespace c || c = '"' || c = '\'' || c = '<' || c = '>')) = part at *
    by_cases empty : part = []
    · subst empty
      rw [if_pos rfl]
      simp
    · have some := List.length_pos_iff_ne_nil.mpr empty
      have bytes := length_le_length_encode part
      have placed := toBytes_of_split front (front ++ back) part behind ascii (by
        rw [← token, ← taken])
      rw [width] at placed
      rw [if_neg empty, List.map_singleton, placed]
      simp only [Option.bind_eq_bind, Option.bind_some, guard]
      rw [if_pos (by omega)]
      rfl
  · have guarded : guard ((22 ≤ (encode back).length && decide (((encode back).take 22).map toAsciiLowercase =
        bytesOf "authorization: bearer ")) = true) = (none : Option Unit) :=
      if_neg (by
        rw [Bool.and_eq_true, decide_eq_true_eq, decide_eq_true_eq]
        exact fun bytes => header (headed.mp bytes))
    have other : (back.take 22).map Char.toLower ≠ "authorization: bearer " := header
    rw [guarded, if_neg other]
    rfl

/-! #### API tokens and access keys -/

theorem ascii_of_mem_tokenPrefixes {entry : Text × Nat} (mem : entry ∈ tokenPrefixes) : ∀ c ∈ entry.1, c.toNat < 128 := by
  have all : tokenPrefixes.all (fun entry => entry.1.all fun c => c.toNat < 128) = true := by decide
  exact fun c inside => of_decide_eq_true (List.all_eq_true.mp (List.all_eq_true.mp all entry mem) c inside)

theorem ascii_of_tokenByte {c : Char} (part : History.tokenByte c = true) : c.toNat < 128 := by
  by_contra low
  have high := Nat.not_lt.mp low
  unfold History.tokenByte at part
  rw [(isAlphanum_of_high high).1, Bool.false_or, Bool.or_eq_true, decide_eq_true_eq, decide_eq_true_eq] at part
  rcases part with rfl | rfl <;> exact low (by decide)

theorem apiToken_encode : (apiToken (encode (front ++ back)) (encode front).length).toList =
    (History.apiToken front.length back).map (toBytes (front ++ back)) := by
  unfold apiToken History.apiToken
  have begins : (fun entry : Bytes × Nat => entry.1.isPrefixOf (encode back)) ∘ (fun entry : Text × Nat =>
      (encode entry.1, entry.2)) = fun entry => Text.startsWith entry.1 back :=
    funext fun entry => isPrefixOf_encode entry.1 back
  rw [drop_front, List.find?_map, begins]
  cases found : tokenPrefixes.find? fun entry => Text.startsWith entry.1 back with
  | none => rfl
  | some entry =>
    obtain ⟨start, minTail⟩ := entry
    have ascii : ∀ c ∈ start, c.toNat < 128 := ascii_of_mem_tokenPrefixes (List.mem_of_find?_eq_some found)
    have width := length_encode_of_ascii ascii
    obtain ⟨rest, stripped⟩ := Option.isSome_iff_exists.mp
      (List.find?_some (p := fun entry : Text × Nat => Text.startsWith entry.1 back) found)
    obtain rfl := Text.stripPrefix_eq_some.mp stripped
    have dropped : (encode (front ++ (start ++ rest))).drop ((encode front).length + start.length) = encode rest := by
      rw [drop_front_add, encode_append, ← width, List.drop_left]
    obtain ⟨behind, whole, -⟩ := takeWhile_cut (fun c => !!History.tokenByte c) rest
    have ended := (Tests.not token).findIdx_encode rest
    have tokens : ∀ c ∈ rest.takeWhile (fun c => !!History.tokenByte c), c.toNat < 128 := fun c mem =>
      ascii_of_tokenByte (by simpa using List.mem_takeWhile_imp mem)
    have notNot : rest.takeWhile History.tokenByte = rest.takeWhile fun c => !!History.tokenByte c := by
      simp only [Bool.not_not]
    simp only [Option.map_some, Option.bind_eq_bind, Option.bind_some, width, dropped, ended, List.drop_left, notNot]
    generalize rest.takeWhile (fun c => !!History.tokenByte c) = tail at *
    have tailWidth := length_encode_of_ascii tokens
    have tailBytes : slice (encode (front ++ (start ++ rest))) ((encode front).length + start.length)
        ((encode front).length + start.length + (encode tail).length) = encode tail :=
      slice_encode _ _ (dropped.trans (congrArg encode whole))
    have placed : toBytes (front ++ (start ++ rest)) (front.length, front.length + start.length + tail.length) =
        ((encode front).length, (encode front).length + start.length + (encode tail).length) := by
      have both := toBytes_of_split front (front ++ (start ++ rest)) tail behind ascii
        (by rw [whole])
      exact Prod.ext (offset_of_split _ _ rfl rfl) (congrArg Prod.snd both :)
    simp only [tailBytes, Tests.all_encode alphanumeric, Tests.any_encode alphanumeric, bytesOf, isPrefixOf_encode]
    rw [tailWidth] at placed ⊢
    generalize (if Text.startsWith "sk-" start = true then minTail ≤ tail.length && tail.all Char.isAlphanum
      else minTail ≤ tail.length && tail.any Char.isAlphanum) = valid
    cases valid with
    | true =>
      rw [if_pos rfl, List.map_singleton, placed]
      rfl
    | false => rfl

theorem accessKeyId_encode : (accessKeyId (encode (front ++ back)) (encode front).length).toList =
    (History.accessKeyId front.length back).map (toBytes (front ++ back)) := by
  unfold accessKeyId History.accessKeyId
  rw [drop_front, bytesOf, isPrefixOf_encode]
  cases begins : Text.startsWith "AKIA" back with
  | false => rfl
  | true =>
    obtain ⟨rest, stripped⟩ := Option.isSome_iff_exists.mp begins
    obtain rfl := Text.stripPrefix_eq_some.mp stripped
    have dropped : (encode ("AKIA" ++ rest)).drop 4 = encode rest :=
      drop_of_ascii "AKIA" (by decide) rest
    have key := Tests.all_take_encode uppercaseOrDigit (fun c passes => by
      by_contra low
      rw [(isAlphanum_of_high (Nat.not_lt.mp low)).2] at passes
      cases passes) 16 rest
    have total : (encode (front ++ ("AKIA" ++ rest))).length = (encode front).length + (4 + (encode rest).length) := by
      rw [encode_append, List.length_append, encode_append, List.length_append]
      rfl
    have sliced : slice (encode (front ++ ("AKIA" ++ rest))) ((encode front).length + 4)
        ((encode front).length + 20) = (encode rest).take 16 := by
      rw [slice, drop_front_add, dropped]
      congr 1
      omega
    have behind : (encode (front ++ ("AKIA" ++ rest)))[(encode front).length + 20]? = ((encode rest).drop 16).head? := by
      rw [← dropped, List.drop_drop, List.head?_drop, ← List.getElem?_drop, drop_front]
    have same : ("AKIA" ++ rest)[20]? = (rest.drop 16).head? := by
      rw [List.head?_drop]
      rfl
    have long : 20 ≤ ("AKIA" ++ rest).length ↔ 16 ≤ rest.length := by
      have width : "AKIA".toList.length = 4 := rfl
      rw [List.length_append]
      omega
    have longBytes : (encode front).length + 20 ≤ (encode (front ++ ("AKIA" ++ rest))).length ↔
        16 ≤ (encode rest).length := by omega
    have chars : ("AKIA" ++ rest).drop 4 = rest := rfl
    dsimp only
    rw [sliced, behind, same, chars]
    by_cases shape : 16 ≤ rest.length ∧ (rest.take 16).all (fun c => c.isUpper || c.isDigit) = true
    · have ascii : ∀ c ∈ rest.take 16, c.toNat < 128 := fun c mem => by
        by_contra low
        have passes := List.all_eq_true.mp shape.2 c mem
        rw [(isAlphanum_of_high (Nat.not_lt.mp low)).2] at passes
        cases passes
      have next : ((encode rest).drop 16).head?.all (fun b => !tokenByte b) =
          (rest.drop 16).head?.all fun c => !History.tokenByte c := by
        have := drop_offset rest 16
        rw [take_encode_of_ascii shape.1 ascii] at this
        rw [this, (Tests.not token).head?_encode]
      have absorbed : (decide ((encode front).length + 20 = (encode (front ++ ("AKIA" ++ rest))).length) ||
          ((encode rest).drop 16).head?.all fun b => !tokenByte b) =
            ((encode rest).drop 16).head?.all fun b => !tokenByte b := by
        rw [Bool.or_eq_right_iff_imp, decide_eq_true_eq]
        intro ended
        rw [List.drop_eq_nil_of_le (by omega)]
        rfl
      have placed : toBytes (front ++ ("AKIA" ++ rest)) (front.length, front.length + 20) =
          ((encode front).length, (encode front).length + 20) := by
        refine Prod.ext (offset_of_split _ _ rfl rfl) ?_
        have cut := take_encode_of_ascii shape.1 ascii
        rw [offset] at cut
        refine (offset_append front _ 20).trans ?_
        rw [List.take_append, encode_append, List.length_append]
        exact congrArg (fun n => (encode front).length + (4 + n)) cut
      have bytes := key.mpr shape
      rw [absorbed, next, bytes.2, shape.2, decide_eq_true (longBytes.mpr bytes.1), decide_eq_true (long.mpr shape.1)]
      cases (rest.drop 16).head?.all fun c => !History.tokenByte c with
      | true => exact (congrArg (fun range : Range => [range]) placed).symm
      | false => rfl
    · have none : ¬ (true && decide (20 ≤ ("AKIA" ++ rest).length) &&
          ((rest.take 16).all fun c => c.isUpper || c.isDigit) &&
          (rest.drop 16).head?.all fun c => !History.tokenByte c) = true := by
        simp only [Bool.and_eq_true, decide_eq_true_eq, long]
        exact fun all => shape ⟨all.1.1.2, all.1.2⟩
      rw [if_neg none]
      by_cases enough : 16 ≤ (encode rest).length
      · have fails : ((encode rest).take 16).all (fun b => isAsciiUppercase b || isAsciiDigit b) = false :=
          Bool.eq_false_iff.mpr fun all => shape (key.mp ⟨enough, all⟩)
        rw [fails, decide_eq_true (longBytes.mpr enough)]
        rfl
      · rw [decide_eq_false fun found => enough (longBytes.mp found)]
        rfl

/-! #### The loop -/

theorem rangesAt_encode : rangesAt (encode (front ++ back)) (encode front).length =
    (History.spansAt front.getLast? front.length back).map (toBytes (front ++ back)) := by
  unfold rangesAt History.spansAt
  rw [boundary_encode, urlPassword_encode, bearerToken_encode, apiToken_encode, accessKeyId_encode]
  cases History.boundary front.getLast? with
  | false => rfl
  | true => simp only [if_true, List.map_append]

theorem width_encode (c : Char) (rest : Text) : width (encode (c :: rest)) = (String.utf8EncodeChar c).length := by
  rw [width, encode_cons, scan_encodeChar]

/-- From any place between two characters, the same is detected in the bytes as in the characters. -/
theorem detect_encode {fuel fuel' : Nat} (enough : back.length ≤ fuel) (enough' : back.length ≤ fuel') :
    detect (encode (front ++ back)) fuel (encode front).length =
      (History.detect fuel' front.getLast? front.length back).map (toBytes (front ++ back)) := by
  induction fuel generalizing fuel' front back with
  | zero =>
    obtain rfl := List.length_eq_zero_iff.mp (Nat.le_zero.mp enough)
    cases fuel' <;> rfl
  | succ fuel ih =>
    cases back with
    | nil =>
      have done : ¬ (encode front).length < (encode (front ++ [])).length := by
        rw [List.append_nil]
        exact Nat.lt_irrefl _
      rw [detect, if_neg done]
      cases fuel' <;> rfl
    | cons c rest =>
      cases fuel' with
      | zero => cases enough'
      | succ fuel' =>
        have more : (encode front).length < (encode (front ++ c :: rest)).length := by
          have := List.length_pos_iff_ne_nil.mpr (encodeChar_ne_nil c)
          rw [encode_append, encode_cons, List.length_append, List.length_append]
          omega
        rw [detect, if_pos more, History.detect, privateKeyBlock_encode]
        cases block : History.privateKeyBlock (c :: rest) with
        | some length =>
          obtain ⟨some, most⟩ := privateKeyBlock_le block
          have whole : front ++ c :: rest = front ++ (c :: rest).take length ++ (c :: rest).drop length := by
            rw [List.append_assoc, List.take_append_drop]
          have taken : ((c :: rest).take length).length = length := by
            rw [List.length_take, Nat.min_eq_left most]
          have split := offset_of_split _ _ (i := front.length + length) whole (by rw [List.length_append, taken])
          have left : ((c :: rest).drop length).length ≤ rest.length := by
            rw [List.length_drop, List.length_cons]
            omega
          have later := ih (front ++ (c :: rest).take length) ((c :: rest).drop length)
            (left.trans (Nat.le_of_succ_le_succ enough)) (left.trans (Nat.le_of_succ_le_succ enough'))
          have nonempty : (c :: rest).take length ≠ [] := by
            rw [← List.length_pos_iff_ne_nil, taken]
            exact some
          have last : (front ++ (c :: rest).take length).getLast? = ((c :: rest).take length).getLast? := by
            rw [List.getLast?_append, List.getLast?_eq_some_getLast nonempty]
            rfl
          rw [last, List.length_append, taken, ← whole] at later
          simp only [Option.map_some, List.map_cons]
          rw [split, later]
          exact congrArg₂ List.cons (Prod.ext (offset_of_split _ _ rfl rfl).symm split.symm) rfl
        | none =>
          have whole : front ++ c :: rest = front ++ [c] ++ rest := by simp
          have later := ih (front ++ [c]) rest (Nat.le_of_succ_le_succ enough)
            (Nat.le_of_succ_le_succ enough')
          have width : (encode (front ++ [c])).length = (encode front).length + (String.utf8EncodeChar c).length := by
            rw [encode_append, encode_cons, encode_nil, List.append_nil, List.length_append]
          rw [List.getLast?_concat, List.length_append, List.length_singleton, ← whole, width] at later
          simp only [Option.map_none, drop_front, width_encode, rangesAt_encode, later, List.map_append]

end Agree

/-! ### Redaction of bytes -/

theorem ranges_encode (text : Text) : ranges (encode text) = (detected text).map (toBytes text) :=
  detect_encode [] text (length_le_length_encode text) (Nat.le_refl _)

theorem le_toBytes_iff {text : Text} {a b : Range} (insideA : a.Within text.length) (insideB : b.Within text.length) :
    Span.le a b ↔ Span.le (toBytes text a) (toBytes text b) := by
  obtain ⟨nonemptyA, mostA⟩ := insideA
  obtain ⟨nonemptyB, mostB⟩ := insideB
  have starts := offset_le_offset_iff text (i := a.1) (j := b.1) (by omega) (by omega)
  have starts' := offset_le_offset_iff text (i := b.1) (j := a.1) (by omega) (by omega)
  have stops := offset_le_offset_iff text mostA mostB
  unfold Span.le toBytes
  omega

theorem mask_encode {text : Text} {spans : List Span} (within : ∀ span ∈ spans, Range.Within text.length span)
    {copied : Nat} (inside : copied ≤ text.length) :
    Lib.mask (encode marker) (encode text) (offset text copied) (spans.map (toBytes text)) =
      encode (History.mask text copied spans) := by
  induction spans generalizing copied with
  | nil => exact drop_offset text copied
  | cons span rest ih =>
    obtain ⟨start, stop⟩ := span
    obtain ⟨nonempty, most⟩ := within _ List.mem_cons_self
    have ih := fun {copied} => @ih (fun span mem => within span (List.mem_cons_of_mem _ mem)) copied
    dsimp only at nonempty most
    rw [List.map_cons, toBytes, Lib.mask, History.mask]
    dsimp only
    by_cases done : stop ≤ copied
    · rw [if_pos ((offset_le_offset_iff _ most inside).mpr done), if_pos done, ih inside]
    · rw [if_neg fun le => done ((offset_le_offset_iff _ most inside).mp le), if_neg done, ih most, encode_append,
        encode_append]
      congr 2
      rw [take_offset]
      rcases Nat.le_total copied start with le | le
      · have same : offset (text.take start) copied = offset text copied := by
          rw [offset, offset, List.take_take, Nat.min_eq_left le]
        rw [← same, drop_offset]
      · have := (offset_le_offset_iff text (by omega) inside).mpr le
        rw [List.drop_eq_nil_of_le (by exact this), List.drop_eq_nil_of_le ((List.length_take_le _ _).trans le)]
        rfl

theorem redact_encode (text : Text) : redact (encode text) = encode (History.redact text) := by
  have within : ∀ span ∈ (detected text).insertionSort Span.le, Range.Within text.length span := fun span mem =>
    within_detected ((List.mem_insertionSort Span.le).mp mem)
  have sorted := List.map_insertionSort (r := Span.le) (s := Span.le) (toBytes text) (detected text)
    fun a memA b memB => le_toBytes_iff (within_detected memA) (within_detected memB)
  have masked := mask_encode within (Nat.zero_le text.length)
  rw [redact, ranges_encode, ← sorted]
  exact masked

/-- **Redaction replaces exactly what it detects.** Every range lies between characters; the output is the input with
markers for what the ranges cover, and with everything else in its order. -/
theorem redact_exact (text : Text) :
    (∀ range ∈ ranges (encode text), range.1 < range.2 ∧
      (∃ front back, text = front ++ back ∧ range.1 = (encode front).length) ∧
      ∃ front back, text = front ++ back ∧ range.2 = (encode front).length) ∧
    (∃ pieces, Pieces (encode marker) (encode text) (redact (encode text)) (ranges (encode text)) pieces) ∧
    redact (encode text) = encode (History.redact text) := by
  have within : ∀ range ∈ ranges (encode text), range.Within (encode text).length := by
    intro range mem
    rw [ranges_encode] at mem
    obtain ⟨span, found, rfl⟩ := List.mem_map.mp mem
    obtain ⟨nonempty, most⟩ := within_detected found
    refine ⟨offset_lt nonempty most, ?_⟩
    rw [← offset_length]
    exact (offset_le_offset_iff _ most (Nat.le_refl _)).mpr most
  refine ⟨fun range mem => ?_, ?_, redact_encode text⟩
  · refine ⟨(within range mem).1, ?_⟩
    rw [ranges_encode] at mem
    obtain ⟨span, -, rfl⟩ := List.mem_map.mp mem
    exact ⟨⟨_, _, (List.take_append_drop span.1 text).symm, rfl⟩, _, _, (List.take_append_drop span.2 text).symm, rfl⟩
  · obtain ⟨pieces, source, shown, flags, hidden⟩ := exists_pieces (encode marker) (encode text)
      (fun range mem => within range ((List.mem_insertionSort Span.le).mp mem)) (sorted_le (ranges (encode text)))
    rw [covered_insertionSort] at flags
    exact ⟨pieces, source, shown, flags, hidden⟩

end OnBytes

end OrbitGraph.History
