import OrbitGraph.Extract.EnvKeys
import OrbitGraph.Lib.JsonSyntax
import OrbitGraph.Lib.Lines

/-!
The lines of the keys of a JSON document.

The keys come from the parsed value, and their lines from a second reading of the text. On
a text that is a document, that reading stays inside the text, ends behind the value, and
leaves for every key that the value has the line of the field that the value keeps.
-/

namespace OrbitGraph.Extract

open Lib Lib.Utf8 Lib.JsonSyntax

abbrev KeyLines := List (List Text × Nat)

/-- The line of a path, or of the longest part from its beginning that has one. -/
def sourceLine (lines : KeyLines) (path : List Text) : Nat :=
  ((List.range path.length).reverse.findSome? fun n => lines.lookup (path.take (n + 1))).getD 1

/-! ### The scanner -/

/-- The loop of `skip_quoted` from `i` on, for so many rounds. -/
def skipQuotedFrom (bytes : Bytes) (quote : UInt8) : Nat → Nat → Nat
  | 0, _ => bytes.length
  | fuel + 1, i =>
    match bytes[i]? with
    | none => bytes.length
    | some b =>
      if b = 92 ∧ quote = 34 then skipQuotedFrom bytes quote fuel (i + 2)
      else if b = quote then
        if quote = 39 ∧ bytes[i + 1]? = some quote then skipQuotedFrom bytes quote fuel (i + 2) else i + 1
      else skipQuotedFrom bytes quote fuel (i + 1)

/-- Behind the quoted text at a place; nothing where there is no byte. -/
def skipQuoted (bytes : Bytes) (start : Nat) : Option Nat :=
  bytes[start]?.map fun quote => skipQuotedFrom bytes quote bytes.length (start + 1)

/-- `serde_json::from_str::<String>` of a text that begins with a quote. -/
def readString : Text → Option Text
  | '"' :: rest => (Text.stripSuffix ['"'] rest).bind unescape
  | _ => none

/-- The state of `JsonKeyLines`. -/
structure KeyScan where
  cursor : Nat
  line : Nat
  lines : KeyLines

/-- The line of a field; of two with one path, the later is kept. Nothing is recorded inside arrays. -/
def recordKey (parent : Option (List Text)) (key : Text) (line : Nat) (lines : KeyLines) : KeyLines :=
  match parent.map fun parent => parent ++ [key] with
  | none => lines
  | some path => (path, line) :: lines

/-- What ends a name or a number. -/
def endsScalar (b : UInt8) : Bool := isAsciiWhitespace b || b == 44 || b == 125 || b == 93

section Scanner

variable (source : Text)

def byteAt (s : KeyScan) : Option UInt8 := (encode source)[s.cursor]?

def advance (s : KeyScan) : KeyScan :=
  { s with cursor := s.cursor + 1, line := if byteAt source s = some 10 then s.line + 1 else s.line }

/-- Advances over the bytes that pass, for at most so many. -/
def advanceWhile (p : UInt8 → Bool) : Nat → KeyScan → KeyScan
  | 0, s => s
  | fuel + 1, s => if (byteAt source s).any p then advanceWhile p fuel (advance source s) else s

def whitespace (s : KeyScan) : KeyScan := advanceWhile source isAsciiWhitespace (encode source).length s

/-- The string at the cursor, if it is one; nothing at all where a place is outside the text or inside a character. -/
def readKey (s : KeyScan) : Option (KeyScan × Option Text) := do
  let stop ← skipQuoted (encode source) s.cursor
  let text ← getBytes source s.cursor stop
  some ({ s with cursor := stop }, readString text)

def comma (s : KeyScan) : KeyScan := if byteAt source s = some 44 then advance source s else s

mutual

/-- `JsonKeyLines::value`; nothing where it panics or does not end in so many rounds. -/
def scanValue : Nat → Option (List Text) → KeyScan → Option KeyScan
  | 0, _, _ => none
  | fuel + 1, parent, s =>
    let s := whitespace source s
    match byteAt source s with
    | none => some s
    | some b =>
      if b = 123 then scanObject fuel parent (advance source s)
      else if b = 91 then scanArray fuel (advance source s)
      else if b = 34 then (readKey source s).map Prod.fst
      else some (advanceWhile source (fun b => !endsScalar b) (encode source).length s)

/-- The loop over the fields of an object. -/
def scanObject : Nat → Option (List Text) → KeyScan → Option KeyScan
  | 0, _, _ => none
  | fuel + 1, parent, s =>
    let s := whitespace source s
    if byteAt source s = some 125 then some (advance source s)
    else do
      let (s', key?) ← readKey source s
      match key? with
      | none => some s'
      | some key =>
        let s' := advance source (whitespace source s')
        let lines := recordKey parent key s.line s'.lines
        let s' ← scanValue fuel (parent.map fun parent => parent ++ [key]) { s' with lines := lines }
        scanObject fuel parent (comma source (whitespace source s'))

/-- The loop over the items of an array. -/
def scanArray : Nat → KeyScan → Option KeyScan
  | 0, _ => none
  | fuel + 1, s =>
    let s := whitespace source s
    if byteAt source s = some 93 then some (advance source s)
    else do
      let s' ← scanValue fuel none s
      scanArray fuel (comma source (whitespace source s'))

end

/-- `JsonKeyLines::collect`, with the place where it ends. -/
def collect : Option KeyScan := scanValue source ((encode source).length + 1) (some []) ⟨0, 1, []⟩

end Scanner

section Rows

variable (row : List Text → RawConfig)

mutual

/-- `collect_json_keys`: a row for each path, without those of the items of arrays. -/
def collectJsonKeys : Json → List Text → List RawConfig
  | .object fields, pre => collectFieldKeys fields pre
  | _, _ => []

def collectFieldKeys : List (Text × Json) → List Text → List RawConfig
  | [], _ => []
  | (key, value) :: rest, pre =>
    row (pre ++ [key]) :: (collectJsonKeys value (pre ++ [key]) ++ collectFieldKeys rest pre)

end

end Rows

def keyRow (filePath kind : Text) (lines : KeyLines) (path : List Text) : RawConfig where
  filePath := filePath
  line := sourceLine lines path
  key := Text.join ['.'] path
  kind := kind

def jsonRows (source : Text) (value : Json) (filePath kind : Text) : Option (List RawConfig) :=
  (collect source).map fun s => collectJsonKeys (keyRow filePath kind s.lines) value []

/-! ### Where the scanner is -/

/-- The scanner is behind a part of the text, and knows its line. -/
structure At (front : Text) (s : KeyScan) : Prop where
  cursor : s.cursor = (encode front).length
  line : s.line = 1 + front.count '\n'

/-- A text does not go on with white space. -/
def Solid (rest : Text) : Prop := ∀ c ∈ rest.head?, c.toNat < 128 ∧ isAsciiWhitespace (UInt8.ofNat c.toNat) = false

section Scanner

variable {source front rest : Text} {s : KeyScan}

theorem byteAt_eq (at_ : At front s) (split : source = front ++ rest) : byteAt source s = (encode rest).head? := by
  rw [byteAt, at_.cursor, split, encode_append, List.getElem?_append_right (Nat.le_refl _), Nat.sub_self, List.head?_eq_getElem?]

theorem head?_encode_of_ascii {c : Char} (ascii : c.toNat < 128) (later : Text) :
    (encode (c :: later)).head? = some (UInt8.ofNat c.toNat) := by
  rw [encode_cons, encodeChar_of_ascii ascii]
  rfl

theorem byteAt_of_cons {c : Char} (at_ : At front s) (split : source = front ++ c :: rest) (ascii : c.toNat < 128) :
    byteAt source s = some (UInt8.ofNat c.toNat) := by
  rw [byteAt_eq at_ split, head?_encode_of_ascii ascii]

theorem At.advance {c : Char} (at_ : At front s) (split : source = front ++ c :: rest) (ascii : c.toNat < 128) :
    At (front ++ [c]) (advance source s) where
  cursor := by
    rw [Extract.advance, encode_append, List.length_append, encode_cons, encode_nil, encodeChar_of_ascii ascii, at_.cursor]
    rfl
  line := by
    rw [Extract.advance, byteAt_of_cons at_ split ascii, List.count_append, List.count_singleton, at_.line]
    have newline : UInt8.ofNat c.toNat = 10 ↔ c = '\n' := by
      rw [← UInt8.toNat_inj, toNat_ofNat_of_lt (by omega), ← Char.toNat_inj]
      rfl
    by_cases here : c = '\n'
    · rw [if_pos (congrArg some (newline.mpr here)), here]
      rfl
    · rw [if_neg fun same => here (newline.mp (Option.some.inj same)), if_neg (by simpa using here)]
      rfl

theorem advance_lines (source : Text) (s : KeyScan) : (advance source s).lines = s.lines := rfl

/-- Over a part of the text whose characters pass, up to one that does not. -/
theorem At.advanceWhile {p : UInt8 → Bool} {part : Text} {fuel : Nat} (at_ : At front s)
    (split : source = front ++ (part ++ rest)) (enough : part.length ≤ fuel)
    (passes : ∀ c ∈ part, c.toNat < 128 ∧ p (UInt8.ofNat c.toNat) = true) (stop : (encode rest).head?.any p = false) :
    At (front ++ part) (advanceWhile source p fuel s) ∧ (advanceWhile source p fuel s).lines = s.lines := by
  induction part generalizing front s fuel with
  | nil =>
    rw [List.append_nil]
    cases fuel with
    | zero => exact ⟨at_, rfl⟩
    | succ fuel =>
      rw [Extract.advanceWhile, byteAt_eq at_ split, List.nil_append, stop, if_neg Bool.false_ne_true]
      exact ⟨at_, rfl⟩
  | cons c part ih =>
    obtain ⟨⟨ascii, passed⟩, later⟩ := List.forall_mem_cons.mp passes
    obtain ⟨fuel, rfl⟩ : ∃ n, fuel = n + 1 := ⟨fuel - 1, by rw [List.length_cons] at enough; omega⟩
    have here : (byteAt source s).any p = true := by rw [byteAt_of_cons at_ split ascii, Option.any_some, passed]
    rw [Extract.advanceWhile, if_pos here]
    have step := ih (at_.advance split ascii) (by rw [split, List.append_assoc]; rfl) (Nat.le_of_succ_le_succ enough) later
    rw [List.append_assoc] at step
    exact step

theorem length_part_le {part : Text} (split : source = front ++ (part ++ rest)) : part.length ≤ (encode source).length := by
  have := length_le_length_encode source
  rw [split, List.length_append, List.length_append] at this
  rw [split]
  omega

theorem isAsciiWhitespace_of_isBlank {c : Char} (blank : isBlank c = true) :
    c.toNat < 128 ∧ isAsciiWhitespace (UInt8.ofNat c.toNat) = true := by
  simp only [isBlank, Bool.or_eq_true, decide_eq_true_eq] at blank
  rcases blank with ((rfl | rfl) | rfl) | rfl <;> decide

theorem At.whitespace {blank : Text} (at_ : At front s) (split : source = front ++ (blank ++ rest))
    (blanks : ∀ c ∈ blank, isBlank c = true) (solid : Solid rest) :
    At (front ++ blank) (whitespace source s) ∧ (whitespace source s).lines = s.lines := by
  refine at_.advanceWhile split (length_part_le split) (fun c mem => isAsciiWhitespace_of_isBlank (blanks c mem)) ?_
  cases rest with
  | nil => rfl
  | cons c rest =>
    obtain ⟨ascii, visible⟩ := solid c rfl
    rw [head?_encode_of_ascii ascii, Option.any_some, visible]

end Scanner

/-! ### Strings -/

theorem skipQuotedFrom_plain {bytes pre part later : Bytes} (split : bytes = pre ++ (part ++ later))
    (plain : ∀ b ∈ part, b ≠ 34 ∧ b ≠ 92) {fuel : Nat} :
    skipQuotedFrom bytes 34 (part.length + fuel) pre.length = skipQuotedFrom bytes 34 fuel (pre.length + part.length) := by
  induction part generalizing pre with
  | nil => rw [List.length_nil, Nat.zero_add, Nat.add_zero]
  | cons b part ih =>
    obtain ⟨⟨noQuote, noBackslash⟩, others⟩ := List.forall_mem_cons.mp plain
    have here : bytes[pre.length]? = some b := by
      rw [split, List.getElem?_append_right (Nat.le_refl _), Nat.sub_self]
      rfl
    have step := @ih (pre ++ [b]) (by rw [split, List.append_assoc]; rfl) others
    rw [List.length_append, List.length_singleton] at step
    rw [List.length_cons, Nat.succ_add, skipQuotedFrom, here]
    dsimp only
    rw [if_neg fun both => noBackslash both.1, if_neg noQuote, step, Nat.add_assoc, Nat.add_comm 1]

theorem plain_encodeChar {c : Char} (noQuote : c ≠ '"') (noBackslash : c ≠ '\\') :
    ∀ b ∈ String.utf8EncodeChar c, b ≠ 34 ∧ b ≠ 92 := by
  intro b mem
  rcases Nat.lt_or_ge c.toNat 128 with ascii | high
  · rw [encodeChar_of_ascii ascii, List.mem_singleton] at mem
    rw [mem, ne_eq, ne_eq, ← UInt8.toNat_inj, ← UInt8.toNat_inj, toNat_ofNat_of_lt (by omega)]
    exact ⟨fun same => noQuote (Char.toNat_inj.mp same), fun same => noBackslash (Char.toNat_inj.mp same)⟩
  · have := encodeChar_of_not_ascii high b mem
    refine ⟨?_, ?_⟩ <;> rintro rfl <;> exact absurd this (by decide)

/-- Over the rest of a string, and its quote. -/
theorem skipQuotedFrom_quoted {raw : Text} (quoted : Quoted raw) {bytes pre later : Bytes} {fuel : Nat}
    (split : bytes = pre ++ (encode raw ++ 34 :: later)) (enough : (encode raw).length < fuel) :
    skipQuotedFrom bytes 34 fuel pre.length = pre.length + (encode raw).length + 1 := by
  induction quoted generalizing pre fuel with
  | nil =>
    obtain ⟨fuel, rfl⟩ : ∃ n, fuel = n + 1 := ⟨fuel - 1, by omega⟩
    have here : bytes[pre.length]? = some 34 := by
      rw [split, List.getElem?_append_right (Nat.le_refl _), Nat.sub_self]
      rfl
    rw [skipQuotedFrom, here]
    dsimp only
    rw [if_neg fun both => absurd both.1 (by decide), if_pos rfl, if_neg fun both => absurd both.1 (by decide)]
    rfl
  | @plain c rest noQuote noBackslash _ _ ih =>
    rw [encode_cons, List.length_append] at enough
    obtain ⟨fuel, rfl⟩ : ∃ n, fuel = (String.utf8EncodeChar c).length + n := ⟨fuel - (String.utf8EncodeChar c).length, by omega⟩
    rw [encode_cons, List.append_assoc] at split
    have step := @ih (pre ++ String.utf8EncodeChar c) fuel (by rw [split, List.append_assoc]) (by omega)
    rw [List.length_append] at step
    rw [skipQuotedFrom_plain split (plain_encodeChar noQuote noBackslash), step, encode_cons, List.length_append]
    omega
  | @escaped c rest _ ascii _ ih =>
    have two : encode ('\\' :: c :: rest) = 92 :: UInt8.ofNat c.toNat :: encode rest := by
      rw [encode_cons, encode_cons, encodeChar_of_ascii ascii, encodeChar_of_ascii (by decide)]
      rfl
    rw [two, List.length_cons, List.length_cons] at enough
    obtain ⟨fuel, rfl⟩ : ∃ n, fuel = n + 1 := ⟨fuel - 1, by omega⟩
    rw [two] at split
    have here : bytes[pre.length]? = some 92 := by
      rw [split, List.getElem?_append_right (Nat.le_refl _), Nat.sub_self]
      rfl
    have step := @ih (pre ++ [92, UInt8.ofNat c.toNat]) fuel (by rw [split, List.append_assoc]; rfl) (by omega)
    rw [List.length_append] at step
    rw [skipQuotedFrom, here]
    dsimp only
    rw [if_pos ⟨rfl, rfl⟩]
    rw [two, List.length_cons, List.length_cons]
    exact step.trans (by simp only [List.length_cons, List.length_nil]; omega)

section Scanner

variable {source front rest : Text} {s : KeyScan}

theorem skipQuoted_token (token : StringToken) :
    skipQuoted (encode (front ++ (token.text ++ rest))) (encode front).length =
      some (encode (front ++ token.text)).length := by
  have quote : encode ['"'] = [34] := by decide
  have bytes : encode (front ++ (token.text ++ rest)) = (encode front ++ [34]) ++ (encode token.raw ++ 34 :: encode rest) := by
    rw [StringToken.text, encode_append, encode_append, List.cons_append, encode_cons, encode_append, quote]
    simp only [List.append_assoc, List.cons_append, List.nil_append]
    rfl
  have here : (encode (front ++ (token.text ++ rest)))[(encode front).length]? = some 34 := by
    rw [bytes, List.append_assoc, List.getElem?_append_right (Nat.le_refl _), Nat.sub_self]
    rfl
  have enough : (encode token.raw).length < (encode (front ++ (token.text ++ rest))).length := by
    rw [bytes]
    simp only [List.length_append, List.length_cons]
    omega
  have skip := skipQuotedFrom_quoted token.quoted bytes enough
  rw [List.length_append, List.length_singleton] at skip
  rw [skipQuoted, here, Option.map_some, skip, encode_append, List.length_append, StringToken.text, List.cons_append,
    encode_cons, encode_append, quote, List.length_append, List.length_append, List.length_singleton]
  have one : (String.utf8EncodeChar '"').length = 1 := by decide
  rw [one]
  congr 1
  omega

theorem readString_text (token : StringToken) : readString token.text = some token.value := by
  have strip : Text.stripSuffix ['"'] (token.raw ++ ['"']) = some token.raw := Text.stripSuffix_eq_some.mpr rfl
  rw [StringToken.text, List.cons_append, readString, strip, Option.bind_some, token.reads]

theorem readKey_eq (at_ : At front s) (token : StringToken) (split : source = front ++ (token.text ++ rest)) :
    ∃ s', readKey source s = some (s', some token.value) ∧ At (front ++ token.text) s' ∧ s'.lines = s.lines := by
  have stop := @skipQuoted_token front rest token
  rw [← split, ← at_.cursor] at stop
  have text : getBytes source s.cursor (encode (front ++ token.text)).length = some token.text := by
    rw [split, at_.cursor, ← List.append_assoc]
    exact getBytes_append front token.text rest
  refine ⟨{ s with cursor := (encode (front ++ token.text)).length }, ?_, ⟨rfl, ?_⟩, rfl⟩
  · rw [readKey, stop, Option.bind_eq_bind, Option.bind_some, text, Option.bind_eq_bind, Option.bind_some, readString_text]
  · have newline : token.text.count '\n' = 0 := by
      rw [List.count_eq_zero, StringToken.text, List.cons_append, List.mem_cons, List.mem_append, List.mem_singleton]
      rintro (same | inside | same)
      · exact absurd same (by decide)
      · exact token.quoted.newline_notMem inside
      · exact absurd same (by decide)
    rw [List.count_append, newline, Nat.add_zero]
    exact at_.line


theorem At.comma {α : Type} (items : List α) (at_ : At front s) (split : source = front ++ (Tree.separator items ++ rest))
    (last : items = [] → (encode rest).head? ≠ some 44) :
    At (front ++ Tree.separator items) (comma source s) ∧ (comma source s).lines = s.lines := by
  cases items with
  | nil =>
    rw [Tree.separator, List.isEmpty_nil, if_pos rfl, List.nil_append] at split
    rw [Extract.comma, byteAt_eq at_ split, if_neg (last rfl), Tree.separator, List.isEmpty_nil, if_pos rfl, List.append_nil]
    exact ⟨at_, rfl⟩
  | cons item items =>
    have split : source = front ++ ',' :: rest := split
    have here : byteAt source s = some 44 := byteAt_of_cons at_ split (by decide)
    rw [Extract.comma, if_pos here]
    exact ⟨at_.advance split (by decide), rfl⟩

end Scanner

/-! ### What is recorded -/

/-- What reading a part of the document under a path leaves in the lines: those of the fields that are kept, and nothing
under other names. -/
structure Recorded (parent : Option (List Text)) (names : Text → Bool) (kept : Text → List Text → Option Text)
    (before after : KeyLines) : Prop where
  outside : parent = none → after = before
  kept : ∀ pre, parent = some pre → ∀ key path front, kept key path = some front →
    after.lookup (pre ++ key :: path) = some (1 + front.count '\n')
  others : ∀ pre, parent = some pre → ∀ path, (∀ key later, names key = true → path ≠ pre ++ key :: later) →
    after.lookup path = before.lookup path

theorem Recorded.refl {parent : Option (List Text)} {names : Text → Bool} {kept : Text → List Text → Option Text}
    (none : ∀ key path, kept key path = none) (lines : KeyLines) : Recorded parent names kept lines lines where
  outside _ := rfl
  kept _ _ key path _ found := by
    rw [none key path] at found
    cases found
  others _ _ _ _ := rfl

section Members

variable {parent : Option (List Text)} {member : Member Tree} {rest : List (Member Tree)} {front : Text}

/-- The fields of an object: the first, its value, and the others. -/
theorem Recorded.cons {lines lines' lines'' : KeyLines}
    (value : Recorded (parent.map fun parent => parent ++ [member.key.value]) (fun _ => true)
      (fun key path => member.value.written (Tree.valueFront front member) (key :: path))
      (recordKey parent member.key.value (1 + (front ++ member.before.1).count '\n') lines) lines')
    (others : Recorded parent (fun key => Tree.hasKey key rest) (Tree.writtenMembers rest (Tree.restFront front member rest))
      lines' lines'') :
    Recorded parent (fun key => Tree.hasKey key (member :: rest)) (Tree.writtenMembers (member :: rest) front)
      lines lines'' := by
  constructor
  · rintro rfl
    rw [others.outside rfl, value.outside rfl]
    rfl
  · rintro pre rfl key path before found
    cases again : Tree.hasKey key rest with
    | true =>
      rw [Tree.writtenMembers_of_again again] at found
      exact others.kept pre rfl key path before found
    | false =>
      rw [Tree.writtenMembers_of_last again] at found
      rcases Decidable.em (member.key.value = key) with same | other
      · rw [if_pos same] at found
        rw [others.others pre rfl (pre ++ key :: path) ?_]
        · cases path with
          | nil =>
            rw [List.isEmpty_nil, if_pos rfl] at found
            cases found
            rw [value.others (pre ++ [member.key.value]) rfl (pre ++ [key]) ?_, recordKey, Option.map_some, same]
            · exact List.lookup_cons_self
            · intro key' later _ extended
              have := congrArg List.length extended
              simp only [List.length_append, List.length_cons, List.length_nil] at this
              omega
          | cons key' path =>
            rw [List.isEmpty_cons, if_neg Bool.false_ne_true] at found
            have line := value.kept (pre ++ [member.key.value]) rfl key' path before found
            rwa [same, List.append_assoc] at line
        · intro key' later there extended
          have := List.append_cancel_left extended
          rw [List.cons.injEq] at this
          rw [this.1, there] at again
          cases again
      · rw [if_neg other] at found
        cases found
  · rintro pre rfl path untouched
    have notHere : ∀ later, path ≠ pre ++ member.key.value :: later := by
      intro later
      refine untouched member.key.value later ?_
      rw [Tree.hasKey_cons, decide_eq_true rfl, Bool.true_or]
    rw [others.others pre rfl path ?_, value.others (pre ++ [member.key.value]) rfl path ?_, recordKey, Option.map_some]
    · rw [List.lookup_cons, beq_false_of_ne (notHere [])]
    · intro key later _ extended
      rw [List.append_assoc] at extended
      exact notHere (key :: later) extended
    · intro key later there
      refine untouched key later ?_
      rw [Tree.hasKey_cons, there, Bool.or_true]

end Members

/-! ### Reading a document -/

/-- A name or a number in front of a text ends there. -/
def Ends (rest : Text) : Prop := ∀ c ∈ rest.head?, c.toNat < 128 ∧ endsScalar (UInt8.ofNat c.toNat) = true

theorem Solid.cons {c : Char} {rest : Text} (ascii : c.toNat < 128)
    (visible : isAsciiWhitespace (UInt8.ofNat c.toNat) = false) : Solid (c :: rest) := by
  intro d here
  cases here
  exact ⟨ascii, visible⟩

theorem Ends.of_blank {blank rest : Text} (blanks : ∀ c ∈ blank, isBlank c = true) (ends : Ends rest) :
    Ends (blank ++ rest) := by
  cases blank with
  | nil => exact ends
  | cons c blank =>
    rintro d here
    cases here
    obtain ⟨ascii, white⟩ := isAsciiWhitespace_of_isBlank (blanks c List.mem_cons_self)
    exact ⟨ascii, by rw [endsScalar, white]; rfl⟩

theorem ends_of_separator {α : Type} (items : List α) {bracket : Char} {later tail : Text}
    (ascii : bracket.toNat < 128) (ends : endsScalar (UInt8.ofNat bracket.toNat) = true)
    (last : items = [] → later = bracket :: tail) : Ends (Tree.separator items ++ later) := by
  cases items with
  | nil =>
    rw [last rfl]
    intro c here
    cases here
    exact ⟨ascii, ends⟩
  | cons item items =>
    intro c here
    cases here
    exact ⟨by decide, by decide⟩

/-- What the scanner reads at the first character of a value. -/
structure FirstByte (b : UInt8) : Prop where
  visible : isAsciiWhitespace b = false
  noComma : b ≠ 44
  noBracket : b ≠ 93
  noBrace : b ≠ 125

theorem ascii_of_isScalarChar {c : Char} (part : isScalarChar c = true) : c.toNat < 128 := by
  simp only [isScalarChar, Bool.or_eq_true, Bool.and_eq_true, decide_eq_true_eq] at part
  rcases part with ((((⟨_, high⟩ | ⟨_, high⟩) | ⟨_, high⟩) | rfl) | rfl) | rfl
  · omega
  · omega
  · omega
  all_goals decide

theorem firstByte_of_isFirst {c : Char} (first : Tree.isFirst c = true) :
    c.toNat < 128 ∧ FirstByte (UInt8.ofNat c.toNat) := by
  have ascii : c.toNat < 128 := by
    simp only [Tree.isFirst, Bool.or_eq_true, decide_eq_true_eq] at first
    rcases first with ((part | rfl) | rfl) | rfl
    · exact ascii_of_isScalarChar part
    all_goals decide
  have table : ∀ n < 128, Tree.isFirst (Char.ofNat n) = true →
      isAsciiWhitespace (UInt8.ofNat n) = false ∧ UInt8.ofNat n ≠ 44 ∧ UInt8.ofNat n ≠ 93 ∧ UInt8.ofNat n ≠ 125 := by decide
  obtain ⟨visible, noComma, noBracket, noBrace⟩ := table c.toNat ascii (by rwa [Char.ofNat_toNat])
  exact ⟨ascii, visible, noComma, noBracket, noBrace⟩

theorem scalarByte_of_isScalarChar {c : Char} (part : isScalarChar c = true) :
    endsScalar (UInt8.ofNat c.toNat) = false ∧ UInt8.ofNat c.toNat ≠ 123 ∧ UInt8.ofNat c.toNat ≠ 91 ∧
      UInt8.ofNat c.toNat ≠ 34 := by
  have table : ∀ n < 128, isScalarChar (Char.ofNat n) = true →
      endsScalar (UInt8.ofNat n) = false ∧ UInt8.ofNat n ≠ 123 ∧ UInt8.ofNat n ≠ 91 ∧ UInt8.ofNat n ≠ 34 := by decide
  exact table c.toNat (ascii_of_isScalarChar part) (by rwa [Char.ofNat_toNat])

section Scanner

variable {source : Text}

theorem solid_text (tree : Tree) (rest : Text) : Solid (tree.text ++ rest) := by
  obtain ⟨c, later, text, first⟩ := tree.exists_text
  obtain ⟨ascii, byte⟩ := firstByte_of_isFirst first
  rw [text]
  exact .cons ascii byte.visible

variable {s : KeyScan} {front rest : Text}

theorem byteAt_text (tree : Tree) (at_ : At front s)
    (split : source = front ++ (tree.text ++ rest)) : ∃ b, byteAt source s = some b ∧ FirstByte b := by
  obtain ⟨c, later, text, first⟩ := tree.exists_text
  obtain ⟨ascii, byte⟩ := firstByte_of_isFirst first
  rw [text] at split
  exact ⟨_, byteAt_of_cons at_ split ascii, byte⟩

theorem length_text_pos (tree : Tree) : 0 < tree.text.length := by
  obtain ⟨c, later, text, -⟩ := tree.exists_text
  rw [text]
  exact Nat.succ_pos _

theorem At.scalar (at_ : At front s) (token : ScalarToken)
    (split : source = front ++ (token.text ++ rest)) (ends : Ends rest) :
    At (front ++ token.text) (Extract.advanceWhile source (fun b => !endsScalar b) (encode source).length s) ∧
      (Extract.advanceWhile source (fun b => !endsScalar b) (encode source).length s).lines = s.lines := by
  refine at_.advanceWhile split (length_part_le split) ?_ ?_
  · intro c mem
    rw [(scalarByte_of_isScalarChar (token.chars c mem)).1]
    exact ⟨ascii_of_isScalarChar (token.chars c mem), rfl⟩
  · cases rest with
    | nil => rfl
    | cons d rest =>
      obtain ⟨ascii, stop⟩ := ends d rfl
      rw [head?_encode_of_ascii ascii, Option.any_some, stop]
      rfl

/-- Behind an item: the blank, and the comma if others follow. -/
theorem At.next {α : Type} {front rest tail : Text} (gap : Blank) (items : List α) {bracket : Char}
    (at_ : At front s) (split : source = front ++ (gap.1 ++ (Tree.separator items ++ rest)))
    (last : items = [] → rest = bracket :: tail) (ascii : bracket.toNat < 128)
    (visible : isAsciiWhitespace (UInt8.ofNat bracket.toNat) = false) (noComma : UInt8.ofNat bracket.toNat ≠ 44) :
    At (front ++ gap.1 ++ Tree.separator items) (Extract.comma source (Extract.whitespace source s)) ∧
      (Extract.comma source (Extract.whitespace source s)).lines = s.lines := by
  have solid : Solid (Tree.separator items ++ rest) := by
    cases items with
    | nil =>
      rw [last rfl]
      exact .cons ascii visible
    | cons item items => exact .cons (by decide) (by decide)
  have stop : items = [] → (encode rest).head? ≠ some 44 := by
    intro none
    rw [last none, head?_encode_of_ascii ascii]
    exact fun same => noComma (Option.some.inj same)
  obtain ⟨at_, lines⟩ := at_.whitespace split gap.2 solid
  rw [← List.append_assoc] at split
  obtain ⟨at_, lines'⟩ := at_.comma items split stop
  exact ⟨at_, lines'.trans lines⟩

theorem length_textItems_pos (items : List (Padded Tree)) : 0 < (Tree.textItems items).length := by
  cases items with
  | nil => exact Nat.one_pos
  | cons item items =>
    have := length_text_pos item.value
    rw [Tree.textItems_cons, List.length_append, List.length_append]
    omega

mutual

/-- The scanner goes over a value, and records the fields that are kept. -/
theorem scanValue_text : ∀ (tree : Tree) {blank front rest : Text} {fuel : Nat} {parent : Option (List Text)} {s : KeyScan},
    (∀ c ∈ blank, isBlank c = true) → At front s → source = front ++ (blank ++ (tree.text ++ rest)) → Ends rest →
    tree.text.length < fuel → ∃ s', scanValue source fuel parent s = some s' ∧ At (front ++ blank ++ tree.text) s' ∧
      Recorded parent (fun _ => true) (fun key path => tree.written (front ++ blank) (key :: path)) s.lines s'.lines
  | .scalar token, blank, front, rest, fuel, parent, s, blanks, at_, split, ends, enough => by
    obtain ⟨fuel, rfl⟩ : ∃ n, fuel = n + 1 := ⟨fuel - 1, by omega⟩
    obtain ⟨before, lines⟩ := at_.whitespace split blanks (solid_text (.scalar token) rest)
    have split : source = (front ++ blank) ++ (token.text ++ rest) := by rw [split, List.append_assoc]; rfl
    obtain ⟨c, later, text⟩ := List.exists_cons_of_ne_nil token.nonempty
    obtain ⟨-, noBrace, noBracket, noQuote⟩ :=
      scalarByte_of_isScalarChar (token.chars c (by rw [text]; exact List.mem_cons_self))
    have here : byteAt source (whitespace source s) = some (UInt8.ofNat c.toNat) := by
      refine @byteAt_of_cons source _ (later ++ rest) _ _ before (by rw [split, text]; rfl) ?_
      exact ascii_of_isScalarChar (token.chars c (by rw [text]; exact List.mem_cons_self))
    obtain ⟨after, lines'⟩ := before.scalar token split ends
    refine ⟨_, ?_, after, ?_⟩
    · rw [scanValue, here]
      dsimp only
      rw [if_neg noBrace, if_neg noBracket, if_neg noQuote]
    · rw [lines', lines]
      exact .refl (fun _ _ => rfl) _
  | .string token, blank, front, rest, fuel, parent, s, blanks, at_, split, ends, enough => by
    obtain ⟨fuel, rfl⟩ : ∃ n, fuel = n + 1 := ⟨fuel - 1, by omega⟩
    obtain ⟨before, lines⟩ := at_.whitespace split blanks (solid_text (.string token) rest)
    have split : source = (front ++ blank) ++ (token.text ++ rest) := by rw [split, List.append_assoc]; rfl
    have here : byteAt source (whitespace source s) = some 34 := byteAt_of_cons before split (by decide)
    obtain ⟨s', read, after, lines'⟩ := readKey_eq before token split
    refine ⟨s', ?_, after, ?_⟩
    · rw [scanValue, here]
      dsimp only
      rw [if_neg (by decide), if_neg (by decide), if_pos rfl, read, Option.map_some]
    · rw [lines', lines]
      exact .refl (fun _ _ => rfl) _
  | .array inner items, blank, front, rest, fuel, parent, s, blanks, at_, split, ends, enough => by
    obtain ⟨fuel, rfl⟩ : ∃ n, fuel = n + 1 := ⟨fuel - 1, by omega⟩
    obtain ⟨before, lines⟩ := at_.whitespace split blanks (solid_text (.array inner items) rest)
    have split : source = (front ++ blank) ++ '[' :: (inner.1 ++ (Tree.textItems items ++ rest)) := by
      rw [split, Tree.text, List.append_assoc, List.cons_append, List.append_assoc]
    have here : byteAt source (whitespace source s) = some 91 := byteAt_of_cons before split (by decide)
    have inside := before.advance split (by decide)
    rw [Tree.text, List.length_cons, List.length_append] at enough
    obtain ⟨s', scan, after, lines'⟩ := scanArray_text items inner.2 inside
      (split.trans (List.append_cons _ _ _)) (show (Tree.textItems items).length < fuel by omega)
    refine ⟨s', ?_, ?_, ?_⟩
    · rw [scanValue, here]
      dsimp only
      rw [if_neg (by decide), if_pos rfl, scan]
    · rw [List.append_assoc, List.append_assoc] at after
      exact after
    · rw [lines', advance_lines, lines]
      exact .refl (fun _ _ => rfl) _
  | .object inner members, blank, front, rest, fuel, parent, s, blanks, at_, split, ends, enough => by
    obtain ⟨fuel, rfl⟩ : ∃ n, fuel = n + 1 := ⟨fuel - 1, by omega⟩
    obtain ⟨before, lines⟩ := at_.whitespace split blanks (solid_text (.object inner members) rest)
    have split : source = (front ++ blank) ++ '\x7b' :: (inner.1 ++ (Tree.textMembers members ++ rest)) := by
      rw [split, Tree.text, List.append_assoc, List.cons_append, List.append_assoc]
    have here : byteAt source (whitespace source s) = some 123 := byteAt_of_cons before split (by decide)
    have inside := before.advance split (by decide)
    rw [Tree.text, List.length_cons, List.length_append] at enough
    obtain ⟨s', scan, after, recorded⟩ := @scanObject_text members _ _ _ _ parent _ inner.2 inside
      (split.trans (List.append_cons _ _ _)) (show (Tree.textMembers members).length < fuel by omega)
    rw [advance_lines, lines, List.append_assoc] at recorded
    refine ⟨s', ?_, ?_, ?_⟩
    · rw [scanValue, here]
      dsimp only
      rw [if_pos rfl, scan]
    · rw [List.append_assoc, List.append_assoc] at after
      exact after
    · exact ⟨recorded.outside, recorded.kept, fun pre under path untouched =>
        recorded.others pre under path fun key later _ => untouched key later rfl⟩

theorem scanArray_text : ∀ (items : List (Padded Tree)) {blank front rest : Text} {fuel : Nat} {s : KeyScan},
    (∀ c ∈ blank, isBlank c = true) → At front s → source = front ++ (blank ++ (Tree.textItems items ++ rest)) →
    (Tree.textItems items).length < fuel →
    ∃ s', scanArray source fuel s = some s' ∧ At (front ++ blank ++ Tree.textItems items) s' ∧ s'.lines = s.lines
  | [], blank, front, rest, fuel, s, blanks, at_, split, enough => by
    obtain ⟨fuel, rfl⟩ : ∃ n, fuel = n + 1 := ⟨fuel - 1, by omega⟩
    obtain ⟨before, lines⟩ := at_.whitespace split blanks (.cons (by decide) (by decide))
    have split : source = (front ++ blank) ++ ']' :: rest := by rw [split, List.append_assoc]; rfl
    have here : byteAt source (whitespace source s) = some 93 := byteAt_of_cons before split (by decide)
    refine ⟨advance source (whitespace source s), ?_, before.advance split (by decide), lines⟩
    rw [scanArray, here, if_pos rfl]
  | ⟨gap, value, gap'⟩ :: items, blank, front, rest, fuel, s, blanks, at_, split, enough => by
    obtain ⟨fuel, rfl⟩ : ∃ n, fuel = n + 1 := ⟨fuel - 1, by omega⟩
    have layout := Tree.textItems_cons ⟨gap, value, gap'⟩ items
    rw [layout] at split enough
    simp only [List.length_append] at enough
    simp only [List.append_assoc] at split
    have positive := length_text_pos value
    have more := length_textItems_pos items
    have bracket : items = [] → Tree.textItems items ++ rest = ']' :: rest := fun none => by rw [none]; rfl
    have blanks' : ∀ c ∈ blank ++ gap.1, isBlank c = true :=
      fun c mem => (List.mem_append.mp mem).elim (blanks c) (gap.2 c)
    rw [← List.append_assoc blank] at split
    obtain ⟨at_, lines⟩ := at_.whitespace split blanks' (solid_text value _)
    rw [← List.append_assoc front] at split
    obtain ⟨b, here, first⟩ := byteAt_text value at_ split
    have ends : Ends (gap'.1 ++ (Tree.separator items ++ (Tree.textItems items ++ rest))) :=
      .of_blank gap'.2 (ends_of_separator items (by decide) (by decide) bracket)
    obtain ⟨s₁, scan, at_, recorded⟩ := @scanValue_text value [] _ _ fuel none _ nofun
      at_ split ends (by omega)
    rw [List.append_nil] at at_
    rw [← List.append_assoc _ value.text] at split
    obtain ⟨at_, lines'⟩ := at_.next gap' items split bracket (by decide) (by decide) (by decide)
    rw [← List.append_assoc, ← List.append_assoc] at split
    obtain ⟨s₂, scan', at_, lines''⟩ := @scanArray_text items [] _ rest fuel _ nofun at_
      split (by omega)
    refine ⟨s₂, ?_, ?_, ?_⟩
    · rw [scanArray, here, if_neg fun same => first.noBracket (Option.some.inj same), Option.bind_eq_bind, scan,
        Option.bind_some, scan']
    · rw [layout]
      simpa only [List.append_assoc, List.append_nil] using at_
    · rw [lines'', lines', recorded.outside rfl, lines]

theorem scanObject_text : ∀ (members : List (Member Tree)) {blank front rest : Text} {fuel : Nat}
    {parent : Option (List Text)} {s : KeyScan},
    (∀ c ∈ blank, isBlank c = true) → At front s → source = front ++ (blank ++ (Tree.textMembers members ++ rest)) →
    (Tree.textMembers members).length < fuel →
    ∃ s', scanObject source fuel parent s = some s' ∧ At (front ++ blank ++ Tree.textMembers members) s' ∧
      Recorded parent (fun key => Tree.hasKey key members) (Tree.writtenMembers members (front ++ blank)) s.lines s'.lines
  | [], blank, front, rest, fuel, parent, s, blanks, at_, split, enough => by
    obtain ⟨fuel, rfl⟩ : ∃ n, fuel = n + 1 := ⟨fuel - 1, by omega⟩
    obtain ⟨before, lines⟩ := at_.whitespace split blanks (.cons (by decide) (by decide))
    have split : source = (front ++ blank) ++ '\x7d' :: rest := by rw [split, List.append_assoc]; rfl
    have here : byteAt source (whitespace source s) = some 125 := byteAt_of_cons before split (by decide)
    refine ⟨advance source (whitespace source s), ?_, before.advance split (by decide), ?_⟩
    · rw [scanObject, here, if_pos rfl]
    · rw [advance_lines, lines]
      exact .refl (fun _ _ => rfl) _
  | ⟨gap, key, gap₁, gap₂, value, gap₃⟩ :: members, blank, front, rest, fuel, parent, s, blanks, at_, split, enough => by
    obtain ⟨fuel, rfl⟩ : ∃ n, fuel = n + 1 := ⟨fuel - 1, by omega⟩
    have layout := Tree.textMembers_cons ⟨gap, key, gap₁, gap₂, value, gap₃⟩ members
    rw [layout] at split enough
    simp only [List.length_append, List.length_cons] at enough
    simp only [List.append_assoc, List.cons_append] at split
    have bracket : members = [] → Tree.textMembers members ++ rest = '\x7d' :: rest := fun none => by rw [none]; rfl
    have blanks' : ∀ c ∈ blank ++ gap.1, isBlank c = true :=
      fun c mem => (List.mem_append.mp mem).elim (blanks c) (gap.2 c)
    -- the blank and the name
    rw [← List.append_assoc blank] at split
    obtain ⟨at_, lines⟩ := at_.whitespace split blanks' (.cons (by decide) (by decide))
    have line := at_.line
    rw [← List.append_assoc front] at split
    have here : byteAt source (whitespace source s) = some 34 := byteAt_of_cons at_ split (by decide)
    obtain ⟨s₁, read, at_, lines₁⟩ := readKey_eq at_ key split
    -- the colon
    rw [← List.append_assoc _ key.text] at split
    obtain ⟨at_, lines₂⟩ := at_.whitespace split gap₁.2 (.cons (by decide) (by decide))
    rw [← List.append_assoc] at split
    have at_ := at_.advance split (by decide)
    rw [List.append_cons] at split
    -- the value
    have ends : Ends (gap₃.1 ++ (Tree.separator members ++ (Tree.textMembers members ++ rest))) :=
      .of_blank gap₃.2 (ends_of_separator members (by decide) (by decide) bracket)
    obtain ⟨s₂, scan, at_, value'⟩ := @scanValue_text value gap₂.1 _ _ fuel
      (parent.map fun parent => parent ++ [key.value])
      { advance source (whitespace source s₁) with
        lines := recordKey parent key.value (whitespace source s).line (advance source (whitespace source s₁)).lines }
      gap₂.2 ⟨at_.cursor, at_.line⟩ split ends (by omega)
    rw [← List.append_assoc _ gap₂.1, ← List.append_assoc _ value.text] at split
    obtain ⟨at_, lines₃⟩ := at_.next gap₃ members split bracket (by decide) (by decide) (by decide)
    -- the other fields
    rw [← List.append_assoc, ← List.append_assoc] at split
    obtain ⟨s₃, scan', at_, others⟩ := @scanObject_text members [] _ rest fuel parent _
      nofun at_ split (by omega)
    refine ⟨s₃, ?_, ?_, ?_⟩
    · rw [scanObject, here, if_neg (by decide), read]
      dsimp only [Option.bind_eq_bind, Option.bind_some]
      rw [scan, Option.bind_some, scan']
    · rw [layout]
      simpa only [List.append_assoc, List.append_nil, List.cons_append, List.nil_append] using at_
    · have frontEq : front ++ (blank ++ gap.1) ++ key.text ++ gap₁.1 ++ [':'] ++ gap₂.1 =
          Tree.valueFront (front ++ blank) ⟨gap, key, gap₁, gap₂, value, gap₃⟩ := by
        simp only [Tree.valueFront, List.append_assoc, List.cons_append, List.nil_append]
      rw [frontEq, line, advance_lines, lines₂, lines₁, lines, ← List.append_assoc] at value'
      rw [frontEq, lines₃, List.append_nil] at others
      exact value'.cons others

end

end Scanner

section Rows

variable {row : List Text → RawConfig} {r : RawConfig} {pre : List Text}

mutual

theorem exists_written_of_mem : ∀ (tree : Tree) {pre : List Text}, r ∈ collectJsonKeys row tree.value pre →
    ∃ key path, r = row (pre ++ key :: path) ∧ ∀ front, ∃ before, tree.written front (key :: path) = some before
  | .scalar token, pre, mem => by
    rw [Tree.value] at mem
    cases h : token.value with
    | object fields => exact absurd h (token.leaf fields)
    | _ =>
      rw [h] at mem
      cases mem
  | .string _, _, mem => by cases mem
  | .array _ _, _, mem => by cases mem
  | .object inner members, pre, mem => by
    obtain ⟨key, path, -, same, kept⟩ := exists_writtenMembers_of_mem members mem
    exact ⟨key, path, same, fun front => kept _⟩

theorem exists_writtenMembers_of_mem : ∀ (members : List (Member Tree)) {pre : List Text},
    r ∈ collectFieldKeys row (Tree.valueMembers members) pre →
    ∃ key path, Tree.hasKey key members = true ∧ r = row (pre ++ key :: path) ∧
      ∀ front, ∃ before, Tree.writtenMembers members front key path = some before
  | [], _, mem => by cases mem
  | ⟨gap, name, gap₁, gap₂, value, gap₃⟩ :: members, pre, mem => by
    have inRest : r ∈ collectFieldKeys row (Tree.valueMembers members) pre →
        ∃ key path, Tree.hasKey key (⟨gap, name, gap₁, gap₂, value, gap₃⟩ :: members) = true ∧ r = row (pre ++ key :: path) ∧
          ∀ front, ∃ before,
            Tree.writtenMembers (⟨gap, name, gap₁, gap₂, value, gap₃⟩ :: members) front key path = some before := by
      intro mem
      obtain ⟨key, path, there, same, kept⟩ := exists_writtenMembers_of_mem members mem
      refine ⟨key, path, by rw [Tree.hasKey_cons, there, Bool.or_true], same, fun front => ?_⟩
      rw [Tree.writtenMembers_of_again there]
      exact kept _
    rw [Tree.valueMembers] at mem
    cases again : Tree.hasKey name.value members with
    | true =>
      rw [if_pos again] at mem
      exact inRest mem
    | false =>
      rw [again, if_neg Bool.false_ne_true, collectFieldKeys, List.mem_cons, List.mem_append] at mem
      have here : Tree.hasKey name.value (⟨gap, name, gap₁, gap₂, value, gap₃⟩ :: members) = true := by
        rw [Tree.hasKey_cons, decide_eq_true rfl, Bool.true_or]
      rcases mem with rfl | mem | mem
      · refine ⟨name.value, [], here, rfl, fun front => ⟨front ++ gap.1, ?_⟩⟩
        rw [Tree.writtenMembers_of_last again, if_pos rfl, List.isEmpty_nil, if_pos rfl]
      · obtain ⟨key, path, same, kept⟩ := exists_written_of_mem value mem
        refine ⟨name.value, key :: path, here, by rw [same, List.append_assoc]; rfl, fun front => ?_⟩
        rw [Tree.writtenMembers_of_last again, if_pos rfl, List.isEmpty_cons, if_neg Bool.false_ne_true]
        exact kept _
      · exact inRest mem

end

end Rows

theorem sourceLine_of_lookup {lines : KeyLines} {path : List Text} {line : Nat} (nonempty : path ≠ [])
    (found : lines.lookup path = some line) : sourceLine lines path = line := by
  obtain ⟨n, length⟩ : ∃ n, path.length = n + 1 := ⟨path.length - 1, by have := List.length_pos_iff.mpr nonempty; omega⟩
  rw [sourceLine, length, List.range_succ, List.reverse_append, List.reverse_singleton, List.singleton_append,
    List.findSome?_cons, ← length, List.take_length, found]
  rfl

/-- On a JSON document the scanner panics nowhere and ends behind the value, with nothing but blanks left. A row has the
line of the name that the value keeps for its path. -/
theorem key_lines_exact (document : Document) (filePath kind : Text) :
    ∃ s rows, collect document.text = some s ∧ s.cursor + (encode document.after.1).length = (encode document.text).length ∧
      jsonRows document.text document.value filePath kind = some rows ∧
      ∀ row ∈ rows, ∃ key path front, document.tree.written document.before.1 (key :: path) = some front ∧
        Tree.NameAt document.text front ((key :: path).getLast (List.cons_ne_nil _ _)) ∧
        row = ⟨filePath, 1 + front.count '\n', Text.join ['.'] (key :: path), kind⟩ := by
  have start : At [] ⟨0, 1, []⟩ := ⟨rfl, rfl⟩
  have ends : Ends document.after.1 := by
    have := @Ends.of_blank _ [] document.after.2 (fun c none => by cases none)
    rwa [List.append_nil] at this
  have enough : document.tree.text.length < (encode document.text).length + 1 := by
    have := length_le_length_encode document.text
    rw [Document.text, List.length_append, List.length_append] at this
    rw [Document.text]
    omega
  obtain ⟨s, scan, at_, recorded⟩ := @scanValue_text document.text document.tree _ _ _ _ (some []) _ document.before.2 start rfl
    ends enough
  refine ⟨s, _, scan, ?_, by rw [jsonRows, collect, scan, Option.map_some], ?_⟩
  · rw [at_.cursor, List.nil_append, ← List.length_append, ← encode_append, Document.text, List.append_assoc]
  · intro row mem
    obtain ⟨key, path, rfl, kept⟩ := exists_written_of_mem document.tree mem
    obtain ⟨front, written⟩ := kept document.before.1
    have line := recorded.kept [] rfl key path front written
    refine ⟨key, path, front, written, ?_, ?_⟩
    · have there := (Tree.nameAt_of_written document.tree written).append document.after.1
      rwa [List.append_assoc] at there
    · rw [List.nil_append] at line ⊢
      rw [keyRow, sourceLine_of_lookup (List.cons_ne_nil _ _) line]

namespace Sample

def emptyObject : Document where
  before := ⟨[], fun _ mem => absurd mem List.not_mem_nil⟩
  tree := .object ⟨[], fun _ mem => absurd mem List.not_mem_nil⟩ []
  after := ⟨['\n'], fun _ mem => List.mem_singleton.mp mem ▸ rfl⟩

/-- The scanner does not read the line break. -/
theorem trailing_newline_unread :
    ¬ ∀ document : Document, ∃ s, collect document.text = some s ∧ s.cursor = (encode document.text).length := by
  intro whole
  obtain ⟨s, scan, consumed⟩ := whole emptyObject
  have result : collect emptyObject.text = some ⟨2, 1, []⟩ := by rfl
  rw [result, Option.some.injEq] at scan
  rw [← scan] at consumed
  exact absurd consumed (by decide)

end Sample

end OrbitGraph.Extract
