import OrbitGraph.Lib.Json

/-!
The grammar of JSON texts.

A document is kept with its layout: the text of every token and the blanks between them. It
has one text, and one value, in which of two fields of an object with one name the later is
kept.
-/

namespace Lib.JsonSyntax

/-! ### Tokens -/

/-- What stands between tokens. -/
def isBlank (c : Char) : Bool := c = ' ' || c = '\t' || c = '\n' || c = '\x0d'

abbrev Blank := { text : Text // ∀ c ∈ text, isBlank c = true }

/-- What names and numbers are written with: ASCII letters, digits, signs and the point. -/
def isScalarChar (c : Char) : Bool :=
  (48 ≤ c.toNat && c.toNat ≤ 57) || (65 ≤ c.toNat && c.toNat ≤ 90) || (97 ≤ c.toNat && c.toNat ≤ 122) ||
    c = '+' || c = '-' || c = '.'

/-- A name or a number. -/
structure ScalarToken where
  text : Text
  value : Json
  nonempty : text ≠ []
  chars : ∀ c ∈ text, isScalarChar c = true
  leaf : ∀ fields, value ≠ .object fields

/-- The value of a digit: `0`–`9`, `a`–`f` or `A`–`F`. -/
def hexValue (c : Char) : Option Nat :=
  if 48 ≤ c.toNat ∧ c.toNat ≤ 57 then some (c.toNat - 48)
  else if 97 ≤ c.toNat ∧ c.toNat ≤ 102 then some (c.toNat - 87)
  else if 65 ≤ c.toNat ∧ c.toNat ≤ 70 then some (c.toNat - 55)
  else none

def hex4 (a b c d : Char) : Option Nat := do
  some (4096 * (← hexValue a) + 256 * (← hexValue b) + 16 * (← hexValue c) + (← hexValue d))

/-- The character that an escape of one letter stands for. -/
def simpleEscape (c : Char) : Option Char :=
  if c = '"' then some '"'
  else if c = '\\' then some '\\'
  else if c = '/' then some '/'
  else if c = 'b' then some '\x08'
  else if c = 'f' then some '\x0c'
  else if c = 'n' then some '\n'
  else if c = 'r' then some '\x0d'
  else if c = 't' then some '\t'
  else none

/-- A part of a string: a character, or a number that an escape names. -/
inductive StringUnit where
  | char (c : Char)
  | code (n : Nat)

/-- The parts of a string; no character below the space is written as itself. -/
def readUnits : Text → Option (List StringUnit)
  | [] => some []
  | '\\' :: 'u' :: a :: b :: c :: d :: rest => (hex4 a b c d).bind fun n => (readUnits rest).map (.code n :: ·)
  | '\\' :: e :: rest => (simpleEscape e).bind fun c => (readUnits rest).map (.char c :: ·)
  | c :: rest => if c = '"' ∨ c = '\\' ∨ c.toNat < 32 then none else (readUnits rest).map (.char c :: ·)

/-- The characters of the parts; the halves of a surrogate pair stand together. -/
def joinUnits : List StringUnit → Option Text
  | [] => some []
  | .char c :: rest => (joinUnits rest).map (c :: ·)
  | .code high :: .code low :: rest =>
    if 0xD800 ≤ high ∧ high < 0xDC00 then
      if 0xDC00 ≤ low ∧ low < 0xE000 then
        (joinUnits rest).map (Char.ofNat (0x10000 + 1024 * (high - 0xD800) + (low - 0xDC00)) :: ·)
      else none
    else if 0xDC00 ≤ high ∧ high < 0xE000 then none
    else (joinUnits (.code low :: rest)).map (Char.ofNat high :: ·)
  | .code n :: rest => if 0xD800 ≤ n ∧ n < 0xE000 then none else (joinUnits rest).map (Char.ofNat n :: ·)

/-- The string that stands between quotes. -/
def unescape (raw : Text) : Option Text := (readUnits raw).bind joinUnits

example : unescape "a\\n\\u00e4\\ud83d\\ude00" = some ['a', '\n', 'ä', Char.ofNat 0x1F600] := by decide

/-- A string, as it is written and as it is read. -/
structure StringToken where
  raw : Text
  value : Text
  reads : unescape raw = some value

def StringToken.text (token : StringToken) : Text := '"' :: token.raw ++ ['"']

/-- How the text between the quotes of a string goes on. -/
inductive Quoted : Text → Prop where
  | nil : Quoted []
  | plain {c : Char} {rest : Text} : c ≠ '"' → c ≠ '\\' → 32 ≤ c.toNat → Quoted rest → Quoted (c :: rest)
  | escaped {c : Char} {rest : Text} : 32 ≤ c.toNat → c.toNat < 128 → Quoted rest → Quoted ('\\' :: c :: rest)

theorem Quoted.plain_of_hexValue {c : Char} {n : Nat} (found : hexValue c = some n) {rest : Text} (quoted : Quoted rest) :
    Quoted (c :: rest) := by
  have bounds : (48 ≤ c.toNat ∧ c.toNat ≤ 70) ∨ (97 ≤ c.toNat ∧ c.toNat ≤ 102) := by
    rw [hexValue] at found
    split_ifs at found <;> omega
  refine .plain ?_ ?_ (by omega) quoted
  · rintro rfl
    revert bounds
    decide
  · rintro rfl
    revert bounds
    decide

theorem Quoted.of_hex4 {a b c d : Char} {n : Nat} (found : hex4 a b c d = some n) {rest : Text} (quoted : Quoted rest) :
    Quoted (a :: b :: c :: d :: rest) := by
  simp only [hex4, Option.bind_eq_bind, Option.bind_eq_some_iff] at found
  obtain ⟨_, ha, _, hb, _, hc, _, hd, -⟩ := found
  exact .plain_of_hexValue ha (.plain_of_hexValue hb (.plain_of_hexValue hc (.plain_of_hexValue hd quoted)))

theorem bounds_of_simpleEscape {e c : Char} (found : simpleEscape e = some c) : 32 ≤ e.toNat ∧ e.toNat < 128 := by
  rw [simpleEscape] at found
  split_ifs at found with h₁ h₂ h₃ h₄ h₅ h₆ h₇ h₈
  · rw [h₁]; decide
  · rw [h₂]; decide
  · rw [h₃]; decide
  · rw [h₄]; decide
  · rw [h₅]; decide
  · rw [h₆]; decide
  · rw [h₇]; decide
  · rw [h₈]; decide

theorem quoted_of_readUnits {raw : Text} {units : List StringUnit} (reads : readUnits raw = some units) : Quoted raw := by
  induction raw using readUnits.induct generalizing units with
  | case1 => exact .nil
  | case2 a b c d rest ih =>
    rw [readUnits] at reads
    obtain ⟨n, digits, reads⟩ := Option.bind_eq_some_iff.mp reads
    obtain ⟨later, reads, -⟩ := Option.map_eq_some_iff.mp reads
    exact .escaped (by decide) (by decide) (.of_hex4 digits (ih reads))
  | case3 e rest other ih =>
    rw [readUnits] at reads
    · obtain ⟨c, simple, reads⟩ := Option.bind_eq_some_iff.mp reads
      obtain ⟨later, reads, -⟩ := Option.map_eq_some_iff.mp reads
      obtain ⟨low, high⟩ := bounds_of_simpleEscape simple
      exact .escaped low high (ih reads)
    · exact other
  | case4 c rest noCode noEscape bad =>
    rw [readUnits] at reads
    · rw [if_pos bad] at reads
      cases reads
    · exact noCode
    · exact noEscape
  | case5 c rest noCode noEscape good ih =>
    rw [readUnits] at reads
    · rw [if_neg good] at reads
      obtain ⟨later, reads, -⟩ := Option.map_eq_some_iff.mp reads
      obtain ⟨noQuote, noBackslash, low⟩ : c ≠ '"' ∧ c ≠ '\\' ∧ 32 ≤ c.toNat := by
        refine ⟨fun same => good (.inl same), fun same => good (.inr (.inl same)), ?_⟩
        exact Nat.not_lt.mp fun low => good (.inr (.inr low))
      exact .plain noQuote noBackslash low (ih reads)
    · exact noCode
    · exact noEscape

theorem StringToken.quoted (token : StringToken) : Quoted token.raw := by
  obtain ⟨units, reads, -⟩ := Option.bind_eq_some_iff.mp token.reads
  exact quoted_of_readUnits reads

theorem Quoted.newline_notMem {raw : Text} (quoted : Quoted raw) : '\n' ∉ raw := by
  have high : ∀ {c : Char}, 32 ≤ c.toNat → '\n' ≠ c := by
    rintro c high rfl
    revert high
    decide
  induction quoted with
  | nil => exact List.not_mem_nil
  | plain _ _ low _ ih =>
    rw [List.mem_cons, not_or]
    exact ⟨high low, ih⟩
  | escaped low _ _ ih =>
    rw [List.mem_cons, List.mem_cons, not_or, not_or]
    exact ⟨by decide, high low, ih⟩

/-! ### Documents -/

/-- An item of an array, with the blanks around it. -/
structure Padded (α : Type) where
  before : Blank
  value : α
  after : Blank

/-- A field of an object, with the blanks between its tokens. -/
structure Member (α : Type) where
  before : Blank
  key : StringToken
  afterKey : Blank
  beforeValue : Blank
  value : α
  after : Blank

/-- A value with its layout; the first blank of a container stands behind its bracket. -/
inductive Tree where
  | scalar (token : ScalarToken)
  | string (token : StringToken)
  | array (inner : Blank) (items : List (Padded Tree))
  | object (inner : Blank) (members : List (Member Tree))

namespace Tree

mutual

def text : Tree → Text
  | .scalar token => token.text
  | .string token => token.text
  | .array inner items => '[' :: (inner.1 ++ textItems items)
  | .object inner members => '\x7b' :: (inner.1 ++ textMembers members)

/-- The items of an array and the bracket behind them. -/
def textItems : List (Padded Tree) → Text
  | [] => [']']
  | ⟨before, value, after⟩ :: rest =>
    before.1 ++ (text value ++ (after.1 ++ if rest.isEmpty then [']'] else ',' :: textItems rest))

/-- The fields of an object and the brace behind them. -/
def textMembers : List (Member Tree) → Text
  | [] => ['\x7d']
  | ⟨before, key, afterKey, beforeValue, value, after⟩ :: rest =>
    before.1 ++ (key.text ++ (afterKey.1 ++ ':' :: (beforeValue.1 ++ (text value ++
      (after.1 ++ if rest.isEmpty then ['\x7d'] else ',' :: textMembers rest)))))

end

/-- What stands between an item and the rest of its container. -/
def separator {α : Type} (rest : List α) : Text := if rest.isEmpty then [] else [',']

theorem textItems_cons (item : Padded Tree) (rest : List (Padded Tree)) :
    textItems (item :: rest) = item.before.1 ++ (item.value.text ++ (item.after.1 ++ (separator rest ++ textItems rest))) := by
  rw [textItems]
  cases rest <;> rfl

theorem textMembers_cons (member : Member Tree) (rest : List (Member Tree)) :
    textMembers (member :: rest) = member.before.1 ++ (member.key.text ++ (member.afterKey.1 ++
      ':' :: (member.beforeValue.1 ++ (member.value.text ++ (member.after.1 ++ (separator rest ++ textMembers rest)))))) := by
  rw [textMembers]
  cases rest <;> rfl

/-- A value begins with a part of a name or number, a quote or a bracket. -/
def isFirst (c : Char) : Bool := isScalarChar c || c = '"' || c = '[' || c = '\x7b'

theorem exists_text (tree : Tree) : ∃ c later, tree.text = c :: later ∧ isFirst c = true := by
  cases tree with
  | scalar token =>
    cases h : token.text with
    | nil => exact absurd h token.nonempty
    | cons c later =>
      have := token.chars c (by rw [h]; exact List.mem_cons_self)
      exact ⟨c, later, by rw [text, h], by rw [isFirst, this]; rfl⟩
  | string token => exact ⟨_, _, by rw [text, StringToken.text, List.cons_append], by decide⟩
  | array inner items | object inner members => exact ⟨_, _, by rw [text], by decide⟩

/-- Whether one of the fields has a name. -/
def hasKey (key : Text) (members : List (Member Tree)) : Bool := members.any fun m => m.key.value = key

mutual

def value : Tree → Json
  | .scalar token => token.value
  | .string token => .string token.value
  | .array _ items => .array (valueItems items)
  | .object _ members => .object (valueMembers members)

def valueItems : List (Padded Tree) → List Json
  | [] => []
  | ⟨_, item, _⟩ :: rest => value item :: valueItems rest

/-- The fields of an object: of those with one name, the last. Their order is not that of the map. -/
def valueMembers : List (Member Tree) → List (Text × Json)
  | [] => []
  | ⟨_, key, _, _, field, _⟩ :: rest =>
    if hasKey key.value rest then valueMembers rest else (key.value, value field) :: valueMembers rest

end

mutual

/-- The text of the document in front of the name of a field, for the field that the value keeps for a path; `front` is
the text in front of the tree. -/
def written : Tree → Text → List Text → Option Text
  | .object inner members, front, key :: path => writtenMembers members (front ++ '\x7b' :: inner.1) key path
  | _, _, _ => none

def writtenMembers : List (Member Tree) → Text → Text → List Text → Option Text
  | [], _, _, _ => none
  | ⟨before, name, afterKey, beforeValue, field, after⟩ :: rest, front, key, path =>
    let valueFront := front ++ before.1 ++ name.text ++ afterKey.1 ++ ':' :: beforeValue.1
    if hasKey key rest then writtenMembers rest (valueFront ++ text field ++ after.1 ++ [',']) key path
    else if name.value = key then
      if path.isEmpty then some (front ++ before.1) else written field valueFront path
    else none

end

end Tree

namespace Tree

section Members

variable {member : Member Tree} {rest : List (Member Tree)} {front : Text} {key : Text} {path : List Text}

def valueFront (front : Text) (member : Member Tree) : Text :=
  front ++ member.before.1 ++ member.key.text ++ member.afterKey.1 ++ ':' :: member.beforeValue.1

/-- In front of the fields behind a field. -/
def restFront (front : Text) (member : Member Tree) (rest : List (Member Tree)) : Text :=
  valueFront front member ++ member.value.text ++ member.after.1 ++ separator rest

theorem writtenMembers_of_again (again : hasKey key rest = true) :
    writtenMembers (member :: rest) front key path = writtenMembers rest (restFront front member rest) key path := by
  have more : separator rest = [','] := by
    cases rest with
    | nil => cases again
    | cons _ _ => rfl
  rw [writtenMembers, if_pos again, restFront, valueFront, more]

theorem writtenMembers_of_last (last : hasKey key rest = false) :
    writtenMembers (member :: rest) front key path =
      if member.key.value = key then
        if path.isEmpty then some (front ++ member.before.1) else member.value.written (valueFront front member) path
      else none := by
  rw [writtenMembers, last, if_neg Bool.false_ne_true, valueFront]

theorem hasKey_cons (key : Text) (member : Member Tree) (rest : List (Member Tree)) :
    hasKey key (member :: rest) = (decide (member.key.value = key) || hasKey key rest) := rfl

theorem append_textMembers_cons (front : Text) (member : Member Tree) (rest : List (Member Tree)) :
    front ++ textMembers (member :: rest) = restFront front member rest ++ textMembers rest := by
  rw [textMembers_cons, restFront, valueFront]
  simp only [List.append_assoc, List.cons_append]

end Members

def NameAt (text front key : Text) : Prop := ∃ name later, text = front ++ (StringToken.text name ++ later) ∧ name.value = key

theorem NameAt.append {text front key : Text} (there : NameAt text front key) (later : Text) :
    NameAt (text ++ later) front key := by
  obtain ⟨name, rest, rfl, value⟩ := there
  exact ⟨name, rest ++ later, by simp only [List.append_assoc], value⟩

mutual

theorem nameAt_of_written : ∀ (tree : Tree) {front before key : Text} {path : List Text},
    written tree front (key :: path) = some before →
    NameAt (front ++ tree.text) before ((key :: path).getLast (List.cons_ne_nil _ _))
  | .scalar _, _, _, _, _, found => by
    rw [written] at found
    · cases found
    · intro _ _ _ _ same
      cases same
  | .string _, _, _, _, _, found => by
    rw [written] at found
    · cases found
    · intro _ _ _ _ same
      cases same
  | .array _ _, _, _, _, _, found => by
    rw [written] at found
    · cases found
    · intro _ _ _ _ same
      cases same
  | .object inner members, front, before, key, path, found => by
    rw [written] at found
    have there := nameAt_of_writtenMembers members found
    rw [text]
    simpa only [List.append_assoc, List.cons_append] using there

theorem nameAt_of_writtenMembers : ∀ (members : List (Member Tree)) {front before key : Text} {path : List Text},
    writtenMembers members front key path = some before →
    NameAt (front ++ textMembers members) before ((key :: path).getLast (List.cons_ne_nil _ _))
  | [], _, _, _, _, found => by
    rw [writtenMembers] at found
    cases found
  | ⟨gap, name, gap₁, gap₂, value, gap₃⟩ :: members, front, before, key, path, found => by
    rw [append_textMembers_cons]
    cases again : hasKey key members with
    | true =>
      rw [writtenMembers_of_again again] at found
      exact nameAt_of_writtenMembers members found
    | false =>
      rw [writtenMembers_of_last again] at found
      have same : name.value = key := by
        by_contra other
        rw [if_neg other] at found
        cases found
      rw [if_pos same] at found
      cases path with
      | nil =>
        cases found
        rw [restFront, valueFront]
        simp only [List.append_assoc, List.cons_append]
        rw [← List.append_assoc]
        exact ⟨name, _, rfl, same⟩
      | cons key' path =>
        have there := nameAt_of_written value found
        rw [restFront]
        simp only [List.append_assoc]
        rw [← List.append_assoc]
        exact there.append _

end

end Tree

/-- A document: a value between blanks. -/
structure Document where
  before : Blank
  tree : Tree
  after : Blank

def Document.text (document : Document) : Text := document.before.1 ++ (document.tree.text ++ document.after.1)

def Document.value (document : Document) : Json := document.tree.value

end Lib.JsonSyntax
