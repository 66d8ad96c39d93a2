import OrbitGraph.Extract.NonCode
import OrbitGraph.Lib.Utf8Search

/-!
Scanning a text for dotted calls.

A scan of the bytes of a range finds the names behind a dot and in front of a parenthesis,
and jumps over what is not code. It finds every such name of which the dot and all bytes are
code, in their order and once each, and reads no byte outside the text.
-/

namespace OrbitGraph.Extract

open Lib Lib.Utf8

/-- `u8::is_ascii_alphabetic`. -/
def isAsciiAlphabetic (b : UInt8) : Bool := (65 ≤ b && b ≤ 90) || (97 ≤ b && b ≤ 122)

/-- `u8::is_ascii_digit`. -/
def isAsciiDigit (b : UInt8) : Bool := 48 ≤ b && b ≤ 57

def isIdentStart (b : UInt8) : Bool := b == 95 || isAsciiAlphabetic b

def isIdentContinue (b : UInt8) : Bool := isIdentStart b || isAsciiDigit b

/-- What the scan reports: a name and its bytes. -/
structure FoundCall where
  name : Text
  startByte : Nat
  endByte : Nat
  deriving DecidableEq

/-- The first place from `i` on, within so many bytes, whose byte does not pass; nothing outside the text. -/
def skipWhile (p : UInt8 → Bool) (bytes : Bytes) : Nat → Nat → Option Nat
  | 0, i => some i
  | fuel + 1, i => do
      let b ← bytes[i]?
      if p b then skipWhile p bytes fuel (i + 1) else some i

section Scan

variable (source : Text) (rangeEnd : Nat) (excluded : List Range)

def finishRound (nameStart nameEnd : Nat) : Option (Nat × Option FoundCall) := do
  let paren ← skipWhile isAsciiWhitespace (encode source) (rangeEnd - nameEnd) nameEnd
  if (encode source)[paren]? = some 40 then
    match getBytes source nameStart nameEnd with
    | none => some (nameEnd, none)
    | some name =>
      let free ← (List.range' nameStart (nameEnd - nameStart)).allM fun byte =>
        (excludedEnd excluded byte).map Option.isNone
      some (nameEnd, if free then some ⟨name, nameStart, nameEnd⟩ else none)
  else some (nameEnd, none)

def scanRound (index : Nat) : Option (Nat × Option FoundCall) := do
  match ← excludedEnd excluded index with
  | some stop => some (stop, none)
  | none =>
    if (encode source)[index]? ≠ some 46 then some (index + 1, none)
    else
      let nameStart ← skipWhile isAsciiWhitespace (encode source) (rangeEnd - (index + 1)) (index + 1)
      if nameStart ≥ rangeEnd then some (index + 1, none)
      else
        let first ← (encode source)[nameStart]?
        if !isIdentStart first then some (index + 1, none)
        else
          let nameEnd ← skipWhile isIdentContinue (encode source) (rangeEnd - (nameStart + 1)) (nameStart + 1)
          finishRound source rangeEnd excluded nameStart nameEnd

def scanFrom : Nat → Nat → Option (List FoundCall)
  | 0, index => if index < rangeEnd then none else some []
  | fuel + 1, index =>
    if index < rangeEnd then do
      let (next, found) ← scanRound source rangeEnd excluded index
      let rest ← scanFrom fuel next
      some (found.toList ++ rest)
    else some []

end Scan

def collectDottedCalls (source : Text) (rangeStart rangeEnd : Nat) (scope : Node) (nonCode : NonCodeKinds) :
    Option (List FoundCall) :=
  scanFrom source rangeEnd (nonCodeRanges nonCode scope) (rangeEnd - rangeStart) rangeStart

/-- Whether the bytes from `first` to `last` pass. -/
def Passes (p : UInt8 → Bool) (bytes : Bytes) (first last : Nat) : Prop :=
  ∀ i, first ≤ i → i < last → ∃ b, bytes[i]? = some b ∧ p b = true

/-- A name behind a dot, with white space at most between them. -/
structure NameAt (bytes : Bytes) (dot first last : Nat) : Prop where
  dot_lt : dot < first
  first_lt : first < last
  isDot : bytes[dot]? = some 46
  gap : Passes isAsciiWhitespace bytes (dot + 1) first
  begins : ∃ b, bytes[first]? = some b ∧ isIdentStart b = true
  name : Passes isIdentContinue bytes (first + 1) last

/-- … and in front of a parenthesis, with white space at most between those. -/
structure CallAt (bytes : Bytes) (dot first last paren : Nat) : Prop extends NameAt bytes dot first last where
  last_le : last ≤ paren
  gap' : Passes isAsciiWhitespace bytes last paren
  isParen : bytes[paren]? = some 40

/-- A name that is called in the text from `low` up to `high`, the dot and the parenthesis included, and of which the
dot and all bytes are code. -/
structure IsCall (bytes : Bytes) (code : Nat → Prop) (high dot : Nat) (call : FoundCall) : Prop where
  called : ∃ paren, CallAt bytes dot call.startByte call.endByte paren ∧ paren ≤ high
  dotIsCode : code dot
  nameIsCode : ∀ i, call.startByte ≤ i → i < call.endByte → code i
  name : encode call.name = (bytes.take call.endByte).drop call.startByte

/-! ### Bytes -/

theorem ne_dot_of_whitespace {b : UInt8} (white : isAsciiWhitespace b = true) : b ≠ 46 := by
  rintro rfl
  revert white
  decide

theorem ne_dot_of_identContinue {b : UInt8} (continues : isIdentContinue b = true) : b ≠ 46 := by
  rintro rfl
  revert continues
  decide

theorem identContinue_of_identStart {b : UInt8} (begins : isIdentStart b = true) : isIdentContinue b = true := by
  rw [isIdentContinue, begins, Bool.true_or]

theorem ascii_of_identContinue {b : UInt8} (continues : isIdentContinue b = true) :
    b.toNat < 128 ∧ isAsciiWhitespace b = false := by
  simp only [isIdentContinue, isIdentStart, isAsciiAlphabetic, isAsciiDigit, Bool.or_eq_true, Bool.and_eq_true,
    beq_iff_eq, decide_eq_true_eq, UInt8.le_iff_toNat_le, ← UInt8.toNat_inj] at continues
  simp only [isAsciiWhitespace, Bool.or_eq_false_iff, beq_eq_false_iff_ne, ne_eq, ← UInt8.toNat_inj]
  simp only [UInt8.reduceToNat] at continues ⊢
  omega

section Skip

variable {p : UInt8 → Bool} {bytes : Bytes} {fuel i j : Nat}

theorem Passes.cons {b : UInt8} (there : bytes[i]? = some b) (passes : p b = true) (rest : Passes p bytes (i + 1) j) :
    Passes p bytes i j := fun k least most => by
  rcases Nat.lt_or_eq_of_le least with less | rfl
  · exact rest k less most
  · exact ⟨b, there, passes⟩

theorem exists_skipWhile (p : UInt8 → Bool) (inside : i + fuel ≤ bytes.length) :
    ∃ j, skipWhile p bytes fuel i = some j ∧ i ≤ j ∧ j ≤ i + fuel ∧ Passes p bytes i j := by
  induction fuel generalizing i with
  | zero => exact ⟨i, rfl, Nat.le_refl _, Nat.le_refl _, fun k least most => absurd most (Nat.not_lt_of_ge least)⟩
  | succ fuel ih =>
    have here : bytes[i]? = some bytes[i] := List.getElem?_eq_getElem (by omega)
    rw [skipWhile, here, Option.bind_eq_bind, Option.bind_some]
    cases passes : p bytes[i] with
    | true =>
      obtain ⟨j, skip, least, most, through⟩ := ih (show i + 1 + fuel ≤ bytes.length by omega)
      exact ⟨j, by rw [if_pos rfl, skip], by omega, by omega, through.cons here passes⟩
    | false =>
      rw [if_neg Bool.false_ne_true]
      exact ⟨i, rfl, Nat.le_refl _, by omega, fun k least most => absurd most (Nat.not_lt_of_ge least)⟩

theorem skipWhile_eq (order : i ≤ j) (most : j ≤ i + fuel) (through : Passes p bytes i j)
    (stop : j < i + fuel → ∃ b, bytes[j]? = some b ∧ p b = false) : skipWhile p bytes fuel i = some j := by
  induction fuel generalizing i with
  | zero => rw [skipWhile, Nat.le_antisymm order most]
  | succ fuel ih =>
    rcases Nat.lt_or_eq_of_le order with less | rfl
    · obtain ⟨b, there, passes⟩ := through i (Nat.le_refl _) less
      rw [skipWhile, there, Option.bind_eq_bind, Option.bind_some, if_pos passes]
      exact ih less (by omega) (fun k least => through k (by omega)) fun before => stop (by omega)
    · obtain ⟨b, there, fails⟩ := stop (by omega)
      rw [skipWhile, there, Option.bind_eq_bind, Option.bind_some, fails, if_neg Bool.false_ne_true]

end Skip

section

variable {bytes : Bytes} {dot first last paren rangeEnd : Nat}

theorem NameAt.passes (name : NameAt bytes dot first last) : Passes isIdentContinue bytes first last := by
  obtain ⟨b, there, begins⟩ := name.begins
  exact name.name.cons there (identContinue_of_identStart begins)

theorem NameAt.ne_dot (name : NameAt bytes dot first last) {i : Nat} (least : dot < i) (most : i < last) :
    bytes[i]? ≠ some 46 := by
  rcases Nat.lt_or_ge i first with before | within
  · obtain ⟨b, there, white⟩ := name.gap i least before
    exact fun isDot => ne_dot_of_whitespace white (Option.mem_unique there isDot)
  · obtain ⟨b, there, continues⟩ := name.passes i within most
    exact fun isDot => ne_dot_of_identContinue continues (Option.mem_unique there isDot)

namespace CallAt

theorem nameStart_eq (call : CallAt bytes dot first last paren) (upto : paren ≤ rangeEnd) :
    skipWhile isAsciiWhitespace bytes (rangeEnd - (dot + 1)) (dot + 1) = some first := by
  obtain ⟨b, there, begins⟩ := call.begins
  have := call.dot_lt
  have := call.first_lt
  have := call.last_le
  exact skipWhile_eq (by omega) (by omega) call.gap fun _ =>
    ⟨b, there, (ascii_of_identContinue (identContinue_of_identStart begins)).2⟩

theorem nameEnd_eq (call : CallAt bytes dot first last paren) (upto : paren ≤ rangeEnd) :
    skipWhile isIdentContinue bytes (rangeEnd - (first + 1)) (first + 1) = some last := by
  have := call.first_lt
  have le := call.last_le
  refine skipWhile_eq (by omega) (by omega) call.name fun _ => ?_
  rcases Nat.lt_or_eq_of_le le with less | rfl
  · obtain ⟨b, there, white⟩ := call.gap' last (Nat.le_refl _) less
    refine ⟨b, there, Bool.eq_false_iff.mpr fun continues => ?_⟩
    rw [(ascii_of_identContinue continues).2] at white
    cases white
  · exact ⟨40, call.isParen, by decide⟩

theorem paren_eq (call : CallAt bytes dot first last paren) (upto : paren ≤ rangeEnd) :
    skipWhile isAsciiWhitespace bytes (rangeEnd - last) last = some paren :=
  skipWhile_eq call.last_le (by omega) call.gap' fun _ => ⟨40, call.isParen, by decide⟩

end CallAt

end

section Scan

variable {source : Text} {rangeEnd index : Nat} {excluded : List Range}

theorem allM_excludedEnd (apart : Gapped excluded) (start length : Nat) :
    ((List.range' start length).allM fun byte => (excludedEnd excluded byte).map Option.isNone) =
      some ((List.range' start length).all fun byte => !covered excluded byte) := by
  generalize List.range' start length = places
  induction places with
  | nil => rfl
  | cons place rest ih =>
    rw [List.allM, isNone_excludedEnd apart, List.all_cons, Option.bind_eq_bind, Option.bind_some, ih]
    cases covered excluded place <;> rfl

theorem all_range'_eq_true {p : Nat → Bool} {start stop : Nat} :
    ((List.range' start (stop - start)).all p) = true ↔ ∀ i, start ≤ i → i < stop → p i = true := by
  rw [List.all_eq_true]
  constructor
  · intro all i least most
    exact all i (List.mem_range'_1.mpr ⟨least, by omega⟩)
  · intro all i mem
    obtain ⟨least, most⟩ := List.mem_range'_1.mp mem
    exact all i least (by omega)

/-- What one round does: it goes on behind the dot, finds the call there if there is one, and passes no other dot that
is code. -/
structure RoundFrom (source : Text) (rangeEnd : Nat) (excluded : List Range) (index next : Nat)
    (answer : Option FoundCall) : Prop where
  lt : index < next
  found : ∀ call, answer = some call ↔ IsCall (encode source) (fun i => covered excluded i = false) rangeEnd index call
  passed : ∀ dot, index < dot → dot < next → (encode source)[dot]? ≠ some 46 ∨ covered excluded dot = true
  behind : ∀ call, answer = some call → next = call.endByte

theorem RoundFrom.of_none {next : Nat} (above : index < next)
    (none : ∀ call, ¬ IsCall (encode source) (fun i => covered excluded i = false) rangeEnd index call)
    (passed : ∀ dot, index < dot → dot < next → (encode source)[dot]? ≠ some 46 ∨ covered excluded dot = true) :
    RoundFrom source rangeEnd excluded index next .none where
  lt := above
  found call := ⟨fun same => (Option.some_ne_none call same.symm).elim, fun isCall => absurd isCall (none call)⟩
  passed := passed
  behind call same := (Option.some_ne_none call same.symm).elim

theorem passed_one (dot : Nat) (above : index < dot) (below : dot < index + 1) :
    (encode source)[dot]? ≠ some 46 ∨ covered excluded dot = true := absurd above (by omega)

variable {nameStart nameEnd : Nat}

theorem NameAt.exists_getBytes (name : NameAt (encode source) index nameStart nameEnd) :
    ∃ part, getBytes source nameStart nameEnd = some part ∧
      encode part = ((encode source).take nameEnd).drop nameStart := by
  apply exists_getBytes_of_ascii name.first_lt
  intro i least most
  obtain ⟨b, there, continues⟩ := name.passes i least most
  exact ⟨b, there, (ascii_of_identContinue continues).1⟩

theorem exists_finishRound (inside : rangeEnd ≤ (encode source).length) (apart : Gapped excluded)
    (name : NameAt (encode source) index nameStart nameEnd) (upto : nameEnd ≤ rangeEnd) (free : covered excluded index = false)
    (only : ∀ first last paren, CallAt (encode source) index first last paren → paren ≤ rangeEnd →
      first = nameStart ∧ last = nameEnd) :
    ∃ answer, finishRound source rangeEnd excluded nameStart nameEnd = some (nameEnd, answer) ∧
      RoundFrom source rangeEnd excluded index nameEnd answer := by
  have passed : ∀ dot, index < dot → dot < nameEnd → (encode source)[dot]? ≠ some 46 ∨ covered excluded dot = true :=
    fun dot above below => .inl (name.ne_dot above below)
  have above : index < nameEnd := Nat.lt_trans name.dot_lt name.first_lt
  obtain ⟨paren, skip, least, most, gap'⟩ := exists_skipWhile isAsciiWhitespace
    (show nameEnd + (rangeEnd - nameEnd) ≤ (encode source).length by omega)
  rw [finishRound, skip, Option.bind_eq_bind, Option.bind_some]
  by_cases isParen : (encode source)[paren]? = some 40
  · obtain ⟨part, got, bytes⟩ := name.exists_getBytes
    rw [if_pos isParen, got]
    dsimp only
    rw [allM_excludedEnd apart, Option.bind_eq_bind, Option.bind_some]
    refine ⟨_, rfl, above, fun call => ?_, passed, fun call same => ?_⟩
    · rw [Option.ite_none_right_eq_some, all_range'_eq_true]
      constructor
      · rintro ⟨code, same⟩
        obtain rfl := Option.some.inj same
        have at_ : CallAt (encode source) index nameStart nameEnd paren :=
          { name with last_le := least, gap' := gap', isParen := isParen }
        exact ⟨⟨paren, at_, by omega⟩, free, fun i first last => (Bool.not_eq_true' _).mp (code i first last), bytes⟩
      · rintro ⟨⟨paren', at_, upto'⟩, -, code, text⟩
        obtain ⟨text', start, stop⟩ := call
        obtain ⟨rfl, rfl⟩ := only _ _ _ at_ upto'
        refine ⟨fun i first last => (Bool.not_eq_true' _).mpr (code i first last), ?_⟩
        rw [encode_injective (bytes.trans text.symm)]
    · rw [Option.ite_none_right_eq_some] at same
      rw [← Option.some.inj same.2]
  · rw [if_neg isParen]
    refine ⟨none, rfl, .of_none above ?_ passed⟩
    rintro call ⟨⟨paren', at_, upto'⟩, -⟩
    obtain ⟨-, last⟩ := only _ _ _ at_ upto'
    have := at_.paren_eq upto'
    rw [last, skip] at this
    rw [Option.some.inj this] at isParen
    exact isParen at_.isParen

theorem exists_roundFrom_dot (inside : rangeEnd ≤ (encode source).length) (apart : Gapped excluded) (less : index < rangeEnd)
    (search : excludedEnd excluded index = some none) (free : covered excluded index = false)
    (dot : (encode source)[index]? = some 46) :
    ∃ next answer, scanRound source rangeEnd excluded index = some (next, answer) ∧
      RoundFrom source rangeEnd excluded index next answer := by
  obtain ⟨nameStart, skip, least, most, gap⟩ := exists_skipWhile isAsciiWhitespace
    (show index + 1 + (rangeEnd - (index + 1)) ≤ (encode source).length by omega)
  have start_eq : ∀ {first last paren}, CallAt (encode source) index first last paren → paren ≤ rangeEnd →
      first = nameStart :=
    fun at_ upto => Option.mem_unique (at_.nameStart_eq upto) skip
  rw [scanRound, search, Option.bind_eq_bind, Option.bind_some]
  dsimp only
  rw [if_neg (not_not_intro dot), skip, Option.bind_eq_bind, Option.bind_some]
  by_cases past : nameStart ≥ rangeEnd
  · rw [if_pos past]
    refine ⟨index + 1, none, rfl, .of_none (Nat.lt_succ_self _) ?_ passed_one⟩
    rintro call ⟨⟨paren, at_, upto⟩, -⟩
    have := start_eq at_ upto
    have := at_.first_lt
    have := at_.last_le
    omega
  · have there : (encode source)[nameStart]? = some (encode source)[nameStart] := List.getElem?_eq_getElem (by omega)
    rw [if_neg past, there, Option.bind_eq_bind, Option.bind_some]
    cases begins : isIdentStart (encode source)[nameStart] with
    | false =>
      refine ⟨index + 1, none, rfl, .of_none (Nat.lt_succ_self _) ?_ passed_one⟩
      rintro call ⟨⟨paren, at_, upto⟩, -⟩
      obtain ⟨b, there', begins'⟩ := at_.begins
      rw [start_eq at_ upto, there] at there'
      rw [Option.some.inj there', begins'] at begins
      cases begins
    | true =>
      obtain ⟨nameEnd, skip', least', most', name⟩ := exists_skipWhile isIdentContinue
        (show nameStart + 1 + (rangeEnd - (nameStart + 1)) ≤ (encode source).length by omega)
      rw [if_neg (by decide), skip', Option.bind_some]
      obtain ⟨answer, finish, round⟩ := exists_finishRound inside apart
        ⟨by omega, by omega, dot, gap, ⟨_, there, begins⟩, name⟩ (by omega) free fun first last paren at_ upto => by
          obtain rfl := start_eq at_ upto
          exact ⟨rfl, Option.mem_unique (at_.nameEnd_eq upto) skip'⟩
      exact ⟨nameEnd, answer, finish, round⟩

theorem exists_roundFrom (inside : rangeEnd ≤ (encode source).length) (apart : Gapped excluded) (less : index < rangeEnd) :
    ∃ next answer, scanRound source rangeEnd excluded index = some (next, answer) ∧
      RoundFrom source rangeEnd excluded index next answer := by
  rcases excludedEnd_cases apart index with ⟨search, free⟩ | ⟨range, mem, covers, search⟩
  · by_cases dot : (encode source)[index]? = some 46
    · exact exists_roundFrom_dot inside apart less search free dot
    · rw [scanRound, search, Option.bind_eq_bind, Option.bind_some]
      dsimp only
      rw [if_pos dot]
      refine ⟨index + 1, none, rfl, .of_none (Nat.lt_succ_self _) ?_ passed_one⟩
      rintro call ⟨⟨paren, at_, -⟩, -⟩
      exact dot at_.isDot
  · -- What is not code is jumped over, with all dots in it.
    obtain ⟨left, right⟩ := Range.covers_eq_true.mp covers
    have within : ∀ i, index ≤ i → i < range.2 → covered excluded i = true := fun i least most =>
      covered_eq_true.mpr ⟨range, mem, Nat.le_trans left least, most⟩
    rw [scanRound, search, Option.bind_eq_bind, Option.bind_some]
    refine ⟨range.2, none, rfl, .of_none right (fun call isCall => ?_) fun dot above below =>
      .inr (within dot above.le below)⟩
    have free := isCall.dotIsCode
    rw [within index (Nat.le_refl _) right] at free
    cases free

end Scan

/-! ### The whole scan -/

variable {code : Nat → Prop} {bytes : Bytes}

theorem IsCall.bounds {high dot : Nat} {call : FoundCall} (isCall : IsCall bytes code high dot call) :
    dot < call.startByte ∧ call.startByte < call.endByte ∧ call.endByte ≤ high := by
  obtain ⟨paren, at_, upto⟩ := isCall.called
  exact ⟨at_.dot_lt, at_.first_lt, Nat.le_trans at_.last_le upto⟩

theorem not_exists_isCall {high index : Nat} (stop : high ≤ index) (call : FoundCall) :
    ¬ ∃ dot, index ≤ dot ∧ IsCall bytes code high dot call := by
  rintro ⟨dot, behind, isCall⟩
  have := isCall.bounds
  omega

theorem exists_scanFrom {source : Text} {rangeEnd fuel index : Nat} {excluded : List Range}
    (inside : rangeEnd ≤ (encode source).length) (apart : Gapped excluded) (enough : rangeEnd - index ≤ fuel) :
    ∃ out, scanFrom source rangeEnd excluded fuel index = some out ∧
      out.Pairwise (fun left right => left.startByte < right.startByte) ∧ ∀ call, call ∈ out ↔ ∃ dot, index ≤ dot ∧
        IsCall (encode source) (fun i => covered excluded i = false) rangeEnd dot call := by
  induction fuel generalizing index with
  | zero =>
    rw [scanFrom, if_neg (by omega)]
    exact ⟨[], rfl, .nil, fun call => iff_of_false List.not_mem_nil (not_exists_isCall (by omega) call)⟩
  | succ fuel ih =>
    rw [scanFrom]
    by_cases less : index < rangeEnd
    case neg =>
      rw [if_neg less]
      exact ⟨[], rfl, .nil, fun call => iff_of_false List.not_mem_nil (not_exists_isCall (by omega) call)⟩
    case pos =>
      obtain ⟨next, answer, run, round⟩ := exists_roundFrom inside apart less
      have above := round.lt
      obtain ⟨rest, runRest, ordered, exactly⟩ := ih (show rangeEnd - next ≤ fuel by omega)
      rw [if_pos less, run, Option.bind_eq_bind, Option.bind_some]
      dsimp only
      rw [runRest, Option.bind_eq_bind, Option.bind_some]
      refine ⟨_, rfl, ?_, fun call => ?_⟩
      · refine List.pairwise_append.mpr ⟨?_, ordered, fun call found other later => ?_⟩
        · cases answer with
          | none => exact .nil
          | some call => exact List.pairwise_singleton _ _
        · have found := Option.mem_toList.mp found
          obtain ⟨dot, behind, isCall⟩ := (exactly other).mp later
          have := isCall.bounds
          have := ((round.found call).mp found).bounds
          have := round.behind call found
          omega
      · rw [List.mem_append, Option.mem_toList, round.found call, exactly call]
        constructor
        · rintro (here | ⟨dot, behind, isCall⟩)
          · exact ⟨index, Nat.le_refl _, here⟩
          · exact ⟨dot, by omega, isCall⟩
        · rintro ⟨dot, behind, isCall⟩
          rcases Nat.lt_or_ge dot next with below | later
          · rcases Nat.lt_or_eq_of_le behind with less | rfl
            · rcases round.passed dot less below with noDot | notCode
              · obtain ⟨paren, at_, -⟩ := isCall.called
                exact absurd at_.isDot noDot
              · have free := isCall.dotIsCode
                rw [notCode] at free
                cases free
            · exact .inl isCall
          · exact .inr ⟨dot, later, isCall⟩

structure Scope (source : Text) where
  node : Node
  placed : WellPlaced node
  within : node.endByte ≤ (encode source).length

def Reports (source : Text) (rangeStart rangeEnd : Nat) (scope : Node) (nonCode : NonCodeKinds)
    (isCall : FoundCall → Prop) : Prop :=
  ∃ out, collectDottedCalls source rangeStart rangeEnd scope nonCode = some out ∧
    out.Pairwise (fun left right => left.startByte < right.startByte) ∧ ∀ call, call ∈ out ↔ isCall call

/-- Of a range inside the scope, the calls are reported whose dot and parenthesis are in the range, the latter at most
directly behind it, and of which the dot and all bytes of the name are code. -/
theorem reports_calls {source : Text} (scope : Scope source) (nonCode : NonCodeKinds) (rangeStart rangeEnd : Nat)
    (inside : rangeEnd ≤ scope.node.endByte) :
    Reports source rangeStart rangeEnd scope.node nonCode fun call => ∃ dot, rangeStart ≤ dot ∧
      IsCall (encode source) (fun i => ¬ nonCode.NonCode nonCode.LooksInto scope.node i) rangeEnd dot call := by
  have same : (fun i => covered (nonCodeRanges nonCode scope.node) i = false) =
      fun i => ¬ nonCode.NonCode nonCode.LooksInto scope.node i := by
    funext i
    rw [← covered_nonCodeRanges nonCode scope.placed, Bool.not_eq_true]
  have run := exists_scanFrom (Nat.le_trans inside scope.within)
    (apart_mergeRanges (collectNonCode nonCode scope.node [])) (Nat.le_refl (rangeEnd - rangeStart))
  rw [← same]
  exact run

namespace Sample

def interpolated : Text := "\"$\x7ba.f()\x7d\".g()"

def literalCalls : Node :=
  .node ⟨"program", 0, 14, true, none⟩
    [.node ⟨"string_literal", 0, 10, true, none⟩ [.node ⟨"interpolation", 1, 9, true, none⟩ []]]

def kotlinKinds : NonCodeKinds where
  opaqueKinds := ["line_comment"]
  withHoles := ["string_literal"]
  holes := ["interpolation"]

def interpolatedScope : Scope interpolated where
  node := literalCalls
  placed := by
    refine .node (by decide) (by decide) (List.pairwise_singleton _ _) ?_
    simp only [List.forall_mem_singleton]
    refine .node (by decide) (by decide) (List.pairwise_singleton _ _) ?_
    simp only [List.forall_mem_singleton]
    exact .node (by decide) (by simp) .nil (by simp)
  within := by decide

theorem reports_calls_literal :
    Reports interpolated 0 14 literalCalls kotlinKinds fun call => ∃ dot, 0 ≤ dot ∧
      IsCall (encode interpolated) (fun i => ¬ kotlinKinds.NonCode kotlinKinds.LooksInto literalCalls i) 14 dot call :=
  reports_calls interpolatedScope kotlinKinds 0 14 (by decide)

def IsCallAnywhere (source : Text) (scope : Node) (nonCode : NonCodeKinds) (rangeStart rangeEnd : Nat) (call : FoundCall) :
    Prop :=
  rangeStart ≤ call.startByte ∧ call.endByte ≤ rangeEnd ∧ ∃ dot,
    IsCall (encode source) (fun i => ¬ nonCode.NonCode (fun _ _ => True) scope i) (encode source).length dot call

def program (length : Nat) : Node := .node ⟨"program", 0, length, true, none⟩ []

def comment : Node :=
  .node ⟨"line_comment", 0, 4, true, none⟩ [.node ⟨"interpolation", 0, 4, true, none⟩ []]

theorem program_isCode (length i : Nat) : ¬ kotlinKinds.NonCode (fun _ _ => True) (program length) i := by
  rintro ⟨node, inner, -⟩
  cases inner.reached with
  | self => exact inner.marked rfl
  | child mem _ _ => cases mem

theorem comment_isCode (i : Nat) : ¬ kotlinKinds.NonCode (fun _ _ => True) comment i := by
  rintro ⟨node, inner, notHole⟩
  cases inner.reached with
  | self =>
    have hole := inner.least _ (List.mem_singleton_self _) trivial _ (.self _) inner.contains
    revert hole
    decide
  | child mem _ reaches =>
    obtain rfl := List.mem_singleton.mp mem
    cases reaches with
    | self => exact notHole (by decide)
    | child mem _ _ => cases mem

theorem passes_nothing {p : UInt8 → Bool} {bytes : Bytes} (i : Nat) : Passes p bytes i i :=
  fun _ least most => absurd most (Nat.not_lt_of_ge least)

variable {code : Nat → Prop}

/-- The call of `f` in a text of `.f`, with at most one space in front of the parenthesis. -/
theorem isCall_f {bytes : Bytes} (all : ∀ i, code i) {paren : Nat} (order : 2 ≤ paren)
    (gap' : Passes isAsciiWhitespace bytes 2 paren) (isParen : bytes[paren]? = some 40) (upto : paren ≤ bytes.length)
    (text : bytes.take 2 = [46, 102]) : IsCall bytes code bytes.length 0 ⟨"f", 1, 2⟩ where
  called := by
    have at_ : ∀ i, i < 2 → bytes[i]? = [46, 102][i]? := fun i less => by
      rw [← text, List.getElem?_take_of_lt less]
    have begins : ∃ b, bytes[1]? = some b ∧ isIdentStart b = true := ⟨102, at_ 1 (by decide), by decide⟩
    have name : NameAt bytes 0 1 2 :=
      ⟨Nat.one_pos, Nat.one_lt_two, at_ 0 (by decide), passes_nothing 1, begins, passes_nothing 2⟩
    exact ⟨paren, ⟨name, order, gap', isParen⟩, upto⟩
  dotIsCode := all 0
  nameIsCode i _ _ := all i
  name := by
    dsimp only
    rw [text]
    decide

theorem not_reports_of_none {source : Text} {rangeStart rangeEnd : Nat} {scope : Node} {isCall : FoundCall → Prop}
    (run : collectDottedCalls source rangeStart rangeEnd scope kotlinKinds = some []) (call : FoundCall)
    (called : isCall call) : ¬ Reports source rangeStart rangeEnd scope kotlinKinds isCall := by
  rintro ⟨out, run', -, exactly⟩
  obtain rfl := Option.mem_unique run run'
  exact absurd ((exactly call).mpr called) List.not_mem_nil

theorem isCall_f_here (all : ∀ i, code i) :
    IsCall (encode ".f()") code 4 0 ⟨"f", 1, 2⟩ :=
  isCall_f all (Nat.le_refl 2) (passes_nothing 2) (by decide) (by decide) (by decide)

theorem isCall_f_behind_space (all : ∀ i, code i) :
    IsCall (encode ".f ()") code 5 0 ⟨"f", 1, 2⟩ := by
  refine isCall_f all (by decide : 2 ≤ 3) ?_ (by decide) (by decide) (by decide)
  intro i least most
  obtain rfl : i = 2 := by omega
  exact ⟨32, by decide, by decide⟩

theorem missed_calls :
    ¬ Reports ".f()" 0 4 comment kotlinKinds (IsCallAnywhere ".f()" comment kotlinKinds 0 4) ∧
      ¬ Reports ".f()" 1 4 (program 4) kotlinKinds (IsCallAnywhere ".f()" (program 4) kotlinKinds 1 4) ∧
      ¬ Reports ".f ()" 0 2 (program 5) kotlinKinds (IsCallAnywhere ".f ()" (program 5) kotlinKinds 0 2) := by
  refine ⟨?_, ?_, ?_⟩
  · exact not_reports_of_none (by decide) _ ⟨by decide, by decide, 0, isCall_f_here comment_isCode⟩
  · exact not_reports_of_none (by decide) _ ⟨by decide, by decide, 0, isCall_f_here (program_isCode 4)⟩
  · exact not_reports_of_none (by decide) _ ⟨by decide, by decide, 0, isCall_f_behind_space (program_isCode 5)⟩

end Sample

end OrbitGraph.Extract
