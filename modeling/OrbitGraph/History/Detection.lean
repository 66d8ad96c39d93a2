import Mathlib.Data.List.TakeWhile
import OrbitGraph.History.Redaction
import OrbitGraph.Lib.Lists
import OrbitGraph.Lib.Masking

/-!
What the detectors of `redact` find.

Each detector is described by the shape of the text in front of it: what it begins with, what
is masked and where that ends. The ranges follow, and lie inside the text.
-/

namespace OrbitGraph.History

open Lib

theorem not_le_of_high {c : Char} (high : 128 ≤ c.toNat) {last : UInt32} (ascii : last.toNat < 128) : ¬ c.val ≤ last :=
  fun le => by
    have := UInt32.le_iff_toNat_le.mp le
    rw [Char.toNat_val] at this
    omega

theorem isAlphanum_of_high {c : Char} (high : 128 ≤ c.toNat) :
    c.isAlphanum = false ∧ (c.isUpper || c.isDigit) = false := by
  have upper : c.isUpper = false := decide_eq_false fun bounds => not_le_of_high high (by decide) bounds.2
  have lower : c.isLower = false :=
    Bool.and_eq_false_imp.mpr fun _ => decide_eq_false (not_le_of_high high (by decide))
  have digit : c.isDigit = false :=
    Bool.and_eq_false_imp.mpr fun _ => decide_eq_false (not_le_of_high high (by decide))
  have all : c.isAlphanum = ((c.isUpper || c.isLower) || c.isDigit) := rfl
  rw [all, upper, lower, digit]
  exact ⟨rfl, rfl⟩

theorem toLower_of_high {c : Char} (high : 128 ≤ c.toNat) : c.toLower = c := by
  unfold Char.toLower
  refine dif_neg fun bounds => ?_
  have := UInt32.le_iff_toNat_le.mp bounds.2
  rw [Char.toNat_val, Char.toNat_val] at this
  exact absurd (high.trans this) (by decide)

section Detectors

variable {s : Text} {pos : Nat} {span : Span}

theorem privateKeyBlock_eq_some {length : Nat} : privateKeyBlock s = some length ↔
    ∃ rest label after body tail, s = "-----BEGIN " ++ rest ∧
      Text.splitOnce "-----" rest = some (label, after) ∧ Text.endsWith "PRIVATE KEY" label = true ∧
      Text.splitOnce ("-----END " ++ label ++ "-----") s = some (body, tail) ∧
      length = body.length + ("-----END " ++ label ++ "-----").length := by
  unfold privateKeyBlock
  simp only [Option.bind_eq_bind, Option.bind_eq_some_iff, Text.stripPrefix_eq_some, Prod.exists, Option.guard_eq_some',
    Option.pure_def, Option.some.injEq, exists_const, exists_and_left, exists_and_right, eq_comm (a := length)]

theorem privateKeyBlock_le {length : Nat} (found : privateKeyBlock s = some length) : 0 < length ∧ length ≤ s.length := by
  obtain ⟨rest, label, after, body, tail, -, -, -, split, rfl⟩ := privateKeyBlock_eq_some.mp found
  have whole := congrArg List.length (Text.eq_of_splitOnce split)
  simp only [List.length_append] at whole ⊢
  have : 0 < "-----END ".toList.length := by decide
  omega

/-! ### URLs -/

theorem schemeLen_cases (s : Text) : schemeLen s = 0 ∨
    ∃ scheme rest, (scheme = "https://".toList ∨ scheme = "http://".toList) ∧ s = scheme ++ rest ∧
      schemeLen s = scheme.length := by
  unfold schemeLen Text.startsWith
  cases secure : Text.stripPrefix "https://".toList s with
  | some rest => exact .inr ⟨_, rest, .inl rfl, Text.stripPrefix_eq_some.mp secure, rfl⟩
  | none =>
    cases plain : Text.stripPrefix "http://".toList s with
    | some rest => exact .inr ⟨_, rest, .inr rfl, Text.stripPrefix_eq_some.mp plain, rfl⟩
    | none => exact .inl rfl

theorem schemeLen_append {scheme : Text} (web : scheme = "https://".toList ∨ scheme = "http://".toList) (rest : Text) :
    schemeLen (scheme ++ rest) = scheme.length := by
  rcases web with rfl | rfl <;> rfl

/-- The password of a URL that begins here: it follows the first `:` of the authority, and the first `@` ends it. -/
theorem mem_urlPassword : span ∈ urlPassword pos s ↔ ∃ scheme user password rest,
    (scheme = "https://".toList ∨ scheme = "http://".toList) ∧
      s = scheme ++ (user ++ ':' :: (password ++ '@' :: rest)) ∧
      (∀ c ∈ user, c ≠ ':' ∧ c ≠ '@' ∧ endsAuthority c = false) ∧
      (∀ c ∈ password, c ≠ '@' ∧ endsAuthority c = false) ∧ password ≠ [] ∧
      span = (pos + scheme.length + user.length + 1, pos + scheme.length + user.length + 1 + password.length) := by
  constructor
  · intro found
    rcases schemeLen_cases s with none | ⟨scheme, rest, web, rfl, length⟩
    · rw [urlPassword, if_pos none] at found
      cases found
    · have some : scheme.length ≠ 0 := by rcases web with rfl | rfl <;> decide
      rw [urlPassword, length, if_neg some, List.drop_left] at found
      dsimp only at found
      split_ifs at found with shape
      · obtain rfl := List.mem_singleton.mp found
        simp only [Bool.and_eq_true, decide_eq_true_eq] at shape
        obtain ⟨⟨atSign, colon⟩, nonempty⟩ := shape
        obtain ⟨a, behind, authority, isAt⟩ := takeWhile_of_lt atSign
        obtain ⟨b, password, userinfo, isColon⟩ := takeWhile_of_lt colon
        obtain ⟨tail, whole, -⟩ := takeWhile_cut (fun c => !endsAuthority c) rest
        obtain rfl : a = '@' := by simpa using isAt
        obtain rfl : b = ':' := by simpa using isColon
        have inAuthority := fun c mem => List.mem_takeWhile_imp (p := fun c => !endsAuthority c) (l := rest) (x := c) mem
        have inUserinfo := fun c mem => List.mem_takeWhile_imp (p := fun c => decide (c ≠ '@')) (x := c)
          (l := rest.takeWhile fun c => !endsAuthority c) mem
        have inUser := fun c mem => List.mem_takeWhile_imp (p := fun c => decide (c ≠ ':')) (x := c)
          (l := (rest.takeWhile fun c => !endsAuthority c).takeWhile fun c => decide (c ≠ '@')) mem
        generalize rest.takeWhile (fun c => !endsAuthority c) = written at *
        generalize written.takeWhile (fun c => decide (c ≠ '@')) = before at *
        generalize before.takeWhile (fun c => decide (c ≠ ':')) = user at *
        subst userinfo
        subst authority
        refine ⟨scheme, user, password, behind ++ tail, web, ?_, ?_, ?_, ?_, ?_⟩
        · rw [whole]
          simp only [List.append_assoc, List.cons_append]
        · intro c mem
          refine ⟨by simpa using inUser c mem, by simpa using inUserinfo c (by simp [mem]),
            by simpa using inAuthority c (by simp [mem])⟩
        · intro c mem
          exact ⟨by simpa using inUserinfo c (by simp [mem]), by simpa using inAuthority c (by simp [mem])⟩
        · rintro rfl
          rw [List.length_append, List.length_singleton] at nonempty
          omega
        · refine Prod.ext rfl ?_
          simp only [List.length_append, List.length_cons]
          omega
      · cases found
  · rintro ⟨scheme, user, password, rest, web, rfl, ofUser, ofPassword, nonempty, rfl⟩
    have some : scheme.length ≠ 0 := by rcases web with rfl | rfl <;> decide
    rw [urlPassword, schemeLen_append web, if_neg some, List.drop_left]
    have inside : ∀ c ∈ user ++ ':' :: (password ++ ['@']), (!endsAuthority c) = true := by
      intro c mem
      rw [Bool.not_eq_true']
      simp only [List.mem_append, List.mem_cons, List.not_mem_nil, or_false] at mem
      rcases mem with mem | rfl | mem | rfl
      · exact (ofUser c mem).2.2
      · decide
      · exact (ofPassword c mem).2
      · decide
    have authority : (user ++ ':' :: (password ++ '@' :: rest)).takeWhile (fun c => !endsAuthority c) =
        user ++ ':' :: password ++ '@' :: rest.takeWhile fun c => !endsAuthority c := by
      have split : user ++ ':' :: (password ++ '@' :: rest) = user ++ ':' :: (password ++ ['@']) ++ rest := by simp
      rw [split, List.takeWhile_append_of_pos inside]
      simp
    have userinfo : (user ++ ':' :: password ++ '@' :: rest.takeWhile fun c => !endsAuthority c).takeWhile
        (fun c => decide (c ≠ '@')) = user ++ ':' :: password := by
      refine takeWhile_append_stop (fun c mem => ?_) (by decide) _
      simp only [List.mem_append, List.mem_cons] at mem
      rw [decide_eq_true_eq]
      rcases mem with mem | rfl | mem
      · exact (ofUser c mem).2.1
      · decide
      · exact (ofPassword c mem).1
    have username : (user ++ ':' :: password).takeWhile (fun c => decide (c ≠ ':')) = user :=
      takeWhile_append_stop (fun c mem => decide_eq_true (ofUser c mem).1) (by decide) _
    dsimp only
    rw [authority, userinfo, username]
    have := List.length_pos_iff_ne_nil.mpr nonempty
    rw [if_pos]
    · rw [List.mem_singleton]
      refine Prod.ext rfl ?_
      simp only [List.length_append, List.length_cons]
      omega
    · simp only [Bool.and_eq_true, decide_eq_true_eq, List.length_append, List.length_cons]
      omega

/-! ### Ranges lie in the text -/

/-- A range of at least one of the characters of `s`, which begins at `pos`. -/
def Inside (pos : Nat) (s : Text) (span : Span) : Prop := pos ≤ span.1 ∧ span.1 < span.2 ∧ span.2 ≤ pos + s.length

theorem inside_urlPassword (mem : span ∈ urlPassword pos s) : Inside pos s span := by
  obtain ⟨scheme, user, password, rest, -, rfl, -, -, nonempty, rfl⟩ := mem_urlPassword.mp mem
  have := List.length_pos_iff_ne_nil.mpr nonempty
  simp only [Inside, List.length_append, List.length_cons]
  omega

theorem inside_bearerToken (mem : span ∈ bearerToken pos s) : Inside pos s span := by
  unfold bearerToken at mem
  split_ifs at mem with header
  · dsimp only at mem
    split_ifs at mem with empty
    · cases mem
    · obtain rfl := List.mem_singleton.mp mem
      have some := List.length_pos_iff_ne_nil.mpr empty
      have most := (List.takeWhile_sublist (l := s.drop 22) (fun c =>
        !(isAsciiWhitespace c || c = '"' || c = '\'' || c = '<' || c = '>'))).length_le
      rw [List.length_drop] at most
      simp only [Inside]
      omega
  · cases mem

theorem length_le_of_startsWith {start : Text} (begins : Text.startsWith start s = true) : start.length ≤ s.length := by
  obtain ⟨rest, found⟩ := Option.isSome_iff_exists.mp begins
  rw [Text.stripPrefix_eq_some.mp found, List.length_append]
  exact Nat.le_add_right _ _

theorem length_pos_of_mem_tokenPrefixes {entry : Text × Nat} (mem : entry ∈ tokenPrefixes) : 0 < entry.1.length := by
  have all : tokenPrefixes.all (fun entry => 0 < entry.1.length) = true := by decide
  exact of_decide_eq_true (List.all_eq_true.mp all entry mem)

theorem inside_apiToken (mem : span ∈ apiToken pos s) : Inside pos s span := by
  unfold apiToken at mem
  cases found : tokenPrefixes.find? fun entry => Text.startsWith entry.1 s with
  | none =>
    rw [found] at mem
    cases mem
  | some entry =>
    obtain ⟨start, minTail⟩ := entry
    rw [found] at mem
    have begins := length_le_of_startsWith (List.find?_some (p := fun entry : Text × Nat => Text.startsWith entry.1 s) found)
    have some := length_pos_of_mem_tokenPrefixes (List.mem_of_find?_eq_some found)
    have most := (List.takeWhile_sublist (l := s.drop start.length) tokenByte).length_le
    rw [List.length_drop] at most
    dsimp only at mem begins some
    split_ifs at mem
    all_goals first
      | cases mem
        done
      | obtain rfl := List.mem_singleton.mp mem
        simp only [Inside]
        omega

theorem inside_accessKeyId (mem : span ∈ accessKeyId pos s) : Inside pos s span := by
  unfold accessKeyId at mem
  dsimp only at mem
  split_ifs at mem with shape
  · obtain rfl := List.mem_singleton.mp mem
    simp only [Bool.and_eq_true, decide_eq_true_eq] at shape
    simp only [Inside]
    omega
  · cases mem

theorem inside_spansAt {before : Option Char} (mem : span ∈ spansAt before pos s) : Inside pos s span := by
  unfold spansAt at mem
  split_ifs at mem
  · simp only [List.mem_append] at mem
    rcases mem with ((url | bearer) | token) | key
    · exact inside_urlPassword url
    · exact inside_bearerToken bearer
    · exact inside_apiToken token
    · exact inside_accessKeyId key
  · cases mem

end Detectors

theorem inside_detect {fuel pos : Nat} {before : Option Char} {s : Text} {span : Span}
    (mem : span ∈ detect fuel before pos s) : Inside pos s span := by
  induction fuel generalizing before pos s with
  | zero => cases mem
  | succ fuel ih =>
    cases s with
    | nil => cases mem
    | cons c rest =>
      rw [detect] at mem
      cases block : privateKeyBlock (c :: rest) with
      | some length =>
        have bounds := privateKeyBlock_le block
        rw [block] at mem
        rcases List.mem_cons.mp mem with rfl | later
        · exact ⟨Nat.le_refl _, by omega, by omega⟩
        · obtain ⟨least, nonempty, most⟩ := ih later
          rw [List.length_drop] at most
          exact ⟨by omega, nonempty, by omega⟩
      | none =>
        rw [block] at mem
        rcases List.mem_append.mp mem with here | later
        · exact inside_spansAt here
        · obtain ⟨least, nonempty, most⟩ := ih later
          refine ⟨by omega, nonempty, ?_⟩
          rw [List.length_cons]
          omega

/-- What `redact` detects in a text. -/
def detected (text : Text) : List Span := detect text.length none 0 text

section Scan

variable {text : Text}

/-- The positions at which `redact` looks for credentials: a private key is passed over. -/
inductive Scanned (text : Text) : Nat → Prop where
  | start : Scanned text 0
  | block {q length : Nat} : Scanned text q → privateKeyBlock (text.drop q) = some length → Scanned text (q + length)
  | next {q : Nat} : Scanned text q → q < text.length → privateKeyBlock (text.drop q) = none → Scanned text (q + 1)

def foundAt (text : Text) (q : Nat) : List Span :=
  match privateKeyBlock (text.drop q) with
  | some length => [(q, q + length)]
  | none => spansAt (text.take q).getLast? q (text.drop q)

variable {q : Nat} {span : Span}

theorem inside_foundAt (mem : span ∈ foundAt text q) : Inside q (text.drop q) span := by
  unfold foundAt at mem
  cases block : privateKeyBlock (text.drop q) with
  | some length =>
    rw [block] at mem
    obtain rfl := List.mem_singleton.mp mem
    have bounds := privateKeyBlock_le block
    exact ⟨Nat.le_refl _, by omega, by omega⟩
  | none =>
    rw [block] at mem
    exact inside_spansAt mem

theorem Scanned.le (scanned : Scanned text q) : q ≤ text.length := by
  induction scanned with
  | start => exact Nat.zero_le _
  | @block q length _ found ih =>
    have bounds := (privateKeyBlock_le found).2
    rw [List.length_drop] at bounds
    omega
  | next _ more _ _ => exact more

/-- One round of the loop, at a position of the text. -/
theorem detect_at {fuel q : Nat} (more : q < text.length) :
    detect (fuel + 1) (text.take q).getLast? q (text.drop q) = foundAt text q ++
      match privateKeyBlock (text.drop q) with
      | some length => detect fuel (text.take (q + length)).getLast? (q + length) (text.drop (q + length))
      | none => detect fuel (text.take (q + 1)).getLast? (q + 1) (text.drop (q + 1)) := by
  have cons : text.drop q = text[q] :: text.drop (q + 1) := List.drop_eq_getElem_cons more
  have after : ∀ length, 0 < length → q + length ≤ text.length →
      ((text.drop q).take length).getLast? = (text.take (q + length)).getLast? := by
    intro length some inside
    have nonempty : (text.drop q).take length ≠ [] := by
      rw [← List.length_pos_iff_ne_nil, List.length_take, List.length_drop]
      omega
    rw [List.take_add, List.getLast?_append, List.getLast?_eq_some_getLast nonempty]
    rfl
  unfold foundAt
  cases block : privateKeyBlock (text.drop q) with
  | some length =>
    obtain ⟨some, most⟩ := privateKeyBlock_le block
    rw [List.length_drop] at most
    dsimp only
    rw [← after length some (by omega), ← List.drop_drop]
    rw [cons] at block ⊢
    rw [detect, block]
    rfl
  | none =>
    have last : (text.take (q + 1)).getLast? = some text[q] := by
      rw [List.take_add_one, List.getElem?_eq_getElem more, Option.toList_some, List.getLast?_concat]
    dsimp only
    rw [last]
    rw [cons] at block ⊢
    rw [detect, block]

theorem exists_of_mem_detect {fuel q : Nat} (scanned : Scanned text q)
    (mem : span ∈ detect fuel (text.take q).getLast? q (text.drop q)) : ∃ p, Scanned text p ∧ span ∈ foundAt text p := by
  induction fuel generalizing q with
  | zero => cases mem
  | succ fuel ih =>
    by_cases more : q < text.length
    · rw [detect_at more] at mem
      rcases List.mem_append.mp mem with here | later
      · exact ⟨q, scanned, here⟩
      · cases block : privateKeyBlock (text.drop q) with
        | some length =>
          rw [block] at later
          exact ih (scanned.block block) later
        | none =>
          rw [block] at later
          exact ih (scanned.next more block) later
    · rw [List.drop_eq_nil_of_le (Nat.not_lt.mp more)] at mem
      cases mem

/-- At every position of the scan the loop has fuel for the rest of the text. -/
theorem Scanned.detect_subset (scanned : Scanned text q) : ∃ fuel, (text.drop q).length ≤ fuel ∧
    detect fuel (text.take q).getLast? q (text.drop q) ⊆ detected text := by
  induction scanned with
  | start => exact ⟨text.length, Nat.le_refl _, List.Subset.refl _⟩
  | @block q length _ found ih =>
    obtain ⟨fuel, enough, subset⟩ := ih
    obtain ⟨some, most⟩ := privateKeyBlock_le found
    rw [List.length_drop] at enough most
    cases fuel with
    | zero => omega
    | succ fuel =>
      rw [detect_at (by omega), found] at subset
      refine ⟨fuel, ?_, fun span mem => subset (List.mem_append_right _ mem)⟩
      rw [List.length_drop]
      omega
  | @next q _ more found ih =>
    obtain ⟨fuel, enough, subset⟩ := ih
    rw [List.length_drop] at enough
    cases fuel with
    | zero => omega
    | succ fuel =>
      rw [detect_at more, found] at subset
      refine ⟨fuel, ?_, fun span mem => subset (List.mem_append_right _ mem)⟩
      rw [List.length_drop]
      omega

/-- **What `redact` detects** is what is found at the positions of its scan. -/
theorem mem_detected : span ∈ detected text ↔ ∃ q, Scanned text q ∧ span ∈ foundAt text q := by
  constructor
  · exact exists_of_mem_detect .start
  · rintro ⟨q, scanned, found⟩
    obtain ⟨fuel, enough, subset⟩ := scanned.detect_subset
    obtain ⟨least, nonempty, most⟩ := inside_foundAt found
    rw [List.length_drop] at most enough
    have := scanned.le
    cases fuel with
    | zero => omega
    | succ fuel =>
      refine subset ?_
      rw [detect_at (by omega)]
      exact List.mem_append_left _ found

theorem scanned_or_inside (inside : q ≤ text.length) : Scanned text q ∨
    ∃ b length, Scanned text b ∧ privateKeyBlock (text.drop b) = some length ∧ b < q ∧ q < b + length := by
  induction q with
  | zero => exact .inl .start
  | succ q ih =>
    rcases ih (Nat.le_of_succ_le inside) with scanned | ⟨b, length, scanned, found, after, before⟩
    · cases found : privateKeyBlock (text.drop q) with
      | none => exact .inl (scanned.next inside found)
      | some length =>
        have some := (privateKeyBlock_le found).1
        rcases Nat.lt_or_eq_of_le some with more | one
        · exact .inr ⟨q, length, scanned, found, Nat.lt_succ_self q, by omega⟩
        · have := scanned.block found
          rw [← one] at this
          exact .inl this
    · rcases Nat.lt_or_eq_of_le before with more | last
      · exact .inr ⟨b, length, scanned, found, by omega, more⟩
      · have := scanned.block found
        rw [← last] at this
        exact .inl this

end Scan

/-! ### Masking -/

theorem mask_eq (text : Text) (copied : Nat) (spans : List Span) : mask text copied spans = Lib.mask marker text copied spans := by
  induction spans generalizing copied with
  | nil => rfl
  | cons span rest ih =>
    obtain ⟨start, stop⟩ := span
    rw [mask, Lib.mask, ih, ih]

instance : IsTrans Span Span.le where
  trans a b c := by
    unfold Span.le
    omega

instance : Std.Total Span.le where
  total a b := by
    unfold Span.le
    omega

theorem within_detected {text : Text} {span : Span} (mem : span ∈ detected text) : Range.Within text.length span := by
  obtain ⟨-, nonempty, most⟩ := inside_detect mem
  rw [Nat.zero_add] at most
  exact ⟨nonempty, most⟩

theorem sorted_le (spans : List Span) : (spans.insertionSort Span.le).Pairwise fun a b => a.1 ≤ b.1 := by
  refine (List.pairwise_insertionSort Span.le spans).imp fun {a b} le => ?_
  unfold Span.le at le
  omega

theorem covered_insertionSort (spans : List Span) : covered (spans.insertionSort Span.le) = covered spans := by
  funext i
  rw [Bool.eq_iff_iff, covered_eq_true, covered_eq_true]
  exact exists_congr fun span => and_congr_left' (List.mem_insertionSort Span.le)

/-- **Redaction hides what is detected, and keeps the rest.** -/
theorem exists_pieces_redact (text : Text) : ∃ pieces, Pieces marker text (redact text) (detected text) pieces := by
  obtain ⟨pieces, source, shown, flags, hidden⟩ := exists_pieces marker text
    (fun span mem => within_detected ((List.mem_insertionSort Span.le).mp mem)) (sorted_le (detected text))
  rw [covered_insertionSort] at flags
  exact ⟨pieces, source, shown.trans (mask_eq ..).symm, flags, hidden⟩

end OrbitGraph.History
