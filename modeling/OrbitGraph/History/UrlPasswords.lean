import OrbitGraph.History.Detection
import OrbitGraph.History.Git
import OrbitGraph.Lib.Pieces

/-!
Passwords of URLs in redacted text.

`repository_identity_without_credentials` takes all of an authority before its last `@` for
credentials. `redact` masks from the first `:` of an authority to its first `@`, so that a
password with an `@` is masked in part only; what else of it is masked another detector masks.
-/

namespace OrbitGraph.History

open Lib

/-! ### URLs with passwords -/

/-- `http://` or `https://`, in any case. -/
def WebScheme (scheme : Text) : Prop :=
  scheme.map Char.toLower = "https://" ∨ scheme.map Char.toLower = "http://"

/-- A web URL with a user and a password in a text. The authority has none of `/`, `?` and `#`, its last `@` stands
before the host, and the first `:` before the password. -/
structure UrlIn (text before scheme user password host rest : Text) : Prop where
  text_eq : text = before ++ (scheme ++ (user ++ ':' :: (password ++ '@' :: (host ++ rest))))
  web : WebScheme scheme
  noColon : ':' ∉ user
  authority : ∀ c ∈ user ++ ':' :: (password ++ '@' :: host), c ∉ ['/', '?', '#']
  noAt : '@' ∉ host

def passwordStart (before scheme user : Text) : Nat := before.length + scheme.length + user.length + 1

/-- What it takes for the detector of URLs to mask the `i`-th character of a password. -/
structure UrlMasks (before scheme user password : Text) (i : Nat) : Prop where
  lowercase : scheme = "https://" ∨ scheme = "http://"
  bounded : boundary before.getLast? = true
  cleanUser : ∀ c ∈ user, c ≠ '@' ∧ endsAuthority c = false
  cleanPassword : ∀ c ∈ password.takeWhile (fun c => decide (c ≠ '@')), endsAuthority c = false
  beforeAt : i < (password.takeWhile fun c => decide (c ≠ '@')).length

/-- The character at `p` does not survive `redact`: it is in a piece that shows a marker. -/
def Hidden (text : Text) (p : Nat) : Prop :=
  ∃ pieces, Pieces marker text (redact text) (detected text) pieces ∧ (pieces.flatMap Piece.flags)[p]? = some true

/-- The other credentials that are found at a position: private keys, bearer tokens, API tokens and access keys. -/
def otherFoundAt (text : Text) (q : Nat) : List Span :=
  match privateKeyBlock (text.drop q) with
  | some length => [(q, q + length)]
  | none =>
    if boundary (text.take q).getLast? then
      bearerToken q (text.drop q) ++ apiToken q (text.drop q) ++ accessKeyId q (text.drop q)
    else []

/-- A position inside another credential. -/
def OtherMasks (text : Text) (p : Nat) : Prop :=
  ∃ q, Scanned text q ∧ ∃ span ∈ otherFoundAt text q, span.1 ≤ p ∧ p < span.2

section Schemes

variable {scheme other : Text}

theorem toLower_punctuation : (List.range 128).all (fun n => [':', '/'].all fun d =>
    (Char.ofNat n).toLower != d || Char.ofNat n == d) = true := by
  decide +kernel

theorem eq_of_toLower {c d : Char} (mark : d ∈ [':', '/']) (lower : c.toLower = d) : c = d := by
  by_cases low : c.toNat < 128
  · have := List.all_eq_true.mp (List.all_eq_true.mp toLower_punctuation _ (List.mem_range.mpr low)) d mark
    rw [Char.ofNat_toNat, lower, bne_self_eq_false, Bool.false_or, beq_iff_eq] at this
    exact this
  · rwa [toLower_of_high (Nat.not_lt.mp low)] at lower

theorem WebScheme.of_lowercase (lower : scheme = "https://" ∨ scheme = "http://") : WebScheme scheme := by
  rcases lower with rfl | rfl
  · exact .inl (by decide)
  · exact .inr (by decide)

theorem WebScheme.last (web : WebScheme scheme) :
    scheme[scheme.length - 1]? = some '/' ∧ (scheme.length = 7 ∨ scheme.length = 8) := by
  have chars : ∀ {word : Text}, scheme.map Char.toLower = word → word[word.length - 1]? = some '/' →
      scheme[scheme.length - 1]? = some '/' := by
    rintro word rfl last
    rw [List.length_map, List.getElem?_map, Option.map_eq_some_iff] at last
    obtain ⟨c, found, lower⟩ := last
    rw [found, eq_of_toLower (by decide) lower]
  rcases web with secure | plain
  · exact ⟨chars secure rfl, .inr (by simpa using congrArg List.length secure)⟩
  · exact ⟨chars plain rfl, .inl (by simpa using congrArg List.length plain)⟩

theorem WebScheme.length_eq (web : WebScheme scheme) (also : WebScheme other)
    (letter : scheme[scheme.length - 4]? = other[other.length - 4]?) : scheme.length = other.length := by
  have lowered : ∀ {s word : Text}, s.map Char.toLower = word →
      (s[s.length - 4]?).map Char.toLower = word[word.length - 4]? := by
    rintro s word rfl
    rw [List.length_map, List.getElem?_map]
  have lengths : ∀ {s word : Text}, s.map Char.toLower = word → s.length = word.length := by
    rintro s word rfl
    exact (List.length_map _).symm
  rcases web with left | left <;> rcases also with right | right
  · exact (lengths left).trans (lengths right).symm
  · have both := (lowered left).symm.trans ((congrArg _ letter).trans (lowered right))
    cases both
  · have both := (lowered left).symm.trans ((congrArg _ letter).trans (lowered right))
    cases both
  · exact (lengths left).trans (lengths right).symm

end Schemes

section Places

variable {text before scheme user password host rest : Text}

theorem UrlIn.drop (url : UrlIn text before scheme user password host rest) :
    text.drop before.length = scheme ++ (user ++ ':' :: (password ++ '@' :: (host ++ rest))) := by
  rw [url.text_eq, List.drop_left]

variable {q : Nat}

theorem getElem?_of_drop {text part : Text} (drop : text.drop q = part) (j : Nat) : text[q + j]? = part[j]? := by
  rw [← drop, List.getElem?_drop]

variable {authority behind : Text}

theorem slash_before (web : WebScheme scheme)
    (drop : text.drop q = scheme ++ (authority ++ behind)) : text[q + scheme.length - 1]? = some '/' := by
  obtain ⟨last, lengths⟩ := web.last
  have place : q + scheme.length - 1 = q + (scheme.length - 1) := by omega
  rw [place, getElem?_of_drop drop, List.getElem?_append_left (by omega), last]

theorem not_slash_inside {q p : Nat}
    (drop : text.drop q = scheme ++ (authority ++ behind)) (clean : '/' ∉ authority) (from_authority : q + scheme.length ≤ p)
    (inside : p < q + scheme.length + authority.length) : text[p]? ≠ some '/' := by
  have place : p = q + (scheme.length + (p - q - scheme.length)) := by omega
  rw [place, getElem?_of_drop drop, List.getElem?_append_right (Nat.le_add_right _ _), Nat.add_sub_cancel_left,
    List.getElem?_append_left (by omega)]
  exact fun found => clean (List.mem_of_getElem? found)

theorem start_unique {q r p : Nat} {other : Text} (authority behind authority' behind' : Text) (web : WebScheme scheme)
    (also : WebScheme other) (drop : text.drop q = scheme ++ (authority ++ behind))
    (drop' : text.drop r = other ++ (authority' ++ behind')) (clean : '/' ∉ authority) (clean' : '/' ∉ authority')
    (least : q + scheme.length ≤ p) (most : p < q + scheme.length + authority.length)
    (least' : r + other.length ≤ p) (most' : p < r + other.length + authority'.length) :
    q = r ∧ scheme.length = other.length := by
  obtain ⟨-, lengths⟩ := web.last
  obtain ⟨-, lengths'⟩ := also.last
  -- The slash before either authority is outside the other.
  have left : ¬ q + scheme.length < r + other.length := fun below =>
    not_slash_inside drop clean (p := r + other.length - 1) (by omega) (by omega) (slash_before also drop')
  have right : ¬ r + other.length < q + scheme.length := fun below =>
    not_slash_inside drop' clean' (p := q + scheme.length - 1) (by omega) (by omega) (slash_before web drop)
  have ends : q + scheme.length = r + other.length := by omega
  have letter : scheme[scheme.length - 4]? = other[other.length - 4]? := by
    have first := getElem?_of_drop drop (scheme.length - 4)
    have second := getElem?_of_drop drop' (other.length - 4)
    rw [List.getElem?_append_left (by omega)] at first second
    rw [← first, ← second]
    congr 1
    omega
  have same := web.length_eq also letter
  exact ⟨by omega, same⟩

/-! ### What the detector of URLs masks -/

theorem takeWhile_at (password behind : Text) :
    (password ++ '@' :: behind).takeWhile (fun c => decide (c ≠ '@')) = password.takeWhile fun c => decide (c ≠ '@') := by
  rw [List.takeWhile_append]
  split_ifs with all
  · rw [List.takeWhile_cons, if_neg (by decide), List.append_nil]
    exact ((List.takeWhile_prefix _).eq_of_length all).symm
  · rfl

theorem mem_urlPassword_of_masks (url : UrlIn text before scheme user password host rest) {i : Nat}
    (masks : UrlMasks before scheme user password i) : (passwordStart before scheme user,
        passwordStart before scheme user + (password.takeWhile fun c => decide (c ≠ '@')).length) ∈
      urlPassword before.length (text.drop before.length) := by
  have stops : (password ++ '@' :: (host ++ rest)).takeWhile (fun c => decide (c ≠ '@')) ≠ password ++ '@' :: (host ++ rest) := by
    intro all
    have := List.takeWhile_eq_self_iff.mp all '@' (by simp)
    cases this
  obtain ⟨a, behind, cut, isAt⟩ := @takeWhile_of_lt _ (password ++ '@' :: (host ++ rest))
    (fun c => decide (c ≠ '@')) (Nat.lt_of_le_of_ne (List.takeWhile_sublist _).length_le
      fun same => stops ((List.takeWhile_prefix _).eq_of_length same))
  obtain rfl : a = '@' := by simpa using isAt
  rw [takeWhile_at] at cut
  rw [mem_urlPassword]
  refine ⟨scheme, user, _, behind, masks.lowercase, ?_, fun c mem => ?_, fun c mem => ?_, ?_, rfl⟩
  · rw [url.drop, cut]
  · exact ⟨fun colon => url.noColon (colon ▸ mem), masks.cleanUser c mem⟩
  · exact ⟨by simpa using List.mem_takeWhile_imp mem, masks.cleanPassword c mem⟩
  · exact List.length_pos_iff_ne_nil.mp (Nat.zero_lt_of_lt masks.beforeAt)

variable {span : Span}

theorem masks_of_mem_urlPassword (url : UrlIn text before scheme user password host rest) {q i : Nat}
    (inside : i < password.length) (mem : span ∈ urlPassword q (text.drop q))
    (bounded : boundary (text.take q).getLast? = true) (least : span.1 ≤ passwordStart before scheme user + i)
    (most : passwordStart before scheme user + i < span.2) : UrlMasks before scheme user password i := by
  obtain ⟨other, user', password', rest', web', drop', ofUser, ofPassword, -, rfl⟩ := mem_urlPassword.mp mem
  have drop := url.drop
  unfold passwordStart at least most
  dsimp only at least most
  have clean : '/' ∉ user ++ ':' :: (password ++ '@' :: host) := fun slash => url.authority '/' slash (by decide)
  have clean' : '/' ∉ user' ++ ':' :: password' := by
    intro slash
    rcases List.mem_append.mp slash with slash | slash
    · exact absurd (ofUser '/' slash).2.2 (by decide)
    · rcases List.mem_cons.mp slash with same | slash
      · cases same
      · exact absurd (ofPassword '/' slash).2 (by decide)
  obtain ⟨same, lengths⟩ := start_unique (q := before.length) (r := q)
    (p := before.length + scheme.length + user.length + 1 + i) (user ++ ':' :: (password ++ '@' :: host)) rest
    (user' ++ ':' :: password') ('@' :: rest') url.web (.of_lowercase web') (by rw [drop]; simp) (by rw [drop']; simp)
    clean clean' (by omega) (by simp only [List.length_append, List.length_cons]; omega) (by omega)
    (by simp only [List.length_append, List.length_cons]; omega)
  subst same
  rw [drop] at drop'
  obtain ⟨rfl, tails⟩ := List.append_inj drop' lengths
  have names : user = user' := by
    have left := takeWhile_append_stop (a := ':') (p := fun c => decide (c ≠ ':'))
      (fun c mem => decide_eq_true fun colon => url.noColon (colon ▸ mem)) (by decide) (password ++ '@' :: (host ++ rest))
    have right := takeWhile_append_stop (a := ':') (p := fun c => decide (c ≠ ':'))
      (fun c mem => decide_eq_true (ofUser c mem).1) (by decide) (password' ++ '@' :: rest')
    rw [← left, tails, right]
  subst names
  have passwords : password.takeWhile (fun c => decide (c ≠ '@')) = password' := by
    have left := takeWhile_at password (host ++ rest)
    have right := takeWhile_append_stop (a := '@') (p := fun c => decide (c ≠ '@'))
      (fun c mem => decide_eq_true (ofPassword c mem).1) (by decide) rest'
    rw [← left, (List.cons.inj (List.append_cancel_left tails)).2, right]
  refine ⟨web', ?_, fun c mem => (ofUser c mem).2, fun c mem => (ofPassword c (passwords ▸ mem)).2, ?_⟩
  · rwa [url.text_eq, List.take_left] at bounded
  · rw [passwords]
    omega

/-! ### Private keys over URLs -/

theorem exists_keyword {b length : Nat} (found : privateKeyBlock (text.drop b) = some length) :
    ∃ m tail, m + 16 = b + length ∧ text.drop m = "PRIVATE KEY-----".toList ++ tail := by
  obtain ⟨rest, label, after, body, tail, -, -, suffix, split, rfl⟩ := privateKeyBlock_eq_some.mp found
  obtain ⟨front, ended⟩ := Option.isSome_iff_exists.mp suffix
  obtain rfl := Text.stripSuffix_eq_some.mp ended
  refine ⟨b + (body ++ "-----END ".toList ++ front).length, tail, ?_, ?_⟩
  · have keyword : "PRIVATE KEY".toList.length = 11 := rfl
    have dashes : "-----".toList.length = 5 := rfl
    simp only [List.length_append]
    omega
  · have whole : text.drop b = (body ++ "-----END ".toList ++ front) ++ ("PRIVATE KEY-----".toList ++ tail) := by
      have joined : "PRIVATE KEY-----".toList = "PRIVATE KEY".toList ++ "-----".toList := rfl
      rw [Text.eq_of_splitOnce split, joined]
      simp only [List.append_assoc]
    rw [← List.drop_drop, whole, List.drop_left]

theorem no_key_ends_inside {b length q : Nat} {part behind : Text} (found : privateKeyBlock (text.drop b) = some length)
    (drop : text.drop q = part ++ behind) (first : part.head? = some 'h') (noSpace : ' ' ∉ part)
    (inside : q < b + length) : ¬ b + length ≤ q + part.length := by
  intro ends
  obtain ⟨m, tail, place, keyword⟩ := exists_keyword found
  rcases Nat.lt_or_ge (m + 7) q with late | early
  · -- Behind the space, the key has no letter with which a scheme begins.
    have here := getElem?_of_drop keyword (q - m)
    have begins := getElem?_of_drop drop 0
    rw [Nat.add_zero, List.getElem?_append_left (by cases part with | nil => cases first | cons _ _ => exact Nat.succ_pos _),
      ← List.head?_eq_getElem?, first] at begins
    have back : m + (q - m) = q := by omega
    rw [back, begins, List.getElem?_append_left (by have : "PRIVATE KEY-----".toList.length = 16 := rfl; omega)] at here
    have none : ∀ k < 16, 7 < k → "PRIVATE KEY-----".toList[k]? ≠ some 'h' := by decide
    exact none (q - m) (by omega) (by omega) here.symm
  · have space := getElem?_of_drop keyword 7
    have here := getElem?_of_drop drop (m + 7 - q)
    have back : q + (m + 7 - q) = m + 7 := by omega
    have blank : ("PRIVATE KEY-----" ++ tail)[7]? = some ' ' := rfl
    rw [back, space, blank, List.getElem?_append_left (by omega)] at here
    exact noSpace (List.mem_of_getElem? here.symm)

theorem privateKeyBlock_eq_none {s : Text} (first : s.head? = some 'h') : privateKeyBlock s = none := by
  cases found : privateKeyBlock s with
  | none => rfl
  | some length =>
    obtain ⟨rest, -, -, -, -, rfl, -⟩ := privateKeyBlock_eq_some.mp found
    cases first

theorem covered_of_masks (url : UrlIn text before scheme user password host rest) {i : Nat}
    (masks : UrlMasks before scheme user password i) :
    covered (detected text) (passwordStart before scheme user + i) = true := by
  have mem := mem_urlPassword_of_masks url masks
  have first : (text.drop before.length).head? = some 'h' := by
    rw [url.drop]
    rcases masks.lowercase with rfl | rfl <;> rfl
  have inText : before.length ≤ text.length := by
    rw [url.text_eq, List.length_append]
    exact Nat.le_add_right _ _
  rw [covered_eq_true]
  rcases scanned_or_inside inText with scanned | ⟨b, length, scanned, found, after, covers⟩
  · have found : urlPassword before.length (text.drop before.length) ⊆ foundAt text before.length := by
      rw [foundAt, privateKeyBlock_eq_none first, spansAt]
      dsimp only
      rw [url.text_eq, List.take_left, if_pos masks.bounded, ← url.text_eq]
      exact fun span mem => List.mem_append_left _ (List.mem_append_left _ (List.mem_append_left _ mem))
    exact ⟨_, mem_detected.mpr ⟨before.length, scanned, found mem⟩, Nat.le_add_right _ _,
      Nat.add_lt_add_left masks.beforeAt _⟩
  · refine ⟨(b, b + length), mem_detected.mpr ⟨b, scanned, ?_⟩, ?_, ?_⟩
    · rw [foundAt, found]
      exact List.mem_singleton_self _
    · unfold passwordStart
      dsimp only
      omega
    · obtain ⟨tail, whole, -⟩ := takeWhile_cut (fun c => decide (c ≠ '@')) password
      have beforeAt := masks.beforeAt
      have clean := masks.cleanPassword
      generalize password.takeWhile (fun c => decide (c ≠ '@')) = masked at *
      have noSpace : ' ' ∉ scheme ++ (user ++ ':' :: masked) := by
        simp only [List.mem_append, List.mem_cons, not_or]
        refine ⟨?_, fun mem => ?_, by decide, fun mem => ?_⟩
        · rcases masks.lowercase with rfl | rfl <;> decide
        · exact absurd (masks.cleanUser ' ' mem).2 (by decide)
        · exact absurd (clean ' ' mem) (by decide)
      have split : text.drop before.length = (scheme ++ (user ++ ':' :: masked)) ++ (tail ++ '@' :: (host ++ rest)) := by
        rw [url.drop, whole]
        simp
      have begins : (scheme ++ (user ++ ':' :: masked)).head? = some 'h' := by
        rcases masks.lowercase with rfl | rfl <;> rfl
      have outside := no_key_ends_inside found split begins noSpace covers
      unfold passwordStart
      simp only [List.length_append, List.length_cons] at outside
      dsimp only
      omega

theorem mem_foundAt_cases (mem : span ∈ foundAt text q) :
    (boundary (text.take q).getLast? = true ∧ span ∈ urlPassword q (text.drop q)) ∨ span ∈ otherFoundAt text q := by
  unfold foundAt at mem
  unfold otherFoundAt
  cases block : privateKeyBlock (text.drop q) with
  | some length =>
    rw [block] at mem
    exact .inr mem
  | none =>
    rw [block] at mem
    dsimp only at mem ⊢
    unfold spansAt at mem
    split_ifs at mem ⊢ with bounded
    · simp only [List.mem_append] at mem ⊢
      tauto
    · cases mem

theorem mem_foundAt_of_other (mem : span ∈ otherFoundAt text q) : span ∈ foundAt text q := by
  unfold otherFoundAt at mem
  unfold foundAt
  cases block : privateKeyBlock (text.drop q) with
  | some length =>
    rw [block] at mem
    exact mem
  | none =>
    rw [block] at mem
    dsimp only at mem ⊢
    unfold spansAt
    split_ifs at mem ⊢
    · simp only [List.mem_append] at mem ⊢
      tauto
    · cases mem

theorem hidden_iff {p : Nat} (inside : p < text.length) : Hidden text p ↔ covered (detected text) p = true := by
  have flag : ∀ {pieces}, Pieces marker text (redact text) (detected text) pieces →
      (pieces.flatMap Piece.flags)[p]? = some (covered (detected text) p) := by
    intro pieces whole
    rw [whole.flags, List.getElem?_map, List.getElem?_range inside]
    rfl
  constructor
  · rintro ⟨pieces, whole, hidden⟩
    exact Option.mem_unique (flag whole) hidden
  · intro hidden
    obtain ⟨pieces, whole⟩ := exists_pieces_redact text
    exact ⟨pieces, whole, by rw [flag whole, hidden]⟩

/-- **No character of a password survives exactly if** each is masked by the detector of URLs, or is in another
credential. -/
theorem password_hidden_iff (url : UrlIn text before scheme user password host rest) :
    (∀ i < password.length, Hidden text (passwordStart before scheme user + i)) ↔
      ∀ i < password.length, UrlMasks before scheme user password i ∨
        OtherMasks text (passwordStart before scheme user + i) := by
  refine forall_congr' fun i => imp_congr_right fun inside => ?_
  have inText : passwordStart before scheme user + i < text.length := by
    rw [url.text_eq, passwordStart]
    simp only [List.length_append, List.length_cons]
    omega
  rw [hidden_iff inText]
  refine ⟨fun hidden => ?_, ?_⟩
  · obtain ⟨span, found, least, most⟩ := covered_eq_true.mp hidden
    obtain ⟨q, scanned, found⟩ := mem_detected.mp found
    rcases mem_foundAt_cases found with ⟨bounded, mem⟩ | mem
    · exact .inl (masks_of_mem_urlPassword url inside mem bounded least most)
    · exact .inr ⟨q, scanned, span, mem, least, most⟩
  · rintro (masks | ⟨q, scanned, span, mem, least, most⟩)
    · exact covered_of_masks url masks
    · exact covered_eq_true.mpr ⟨span, mem_detected.mpr ⟨q, scanned, mem_foundAt_of_other mem⟩, least, most⟩

/-- A scheme is a word before its mark. -/
theorem WebScheme.split (web : WebScheme scheme) : ∃ word, ':' ∉ word ∧ scheme = word ++ "://" := by
  have cut : ∀ word : Text, scheme.map Char.toLower = word ++ "://" → ':' ∉ word →
      ∃ front, ':' ∉ front ∧ scheme = front ++ "://" := by
    intro word lowered absent
    obtain ⟨front, mark, rfl, rfl, marked⟩ := List.map_eq_append_iff.mp lowered
    obtain ⟨colon, _, rfl, isColon, marked⟩ := List.map_eq_cons_iff.mp marked
    obtain ⟨slash, _, rfl, isSlash, marked⟩ := List.map_eq_cons_iff.mp marked
    obtain ⟨last, _, rfl, isLast, marked⟩ := List.map_eq_cons_iff.mp marked
    obtain rfl := List.map_eq_nil_iff.mp marked
    rw [eq_of_toLower (by decide) isColon, eq_of_toLower (by decide) isSlash, eq_of_toLower (by decide) isLast]
    exact ⟨front, fun mem => absent (List.mem_map.mpr ⟨':', mem, rfl⟩), rfl⟩
  rcases web with secure | plain
  · exact cut "https" secure (by decide)
  · exact cut "http" plain (by decide)

/-- The parts of a URL are those that `repository_identity_without_credentials` splits it into. -/
theorem withoutCredentials_of_urlIn (url : UrlIn text [] scheme user password host rest)
    (ended : rest.takeWhile (fun c => decide (c ∉ ['/', '?', '#'])) = []) :
    repositoryIdentityWithoutCredentials text = scheme ++ (host ++ rest) := by
  obtain ⟨word, noColon, rfl⟩ := url.web.split
  have whole : Text.splitOnce "://" (word ++ ("://" ++ (user ++ ':' :: (password ++ '@' :: (host ++ rest))))) =
      some (word, user ++ ':' :: (password ++ '@' :: (host ++ rest))) := Text.splitOnce_append noColon _
  have shape : user ++ ':' :: (password ++ '@' :: (host ++ rest)) = (user ++ ':' :: (password ++ '@' :: host)) ++ rest := by
    simp
  have authority : (user ++ ':' :: (password ++ '@' :: (host ++ rest))).takeWhile (fun c => decide (c ∉ ['/', '?', '#'])) =
      user ++ ':' :: (password ++ '@' :: host) := by
    rw [shape, List.takeWhile_append_of_pos fun c mem => decide_eq_true (url.authority c mem), ended, List.append_nil]
  have cut : Text.rsplitOnce "@" (user ++ ':' :: (password ++ '@' :: host)) = some (user ++ ':' :: password, host) := by
    have := Text.rsplitOnce_of_not_mem url.noAt (user ++ ':' :: password)
    rwa [List.append_assoc, List.cons_append] at this
  rw [url.text_eq, List.nil_append, List.append_assoc, repositoryIdentityWithoutCredentials, whole]
  simp only [authority, cut, Option.map_some, Option.getD_some, List.append_assoc]
  rw [shape, List.drop_left]
end Places

namespace AtPassword

def url : Text := "https://u:p@ss@host"

theorem authority_clean :
    ("u" ++ ':' :: ("p@ss" ++ '@' :: "host")).all (fun c => decide (c ∉ ['/', '?', '#'])) = true := by
  decide

theorem urlIn : UrlIn url [] "https://" "u" "p@ss" "host" [] where
  text_eq := rfl
  web := .of_lowercase (.inl rfl)
  noColon := by decide
  authority := fun c mem => of_decide_eq_true (List.all_eq_true.mp authority_clean c mem)
  noAt := by decide

/-- The condition decides on this password. -/
theorem atPassword_hidden_iff :
    (∀ i < "p@ss".toList.length, Hidden url (passwordStart [] "https://" "u" + i)) ↔
      ∀ i < "p@ss".toList.length, UrlMasks [] "https://" "u" "p@ss" i ∨
        OtherMasks url (passwordStart [] "https://" "u" + i) :=
  password_hidden_iff urlIn

/-- The end of the password is in the redacted text. -/
theorem atPassword_survives : redact url = "https://u:[REDACTED_SECRET]@ss@host" ∧
    UrlIn url [] "https://" "u" "p@ss" "host" [] ∧
    ¬ ∀ i < "p@ss".toList.length, Hidden url (passwordStart [] "https://" "u" + i) := by
  refine ⟨by decide +kernel, urlIn, fun all => ?_⟩
  have hidden := (hidden_iff (by decide)).mp (all 2 (by decide))
  revert hidden
  decide +kernel

end AtPassword

end OrbitGraph.History
