import OrbitGraph.History.Git

/-!
What `repository_identity_without_credentials` leaves of a remote.

A remote with `://` is a URL, and its user information is what stands before the last `@` of
its authority. Any other remote may be of the form `user@host:path`. There the text is cut
at the first `@`, so that a remote with two of them keeps the second user name.
-/

namespace OrbitGraph.History

open Lib

/-- The remote names a user before its host: in the authority of a URL, or, without `://`, before the first
colon, which then separates a host from a path. -/
def CarriesUserinfo (identity : Text) : Prop :=
  match Text.splitOnce "://" identity with
  | some (_, rest) => '@' ∈ rest.takeWhile fun c => c ∉ ['/', '?', '#']
  | none => ∃ user host path, identity = user ++ '@' :: host ++ ':' :: path ∧ host ≠ [] ∧
      ':' ∉ user ++ host ∧ '/' ∉ user ++ host

/-- `userinfo@host:path`, cut at the first `@`. -/
def IsScpForm (identity userinfo host path : Text) : Prop :=
  identity = userinfo ++ '@' :: (host ++ ':' :: path) ∧ '@' ∉ userinfo ∧ '/' ∉ userinfo ∧
    host ≠ [] ∧ '/' ∉ host ∧ ':' ∉ host

/-- `first@second@host:path`. -/
def RepeatsUserinfo (identity : Text) : Prop :=
  ∃ first second host path : Text, identity = first ++ '@' :: second ++ '@' :: host ++ ':' :: path ∧
    '@' ∉ first ++ second ∧ '/' ∉ first ++ second ∧ second.head? ≠ some ':' ∧
    host ≠ [] ∧ '/' ∉ host ∧ ':' ∉ host

theorem IsScpForm.splitOnce {identity userinfo host path : Text} (form : IsScpForm identity userinfo host path) :
    Text.splitOnce "@" identity = some (userinfo, host ++ ':' :: path) ∧
      Text.splitOnce ":" (host ++ ':' :: path) = some (host, path) := by
  obtain ⟨rfl, noAt, -, -, -, noColon⟩ := form
  exact ⟨Text.splitOnce_of_not_mem noAt _, Text.splitOnce_of_not_mem noColon _⟩

theorem withoutCredentials_of_scpForm {identity userinfo host path : Text}
    (noUrl : Text.splitOnce "://" identity = none) (form : IsScpForm identity userinfo host path) :
    repositoryIdentityWithoutCredentials identity = host ++ ':' :: path := by
  obtain ⟨cut, hostCut⟩ := form.splitOnce
  obtain ⟨-, -, noSlash, named, hostSlash, -⟩ := form
  unfold repositoryIdentityWithoutCredentials
  simp only [noUrl, cut, hostCut]
  exact if_pos ⟨noSlash, by simp [named, hostSlash]⟩

variable {identity : Text}

theorem withoutCredentials_of_not_scpForm (noUrl : Text.splitOnce "://" identity = none)
    (other : ∀ userinfo host path, ¬ IsScpForm identity userinfo host path) :
    repositoryIdentityWithoutCredentials identity = identity := by
  unfold repositoryIdentityWithoutCredentials
  rw [noUrl]
  cases cut : Text.splitOnce "@" identity with
  | none => rfl
  | some parts =>
    obtain ⟨userinfo, hostPath⟩ := parts
    refine if_neg fun ⟨noSlash, found⟩ => ?_
    cases hostCut : Text.splitOnce ":" hostPath with
    | none =>
      rw [hostCut] at found
      cases found
    | some pieces =>
      obtain ⟨host, path⟩ := pieces
      rw [hostCut, Option.any_some, Bool.and_eq_true, decide_eq_true_eq, decide_eq_true_eq] at found
      obtain ⟨rfl, noAt⟩ := Text.splitOnce_eq_some cut
      obtain ⟨rfl, noColon⟩ := Text.splitOnce_eq_some hostCut
      exact other userinfo host path ⟨rfl, noAt, noSlash, found.1, found.2, noColon⟩

theorem withoutCredentials_of_url {identity scheme rest : Text}
    (found : Text.splitOnce "://" identity = some (scheme, rest)) :
    ∃ host suffix, repositoryIdentityWithoutCredentials identity = scheme ++ "://" ++ (host ++ suffix) ∧
      '@' ∉ host ∧ (host ++ suffix).takeWhile (fun c => c ∉ ['/', '?', '#']) = host := by
  obtain ⟨suffix, split⟩ := List.takeWhile_prefix (fun c => decide (c ∉ ['/', '?', '#'])) (l := rest)
  generalize same : rest.takeWhile (fun c => decide (c ∉ ['/', '?', '#'])) = authority at split
  have behind : rest.drop authority.length = suffix := by rw [← split, List.drop_left]
  have inside : ∀ c ∈ authority, decide (c ∉ ['/', '?', '#']) = true := fun c mem =>
    List.all_eq_true.mp List.all_takeWhile c (same ▸ mem)
  -- What follows the authority begins with one of the characters that end it.
  have ended : suffix.takeWhile (fun c => decide (c ∉ ['/', '?', '#'])) = [] := by
    rw [← split, List.takeWhile_append_of_pos inside] at same
    exact List.append_cancel_left (same.trans (List.append_nil _).symm)
  have authority_of : ∀ host : Text, host ⊆ authority →
      (host ++ suffix).takeWhile (fun c => decide (c ∉ ['/', '?', '#'])) = host := fun host sub => by
    rw [List.takeWhile_append_of_pos fun c mem => inside c (sub mem), ended, List.append_nil]
  have result : ∀ host, ((Text.rsplitOnce "@" authority).map Prod.snd).getD authority = host →
      repositoryIdentityWithoutCredentials identity = scheme ++ "://" ++ (host ++ suffix) := by
    intro host kept
    unfold repositoryIdentityWithoutCredentials
    simp only [found, same, behind]
    rw [kept, List.append_assoc]
  cases cut : Text.rsplitOnce "@" authority with
  | none => exact ⟨authority, suffix, result _ (by rw [cut]; rfl), Text.rsplitOnce_singleton_eq_none.mp cut,
      authority_of _ (List.Subset.refl _)⟩
  | some parts =>
    obtain ⟨userinfo, host⟩ := parts
    obtain ⟨rfl, noAt⟩ := Text.rsplitOnce_eq_some cut
    exact ⟨host, suffix, result _ (by rw [cut]; rfl), noAt,
      authority_of _ fun c mem => List.mem_append_right _ (List.mem_cons_of_mem _ mem)⟩

theorem withoutCredentials_url_idem {identity scheme rest : Text}
    (found : Text.splitOnce "://" identity = some (scheme, rest)) :
    repositoryIdentityWithoutCredentials (repositoryIdentityWithoutCredentials identity) =
        repositoryIdentityWithoutCredentials identity ∧
      ¬ CarriesUserinfo (repositoryIdentityWithoutCredentials identity) := by
  obtain ⟨host, suffix, same, noAt, authority⟩ := withoutCredentials_of_url found
  have again := Text.splitOnce_congr found (host ++ suffix)
  rw [same]
  constructor
  · have uncut : Text.rsplitOnce "@" host = none := Text.rsplitOnce_singleton_eq_none.mpr noAt
    unfold repositoryIdentityWithoutCredentials
    simp only [again, authority, uncut]
    rw [List.drop_left, Option.map_none, Option.getD_none, List.append_assoc]
  · unfold CarriesUserinfo
    rw [again]
    simp only [authority]
    exact noAt

/-- A remote that names a user before its host is of the form that the source cuts. -/
theorem scpForm_of_carriesUserinfo (noUrl : Text.splitOnce "://" identity = none)
    (carries : CarriesUserinfo identity) : ∃ userinfo host path, IsScpForm identity userinfo host path := by
  unfold CarriesUserinfo at carries
  rw [noUrl] at carries
  obtain ⟨user, host, path, rfl, named, noColon, noSlash⟩ := carries
  simp only [List.mem_append, not_or] at noColon noSlash
  -- The first `@` is in the user name or behind it.
  cases cut : Text.splitOnce ['@'] user with
  | none =>
    exact ⟨user, host, path, by simp, Text.splitOnce_singleton_eq_none.mp cut, noSlash.1, named, noSlash.2, noColon.2⟩
  | some parts =>
    obtain ⟨first, second⟩ := parts
    obtain ⟨rfl, noAt⟩ := Text.splitOnce_eq_some cut
    simp only [List.mem_append, List.mem_cons, not_or] at noColon noSlash
    refine ⟨first, second ++ '@' :: host, path, by simp, noAt, noSlash.1.1, by simp, ?_, ?_⟩
    · simp [noSlash.1.2.2, noSlash.2]
    · simp [noColon.1.2.2, noColon.2]

/-- The host and the path of the form are of the form again exactly if a second user name is in front of them. -/
theorem repeatsUserinfo_iff : RepeatsUserinfo identity ↔ ∃ userinfo host path, IsScpForm identity userinfo host path ∧
      ∃ userinfo' host' path', IsScpForm (host ++ ':' :: path) userinfo' host' path' := by
  constructor
  · rintro ⟨first, second, host, path, rfl, noAt, noSlash, noColonFirst, named, hostSlash, noColon⟩
    simp only [List.mem_append, not_or] at noAt noSlash
    cases cut : Text.splitOnce [':'] second with
    | none =>
      refine ⟨first, second ++ '@' :: host, path, ⟨by simp, noAt.1, noSlash.1, by simp, ?_, ?_⟩,
        second, host, path, by simp, noAt.2, noSlash.2, named, hostSlash, noColon⟩
      · simp [noSlash.2, hostSlash]
      · simp [Text.splitOnce_singleton_eq_none.mp cut, noColon]
    | some parts =>
      obtain ⟨front, back⟩ := parts
      obtain ⟨rfl, frontColon⟩ := Text.splitOnce_eq_some cut
      have second : front ≠ [] := fun empty => noColonFirst (by rw [empty]; rfl)
      refine ⟨first, front, back ++ '@' :: host ++ ':' :: path, ⟨by simp, noAt.1, noSlash.1, second, ?_, frontColon⟩,
        front ++ ':' :: back, host, path, by simp, noAt.2, noSlash.2, named, hostSlash, noColon⟩
      exact fun mem => noSlash.2 (List.mem_append_left _ mem)
  · rintro ⟨first, host, path, ⟨rfl, noAt, noSlash, named, -, hostColon⟩, second, host', path', form⟩
    obtain ⟨same, secondAt, secondSlash, named', hostSlash', hostColon'⟩ := form
    refine ⟨first, second, host', path', by rw [same]; simp, ?_, ?_, ?_, named', hostSlash', hostColon'⟩
    · simp [noAt, secondAt]
    · simp [noSlash, secondSlash]
    · intro colon
      cases second with
      | nil => cases colon
      | cons c second =>
        obtain rfl : c = ':' := Option.some.inj colon
        cases host with
        | nil => exact named rfl
        | cons d host => exact hostColon ((List.cons.inj same).1 ▸ List.mem_cons_self)

theorem IsScpForm.ne {identity userinfo host path : Text} (form : IsScpForm identity userinfo host path) :
    host ++ ':' :: path ≠ identity := by
  intro same
  have lengths := congrArg List.length (same.trans form.1)
  simp only [List.length_append, List.length_cons] at lengths
  omega

/-- What is left of another remote is left as it is, unless it is of the form again. -/
theorem withoutCredentials_idem_iff (noUrl : Text.splitOnce "://" identity = none) :
    (repositoryIdentityWithoutCredentials (repositoryIdentityWithoutCredentials identity) =
        repositoryIdentityWithoutCredentials identity ∧
      ¬ CarriesUserinfo (repositoryIdentityWithoutCredentials identity)) ↔ ¬ RepeatsUserinfo identity := by
  by_cases form : ∃ userinfo host path, IsScpForm identity userinfo host path
  · obtain ⟨userinfo, host, path, form⟩ := form
    have noUrl' : Text.splitOnce "://" (host ++ ':' :: path) = none := by
      rw [Text.splitOnce_eq_none] at noUrl ⊢
      exact fun occurs => noUrl (form.1 ▸ occurs.trans ⟨userinfo ++ ['@'], [], by simp⟩)
    rw [withoutCredentials_of_scpForm noUrl form]
    constructor
    · rintro ⟨fixed, -⟩ repeats
      obtain ⟨_, _, _, form', _, _, _, again⟩ := repeatsUserinfo_iff.mp repeats
      obtain ⟨-, rest⟩ := Prod.mk.inj (Option.mem_unique form.splitOnce.1 form'.splitOnce.1)
      rw [rest, withoutCredentials_of_scpForm (rest ▸ noUrl') again] at fixed
      exact again.ne fixed
    · intro single
      have other : ∀ userinfo' host' path', ¬ IsScpForm (host ++ ':' :: path) userinfo' host' path' :=
        fun _ _ _ again => single (repeatsUserinfo_iff.mpr ⟨_, _, _, form, _, _, _, again⟩)
      refine ⟨withoutCredentials_of_not_scpForm noUrl' other, fun carries => ?_⟩
      obtain ⟨_, _, _, again⟩ := scpForm_of_carriesUserinfo noUrl' carries
      exact other _ _ _ again
  · have other : ∀ userinfo host path, ¬ IsScpForm identity userinfo host path :=
      fun _ _ _ again => form ⟨_, _, _, again⟩
    have same := withoutCredentials_of_not_scpForm noUrl other
    rw [same]
    constructor
    · intro _ repeats
      obtain ⟨_, _, _, again, _⟩ := repeatsUserinfo_iff.mp repeats
      exact other _ _ _ again
    · intro _
      exact ⟨same, fun carries => form (scpForm_of_carriesUserinfo noUrl carries)⟩

/-- Removing credentials again changes nothing, and nothing is left to remove, exactly for the URLs and for the
other remotes in which no second user name follows the first. -/
theorem withoutCredentials_idempotent_iff (identity : Text) :
    (repositoryIdentityWithoutCredentials (repositoryIdentityWithoutCredentials identity) =
        repositoryIdentityWithoutCredentials identity ∧
      ¬ CarriesUserinfo (repositoryIdentityWithoutCredentials identity)) ↔
    "://" <:+: identity ∨ ¬ RepeatsUserinfo identity := by
  cases found : Text.splitOnce "://" identity with
  | none =>
    have noUrl := Text.splitOnce_eq_none.mp found
    rw [withoutCredentials_idem_iff found, or_iff_right noUrl]
  | some parts =>
    obtain ⟨scheme, rest⟩ := parts
    have url : "://" <:+: identity := ⟨scheme, rest, (Text.eq_of_splitOnce found).symm⟩
    exact iff_of_true (withoutCredentials_url_idem found) (.inl url)

/-- The second user name is left, and another removal takes it. -/
theorem withoutCredentials_leaves_second :
    repositoryIdentityWithoutCredentials "first@second@host:path" = "second@host:path" ∧
      CarriesUserinfo (repositoryIdentityWithoutCredentials "first@second@host:path") ∧
      repositoryIdentityWithoutCredentials (repositoryIdentityWithoutCredentials "first@second@host:path") ≠
        repositoryIdentityWithoutCredentials "first@second@host:path" := by
  have once : repositoryIdentityWithoutCredentials "first@second@host:path" = "second@host:path" := by
    decide +kernel
  have twice : repositoryIdentityWithoutCredentials "second@host:path" = "host:path" := by
    decide +kernel
  rw [once, twice]
  refine ⟨rfl, ⟨"second", "host", "path", rfl, ?_⟩, ?_⟩ <;> decide +kernel

end OrbitGraph.History
