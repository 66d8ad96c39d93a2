import OrbitGraph.CodeIndex.Names

/-!
The names of cached symbol tables.

A name says which extractor the table is of and which tree. A prune recognises a table
and its temporary files by parsing their names, and what it recognises are exactly the
names that the cache gives, of this version of the program or of another.
-/

namespace OrbitGraph.Recommend

open Lib History CodeIndex

def targetSymbolCachePrefix : Text := "recommend-target."

/-! ### Decimal numbers -/

def IsDigits (value : Text) : Prop := value ≠ [] ∧ value.all Char.isDigit = true

instance (value : Text) : Decidable (IsDigits value) := inferInstanceAs (Decidable (_ ∧ _))

/-- `decimal`: a number without leading zeros. -/
def parseDecimal (width : Nat) (value : Text) : Option Nat :=
  if IsDigits value ∧ (value = ['0'] ∨ value.head? ≠ some '0') then parseUnsigned width value else none

theorem digitsValue_concat (digits : Text) (c : Char) :
    digitsValue (digits ++ [c]) = digitsValue digits * 10 + (c.toNat - '0'.toNat) := by
  rw [digitsValue, List.foldl_append]
  rfl

theorem digitChar_of_isDigit {c : Char} (digit : c.isDigit = true) :
    c.toNat - '0'.toNat < 10 ∧ (c.toNat - '0'.toNat).digitChar = c := by
  have bounds : '0'.toNat ≤ c.toNat ∧ c.toNat ≤ '9'.toNat := by
    simpa [Char.isDigit, UInt32.le_iff_toNat_le] using digit
  obtain ⟨n, value⟩ := Nat.exists_eq_add_of_le bounds.1
  have small : n < 10 := by
    have nine : '9'.toNat = '0'.toNat + 9 := rfl
    omega
  have digits : ∀ m < 10, m.digitChar = Char.ofNat ('0'.toNat + m) := by decide
  rw [value, Nat.add_sub_cancel_left, digits n small, ← value, Char.ofNat_toNat]
  exact ⟨small, rfl⟩

/-- Digits that do not begin with a zero are those of their value, which is not zero … -/
theorem decimal_digitsValue {digits : Text} (nonempty : digits ≠ []) (isDigits : digits.all Char.isDigit = true)
    (head : digits.head? ≠ some '0') : 0 < digitsValue digits ∧ decimal (digitsValue digits) = digits := by
  induction digits using List.reverseRecOn with
  | nil => exact absurd rfl nonempty
  | append_singleton digits c ih =>
    simp only [List.all_append, Bool.and_eq_true, List.all_cons, List.all_nil, Bool.and_true] at isDigits
    obtain ⟨small, same⟩ := digitChar_of_isDigit isDigits.2
    rw [digitsValue_concat]
    cases digits with
    | nil =>
      have positive : 0 < c.toNat - '0'.toNat := by
        refine Nat.pos_of_ne_zero fun zero => head ?_
        rw [zero] at same
        rw [← same]
        rfl
      refine ⟨by omega, ?_⟩
      have value : digitsValue [] * 10 + (c.toNat - '0'.toNat) = c.toNat - '0'.toNat := by
        rw [digitsValue, List.foldl_nil]
        omega
      rw [value, decimal, Nat.toDigits_of_lt_base small, same, List.nil_append]
    | cons d digits =>
      obtain ⟨positive, written⟩ := ih (List.cons_ne_nil d digits) isDigits.1 head
      refine ⟨by omega, ?_⟩
      rw [decimal, Nat.mul_comm, ← Nat.toDigits_append_toDigits (by decide) positive small,
        Nat.toDigits_of_lt_base small, same]
      exact congrArg (· ++ [c]) written

/-- A number is written without leading zeros. -/
theorem unpadded_decimal (n : Nat) : decimal n = ['0'] ∨ (decimal n).head? ≠ some '0' := by
  induction n using Nat.strongRecOn with
  | _ n ih =>
    by_cases small : n < 10
    · have digits : ∀ m < 10, decimal m = ['0'] ∨ (decimal m).head? ≠ some '0' := by decide
      exact digits n small
    · have split : decimal n = decimal (n / 10) ++ [(n % 10).digitChar] :=
        Nat.toDigits_of_base_le (by decide) (by omega)
      have front : decimal (n / 10) ≠ ['0'] := by
        intro zero
        have value := digitsValue_decimal (n / 10)
        rw [zero] at value
        have : digitsValue ['0'] = 0 := rfl
        omega
      rw [split]
      rcases ih (n / 10) (by omega) with zero | head
      · exact absurd zero front
      · refine .inr ?_
        rw [List.head?_append_of_ne_nil _ (decimal_ne_nil _)]
        exact head

/-- … and what has no leading zeros is parsed if it is how a number is written. -/
theorem parseDecimal_eq_some {width n : Nat} {value : Text} :
    parseDecimal width value = some n ↔ value = decimal n ∧ n < 2 ^ width := by
  constructor
  · intro parsed
    unfold parseDecimal at parsed
    split at parsed
    next valid =>
      obtain ⟨⟨nonempty, isDigits⟩, unpadded⟩ := valid
      have written : decimal (digitsValue value) = value := by
        rcases unpadded with rfl | head
        · decide
        · exact (decimal_digitsValue nonempty isDigits head).2
      rw [parseUnsigned_of_isDigit nonempty isDigits] at parsed
      split at parsed
      next small =>
        obtain rfl := Option.some.inj parsed
        exact ⟨written.symm, small⟩
      next => cases parsed
    next => cases parsed
  · rintro ⟨rfl, small⟩
    have isDigits : IsDigits (decimal n) :=
      ⟨decimal_ne_nil n, List.all_eq_true.mpr fun c mem => decimal_isDigit mem⟩
    unfold parseDecimal
    rw [if_pos ⟨isDigits, unpadded_decimal n⟩, parseUnsigned_decimal small]

/-! ### Names -/

inductive TargetSymbolCacheName where
  | entry (extractorVersion : Nat)
  | temp (extractorVersion pid : Nat)

/-- Whether a part of a name is the id of a tree. -/
def isTreeOid (tree : Text) : Bool := tree.byteLen = 40 && tree.all (· ∈ hexDigits)

def parseTargetSymbolCacheName (name : Text) : Option TargetSymbolCacheName := do
  let rest ← Text.stripPrefix targetSymbolCachePrefix name
  let (version, rest) ← Text.splitOnce ['.'] rest
  let extractorVersion ← parseDecimal 32 version
  let (tree, suffix) ← Text.splitOnce ['.'] rest
  if isTreeOid tree then
    if suffix = "json" then some (.entry extractorVersion)
    -- Writers of an earlier time gave their temporary files no sequence number.
    else ((atomicWriteTempPid suffix "json").or
      ((Text.stripPrefix "json.tmp-" suffix).bind (parseDecimal 32))).map (.temp extractorVersion)
  else none

/-- `target_symbol_cache_path`: the name of a tree's table in the cache directory. -/
def targetSymbolCacheName (extractorVersion : UInt32) (tree : Oid) : Text :=
  targetSymbolCachePrefix ++ (decimal extractorVersion.toNat ++ '.' :: (tree.hex ++ '.' :: "json"))

/-- What follows the name of a file in that of a temporary file: the process that writes it, and a
sequence number, which earlier writers left out. -/
inductive TempNumber (pid : Nat) : Text → Prop where
  | current {digits sequence : Text} :
      IsDigits digits → IsDigits sequence → digitsValue digits = pid → TempNumber pid (digits ++ '-' :: sequence)
  | legacy : TempNumber pid (decimal pid)

/-- The names of the cache, of any version of the extractors: those of the tables, and those of
their temporary files. -/
inductive Grammar : TargetSymbolCacheName → Text → Prop where
  | entry (version : UInt32) (tree : Oid) : Grammar (.entry version.toNat) (targetSymbolCacheName version tree)
  | temp (version pid : UInt32) (tree : Oid) {number : Text} :
      TempNumber pid.toNat number →
      Grammar (.temp version.toNat pid.toNat) (targetSymbolCacheName version tree ++ (".tmp-" ++ number))

/-! ### Recognition -/

theorem byteLen_of_hexDigits {digits : Text} (hex : ∀ c ∈ digits, c ∈ hexDigits) : digits.byteLen = digits.length := by
  have one : ∀ c ∈ hexDigits, c.utf8Size = 1 := fun c mem => by
    have all : hexDigits.all (fun c => decide (c.utf8Size = 1)) = true := by decide
    exact of_decide_eq_true (List.all_eq_true.mp all c mem)
  unfold Text.byteLen
  induction digits with
  | nil => rfl
  | cons c digits ih =>
    rw [List.map_cons, List.sum_cons, one c (hex c List.mem_cons_self),
      ih fun d mem => hex d (List.mem_cons_of_mem _ mem), List.length_cons, Nat.add_comm]

theorem isTreeOid_iff {tree : Text} : isTreeOid tree = true ↔ ∃ oid : Oid, oid.hex = tree := by
  unfold isTreeOid
  rw [Bool.and_eq_true, decide_eq_true_eq, List.all_eq_true]
  constructor
  · rintro ⟨length, hex⟩
    have hex : ∀ c ∈ tree, c ∈ hexDigits := fun c mem => of_decide_eq_true (hex c mem)
    exact ⟨⟨tree, (byteLen_of_hexDigits hex).symm.trans length, hex⟩, rfl⟩
  · rintro ⟨⟨hex, length, digits⟩, rfl⟩
    exact ⟨(byteLen_of_hexDigits digits).trans length, fun c mem => decide_eq_true (digits c mem)⟩

theorem dot_not_mem_decimal (n : Nat) : '.' ∉ decimal n := by
  intro mem
  cases decimal_isDigit mem

theorem dot_not_mem_hex (tree : Oid) : '.' ∉ tree.hex := by
  intro mem
  have none : '.' ∉ hexDigits := by decide
  exact none (tree.wellFormed.2 _ mem)

/-- The number of a temporary file is read from what follows the file's name … -/
theorem tempNumber_of_parsed {suffix : Text} {pid : Nat}
    (parsed : (atomicWriteTempPid suffix "json").or
      ((Text.stripPrefix "json.tmp-" suffix).bind (parseDecimal 32)) = some pid) :
    pid < 2 ^ 32 ∧ ∃ number, suffix = "json" ++ (".tmp-" ++ number) ∧ TempNumber pid number := by
  rcases Option.or_eq_some_iff.mp parsed with current | ⟨-, legacy⟩
  · obtain ⟨rest, start, afterName⟩ := Option.bind_eq_some_iff.mp current
    obtain ⟨number, next, afterMark⟩ := Option.bind_eq_some_iff.mp afterName
    obtain ⟨⟨digits, sequence⟩, parts, found⟩ := Option.bind_eq_some_iff.mp afterMark
    obtain ⟨rfl, -⟩ := Text.splitOnce_eq_some parts
    dsimp only at found
    split at found
    next valid =>
      rw [parseUnsigned_of_isDigit valid.1.1 valid.1.2] at found
      split at found
      next small =>
        obtain rfl := Option.some.inj found
        refine ⟨small, digits ++ '-' :: sequence, ?_, .current valid.1 valid.2 rfl⟩
        rw [Text.stripPrefix_eq_some.mp start, Text.stripPrefix_eq_some.mp next]
        rfl
      next => cases found
    next => cases found
  · obtain ⟨number, start, found⟩ := Option.bind_eq_some_iff.mp legacy
    obtain ⟨rfl, small⟩ := parseDecimal_eq_some.mp found
    have whole : suffix = "json.tmp-" ++ decimal pid := Text.stripPrefix_eq_some.mp start
    exact ⟨small, _, whole, .legacy⟩

/-- … whatever its form. -/
theorem parsed_of_tempNumber {pid : Nat} {number : Text} (small : pid < 2 ^ 32) (isNumber : TempNumber pid number) :
    (atomicWriteTempPid ("json" ++ (".tmp-" ++ number)) "json").or
      ((Text.stripPrefix "json.tmp-" ("json" ++ (".tmp-" ++ number))).bind (parseDecimal 32)) =
      some pid := by
  have start : Text.stripPrefix "json" ("json" ++ (".tmp-" ++ number)) =
      some (".tmp-" ++ number) := Text.stripPrefix_eq_some.mpr rfl
  have next : Text.stripPrefix ".tmp-" (".tmp-" ++ number) = some number :=
    Text.stripPrefix_eq_some.mpr rfl
  have noDash : ∀ {digits : Text}, digits.all Char.isDigit = true → '-' ∉ digits := fun isDigits mem => by
    cases List.all_eq_true.mp isDigits '-' mem
  cases isNumber with
  | @current digits sequence isDigits isSequence value =>
    have split : Text.splitOnce "-" (digits ++ '-' :: sequence) = some (digits, sequence) :=
      Text.splitOnce_of_not_mem (noDash isDigits.2) sequence
    refine Option.or_eq_some_iff.mpr (.inl ?_)
    simp only [atomicWriteTempPid, start, next, split, Option.bind_eq_bind, Option.bind_some]
    rw [if_pos ⟨isDigits, isSequence⟩, parseUnsigned_of_isDigit isDigits.1 isDigits.2, value, if_pos small]
  | legacy =>
    have whole : Text.splitOnce "-" (decimal pid) = none := by
      refine Option.eq_none_iff_forall_ne_some.mpr fun parts split => ?_
      have mem : '-' ∈ decimal pid := by
        rw [(Text.splitOnce_eq_some split).1]
        exact List.mem_append_right _ List.mem_cons_self
      cases decimal_isDigit mem
    have both : Text.stripPrefix "json.tmp-" ("json" ++ (".tmp-" ++ decimal pid)) =
        some (decimal pid) := Text.stripPrefix_eq_some.mpr rfl
    refine Option.or_eq_some_iff.mpr (.inr ⟨?_, ?_⟩)
    · simp only [atomicWriteTempPid, start, next, whole, Option.bind_eq_bind, Option.bind_some, Option.bind_none]
    · rw [both, Option.bind_some, parseDecimal_eq_some.mpr ⟨rfl, small⟩]

theorem parse_parts (version : UInt32) (tree : Oid) (suffix : Text) :
    parseTargetSymbolCacheName
        (targetSymbolCachePrefix ++ (decimal version.toNat ++ '.' :: (tree.hex ++ '.' :: suffix))) =
      if suffix = "json" then some (.entry version.toNat)
      else ((atomicWriteTempPid suffix "json").or
        ((Text.stripPrefix "json.tmp-" suffix).bind (parseDecimal 32))).map (.temp version.toNat) := by
  have start : Text.stripPrefix targetSymbolCachePrefix
      (targetSymbolCachePrefix ++ (decimal version.toNat ++ '.' :: (tree.hex ++ '.' :: suffix))) =
      some (decimal version.toNat ++ '.' :: (tree.hex ++ '.' :: suffix)) := Text.stripPrefix_eq_some.mpr rfl
  have number : parseDecimal 32 (decimal version.toNat) = some version.toNat :=
    parseDecimal_eq_some.mpr ⟨rfl, version.toNat_lt⟩
  have isTree : isTreeOid tree.hex = true := isTreeOid_iff.mpr ⟨tree, rfl⟩
  simp only [parseTargetSymbolCacheName, start, number, isTree, Text.splitOnce_of_not_mem (dot_not_mem_decimal _),
    Text.splitOnce_of_not_mem (dot_not_mem_hex tree), Option.bind_eq_bind, Option.bind_some, if_true]

theorem parseTargetSymbolCacheName_eq_some {name : Text} {found : TargetSymbolCacheName} :
    parseTargetSymbolCacheName name = some found ↔ Grammar found name := by
  constructor
  · intro parsed
    obtain ⟨rest, start, afterPrefix⟩ := Option.bind_eq_some_iff.mp parsed
    obtain ⟨⟨version, rest'⟩, splitVersion, afterVersion⟩ := Option.bind_eq_some_iff.mp afterPrefix
    obtain ⟨extractorVersion, number, afterNumber⟩ := Option.bind_eq_some_iff.mp afterVersion
    obtain ⟨⟨tree, suffix⟩, splitTree, whole⟩ := Option.bind_eq_some_iff.mp afterNumber
    dsimp only at number splitTree whole
    obtain ⟨written, small⟩ := parseDecimal_eq_some.mp number
    obtain ⟨v, rfl⟩ : ∃ v : UInt32, v.toNat = extractorVersion :=
      ⟨UInt32.ofNat extractorVersion, UInt32.toNat_ofNat_of_lt' small⟩
    split at whole
    next isTree =>
      obtain ⟨oid, rfl⟩ := isTreeOid_iff.mp isTree
      have shape : name = targetSymbolCachePrefix ++ (decimal v.toNat ++ '.' :: (oid.hex ++ '.' :: suffix)) := by
        rw [Text.stripPrefix_eq_some.mp start, (Text.splitOnce_eq_some splitVersion).1, written,
          (Text.splitOnce_eq_some splitTree).1]
      split at whole
      next isEntry =>
        obtain rfl := Option.some.inj whole
        rw [shape, isEntry]
        exact .entry v oid
      next =>
        obtain ⟨pid, parsedPid, rfl⟩ := Option.map_eq_some_iff.mp whole
        obtain ⟨smallPid, number, rfl, isNumber⟩ := tempNumber_of_parsed parsedPid
        obtain ⟨p, rfl⟩ : ∃ p : UInt32, p.toNat = pid := ⟨UInt32.ofNat pid, UInt32.toNat_ofNat_of_lt' smallPid⟩
        have name : name = targetSymbolCacheName v oid ++ (".tmp-" ++ number) := by
          rw [shape]
          simp [targetSymbolCacheName]
        rw [name]
        exact .temp v p oid isNumber
    next => cases whole
  · intro isName
    cases isName with
    | entry version tree => exact (parse_parts version tree _).trans (if_pos rfl)
    | @temp version pid tree number isNumber =>
      have shape : targetSymbolCacheName version tree ++ (".tmp-" ++ number) = targetSymbolCachePrefix ++
          (decimal version.toNat ++ '.' :: (tree.hex ++ '.' :: ("json" ++ (".tmp-" ++ number)))) := by
        simp [targetSymbolCacheName]
      have longer : "json" ++ (".tmp-" ++ number) ≠ "json" := by simp
      rw [shape, parse_parts, if_neg longer, parsed_of_tempNumber pid.toNat_lt isNumber]
      rfl

theorem targetSymbolCacheName_injective {v w : UInt32} {s t : Oid}
    (same : targetSymbolCacheName v s = targetSymbolCacheName w t) : v = w ∧ s = t := by
  have rest := List.append_cancel_left same
  have version := Prod.mk.inj (Option.some.inj ((Text.splitOnce_of_not_mem (dot_not_mem_decimal v.toNat) _).symm.trans
    ((congrArg _ rest).trans (Text.splitOnce_of_not_mem (dot_not_mem_decimal w.toNat) _))))
  have tree := Prod.mk.inj (Option.some.inj ((Text.splitOnce_of_not_mem (dot_not_mem_hex s) _).symm.trans
    ((congrArg _ version.2).trans (Text.splitOnce_of_not_mem (dot_not_mem_hex t) _))))
  refine ⟨UInt32.toNat_inj.mp ?_, ?_⟩
  · rw [← digitsValue_decimal v.toNat, ← digitsValue_decimal w.toNat, version.1]
  · cases s
    cases t
    obtain rfl := tree.1
    rfl

end OrbitGraph.Recommend
