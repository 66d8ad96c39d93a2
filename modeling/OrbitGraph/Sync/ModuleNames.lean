import OrbitGraph.Lib.Utf8Search
import OrbitGraph.Sync.ModulePath

/-!
The module-name tests on bytes.

`is_module_symbol` and `is_module_suffix` cut the compared name at an offset they compute from lengths in bytes. Here
such a cut fails inside a character, and the tests are shown never to fail and to be the plain comparisons.
-/

namespace OrbitGraph.Sync

open Lib Lib.Utf8

/-- `&text[index..]`; `none` where it panics. -/
def sliceFrom (text : Text) (index : Nat) : Option Text := (splitAtByte index text).map Prod.snd

/-- `&text[..index]`; `none` where it panics. -/
def sliceTo (text : Text) (index : Nat) : Option Text := (splitAtByte index text).map Prod.fst

namespace OnBytes

/-- `is_module_symbol`: the slice is made only where the tests before it hold. -/
def isModuleSymbol (target module symbol : Text) : Option Bool :=
  if module.isEmpty then some (target == symbol)
  else if Text.byteLen target = Text.byteLen module + 2 + Text.byteLen symbol && Text.startsWith module target then
    (sliceFrom target (Text.byteLen module)).map fun rest => Text.startsWith colons rest && Text.endsWith symbol target
  else some false

def isModuleSuffix (path module : Text) : Option Bool :=
  if Text.byteLen module + 2 ≤ Text.byteLen path && Text.endsWith module path then
    (sliceTo path (Text.byteLen path - Text.byteLen module)).map (Text.endsWith colons)
  else some false

end OnBytes

theorem byteLen_colons : Text.byteLen colons = 2 := rfl

theorem end_unique {front other s t : Text} (same : front ++ s = other ++ t) (size : Text.byteLen s = Text.byteLen t) :
    s = t := by
  have bytes : encode front ++ encode s = encode other ++ encode t := by
    rw [← encode_append, ← encode_append, same]
  rw [byteLen_eq, byteLen_eq] at size
  exact encode_injective (List.append_inj' bytes size).2

theorem sliceFrom_append (front back : Text) : sliceFrom (front ++ back) (Text.byteLen front) = some back := by
  rw [sliceFrom, byteLen_eq, splitAtByte_append]
  rfl

theorem sliceTo_append (front back : Text) :
    sliceTo (front ++ back) (Text.byteLen (front ++ back) - Text.byteLen back) = some front := by
  rw [sliceTo, Text.byteLen_append, Nat.add_sub_cancel, byteLen_eq, splitAtByte_append]
  rfl

section Tests

variable (target path module symbol : Text)

theorem isModuleSymbol_eq : OnBytes.isModuleSymbol target module symbol = some (isModuleSymbol target module symbol) := by
  unfold OnBytes.isModuleSymbol isModuleSymbol
  split_ifs with empty tested
  · rfl
  · obtain ⟨size, starts⟩ := Bool.and_eq_true_iff.mp tested
    obtain ⟨rest, rfl⟩ := Text.startsWith_iff.mp starts
    have stripped : Text.stripPrefix module (module ++ rest) = some rest := Text.stripPrefix_eq_some.mpr rfl
    rw [sliceFrom_append, stripped, Option.map_some, beq_iff_eq.mpr (of_decide_eq_true size), Bool.true_and]
  · cases stripped : Text.stripPrefix module target with
    | none => simp
    | some rest =>
      have starts : Text.startsWith module target = true :=
        Text.startsWith_iff.mpr ⟨rest, Text.stripPrefix_eq_some.mp stripped⟩
      rw [starts, Bool.and_true, decide_eq_true_eq] at tested
      simp [tested]

theorem isModuleSuffix_eq : OnBytes.isModuleSuffix path module = some (isModuleSuffix path module) := by
  unfold OnBytes.isModuleSuffix isModuleSuffix
  split_ifs with tested
  · obtain ⟨size, ends⟩ := Bool.and_eq_true_iff.mp tested
    obtain ⟨rest, rfl⟩ := Text.endsWith_iff.mp ends
    have stripped : Text.stripSuffix module (rest ++ module) = some rest := Text.stripSuffix_eq_some.mpr rfl
    rw [sliceTo_append, stripped, Option.map_some, size, Bool.true_and]
  · cases stripped : Text.stripSuffix module path with
    | none => simp
    | some rest =>
      have ends : Text.endsWith module path = true := Text.endsWith_iff.mpr ⟨rest, Text.stripSuffix_eq_some.mp stripped⟩
      rw [ends, Bool.and_true] at tested
      simp [tested]

theorem isModuleSymbol_iff : isModuleSymbol target module symbol = true ↔ target = joinModuleSymbol module symbol := by
  unfold isModuleSymbol joinModuleSymbol
  split_ifs with empty
  · exact beq_iff_eq
  · constructor
    · intro holds
      simp only [Bool.and_eq_true, beq_iff_eq] at holds
      obtain ⟨⟨size, middle⟩, ends⟩ := holds
      split at middle
      next rest stripped =>
        obtain rfl := Text.stripPrefix_eq_some.mp stripped
        obtain ⟨last, rfl⟩ := Text.startsWith_iff.mp middle
        obtain ⟨front, same⟩ := Text.endsWith_iff.mp ends
        rw [← List.append_assoc] at same ⊢
        have sizes : Text.byteLen last = Text.byteLen symbol := by
          simp only [Text.byteLen_append, byteLen_colons] at size
          omega
        rw [end_unique same sizes]
      next => cases middle
    · rintro rfl
      have stripped : Text.stripPrefix module (module ++ colons ++ symbol) = some (colons ++ symbol) :=
        Text.stripPrefix_eq_some.mpr (List.append_assoc ..)
      have starts : Text.startsWith colons (colons ++ symbol) = true := Text.startsWith_iff.mpr ⟨symbol, rfl⟩
      have ends : Text.endsWith symbol (module ++ colons ++ symbol) = true := Text.endsWith_iff.mpr ⟨_, rfl⟩
      simp only [stripped, starts, ends, Text.byteLen_append, byteLen_colons, beq_self_eq_true, Bool.and_self]

theorem isModuleSuffix_iff : isModuleSuffix path module = true ↔ ∃ front, path = front ++ (colons ++ module) := by
  unfold isModuleSuffix
  rw [Bool.and_eq_true, decide_eq_true_eq]
  constructor
  · rintro ⟨-, behind⟩
    split at behind
    next rest stripped =>
      obtain rfl := Text.stripSuffix_eq_some.mp stripped
      obtain ⟨front, rfl⟩ := Text.endsWith_iff.mp behind
      exact ⟨front, List.append_assoc ..⟩
    next => cases behind
  · rintro ⟨front, rfl⟩
    have stripped : Text.stripSuffix module (front ++ (colons ++ module)) = some (front ++ colons) :=
      Text.stripSuffix_eq_some.mpr (List.append_assoc ..).symm
    rw [stripped]
    refine ⟨?_, Text.endsWith_iff.mpr ⟨front, rfl⟩⟩
    simp only [Text.byteLen_append, byteLen_colons]
    omega

end Tests

/-- Whatever components a module path is joined of, the two tests cut no character in two, the first holds exactly of
the symbol in that module and the second exactly of what ends in `::` and that path. -/
theorem moduleNames_exact (components : List Text) (target path symbol : Text) :
    (∃ answer, OnBytes.isModuleSymbol target (Text.join colons components) symbol = some answer ∧
        (answer = true ↔ target = joinModuleSymbol (Text.join colons components) symbol)) ∧
      ∃ answer, OnBytes.isModuleSuffix path (Text.join colons components) = some answer ∧
        (answer = true ↔ ∃ front, path = front ++ (colons ++ Text.join colons components)) :=
  ⟨⟨_, isModuleSymbol_eq target _ symbol, isModuleSymbol_iff target _ symbol⟩,
    ⟨_, isModuleSuffix_eq path _, isModuleSuffix_iff path _⟩⟩

end OrbitGraph.Sync
