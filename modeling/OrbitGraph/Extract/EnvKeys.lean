import Mathlib.Data.List.DropRight
import OrbitGraph.History.Extraction
import OrbitGraph.Lib.Pieces

/-!
The keys of a `.env` file, read line by line.

The scan takes what is before the first `:` of a line for the key, and only on a line without
one what is before the first `=`. A value can contain a `:`, and then its line has no key.
So the keys are those of the layout, which is the file without its values, exactly if no
value contains one.

Which characters are letters or digits is a parameter.
-/

namespace OrbitGraph.Extract

open Lib

structure RawConfig where
  filePath : Text
  line : Nat
  key : Text
  kind : Text
  deriving DecidableEq

/-- `char::is_alphanumeric`; no separator is one. -/
structure Alphanumeric where
  holds : Char → Bool
  colon : holds ':' = false
  equals : holds '=' = false

section Scan

variable (alphanumeric : Alphanumeric)

def keyChar (c : Char) : Bool := alphanumeric.holds c || c = '_' || c = '-' || c = '.'

/-- The key that `scan_keys` reads on a line. -/
def scanKey (line : Text) : Option Text :=
  let t := Text.trimStart line
  match Text.splitOnce [':'] t with
  | some (before, _) =>
    let key := Text.trim before
    if key ≠ [] ∧ key.all (keyChar alphanumeric) = true then some key else none
  | none =>
    match Text.splitOnce ['='] t with
    | some (before, _) =>
      let key := Text.trim before
      if key ≠ [] then some key else none
    | none => none

def rowsOf {α : Type} (key : α → Option Text) (lines : List α) (filePath kind : Text) : List RawConfig :=
  lines.zipIdx.filterMap fun entry => (key entry.1).map fun key => ⟨filePath, entry.2 + 1, key, kind⟩

def scanKeys (source filePath kind : Text) : List RawConfig :=
  rowsOf (scanKey alphanumeric) (History.lines source) filePath kind

/-! ### Layout -/

/-- What is assigned on a line: the text before the first `=`, which has a name, and the value. -/
def assignment (line : Text) : Option (Text × Text) :=
  match Text.splitOnce ['='] line with
  | some (front, value) =>
    if Text.trim front ≠ [] ∧ (Text.trim front).all (keyChar alphanumeric) = true then some (front, value) else none
  | none => none

/-- A line without its value. -/
inductive LineLayout where
  | assigns (front : Text)
  | other (line : Text)
  deriving DecidableEq

def layoutOf (line : Text) : LineLayout :=
  match assignment alphanumeric line with
  | some (front, _) => .assigns front
  | none => .other line

def layout (source : Text) : List LineLayout := (History.lines source).map (layoutOf alphanumeric)

/-- The key of a line: the name of an assignment, also where the scan reads none. -/
def layoutKey : LineLayout → Option Text
  | .assigns front => some (Text.trim front)
  | .other line => scanKey alphanumeric line

def layoutRows (lines : List LineLayout) (filePath kind : Text) : List RawConfig :=
  rowsOf (layoutKey alphanumeric) lines filePath kind

/-- No value that is assigned contains a `:`. -/
def PlainValues (source : Text) : Prop :=
  ∀ line ∈ History.lines source, ∀ front value, assignment alphanumeric line = some (front, value) → ':' ∉ value

end Scan

section Line

variable {alphanumeric : Alphanumeric}

theorem trimStart_append {front : Text} {c : Char} (visible : Text.isWhitespace c = false) (rest : Text) :
    Text.trimStart (front ++ c :: rest) = Text.trimStart front ++ c :: rest := by
  induction front with
  | nil =>
    change List.dropWhile _ (c :: rest) = c :: rest
    rw [List.dropWhile_cons_of_neg (by rw [visible]; exact Bool.false_ne_true)]
  | cons d front ih =>
    unfold Text.trimStart at *
    rw [List.cons_append, List.dropWhile_cons, List.dropWhile_cons]
    split_ifs
    · exact ih
    · rfl

theorem trim_trimStart (s : Text) : Text.trim (Text.trimStart s) = Text.trim s := by
  unfold Text.trim Text.trimStart
  rw [List.dropWhile_idempotent]

theorem not_mem_trim_of_all {s : Text} {c : Char} (visible : Text.isWhitespace c = false)
    (separator : keyChar alphanumeric c = false) (all : (Text.trim s).all (keyChar alphanumeric) = true) : c ∉ s := by
  intro mem
  rw [List.all_eq_true.mp all c (Text.mem_trim mem visible)] at separator
  cases separator

theorem keyChar_colon : keyChar alphanumeric ':' = false := by
  unfold keyChar
  rw [alphanumeric.colon]
  rfl

theorem keyChar_equals : keyChar alphanumeric '=' = false := by
  unfold keyChar
  rw [alphanumeric.equals]
  rfl

theorem assignment_eq_some {line front value : Text} : assignment alphanumeric line = some (front, value) ↔
      Text.splitOnce ['='] line = some (front, value) ∧ Text.trim front ≠ [] ∧
        (Text.trim front).all (keyChar alphanumeric) = true := by
  unfold assignment
  cases Text.splitOnce ['='] line with
  | none => simp
  | some parts =>
    obtain ⟨front', value'⟩ := parts
    dsimp only
    split_ifs with named
    · constructor
      · intro same
        obtain ⟨rfl, rfl⟩ := Prod.mk.inj (Option.some.inj same)
        exact ⟨rfl, named⟩
      · rintro ⟨same, -⟩
        exact same
    · constructor
      · intro same
        cases same
      · rintro ⟨same, given⟩
        obtain ⟨rfl, rfl⟩ := Prod.mk.inj (Option.some.inj same)
        exact absurd given named

/-- The scan reads the name of an assignment exactly if the value has no `:`. -/
theorem scanKey_of_assignment {line front value : Text} (assigned : assignment alphanumeric line = some (front, value)) :
    scanKey alphanumeric line = if ':' ∈ value then none else some (Text.trim front) := by
  obtain ⟨split, some, named⟩ := assignment_eq_some.mp assigned
  obtain ⟨rfl, noEquals⟩ := Text.splitOnce_eq_some split
  have noColon := not_mem_trim_of_all (by decide) keyChar_colon named
  have front_sublist : (Text.trimStart front).Sublist front := List.dropWhile_sublist _
  have started : Text.trimStart (front ++ '=' :: value) = Text.trimStart front ++ '=' :: value :=
    trimStart_append (by decide) value
  have colonFree : ':' ∉ Text.trimStart front := fun mem => noColon (front_sublist.subset mem)
  unfold scanKey
  dsimp only
  rw [started]
  split_ifs with colon
  · obtain ⟨before, after, rfl, absent⟩ := List.eq_append_cons_of_mem colon
    have cut : Text.splitOnce [':'] (Text.trimStart front ++ '=' :: (before ++ ':' :: after)) =
        Option.some (Text.trimStart front ++ '=' :: before, after) := by
      have whole : Text.trimStart front ++ '=' :: (before ++ ':' :: after) =
          (Text.trimStart front ++ '=' :: before) ++ ':' :: after := by
        rw [List.append_assoc, List.cons_append]
      rw [whole]
      refine Text.splitOnce_of_not_mem (fun mem => ?_) after
      rcases List.mem_append.mp mem with early | late
      · exact colonFree early
      · rcases List.mem_cons.mp late with same | later
        · cases same
        · exact absent later
    rw [cut]
    refine if_neg fun given => ?_
    have inside : '=' ∈ Text.trimStart front ++ '=' :: before := List.mem_append_right _ List.mem_cons_self
    exact not_mem_trim_of_all (by decide) keyChar_equals given.2 inside
  · have none : Text.splitOnce [':'] (Text.trimStart front ++ '=' :: value) = Option.none := by
      rw [Text.splitOnce_singleton_eq_none, List.mem_append, List.mem_cons]
      rintro (early | same | late)
      · exact colonFree early
      · cases same
      · exact colon late
    have cut : Text.splitOnce ['='] (Text.trimStart front ++ '=' :: value) = Option.some (Text.trimStart front, value) :=
      Text.splitOnce_of_not_mem (fun mem => noEquals (front_sublist.subset mem)) value
    rw [none, cut]
    dsimp only
    rw [trim_trimStart, if_pos some]

theorem scanKey_eq_layoutKey_iff (line : Text) :
    scanKey alphanumeric line = layoutKey alphanumeric (layoutOf alphanumeric line) ↔
      ∀ front value, assignment alphanumeric line = some (front, value) → ':' ∉ value := by
  unfold layoutOf
  cases assigned : assignment alphanumeric line with
  | none =>
    refine iff_of_true rfl fun front value same => ?_
    cases same
  | some parts =>
    obtain ⟨front, value⟩ := parts
    rw [scanKey_of_assignment assigned]
    dsimp only [layoutKey]
    split_ifs with colon
    · refine iff_of_false nofun fun plain => plain front value rfl colon
    · refine iff_of_true rfl fun front' value' same => ?_
      obtain ⟨rfl, rfl⟩ := Prod.mk.inj (Option.some.inj same)
      exact colon

theorem isSome_layoutKey {line : Text} (read : (scanKey alphanumeric line).isSome) :
    (layoutKey alphanumeric (layoutOf alphanumeric line)).isSome := by
  unfold layoutOf
  cases assigned : assignment alphanumeric line with
  | none => exact read
  | some parts => rfl

end Line

section File

variable {alphanumeric : Alphanumeric}

/-- The rows are those of the layout exactly if no value has a `:`. -/
theorem scanKeys_eq_layoutRows_iff (source filePath kind : Text) : scanKeys alphanumeric source filePath kind =
        layoutRows alphanumeric (layout alphanumeric source) filePath kind ↔ PlainValues alphanumeric source := by
  have mapped : layoutRows alphanumeric (layout alphanumeric source) filePath kind =
      rowsOf (fun line => layoutKey alphanumeric (layoutOf alphanumeric line)) (History.lines source) filePath kind := by
    unfold layoutRows layout rowsOf
    rw [List.zipIdx_map, List.filterMap_map]
    rfl
  rw [mapped]
  unfold scanKeys rowsOf PlainValues
  rw [eq_comm, filterMap_eq_filterMap_iff]
  · constructor
    · intro same line mem
      obtain ⟨i, here⟩ := List.mem_iff_getElem?.mp mem
      have row := same (line, i) (List.mem_zipIdx_iff_getElem?.mpr here)
      refine (scanKey_eq_layoutKey_iff line).mp (Option.map_injective (fun _ _ equal => ?_) row.symm)
      exact (RawConfig.mk.inj equal).2.2.1
    · intro plain entry mem
      rw [(scanKey_eq_layoutKey_iff entry.1).mpr (plain entry.1 (List.fst_mem_of_mem_zipIdx mem))]
  · intro entry _ read
    rw [Option.isSome_map] at read ⊢
    exact isSome_layoutKey read

/-- The keys of two files do not depend on their values: both have the rows of their layouts, and where these are the
same they have the same rows. -/
def KeysWithoutValues (alphanumeric : Alphanumeric) (a b filePath kind : Text) : Prop :=
  scanKeys alphanumeric a filePath kind = layoutRows alphanumeric (layout alphanumeric a) filePath kind ∧
    scanKeys alphanumeric b filePath kind = layoutRows alphanumeric (layout alphanumeric b) filePath kind ∧
    scanKeys alphanumeric a filePath kind = scanKeys alphanumeric b filePath kind

/-- Of two files with one layout, the keys do not depend on the values exactly if no value has a `:`. -/
theorem keysWithoutValues_iff (alphanumeric : Alphanumeric) {a b : Text} (filePath kind : Text)
    (same : layout alphanumeric a = layout alphanumeric b) :
    KeysWithoutValues alphanumeric a b filePath kind ↔ PlainValues alphanumeric a ∧ PlainValues alphanumeric b := by
  unfold KeysWithoutValues
  rw [scanKeys_eq_layoutRows_iff, scanKeys_eq_layoutRows_iff]
  constructor
  · rintro ⟨left, right, -⟩
    exact ⟨left, right⟩
  · rintro ⟨left, right⟩
    refine ⟨left, right, ?_⟩
    rw [(scanKeys_eq_layoutRows_iff a filePath kind).mpr left, (scanKeys_eq_layoutRows_iff b filePath kind).mpr right,
      same]

end File

namespace Sample

def ascii : Alphanumeric where
  holds := Char.isAlphanum
  colon := by decide
  equals := by decide

/-- An address has a `:`, and so its name has no row. -/
theorem address_without_key :
    layout ascii "DB=http://db\n" = layout ascii "DB=db\n" ∧
      scanKeys ascii "DB=http://db\n" ".env" "env" = [] ∧
      scanKeys ascii "DB=db\n" ".env" "env" = [⟨".env", 1, "DB", "env"⟩] ∧
      ¬ KeysWithoutValues ascii "DB=http://db\n" "DB=db\n" ".env" "env" := by
  have none : scanKeys ascii "DB=http://db\n" ".env" "env" = [] := by decide +kernel
  have one : scanKeys ascii "DB=db\n" ".env" "env" =
      [⟨".env", 1, "DB", "env"⟩] := by
    decide +kernel
  refine ⟨by decide +kernel, none, one, ?_⟩
  rintro ⟨-, -, same⟩
  rw [none, one] at same
  cases same

/-- Without one, the name has its row whatever the value. -/
theorem keysWithoutValues_plain :
    KeysWithoutValues ascii "A_1 = x=y # z\n" "A_1 = secret\n" ".env" "env" := by
  have first : PlainValues ascii "A_1 = x=y # z\n" :=
    (scanKeys_eq_layoutRows_iff _ ".env" "env").mp (by decide +kernel)
  have second : PlainValues ascii "A_1 = secret\n" :=
    (scanKeys_eq_layoutRows_iff _ ".env" "env").mp (by decide +kernel)
  exact (keysWithoutValues_iff ascii ".env" "env" (by decide +kernel)).mpr ⟨first, second⟩

end Sample

end OrbitGraph.Extract
