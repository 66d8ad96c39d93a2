import OrbitGraph.History.Types

/-!
The names in an index directory.

The pointer, the lock and the record of what is owned have fixed names. A generation
is a database with its sidecars, and is told apart from anything else by parsing its
name; so are the temporary files of the pointer and of the record. What a build
touches is a `Path`, and two different paths have different names.
-/

namespace OrbitGraph.CodeIndex

open Lib
open History (decimal)

def pointerFile : Text := "graph.current.json"

def lockFile : Text := "graph.maintain.lock"

def ownedFile : Text := "graph.owned.json"

def legacyStagingSuffix : Text := ".tmp"

/-! ### Numbers in names -/

def digitsValue (digits : Text) : Nat := digits.foldl (fun n c => n * 10 + (c.toNat - '0'.toNat)) 0

/-- `str::parse` for unsigned integers of a width, which admits one leading `+`. -/
def parseUnsigned (width : Nat) (found : Text) : Option Nat :=
  let digits := (Text.stripPrefix ['+'] found).getD found
  if digits ≠ [] ∧ digits.all Char.isDigit = true then
    if digitsValue digits < 2 ^ width then some (digitsValue digits) else none
  else none

theorem decimal_isDigit {n : Nat} {c : Char} (mem : c ∈ decimal n) : c.isDigit = true :=
  Nat.isDigit_of_mem_toDigits (by decide) (by decide) mem

theorem decimal_ne_nil (n : Nat) : decimal n ≠ [] := Nat.toDigits_ne_nil

theorem digitsValue_decimal (n : Nat) : digitsValue (decimal n) = n := by
  have folded : ∀ (digits : Text) (m : Nat),
      digits.foldl (fun n c => n * 10 + (c.toNat - '0'.toNat)) m = Nat.ofDigitChars 10 digits m := by
    intro digits
    induction digits with
    | nil => intro m; rfl
    | cons c rest ih =>
      intro m
      rw [List.foldl_cons, ih, Nat.ofDigitChars_cons, Nat.mul_comm]
  rw [digitsValue, folded]
  exact Nat.ofDigitChars_ten_toDigits

theorem head_of_parseUnsigned {width : Nat} {found : Text} {n : Nat} (parsed : parseUnsigned width found = some n) :
    ∃ c rest, found = c :: rest ∧ (c.isDigit = true ∨ c = '+') := by
  unfold parseUnsigned at parsed
  dsimp only at parsed
  split at parsed
  next valid =>
    cases found with
    | nil => exact absurd rfl valid.1
    | cons c rest =>
      refine ⟨c, rest, rfl, ?_⟩
      by_cases sign : '+' = c
      · exact .inr sign.symm
      · have whole : (Text.stripPrefix ['+'] (c :: rest)).getD (c :: rest) = c :: rest := by
          simp [Text.stripPrefix, sign]
        rw [whole] at valid
        exact .inl (List.all_eq_true.mp valid.2 c List.mem_cons_self)
  next => cases parsed

theorem parseUnsigned_of_isDigit {width : Nat} {found : Text} (nonempty : found ≠ [])
    (isDigits : found.all Char.isDigit = true) :
    parseUnsigned width found = if digitsValue found < 2 ^ width then some (digitsValue found) else none := by
  have unsigned : (Text.stripPrefix ['+'] found).getD found = found := by
    cases found with
    | nil => rfl
    | cons c rest =>
      have isDigit : c.isDigit = true := List.all_eq_true.mp isDigits c List.mem_cons_self
      have notSign : '+' ≠ c := by
        rintro rfl
        cases isDigit
      simp [Text.stripPrefix, notSign]
  unfold parseUnsigned
  rw [unsigned, if_pos ⟨nonempty, isDigits⟩]

theorem parseUnsigned_decimal {width n : Nat} (small : n < 2 ^ width) :
    parseUnsigned width (decimal n) = some n := by
  rw [parseUnsigned_of_isDigit (decimal_ne_nil n) (List.all_eq_true.mpr fun c mem => decimal_isDigit mem),
    digitsValue_decimal, if_pos small]

theorem splitOnce_decimal (n : Nat) {sep : Char} (other : sep.isDigit = false) (rest : Text) :
    Text.splitOnce [sep] (decimal n ++ sep :: rest) = some (decimal n, rest) := by
  refine Text.splitOnce_of_not_mem (fun mem => ?_) rest
  rw [decimal_isDigit mem] at other
  cases other

/-! ### Generations -/

/-- `generation_number`, for an extractor version. -/
def generationNumber (extractorVersion : UInt32) (name : Text) : Option UInt64 := do
  let rest ← Text.stripPrefix ("graph." ++ decimal extractorVersion.toNat ++ ".") name
  let number ← parseUnsigned 64 (← Text.stripSuffix ".db" rest)
  some (UInt64.ofNat number)

def isGenerationName (extractorVersion : UInt32) (name : Text) : Bool :=
  (generationNumber extractorVersion name).isSome

def generationOfAnyExtractor (name : Text) : Option Nat := do
  let rest ← Text.stripPrefix "graph." name
  let (extractor, generation) ← Text.splitOnce "." (← Text.stripSuffix ".db" rest)
  let _ ← parseUnsigned 32 extractor
  parseUnsigned 64 generation

/-- The name of the database of a generation, of any extractor. -/
structure Generation where
  name : Text
  parses : (generationOfAnyExtractor name).isSome = true
  deriving DecidableEq

/-- The suffixes of a generation's files: its database, and its sidecars. The graph opens the last
of them to close a connection. -/
inductive Suffix where
  | database
  | wal
  | shm
  | journal
  | lock
  | closeLock
  deriving DecidableEq

def Suffix.text : Suffix → Text
  | .database => []
  | .wal => "-wal"
  | .shm => "-shm"
  | .journal => "-journal"
  | .lock => ".lock"
  | .closeLock => ".close.lock"

/-- The suffixes that `code_index` knows, in the order in which it removes the files. -/
def suffixes : List Suffix := [.database, .wal, .shm, .journal, .lock]

/-- A generation's name begins with a version and ends as a database's does. -/
theorem Generation.shape (g : Generation) :
    ∃ c rest, g.name = "graph.".toList ++ c :: rest ++ ".db".toList ∧ (c.isDigit = true ∨ c = '+') := by
  obtain ⟨number, parsed⟩ := Option.isSome_iff_exists.mp g.parses
  obtain ⟨rest, start, parsed⟩ := Option.bind_eq_some_iff.mp parsed
  obtain ⟨middle, stop, parsed⟩ := Option.bind_eq_some_iff.mp parsed
  obtain ⟨⟨extractor, generation⟩, split, parsed⟩ := Option.bind_eq_some_iff.mp parsed
  obtain ⟨version, parsed, -⟩ := Option.bind_eq_some_iff.mp parsed
  obtain ⟨c, digits, rfl, head⟩ := head_of_parseUnsigned parsed
  have name : g.name = "graph." ++ middle ++ ".db" := by
    rw [Text.stripPrefix_eq_some.mp start, Text.stripSuffix_eq_some.mp stop, List.append_assoc]
  cases middle with
  | nil => cases split
  | cons d rest =>
    refine ⟨d, rest, name, ?_⟩
    rw [Text.splitOnce] at split
    split at split
    next => cases (Prod.ext_iff.mp (Option.some.inj split)).1
    next =>
      obtain ⟨_, _, same⟩ := Option.map_eq_some_iff.mp split
      obtain rfl := (List.cons.inj (Prod.ext_iff.mp same).1).1
      exact head

/-- `graph.<extractor>.<n>.db`. -/
def generationName (extractorVersion : UInt32) (number : UInt64) : Text :=
  "graph." ++ decimal extractorVersion.toNat ++ "." ++ decimal number.toNat ++
    ".db"

theorem generationName_eq (extractorVersion : UInt32) (number : UInt64) : generationName extractorVersion number =
    "graph." ++ (decimal extractorVersion.toNat ++ ("." ++
      (decimal number.toNat ++ ".db"))) := by
  unfold generationName
  rw [List.append_assoc, List.append_assoc, List.append_assoc]

theorem generationOfAnyExtractor_generationName (extractorVersion : UInt32) (number : UInt64) :
    generationOfAnyExtractor (generationName extractorVersion number) = some number.toNat := by
  have start : Text.stripPrefix "graph." (generationName extractorVersion number) =
      some (decimal extractorVersion.toNat ++ ("." ++ (decimal number.toNat ++ ".db"))) :=
    Text.stripPrefix_eq_some.mpr (generationName_eq ..)
  have stop : Text.stripSuffix ".db"
      (decimal extractorVersion.toNat ++ ("." ++ (decimal number.toNat ++ ".db"))) =
      some (decimal extractorVersion.toNat ++ ("." ++ decimal number.toNat)) :=
    Text.stripSuffix_eq_some.mpr (by rw [List.append_assoc, List.append_assoc])
  have split : Text.splitOnce "." (decimal extractorVersion.toNat ++ ("." ++
      decimal number.toNat)) = some (decimal extractorVersion.toNat, decimal number.toNat) :=
    splitOnce_decimal _ rfl _
  simp only [generationOfAnyExtractor, start, stop, split, Option.bind_eq_bind, Option.bind_some,
    parseUnsigned_decimal extractorVersion.toNat_lt, parseUnsigned_decimal number.toNat_lt]

def Generation.numbered (extractorVersion : UInt32) (number : UInt64) : Generation where
  name := generationName extractorVersion number
  parses := by rw [generationOfAnyExtractor_generationName]; rfl

theorem isGenerationName_numbered (extractorVersion : UInt32) (number : UInt64) :
    isGenerationName extractorVersion (Generation.numbered extractorVersion number).name = true := by
  have start : Text.stripPrefix ("graph." ++ decimal extractorVersion.toNat ++ ".")
      (generationName extractorVersion number) = some (decimal number.toNat ++ ".db") :=
    Text.stripPrefix_eq_some.mpr (by rw [generationName_eq, List.append_assoc, List.append_assoc])
  have stop : Text.stripSuffix ".db" (decimal number.toNat ++ ".db") =
      some (decimal number.toNat) := Text.stripSuffix_eq_some.mpr rfl
  simp only [isGenerationName, generationNumber, Generation.numbered, start, stop, Option.bind_eq_bind,
    Option.bind_some, parseUnsigned_decimal number.toNat_lt, Option.isSome_some]

/-- A database name of a record, if a build may have created it. -/
def Generation.ofName (name : Text) : Option Generation :=
  if parses : (generationOfAnyExtractor name).isSome = true then some ⟨name, parses⟩ else none

theorem Generation.ofName_eq_some {name : Text} {g : Generation} : Generation.ofName name = some g ↔ g.name = name := by
  unfold Generation.ofName
  constructor
  · intro found
    split at found
    next => rw [← Option.some.inj found]
    next => cases found
  · rintro rfl
    rw [dif_pos g.parses]

def graphDatabaseOf (name : Text) : Option Text :=
  if Text.startsWith "graph." name = false ∨ name ∈ [pointerFile, lockFile, ownedFile] then none
  else
    let database := ([Suffix.wal, .shm, .journal, .lock].findSome? fun suffix =>
      Text.stripSuffix suffix.text name).getD name
    if Text.endsWith ".db" database then some database else none

/-! ### Temporary files -/

def atomicWriteTempPid (fileName targetName : Text) : Option Nat := do
  let rest ← Text.stripPrefix ".tmp-" (← Text.stripPrefix targetName fileName)
  let (pid, sequence) ← Text.splitOnce "-" rest
  let isDecimal := fun value : Text => value ≠ [] ∧ value.all Char.isDigit = true
  if isDecimal pid ∧ isDecimal sequence then parseUnsigned 32 pid else none

/-- The middle of the names that temporary files had before `atomic_write`. -/
def legacyStagingPid (name file : Text) : Option Text := do
  let rest ← Text.stripPrefix "." (← Text.stripPrefix file name)
  let pid ← Text.stripSuffix legacyStagingSuffix rest
  if pid ≠ [] ∧ pid.all Char.isDigit = true then some pid else none

def isStagingName (name : Text) : Bool :=
  [pointerFile, ownedFile].any fun file =>
    (atomicWriteTempPid name file).isSome || (legacyStagingPid name file).isSome

/-- The name of a temporary file of the pointer or of the record. -/
structure StagingName where
  name : Text
  staged : isStagingName name = true
  deriving DecidableEq

theorem StagingName.shape (s : StagingName) :
    ∃ file ∈ [pointerFile, ownedFile], ∃ c rest, s.name = file ++ c :: rest := by
  obtain ⟨file, mem, staged⟩ := List.any_eq_true.mp s.staged
  refine ⟨file, mem, ?_⟩
  rcases Bool.or_eq_true_iff.mp staged with current | legacy
  · obtain ⟨_, found⟩ := Option.isSome_iff_exists.mp current
    obtain ⟨rest, start, found⟩ := Option.bind_eq_some_iff.mp found
    obtain ⟨middle, next, -⟩ := Option.bind_eq_some_iff.mp found
    exact ⟨'.', "tmp-" ++ middle, by
      rw [Text.stripPrefix_eq_some.mp start, Text.stripPrefix_eq_some.mp next]; rfl⟩
  · obtain ⟨_, found⟩ := Option.isSome_iff_exists.mp legacy
    obtain ⟨rest, start, found⟩ := Option.bind_eq_some_iff.mp found
    obtain ⟨middle, next, -⟩ := Option.bind_eq_some_iff.mp found
    exact ⟨'.', middle, by rw [Text.stripPrefix_eq_some.mp start, Text.stripPrefix_eq_some.mp next]; rfl⟩

/-- The two files that are replaced by `atomic_write`. -/
inductive Replaced where
  | pointer
  | owned
  deriving DecidableEq

def Replaced.name : Replaced → Text
  | .pointer => pointerFile
  | .owned => ownedFile

/-- The temporary file of `atomic_write`, for a process and a sequence number. -/
def StagingName.temp (target : Replaced) (pid : UInt32) (sequence : UInt64) : StagingName where
  name := target.name ++ ".tmp-" ++ decimal pid.toNat ++ "-" ++ decimal sequence.toNat
  staged := by
    have start : Text.stripPrefix target.name (target.name ++ ".tmp-" ++ decimal pid.toNat ++ "-" ++
        decimal sequence.toNat) =
        some (".tmp-" ++ (decimal pid.toNat ++ '-' :: decimal sequence.toNat)) :=
      Text.stripPrefix_eq_some.mpr (by simp)
    have next : Text.stripPrefix ".tmp-" (".tmp-" ++ (decimal pid.toNat ++ '-' ::
        decimal sequence.toNat)) = some (decimal pid.toNat ++ '-' :: decimal sequence.toNat) :=
      Text.stripPrefix_eq_some.mpr rfl
    have split : Text.splitOnce "-" (decimal pid.toNat ++ '-' :: decimal sequence.toNat) =
        some (decimal pid.toNat, decimal sequence.toNat) := splitOnce_decimal _ rfl _
    have isDecimal : ∀ n, decimal n ≠ [] ∧ (decimal n).all Char.isDigit = true := fun n =>
      ⟨decimal_ne_nil n, List.all_eq_true.mpr fun c mem => decimal_isDigit mem⟩
    refine List.any_eq_true.mpr ⟨target.name, by cases target <;> simp [Replaced.name], ?_⟩
    simp only [atomicWriteTempPid, start, next, split, Option.bind_eq_bind, Option.bind_some]
    rw [if_pos ⟨isDecimal _, isDecimal _⟩, parseUnsigned_decimal pid.toNat_lt]
    rfl

/-! ### Paths -/

/-- What a call of `sync` touches in the index directory. -/
inductive Path where
  | pointer
  | lock
  | owned
  | file (g : Generation) (suffix : Suffix)
  | staging (name : StagingName)
  deriving DecidableEq

def Path.name : Path → Text
  | .pointer => pointerFile
  | .lock => lockFile
  | .owned => ownedFile
  | .file g suffix => g.name ++ suffix.text
  | .staging s => s.name

def Replaced.path : Replaced → Path
  | .pointer => .pointer
  | .owned => .owned

theorem Replaced.path_name (target : Replaced) : target.path.name = target.name := by cases target <;> rfl

theorem suffix_injective {x y : Text} {s t : Suffix}
    (same : (x ++ ".db") ++ s.text = (y ++ ".db") ++ t.text) : x = y ∧ s = t := by
  have reversed := congrArg List.reverse same
  rw [List.reverse_append, List.reverse_append, List.reverse_append, List.reverse_append] at reversed
  have stem : ∀ z : Text, ".db".toList.reverse ++ z = 'b' :: 'd' :: '.' :: z := fun _ => rfl
  have texts : ∀ (suffix : Suffix) (z : Text), suffix.text.reverse ++ z = match suffix with
      | .database => z
      | .wal => 'l' :: 'a' :: 'w' :: '-' :: z
      | .shm => 'm' :: 'h' :: 's' :: '-' :: z
      | .journal => 'l' :: 'a' :: 'n' :: 'r' :: 'u' :: 'o' :: 'j' :: '-' :: z
      | .lock => 'k' :: 'c' :: 'o' :: 'l' :: '.' :: z
      | .closeLock => 'k' :: 'c' :: 'o' :: 'l' :: '.' :: 'e' :: 's' :: 'o' :: 'l' :: 'c' :: '.' :: z := by
    intro suffix z
    cases suffix <;> rfl
  rw [texts, texts, stem, stem] at reversed
  cases s <;> cases t <;>
    simp only [List.cons.injEq, Char.reduceEq, false_and, and_false, true_and, List.reverse_inj] at reversed
  all_goals exact ⟨reversed, rfl⟩

theorem file_injective {g h : Generation} {s t : Suffix} (same : g.name ++ s.text = h.name ++ t.text) :
    g = h ∧ s = t := by
  obtain ⟨c, xs, gName, -⟩ := g.shape
  obtain ⟨d, ys, hName, -⟩ := h.shape
  rw [gName, hName] at same
  obtain ⟨stem, rfl⟩ := suffix_injective same
  have names : g.name = h.name := by rw [gName, hName, stem]
  refine ⟨?_, rfl⟩
  cases g
  cases h
  cases names
  rfl

/-- The character after `graph.`, which tells generations from the other files. -/
def initial (name : Text) : Option Char := (name.drop 6).head?

theorem initial_file (g : Generation) (suffix : Suffix) :
    ∃ c, initial (Path.file g suffix).name = some c ∧ (c.isDigit = true ∨ c = '+') := by
  obtain ⟨c, rest, name, head⟩ := g.shape
  exact ⟨c, by simp [Path.name, name, initial], head⟩

theorem initial_staging (s : StagingName) :
    ∃ file ∈ [pointerFile, ownedFile], initial s.name = initial file ∧ file.length < s.name.length := by
  obtain ⟨file, mem, c, rest, name⟩ := s.shape
  refine ⟨file, mem, ?_, by simp [name]⟩
  rw [name]
  rcases List.mem_pair.mp mem with rfl | rfl <;> rfl

theorem initial_ne_file {name : Text} {c : Char} (start : initial name = some c) (letter : c.isDigit = false ∧ c ≠ '+')
    (g : Generation) (suffix : Suffix) : name ≠ (Path.file g suffix).name := by
  rintro rfl
  obtain ⟨d, start', head⟩ := initial_file g suffix
  obtain rfl := Option.mem_unique start start'
  rcases head with digit | sign
  · rw [letter.1] at digit
    cases digit
  · exact letter.2 sign

theorem staging_ne_file (s : StagingName) (g : Generation) (suffix : Suffix) :
    s.name ≠ (Path.file g suffix).name := by
  obtain ⟨file, mem, start, -⟩ := initial_staging s
  rcases List.mem_pair.mp mem with rfl | rfl
  · exact initial_ne_file (start.trans rfl) (by decide) g suffix
  · exact initial_ne_file (start.trans rfl) (by decide) g suffix

theorem staging_ne_fixed (s : StagingName) : s.name ∉ [pointerFile, lockFile, ownedFile] := by
  obtain ⟨file, mem, start, longer⟩ := initial_staging s
  intro fixed
  rcases List.mem_pair.mp mem with rfl | rfl <;>
    rcases List.mem_cons.mp fixed with same | fixed <;>
    [skip; rcases List.mem_pair.mp fixed with same | same; skip; rcases List.mem_pair.mp fixed with same | same] <;>
    rw [same] at start longer <;> revert start longer <;> decide

theorem file_ne_fixed (g : Generation) (suffix : Suffix) :
    (Path.file g suffix).name ∉ [pointerFile, lockFile, ownedFile] := by
  intro fixed
  rcases List.mem_cons.mp fixed with same | fixed
  · exact initial_ne_file (c := 'c') rfl (by decide) g suffix same.symm
  · rcases List.mem_pair.mp fixed with same | same
    · exact initial_ne_file (c := 'm') rfl (by decide) g suffix same.symm
    · exact initial_ne_file (c := 'o') rfl (by decide) g suffix same.symm

theorem Path.name_injective : Function.Injective Path.name := by
  have fixed : ∀ p : Path, (∀ g s, p ≠ .file g s) → (∀ s, p ≠ .staging s) →
      p.name ∈ [pointerFile, lockFile, ownedFile] := by
    intro p notFile notStaging
    cases p with
    | pointer | lock | owned => decide
    | file g s => exact absurd rfl (notFile g s)
    | staging s => exact absurd rfl (notStaging s)
  intro p q same
  cases p with
  | file g s =>
    cases q with
    | file h t =>
      obtain ⟨rfl, rfl⟩ := file_injective same
      rfl
    | staging t => exact absurd same.symm (staging_ne_file t g s)
    | pointer | lock | owned => exact absurd (same ▸ fixed _ nofun nofun) (file_ne_fixed g s)
  | staging s =>
    cases q with
    | file h t => exact absurd same (staging_ne_file s h t)
    | staging t =>
      cases s
      cases t
      cases same
      rfl
    | pointer | lock | owned => exact absurd ((show s.name = _ from same) ▸ fixed _ nofun nofun) (staging_ne_fixed s)
  | pointer | lock | owned =>
    cases q with
    | file h t => exact absurd (same ▸ fixed _ nofun nofun) (file_ne_fixed h t)
    | staging t => exact absurd ((show _ = t.name from same) ▸ fixed _ nofun nofun) (staging_ne_fixed t)
    | pointer | lock | owned => first | rfl | exact absurd same (by decide)

end OrbitGraph.CodeIndex
