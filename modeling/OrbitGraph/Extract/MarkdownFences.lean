import OrbitGraph.Extract.Markdown

/-!
The code fences of a Markdown text.

Two loops go through the lines and keep whether they are in a fence. That for the headings waits for the marker that
opened the fence. That for the notable strings takes every marker for the end of the fence it is in.
-/

namespace OrbitGraph.Extract

open Lib

structure RawString where
  filePath : Text
  line : Nat
  value : Text
  contextSymbol : Option Text

def isAsciiPunctuation (c : Char) : Bool :=
  ('!' ≤ c && c ≤ '/') || (':' ≤ c && c ≤ '@') || ('[' ≤ c && c ≤ '`') || ('{' ≤ c && c ≤ '~')

def isNotableString (value : Text) : Bool :=
  if Text.byteLen value < 6 then false
  else if value.all fun c => isAsciiPunctuation c || Text.isWhitespace c then false
  else
    let hasLetters := value.any Char.isAlpha
    !(!hasLetters && ["{}", "%s", "%d"].any fun form => Text.contains form.toList value)

/-- The state of the loop over the fences in `collect_notable_strings`. -/
structure FenceScan where
  inFence : Bool
  fenceStartLine : Nat
  fenceLines : List Text
  out : List RawString

/-- One line of that loop. -/
def fenceStep (filePath : Text) (scan : FenceScan) (entry : Text × Nat) : FenceScan :=
  let t := Text.trimStart entry.1
  if Text.startsWith "```" t || Text.startsWith "~~~" t then
    if scan.inFence then
      let content := Text.join ['\n'] scan.fenceLines
      { scan with
        inFence := false
        fenceLines := []
        out := if isNotableString content then scan.out ++ [⟨filePath, scan.fenceStartLine, content, none⟩] else scan.out }
    else { scan with inFence := true, fenceStartLine := entry.2 + 1 }
  else if scan.inFence then { scan with fenceLines := scan.fenceLines ++ [entry.1] }
  else scan

/-- The strings before the loop are those of the code spans. -/
def FenceScan.start (out : List RawString) : FenceScan := ⟨false, 0, [], out⟩

/-! ### The lines in a fence -/

/-- The numbers of the lines before which and after which `collect_headings` is in a fence. -/
def fencedLines : HeadingScan → List (Text × Nat) → List Nat
  | _, [] => []
  | scan, entry :: rest =>
    let next := headingStep scan entry
    if scan.inFence && next.inFence then (entry.2 + 1) :: fencedLines next rest else fencedLines next rest

/-- The numbers of the lines that `collect_notable_strings` puts to the lines of a fence. -/
def collectedLines (filePath : Text) : FenceScan → List (Text × Nat) → List Nat
  | _, [] => []
  | scan, entry :: rest =>
    let next := fenceStep filePath scan entry
    if next.fenceLines = scan.fenceLines ++ [entry.1] then (entry.2 + 1) :: collectedLines filePath next rest
    else collectedLines filePath next rest

def SameFences (filePath source : Text) (out : List RawString) : Prop :=
  fencedLines .start (History.lines source).zipIdx = collectedLines filePath (.start out) (History.lines source).zipIdx

def fenceMarker (line : Text) : Option Text :=
  if Text.startsWith "```" (Text.trimStart line) then some "```"
  else if Text.startsWith "~~~" (Text.trimStart line) then some "~~~"
  else none

/-- Every second marker is that before it. -/
def Paired : List Text → Prop
  | first :: second :: rest => first = second ∧ Paired rest
  | _ => True

section Step

variable {line m filePath : Text} {i : Nat} {scan : HeadingScan} {strings : FenceScan}

theorem startsWith_iff_fenceMarker (known : m = "```" ∨ m = "~~~") :
    Text.startsWith m (Text.trimStart line) = true ↔ fenceMarker line = some m := by
  unfold fenceMarker
  rcases known with rfl | rfl
  · split_ifs with ticks tildes
    · exact iff_of_true ticks rfl
    · exact iff_of_false ticks (by decide)
    · exact iff_of_false ticks nofun
  · split_ifs with ticks tildes
    · obtain ⟨rest, split⟩ := Text.startsWith_iff.mp ticks
      exact iff_of_false (by rw [split]; exact Bool.false_ne_true) (by decide)
    · exact iff_of_true tildes rfl
    · exact iff_of_false tildes nofun

theorem fenceMarker_known (found : fenceMarker line = some m) : m = "```" ∨ m = "~~~" := by
  unfold fenceMarker at found
  split_ifs at found
  · exact .inl (Option.some.inj found).symm
  · exact .inr (Option.some.inj found).symm

theorem headingStep_of_open (known : m = "```" ∨ m = "~~~") (isOpen : scan.fenceMarker = some m) :
    headingStep scan (line, i) =
      if fenceMarker line = some m then { scan with inFence := false, fenceMarker := none } else scan := by
  unfold headingStep
  rw [isOpen]
  dsimp only
  simp only [startsWith_iff_fenceMarker known]

theorem headingStep_of_closed (isClosed : scan.fenceMarker = none) (outside : scan.inFence = false) :
    (headingStep scan (line, i)).fenceMarker = fenceMarker line ∧
      (headingStep scan (line, i)).inFence = (fenceMarker line).isSome := by
  unfold headingStep fenceMarker
  rw [isClosed]
  dsimp only
  split_ifs with ticks tildes inside
  · exact ⟨rfl, rfl⟩
  · exact ⟨rfl, rfl⟩
  · rw [outside] at inside
    cases inside
  · cases parseAtxHeading (Text.trimStart line) with
    | none | some heading => exact ⟨isClosed, outside⟩

theorem fenceStep_eq : fenceStep filePath strings (line, i) =
    if (fenceMarker line).isSome then
      if strings.inFence then
        { strings with
          inFence := false
          fenceLines := []
          out := if isNotableString (Text.join ['\n'] strings.fenceLines) then
            strings.out ++ [⟨filePath, strings.fenceStartLine, Text.join ['\n'] strings.fenceLines, none⟩] else strings.out }
      else { strings with inFence := true, fenceStartLine := i + 1 }
    else if strings.inFence then { strings with fenceLines := strings.fenceLines ++ [line] }
    else strings := by
  have marked : (Text.startsWith "```" (Text.trimStart line) ||
      Text.startsWith "~~~" (Text.trimStart line)) = (fenceMarker line).isSome := by
    unfold fenceMarker
    split_ifs with ticks tildes
    · rw [ticks]; rfl
    · rw [tildes, Bool.or_true]; rfl
    · rw [Bool.not_eq_true] at ticks tildes
      rw [ticks, tildes]; rfl
  unfold fenceStep
  simp only [marked]

theorem lt_of_mem_collectedLines {lines : List Text} {n : Nat}
    (mem : n ∈ collectedLines filePath strings (lines.zipIdx i)) : i < n := by
  induction lines generalizing strings i with
  | nil => cases mem
  | cons line lines ih =>
    rw [List.zipIdx_cons, collectedLines] at mem
    split_ifs at mem
    · rcases List.mem_cons.mp mem with rfl | later
      · exact Nat.lt_succ_self i
      · exact Nat.lt_of_succ_lt (ih later)
    · exact Nat.lt_of_succ_lt (ih mem)

end Step

/-! ### The two loops -/

/-- The loops are in a fence together, opened by a known marker. -/
structure Abreast (scan : HeadingScan) (strings : FenceScan) : Prop where
  marked : scan.inFence = scan.fenceMarker.isSome
  together : strings.inFence = scan.inFence
  known : ∀ m, scan.fenceMarker = some m → m = "```" ∨ m = "~~~"

section Loops

variable {filePath : Text} {scan : HeadingScan} {strings : FenceScan}

/-- From a place where the loops are in a fence together, they stay so just if the markers are paired. -/
theorem sameFences_from (lines : List Text) (i : Nat) (abreast : Abreast scan strings) :
    fencedLines scan (lines.zipIdx i) = collectedLines filePath strings (lines.zipIdx i) ↔
      Paired (scan.fenceMarker.toList ++ lines.filterMap fenceMarker) := by
  induction lines generalizing scan strings i with
  | nil =>
    refine iff_of_true rfl ?_
    cases scan.fenceMarker <;> exact trivial
  | cons line lines ih =>
    have unchanged : strings.fenceLines ≠ strings.fenceLines ++ [line] := by simp
    have cleared : [] ≠ strings.fenceLines ++ [line] := by simp
    rw [List.zipIdx_cons, fencedLines, collectedLines, fenceStep_eq]
    cases isOpen : scan.fenceMarker with
    | none =>
      have outside : scan.inFence = false := by rw [abreast.marked, isOpen]; rfl
      have off : strings.inFence = false := abreast.together.trans outside
      obtain ⟨marker, inside⟩ := @headingStep_of_closed line i scan isOpen outside
      cases found : fenceMarker line with
      | none =>
        rw [found] at marker inside
        have next : Abreast (headingStep scan (line, i)) strings :=
          ⟨by rw [inside, marker], by rw [off, inside]; rfl, fun m some => by rw [marker] at some; cases some⟩
        have later := ih (i + 1) next
        rw [marker] at later
        simpa [outside, off, found] using later
      | some m =>
        rw [found] at marker inside
        have next : Abreast (headingStep scan (line, i)) { strings with inFence := true, fenceStartLine := i + 1 } :=
          ⟨by rw [inside, marker], inside.symm, fun n some => by
            rw [marker] at some
            exact Option.some.inj some ▸ fenceMarker_known found⟩
        have later := ih (i + 1) next
        rw [marker] at later
        simpa [outside, off, found] using later
    | some m =>
      have inside : scan.inFence = true := by rw [abreast.marked, isOpen]; rfl
      have on : strings.inFence = true := abreast.together.trans inside
      rw [headingStep_of_open (abreast.known m isOpen) isOpen]
      cases found : fenceMarker line with
      | none =>
        have next : Abreast scan { strings with fenceLines := strings.fenceLines ++ [line] } :=
          ⟨abreast.marked, abreast.together, abreast.known⟩
        have later := ih (i + 1) next
        rw [isOpen] at later
        simpa [inside, on, found] using later
      | some n =>
        by_cases same : n = m
        · subst same
          have next (out : List RawString) : Abreast { scan with inFence := false, fenceMarker := none }
              { strings with inFence := false, fenceLines := [], out := out } :=
            ⟨rfl, rfl, nofun⟩
          have later := fun out => ih (i + 1) (next out)
          simpa [inside, on, found, Paired] using later _
        · -- The first loop is still in the fence on this line, and the second puts no later line before it.
          have apart : (some n = some m) = False := eq_false fun eq => same (Option.some.inj eq)
          refine iff_of_false (fun eq => ?_) ?_
          · simp only [apart, if_false, inside, Bool.and_self, if_true, Option.isSome_some, on, cleared] at eq
            exact Nat.lt_irrefl _ (lt_of_mem_collectedLines (eq ▸ List.mem_cons_self))
          · simp only [Option.toList_some, List.filterMap_cons, found, List.singleton_append, Paired]
            exact fun pairs => same pairs.1.symm

end Loops

/-- The two passes see the same lines in code fences just if, of the marker lines two by two, the second has the
marker of the first. -/
theorem sameFences_iff (filePath source : Text) (out : List RawString) :
    SameFences filePath source out ↔ Paired ((History.lines source).filterMap fenceMarker) :=
  sameFences_from _ 0 ⟨rfl, rfl, fun _ some => nomatch some⟩

/-- Backticks are not closed by tildes for the headings, but for the strings. -/
theorem mixed_fences_differ : ¬ SameFences "a.md" "```\n~~~\n# A\n" [] := by
  unfold SameFences
  decide

end OrbitGraph.Extract
