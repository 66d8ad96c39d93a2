import OrbitGraph.Extract.Dedup
import OrbitGraph.History.Extraction
import OrbitGraph.Lib.Lines

/-!
The headings of a Markdown text as a tree of sections.

A heading is a symbol. Its span goes from its line to the next heading that is not deeper, so
that two spans are disjoint or nested as the sections are. Its qualified name is the slug of
its text, and for a slug that an earlier heading has, the slug with the number of the line.
That name can be the slug of another heading.
-/

namespace OrbitGraph.Extract

open Lib
open History (decimal)

open Rows (RawSymbol dedupSymbols)

structure Heading where
  depth : Nat
  text : Text
  qualifiedName : Text
  line : Nat

/-! ### Headings -/

def parseAtxHeading (trimmed : Text) : Option (Nat × Text) :=
  let depth := min 6 (trimmed.takeWhile (· = '#')).length
  if depth = 0 then none
  else if trimmed[depth]? = some '#' then none
  else
    let rest := trimmed.drop depth
    if rest.head? ≠ some ' ' ∧ rest.head? ≠ some '\t' ∧ rest ≠ [] then none
    else
      let text := Text.trim ((Text.trimStart rest).reverse.dropWhile (· = '#')).reverse
      if text = [] then none else some (depth, text)

/-- One character of the loop of `slugify`: what is written, and whether a hyphen was last. -/
def slugStep (state : Text × Bool) (ch : Char) : Text × Bool :=
  if ch.isAlphanum then (state.1 ++ [ch.toLower], false)
  else if state.2 then state
  else (state.1 ++ ['-'], true)

def slugify (text : Text) : Text :=
  let out := (text.foldl slugStep ([], true)).1
  let out := (out.reverse.dropWhile (· = '-')).reverse
  if out = [] then "section" else out

/-- The state of the loop of `collect_headings`. -/
structure HeadingScan where
  seenSlugs : Text → Nat
  headings : List Heading
  inFence : Bool
  fenceMarker : Option Text

def HeadingScan.start : HeadingScan := ⟨fun _ => 0, [], false, none⟩

def HeadingScan.push (scan : HeadingScan) (depth : Nat) (text : Text) (line : Nat) : HeadingScan :=
  let baseSlug := slugify text
  let suffix := scan.seenSlugs baseSlug
  { scan with
    seenSlugs := Function.update scan.seenSlugs baseSlug (suffix + 1)
    headings := scan.headings ++
      [⟨depth, text, if suffix = 0 then baseSlug else baseSlug ++ '-' :: decimal line, line⟩] }

/-- One line of the loop of `collect_headings`. -/
def headingStep (scan : HeadingScan) (entry : Text × Nat) : HeadingScan :=
  let trimmed := Text.trimStart entry.1
  match scan.fenceMarker with
  | some marker =>
    if Text.startsWith marker trimmed then { scan with inFence := false, fenceMarker := none } else scan
  | none =>
    if Text.startsWith "```" trimmed then { scan with inFence := true, fenceMarker := some "```" }
    else if Text.startsWith "~~~" trimmed then { scan with inFence := true, fenceMarker := some "~~~" }
    else if scan.inFence then scan
    else
      match parseAtxHeading trimmed with
      | none => scan
      | some (depth, text) => scan.push depth text (entry.2 + 1)

def collectHeadings (source : Text) : List Heading :=
  ((History.lines source).zipIdx.foldl headingStep .start).headings

/-! ### Spans -/

/-- The loop of `line_range_to_bytes`: at byte `i`, on line `curLine`, with the start found so far. -/
def lineRangeLoop (startLine endLine byteLen : Nat) : Utf8.Bytes → Nat → Nat → Nat → Nat × Nat
  | [], _, _, startByte => (startByte, byteLen)
  | b :: rest, i, curLine, startByte =>
    if b = 10 then
      let startByte := if curLine + 1 = startLine then i + 1 else startByte
      if curLine + 1 = endLine + 1 then (startByte, i)
      else lineRangeLoop startLine endLine byteLen rest (i + 1) (curLine + 1) startByte
    else lineRangeLoop startLine endLine byteLen rest (i + 1) curLine startByte

def lineRangeToBytes (source : Utf8.Bytes) (startLine endLine : Nat) : Nat × Nat :=
  let range := lineRangeLoop startLine endLine source.length source 0 1 0
  (if startLine = 1 then 0 else range.1, min range.2 source.length)

def sectionEnd (heading : Heading) (later : List Heading) (totalLines : Nat) : Nat :=
  match later.find? fun next => next.depth ≤ heading.depth with
  | some next => next.line - 1
  | none => totalLines

def headingSymbol (filePath source : Text) (heading : Heading) (later : List Heading) : RawSymbol :=
  let span := lineRangeToBytes (Utf8.encode source) heading.line
    (sectionEnd heading later (History.lines source).length)
  ⟨⟨heading.text, heading.qualifiedName, "heading", span.1, span.2, none, none⟩, filePath⟩

def headingSymbols (filePath source : Text) : List Heading → List RawSymbol
  | [] => []
  | heading :: later => headingSymbol filePath source heading later :: headingSymbols filePath source later

/-- The symbols that `extract` returns for a text. -/
def markdownSymbols (filePath source : Text) : List RawSymbol :=
  dedupSymbols (headingSymbols filePath source (collectHeadings source))

/-! ### The names -/

/-- An earlier heading has the same slug. -/
def Repeats (hs : List Heading) (h : Heading) : Prop :=
  ∃ other ∈ hs, other.line < h.line ∧ slugify other.text = slugify h.text

structure HeadingsOf (lines : List Text) (hs : List Heading) : Prop where
  ascending : hs.Pairwise fun a b => a.line < b.line
  written : ∀ h ∈ hs, 1 ≤ h.line ∧ ∃ raw, lines[h.line - 1]? = some raw ∧
    parseAtxHeading (Text.trimStart raw) = some (h.depth, h.text)
  fresh : ∀ h ∈ hs, ¬ Repeats hs h → h.qualifiedName = slugify h.text
  numbered : ∀ h ∈ hs, Repeats hs h → h.qualifiedName = slugify h.text ++ '-' :: decimal h.line

/-- The scan of some lines: it has counted the slugs of the headings. -/
structure HeadingScan.Sound (lines : List Text) (scan : HeadingScan) : Prop where
  headings : HeadingsOf lines scan.headings
  counted : ∀ slug, scan.seenSlugs slug = 0 ↔ ∀ h ∈ scan.headings, slugify h.text ≠ slug

variable {lines : List Text}

variable {hs : List Heading}

theorem HeadingsOf.line_le (sound : HeadingsOf lines hs) {h : Heading} (mem : h ∈ hs) : h.line ≤ lines.length := by
  obtain ⟨first, raw, found, -⟩ := sound.written h mem
  have := (List.getElem?_eq_some_iff.mp found).1
  omega

theorem HeadingsOf.line_lt (sound : HeadingsOf lines hs) {i j : Nat}
    {a b : Heading} (foundI : hs[i]? = some a) (foundJ : hs[j]? = some b) (less : i < j) : a.line < b.line := by
  obtain ⟨insideI, rfl⟩ := List.getElem?_eq_some_iff.mp foundI
  obtain ⟨insideJ, rfl⟩ := List.getElem?_eq_some_iff.mp foundJ
  exact List.pairwise_iff_getElem.mp sound.ascending i j insideI insideJ less

theorem HeadingsOf.append (sound : HeadingsOf lines hs) (line : Text) : HeadingsOf (lines ++ [line]) hs where
  ascending := sound.ascending
  written := by
    intro h mem
    obtain ⟨first, raw, found, parsed⟩ := sound.written h mem
    have inside := (List.getElem?_eq_some_iff.mp found).1
    exact ⟨first, raw, by rw [List.getElem?_append_left inside, found], parsed⟩
  fresh := sound.fresh
  numbered := sound.numbered

theorem repeats_append_iff {new h : Heading} (later : h.line ≤ new.line) :
    Repeats (hs ++ [new]) h ↔ Repeats hs h := by
  constructor
  · rintro ⟨other, mem, before, same⟩
    rcases List.mem_append.mp mem with old | last
    · exact ⟨other, old, before, same⟩
    · rw [List.mem_singleton.mp last] at before
      omega
  · rintro ⟨other, mem, before, same⟩
    exact ⟨other, List.mem_append_left _ mem, before, same⟩

variable {scan : HeadingScan}

theorem HeadingScan.Sound.push (sound : scan.Sound lines) {line : Text}
    {depth : Nat} {text : Text} (parsed : parseAtxHeading (Text.trimStart line) = some (depth, text)) :
    (scan.push depth text (lines.length + 1)).Sound (lines ++ [line]) := by
  have before : ∀ h ∈ scan.headings, h.line ≤ lines.length := fun h mem => sound.headings.line_le mem
  unfold HeadingScan.push
  dsimp only
  generalize named : (if scan.seenSlugs (slugify text) = 0 then slugify text
    else slugify text ++ '-' :: decimal (lines.length + 1)) = name
  have repeats : Repeats (scan.headings ++ [⟨depth, text, name, lines.length + 1⟩])
      ⟨depth, text, name, lines.length + 1⟩ ↔ ¬ scan.seenSlugs (slugify text) = 0 := by
    rw [repeats_append_iff (Nat.le_refl _), sound.counted, Repeats]
    push Not
    constructor
    · rintro ⟨other, mem, -, same⟩
      exact ⟨other, mem, same⟩
    · rintro ⟨other, mem, same⟩
      exact ⟨other, mem, Nat.lt_succ_of_le (before other mem), same⟩
  constructor
  · constructor
    · rw [List.pairwise_append]
      refine ⟨sound.headings.ascending, List.pairwise_singleton _ _, fun h mem new last => ?_⟩
      rw [List.mem_singleton.mp last]
      exact Nat.lt_succ_of_le (before h mem)
    · intro h mem
      rcases List.mem_append.mp mem with old | last
      · exact (sound.headings.append line).written h old
      · rw [List.mem_singleton.mp last]
        refine ⟨Nat.succ_le_succ (Nat.zero_le _), line, ?_, parsed⟩
        exact List.getElem?_concat_length
    · intro h mem new
      rcases List.mem_append.mp mem with old | last
      · have bound := Nat.le_succ_of_le (before h old)
        rw [repeats_append_iff bound] at new
        exact sound.headings.fresh h old new
      · rw [List.mem_singleton.mp last] at new ⊢
        rw [repeats, not_not] at new
        rw [← named, if_pos new]
    · intro h mem again
      rcases List.mem_append.mp mem with old | last
      · have bound := Nat.le_succ_of_le (before h old)
        rw [repeats_append_iff bound] at again
        exact sound.headings.numbered h old again
      · rw [List.mem_singleton.mp last] at again ⊢
        rw [repeats] at again
        rw [← named, if_neg again]
  · intro slug
    dsimp only
    by_cases own : slug = slugify text
    · subst own
      rw [Function.update_self]
      refine iff_of_false (Nat.succ_ne_zero _) fun absent => ?_
      exact absent _ (List.mem_append_right _ List.mem_cons_self) rfl
    · rw [Function.update_of_ne own, sound.counted]
      constructor
      · intro absent h mem
        rcases List.mem_append.mp mem with old | last
        · exact absent h old
        · rw [List.mem_singleton.mp last]
          exact Ne.symm own
      · exact fun absent h mem => absent h (List.mem_append_left _ mem)

theorem headingStep_sound (sound : scan.Sound lines) (line : Text) :
    (headingStep scan (line, lines.length)).Sound (lines ++ [line]) := by
  have stay : ∀ fence marker, HeadingScan.Sound (lines ++ [line]) ⟨scan.seenSlugs, scan.headings, fence, marker⟩ :=
    fun _ _ => ⟨sound.headings.append line, sound.counted⟩
  unfold headingStep
  cases scan.fenceMarker with
  | some marker =>
    dsimp only
    split_ifs
    · exact stay _ _
    · exact stay _ _
  | none =>
    dsimp only
    split_ifs
    · exact stay _ _
    · exact stay _ _
    · exact stay _ _
    · cases parsed : parseAtxHeading (Text.trimStart line) with
      | none => exact stay _ _
      | some heading => exact sound.push parsed

theorem foldl_headingStep_sound (lines : List Text) : (lines.zipIdx.foldl headingStep .start).Sound lines := by
  induction lines using List.reverseRecOn with
  | nil =>
    refine ⟨⟨List.Pairwise.nil, ?_, ?_, ?_⟩, fun slug => iff_of_true rfl ?_⟩
    all_goals exact nofun
  | append_singleton lines line ih =>
    rw [List.zipIdx_append, List.foldl_append, Nat.zero_add]
    exact headingStep_sound ih line

theorem headingsOf_collectHeadings (source : Text) : HeadingsOf (History.lines source) (collectHeadings source) :=
  (foldl_headingStep_sound _).headings

def NoClash (hs : List Heading) : Prop :=
  ∀ a ∈ hs, Repeats hs a → ∀ b ∈ hs, slugify b.text ≠ slugify a.text ++ '-' :: decimal a.line

theorem exists_first {b : Heading} (mem : b ∈ hs) :
    ∃ first ∈ hs, slugify first.text = slugify b.text ∧ ¬ Repeats hs first := by
  induction line : b.line using Nat.strong_induction_on generalizing b with
  | _ n ih =>
    by_cases again : Repeats hs b
    · obtain ⟨other, inside, before, same⟩ := again
      obtain ⟨first, there, slug, new⟩ := ih other.line (line ▸ before) inside rfl
      exact ⟨first, there, slug.trans same, new⟩
    · exact ⟨b, mem, rfl, again⟩

theorem HeadingsOf.eq_of_line (sound : HeadingsOf lines hs) {a b : Heading}
    (left : a ∈ hs) (right : b ∈ hs) (same : a.line = b.line) : a = b := by
  have distinct : (hs.map Heading.line).Nodup :=
    List.pairwise_map.mpr (sound.ascending.imp fun less => less.ne)
  exact List.inj_on_of_nodup_map distinct left right same

theorem numbered_inj {s t : Text} {m n : Nat} (same : s ++ '-' :: decimal m = t ++ '-' :: decimal n) :
    m = n := by
  have absent : ∀ k : Nat, '-' ∉ decimal k := by
    intro k mem
    have digit := Nat.isDigit_of_mem_toDigits (by decide) (by decide) mem
    revert digit
    decide
  have split := congrArg (Text.rsplitOnce ['-']) same
  rw [Text.rsplitOnce_of_not_mem (absent m), Text.rsplitOnce_of_not_mem (absent n)] at split
  have digits := congrArg (fun ds => Nat.ofDigitChars 10 ds 0) (Prod.mk.inj (Option.some.inj split)).2
  unfold decimal at digits
  rwa [Nat.ofDigitChars_toDigits (by decide) (by decide), Nat.ofDigitChars_toDigits (by decide) (by decide)] at digits

/-- The names of the headings are distinct exactly if no name with a number is a slug. -/
theorem HeadingsOf.nodup_iff (sound : HeadingsOf lines hs) : (hs.map Heading.qualifiedName).Nodup ↔ NoClash hs := by
  have nodup : hs.Nodup := sound.ascending.imp fun {a b} less same => by
    rw [same] at less
    exact Nat.lt_irrefl _ less
  have only : ∀ a b : Heading, slugify a.text ≠ slugify a.text ++ '-' :: decimal b.line := by
    intro a b same
    have length := congrArg List.length same
    rw [List.length_append, List.length_cons] at length
    omega
  rw [List.nodup_map_iff_inj_on nodup]
  constructor
  · intro distinct a memA again b memB clash
    obtain ⟨first, memF, slug, new⟩ := exists_first memB
    have same : a.qualifiedName = first.qualifiedName := by
      rw [sound.numbered a memA again, sound.fresh first memF new, slug, clash]
    obtain rfl := distinct a memA first memF same
    exact new again
  · intro clear a memA b memB same
    by_cases againA : Repeats hs a
    · rw [sound.numbered a memA againA] at same
      by_cases againB : Repeats hs b
      · rw [sound.numbered b memB againB] at same
        exact sound.eq_of_line memA memB (numbered_inj same)
      · rw [sound.fresh b memB againB] at same
        exact absurd same.symm (clear a memA againA b memB)
    · rw [sound.fresh a memA againA] at same
      by_cases againB : Repeats hs b
      · rw [sound.numbered b memB againB] at same
        exact absurd same (clear b memB againB a memA)
      · rw [sound.fresh b memB againB] at same
        rcases Nat.lt_trichotomy a.line b.line with less | level | more
        · exact absurd ⟨a, memA, less, same⟩ againB
        · exact sound.eq_of_line memA memB level
        · exact absurd ⟨b, memB, more, same.symm⟩ againA

/-! ### The spans -/

variable {startLine endLine : Nat}

theorem lineRangeLoop_eq (order : startLine ≤ endLine) (byteLen : Nat) (bytes : Utf8.Bytes)
    (i curLine startByte : Nat) (before : curLine ≤ endLine) :
    lineRangeLoop startLine endLine byteLen bytes i curLine startByte =
      (if curLine < startLine then ((lineStartsFrom i bytes)[startLine - curLine - 1]?).getD startByte else startByte,
        ((lineStartsFrom i bytes)[endLine - curLine]?.map (· - 1)).getD byteLen) := by
  induction bytes generalizing i curLine startByte with
  | nil =>
    rw [lineRangeLoop]
    simp [lineStartsFrom]
  | cons b rest ih =>
    rw [lineRangeLoop, lineStartsFrom]
    by_cases feed : b = 10
    · rw [if_pos feed, if_pos feed]
      dsimp only
      by_cases last : curLine = endLine
      · subst last
        rw [if_pos rfl, if_neg (by omega), if_neg (by omega), Nat.sub_self]
        rfl
      · have shift : endLine - curLine = endLine - (curLine + 1) + 1 := by omega
        rw [if_neg (by omega), ih _ _ _ (by omega), shift, List.getElem?_cons_succ]
        refine Prod.ext ?_ rfl
        dsimp only
        by_cases here : curLine + 1 = startLine
        · rw [if_neg (by omega), if_pos here, if_pos (by omega), show startLine - curLine - 1 = 0 by omega]
          rfl
        · rw [if_neg here]
          by_cases ahead : curLine + 1 < startLine
          · rw [if_pos ahead, if_pos (by omega),
              show startLine - curLine - 1 = startLine - (curLine + 1) - 1 + 1 by omega, List.getElem?_cons_succ]
          · rw [if_neg ahead, if_neg (by omega)]
    · rw [if_neg feed, if_neg feed, ih _ _ _ before]

theorem lineRangeToBytes_eq {source : Utf8.Bytes} (first : 1 ≤ startLine)
    (order : startLine ≤ endLine) (inside : startLine ≤ (lineStarts source).length) :
    lineRangeToBytes source startLine endLine = (lineStart source startLine, lineStop source endLine) := by
  unfold lineRangeToBytes
  rw [lineRangeLoop_eq order _ _ _ _ _ (by omega)]
  refine Prod.ext ?_ ?_
  · dsimp only
    unfold lineStart lineStarts
    by_cases one : startLine = 1
    · rw [if_pos one, one]
      rfl
    · have shift : startLine - 1 = startLine - 1 - 1 + 1 := by omega
      rw [if_neg one, if_pos (by omega), shift, List.getElem?_cons_succ]
      have there : startLine - 1 - 1 < (lineStartsFrom 0 source).length := by
        rw [lineStarts, List.length_cons] at inside
        omega
      rw [Nat.add_sub_cancel, List.getElem?_eq_getElem there]
      rfl
  · dsimp only
    have next : (lineStarts source)[endLine]? = (lineStartsFrom 0 source)[endLine - 1]? := by
      obtain ⟨k, rfl⟩ := Nat.exists_eq_add_of_le' (first.trans order)
      rfl
    unfold lineStop
    rw [next]
    cases found : (lineStartsFrom 0 source)[endLine - 1]? with
    | none => exact Nat.min_self _
    | some start =>
      have bound := (mem_lineStartsFrom (List.mem_of_getElem? found)).2.1
      exact Nat.min_eq_left (by simp only [Option.map_some, Option.getD_some]; omega)

theorem length_splitChar (sep : Char) (text : Text) : (Text.splitChar sep text).length = text.count sep + 1 := by
  induction text with
  | nil => rfl
  | cons c text ih =>
    rw [Text.splitChar]
    split_ifs with here
    · rw [List.length_cons, ih, here, List.count_cons_self]
    · rw [List.count_cons_of_ne here, ← ih]
      cases split : Text.splitChar sep text with
      | nil =>
        rw [split] at ih
        cases ih
      | cons piece pieces => rfl

theorem splitChar_append_sep (sep : Char) (front rest : Text) :
    Text.splitChar sep (front ++ sep :: rest) = Text.splitChar sep front ++ Text.splitChar sep rest := by
  induction front with
  | nil =>
    simp [Text.splitChar]
  | cons c front ih =>
    rw [List.cons_append, Text.splitChar, Text.splitChar]
    split_ifs
    · rw [ih, List.cons_append]
    · rw [ih]
      cases split : Text.splitChar sep front with
      | nil =>
        have length := length_splitChar sep front
        rw [split] at length
        cases length
      | cons piece pieces => rfl

theorem lines_cases (source : Text) : source = [] ∨
    ((History.lines source).length + 1 = (lineStarts (Utf8.encode source)).length ∧
      (Utf8.encode source).getLast? = some 10 ∧
      lineStop (Utf8.encode source) (History.lines source).length + 1 = (Utf8.encode source).length) ∨
    (History.lines source).length = (lineStarts (Utf8.encode source)).length ∧
      (Utf8.encode source).getLast? ≠ some 10 := by
  have starts : (lineStarts (Utf8.encode source)).length = source.count '\n' + 1 := by
    rw [length_lineStarts, count_encode]
  rw [starts]
  unfold History.lines
  dsimp only
  cases split : Text.rsplitOnce ['\n'] source with
  | none =>
    have absent := Text.rsplitOnce_singleton_eq_none.mp split
    by_cases empty : source = []
    · exact .inl empty
    · right
      right
      have last : ¬ ([source].getLast?).getD [] = [] := empty
      rw [Text.splitChar_of_not_mem absent, if_neg last, List.count_eq_zero.mpr absent]
      refine ⟨rfl, fun last => ?_⟩
      have none : (Utf8.encode source).count 10 = 0 := by rw [count_encode, List.count_eq_zero.mpr absent]
      exact List.count_eq_zero.mp none (List.mem_of_getLast? last)
  | some parts =>
    obtain ⟨front, last⟩ := parts
    obtain ⟨rfl, absent⟩ := Text.rsplitOnce_eq_some split
    right
    have bytes : Utf8.encode (front ++ '\n' :: last) = Utf8.encode front ++ 10 :: Utf8.encode last := by
      unfold Utf8.encode
      rw [List.flatMap_append, List.flatMap_cons]
      rfl
    have feeds : (front ++ '\n' :: last).count '\n' = front.count '\n' + 1 := by
      rw [List.count_append, List.count_cons_self, List.count_eq_zero.mpr absent]
    rw [splitChar_append_sep, Text.splitChar_of_not_mem absent, List.dropLast_concat, List.getLast?_concat,
      Option.getD_some, List.length_append, List.length_map, length_splitChar, feeds, bytes]
    by_cases empty : last = []
    · left
      subst empty
      rw [if_pos rfl]
      refine ⟨rfl, List.getLast?_concat, ?_⟩
      have ends : (lineStarts (Utf8.encode front ++ [10]))[front.count '\n' + 1]? =
          some ((Utf8.encode front).length + 1) := by
        have whole : lineStarts (Utf8.encode front ++ [10]) =
            lineStarts (Utf8.encode front) ++ [(Utf8.encode front).length + 1] := by
          rw [lineStarts, lineStartsFrom_append, Nat.zero_add]
          rfl
        have length : (lineStarts (Utf8.encode front)).length = front.count '\n' + 1 := by
          rw [length_lineStarts, count_encode]
        rw [whole, ← length]
        exact List.getElem?_concat_length
      have nothing : Utf8.encode [] = [] := rfl
      rw [nothing, List.length_nil, Nat.add_zero, List.length_append, List.length_singleton, lineStop, ends]
      rfl
    · right
      rw [if_neg empty]
      refine ⟨rfl, fun feed => ?_⟩
      have nonempty : Utf8.encode last ≠ [] := by
        intro nil
        have length := Utf8.length_le_length_encode last
        rw [nil, List.length_nil, Nat.le_zero] at length
        exact empty (List.length_eq_zero_iff.mp length)
      have none : (Utf8.encode last).count 10 = 0 := by rw [count_encode, List.count_eq_zero.mpr absent]
      obtain ⟨b, rest, cons⟩ := List.exists_cons_of_ne_nil nonempty
      rw [cons, List.getLast?_append, List.getLast?_cons_cons, ← cons] at feed
      cases found : (Utf8.encode last).getLast? with
      | none => exact nonempty (List.getLast?_eq_none_iff.mp found)
      | some final =>
        rw [found] at feed
        obtain rfl := Option.some.inj feed
        exact List.count_eq_zero.mp none (List.mem_of_getLast? found)

/-! ### Sections -/

/-- A heading belongs to the section of another: it is not before it, and no heading from there on to it is as shallow. -/
def InSection (hs : List Heading) (i j : Nat) : Prop :=
  i ≤ j ∧ ∀ k, i < k → k ≤ j → ∀ h other, hs[i]? = some h → hs[k]? = some other → h.depth < other.depth

def Within (inner outer : RawSymbol) : Prop := outer.spanStart ≤ inner.spanStart ∧ inner.spanEnd ≤ outer.spanEnd

def Apart (s t : RawSymbol) : Prop := s.spanEnd ≤ t.spanStart ∨ t.spanEnd ≤ s.spanStart

/-- Where the section of a heading ends: right before the line feed in front of the next heading that is not deeper, or
else with the last line. -/
def SectionEnds (bytes : Utf8.Bytes) (hs : List Heading) (i : Nat) (h : Heading) (stop : Nat) : Prop :=
  (∃ j next, i < j ∧ hs[j]? = some next ∧ next.depth ≤ h.depth ∧
      (∀ k other, i < k → k < j → hs[k]? = some other → h.depth < other.depth) ∧
      stop + 1 = lineStart bytes next.line ∧ bytes[stop]? = some 10) ∨
    (∀ k other, i < k → hs[k]? = some other → h.depth < other.depth) ∧
      (bytes.getLast? = some 10 → stop + 1 = bytes.length) ∧ (bytes.getLast? ≠ some 10 → stop = bytes.length)

structure SectionTree (filePath source : Text) : Prop where
  symbols : List.Forall₂ (fun h s => s.name = h.text ∧ s.qualified = h.qualifiedName ∧ s.kind = "heading".toList ∧
    s.spanStart = lineStart (Utf8.encode source) h.line) (collectHeadings source) (markdownSymbols filePath source)
  headings : ∀ h ∈ collectHeadings source, 1 ≤ h.line ∧ ∃ raw, (History.lines source)[h.line - 1]? = some raw ∧
    parseAtxHeading (Text.trimStart raw) = some (h.depth, h.text)
  distinct : ((markdownSymbols filePath source).map (·.qualified)).Nodup
  ends : ∀ i h s, (collectHeadings source)[i]? = some h → (markdownSymbols filePath source)[i]? = some s →
    SectionEnds (Utf8.encode source) (collectHeadings source) i h s.spanEnd
  nested : ∀ i j s t, (markdownSymbols filePath source)[i]? = some s → (markdownSymbols filePath source)[j]? = some t →
    (Within t s ↔ InSection (collectHeadings source) i j)
  laminar : ∀ s ∈ markdownSymbols filePath source, ∀ t ∈ markdownSymbols filePath source,
    Within s t ∨ Within t s ∨ Apart s t

section Spans

variable {filePath source : Text} {hs : List Heading}

theorem length_headingSymbols : (headingSymbols filePath source hs).length = hs.length := by
  induction hs with
  | nil => rfl
  | cons h later ih => rw [headingSymbols, List.length_cons, List.length_cons, ih]

variable {i : Nat}

theorem getElem?_headingSymbols : (headingSymbols filePath source hs)[i]? =
      hs[i]?.map fun h => headingSymbol filePath source h (hs.drop (i + 1)) := by
  induction hs generalizing i with
  | nil => rfl
  | cons h later ih =>
    rw [headingSymbols]
    cases i with
    | zero => rfl
    | succ i => exact ih

variable {h : Heading}

theorem sectionEnd_bounds (sound : HeadingsOf (History.lines source) hs) (found : hs[i]? = some h) :
    h.line ≤ sectionEnd h (hs.drop (i + 1)) (History.lines source).length ∧
      sectionEnd h (hs.drop (i + 1)) (History.lines source).length ≤ (History.lines source).length := by
  have whole := sound.line_le (List.mem_of_getElem? found)
  unfold sectionEnd
  cases next : (hs.drop (i + 1)).find? fun next => next.depth ≤ h.depth with
  | none => exact ⟨whole, Nat.le_refl _⟩
  | some other =>
    have inside := List.mem_of_find?_eq_some next
    have bound := sound.line_le (List.mem_of_mem_drop inside)
    obtain ⟨k, later⟩ := List.mem_iff_getElem?.mp inside
    rw [List.getElem?_drop] at later
    have order := sound.line_lt found later (by omega)
    dsimp only
    omega

theorem lines_le_starts (source : Text) :
    (History.lines source).length ≤ (lineStarts (Utf8.encode source)).length := by
  rcases lines_cases source with rfl | ⟨more, -⟩ | ⟨same, -⟩
  · exact Nat.zero_le _
  · omega
  · exact same.le

theorem headingSymbol_span (filePath : Text) (sound : HeadingsOf (History.lines source) hs) (found : hs[i]? = some h) :
    (headingSymbol filePath source h (hs.drop (i + 1))).spanStart = lineStart (Utf8.encode source) h.line ∧
      (headingSymbol filePath source h (hs.drop (i + 1))).spanEnd =
        lineStop (Utf8.encode source) (sectionEnd h (hs.drop (i + 1)) (History.lines source).length) := by
  have mem := List.mem_of_getElem? found
  have first := (sound.written h mem).1
  have inside := (sound.line_le mem).trans (lines_le_starts source)
  have range := lineRangeToBytes_eq first (sectionEnd_bounds sound found).1 inside
  unfold headingSymbol
  dsimp only
  rw [range]
  exact ⟨rfl, rfl⟩

theorem pairwise_headingSymbols (filePath : Text) (sound : HeadingsOf (History.lines source) hs) :
    (headingSymbols filePath source hs).Pairwise fun a b => a.spanStart < b.spanStart := by
  rw [List.pairwise_iff_getElem]
  intro i j insideI insideJ order
  have left := List.getElem?_eq_getElem insideI
  have right := List.getElem?_eq_getElem insideJ
  rw [getElem?_headingSymbols] at left right
  obtain ⟨h, foundI, same⟩ := Option.map_eq_some_iff.mp left
  obtain ⟨other, foundJ, same'⟩ := Option.map_eq_some_iff.mp right
  rw [← same, ← same', (headingSymbol_span _ sound foundI).1, (headingSymbol_span _ sound foundJ).1]
  have ascending := sound.line_lt foundI foundJ order
  have mem := List.mem_of_getElem? foundJ
  exact lineStart_lt (sound.written h (List.mem_of_getElem? foundI)).1 ascending
    ((sound.line_le mem).trans (lines_le_starts source))

/-- The symbols start where their headings do, which is in order, so that none is dropped. -/
theorem markdownSymbols_eq (filePath source : Text) :
    markdownSymbols filePath source = headingSymbols filePath source (collectHeadings source) := by
  have ascending := pairwise_headingSymbols filePath (headingsOf_collectHeadings source)
  refine sortedDedup_of_ascends Rows.refines_symbol (ascending.imp fun {a b} less => ?_)
  simp [Rows.symbolCmp, compareLex, compareOn, compare_lt_iff_lt.mpr less]

theorem sectionEnd_cases (hs : List Heading) (i : Nat) (h : Heading) (total : Nat) :
    (∃ j next, i < j ∧ hs[j]? = some next ∧ next.depth ≤ h.depth ∧
        (∀ k other, i < k → k < j → hs[k]? = some other → h.depth < other.depth) ∧
        sectionEnd h (hs.drop (i + 1)) total = next.line - 1) ∨
      (∀ k other, i < k → hs[k]? = some other → h.depth < other.depth) ∧
        sectionEnd h (hs.drop (i + 1)) total = total := by
  unfold sectionEnd
  have place : ∀ k other, i < k → hs[k]? = some other → (hs.drop (i + 1))[k - (i + 1)]? = some other := by
    intro k other after found
    rw [List.getElem?_drop, show i + 1 + (k - (i + 1)) = k by omega, found]
  cases next : (hs.drop (i + 1)).find? fun next => next.depth ≤ h.depth with
  | none =>
    right
    refine ⟨fun k other after found => ?_, rfl⟩
    have deeper := List.find?_eq_none.mp next other (List.mem_of_getElem? (place k other after found))
    rw [decide_eq_true_eq] at deeper
    omega
  | some other =>
    left
    obtain ⟨shallow, n, inside, here, before⟩ := List.find?_eq_some_iff_getElem.mp next
    rw [decide_eq_true_eq] at shallow
    have found : hs[i + 1 + n]? = some other := by
      rw [← List.getElem?_drop, List.getElem?_eq_getElem inside, here]
    refine ⟨i + 1 + n, other, by omega, found, shallow, fun k between after early there => ?_, rfl⟩
    have least := before (k - (i + 1)) (by omega)
    obtain ⟨within, same⟩ := List.getElem?_eq_some_iff.mp (place k between after there)
    rw [same] at least
    simp only [Bool.not_eq_eq_eq_not, Bool.not_true, decide_eq_false_iff_not] at least
    omega

theorem sectionEnds_headingSymbol (sound : HeadingsOf (History.lines source) hs) (found : hs[i]? = some h) :
    SectionEnds (Utf8.encode source) hs i h (headingSymbol filePath source h (hs.drop (i + 1))).spanEnd := by
  rw [(headingSymbol_span _ sound found).2]
  rcases sectionEnd_cases hs i h (History.lines source).length with ⟨j, next, after, there, shallow, between, last⟩ | ⟨all, last⟩
  · left
    rw [last]
    have mem := List.mem_of_getElem? there
    have bound := (sound.line_le mem).trans (lines_le_starts source)
    have order := sound.line_lt found there after
    have first := (sound.written h (List.mem_of_getElem? found)).1
    obtain ⟨ends, feed⟩ := @lineStop_eq (Utf8.encode source) (next.line - 1) (by omega) (by omega)
    rw [Nat.sub_add_cancel (by omega)] at ends
    exact ⟨j, next, after, there, shallow, between, ends, feed⟩
  · right
    rw [last]
    rcases lines_cases source with rfl | ⟨-, feed, ends⟩ | ⟨same, feed⟩
    · have none := sound.line_le (List.mem_of_getElem? found)
      have first := (sound.written h (List.mem_of_getElem? found)).1
      change _ ≤ 0 at none
      omega
    · exact ⟨all, fun _ => ends, fun other => absurd feed other⟩
    · exact ⟨all, fun other => absurd other feed, fun _ => lineStop_of_last same.ge⟩

variable {h other : Heading} {i j : Nat}

/-- A heading in a section has its section inside; the section of another one ends before its line. -/
theorem span_cases (filePath : Text) (sound : HeadingsOf (History.lines source) hs) (order : i ≤ j)
    (foundI : hs[i]? = some h) (foundJ : hs[j]? = some other) :
    (InSection hs i j ∧ Within (headingSymbol filePath source other (hs.drop (j + 1)))
        (headingSymbol filePath source h (hs.drop (i + 1)))) ∨
      ¬ InSection hs i j ∧ (headingSymbol filePath source h (hs.drop (i + 1))).spanEnd <
        (headingSymbol filePath source other (hs.drop (j + 1))).spanStart := by
  have memI := List.mem_of_getElem? foundI
  have memJ := List.mem_of_getElem? foundJ
  have firstI := (sound.written h memI).1
  have lastJ := (sound.line_le memJ).trans (lines_le_starts source)
  have notBefore : h.line ≤ other.line := by
    rcases order.lt_or_eq with less | rfl
    · exact (sound.line_lt foundI foundJ less).le
    · rw [Option.mem_unique foundI foundJ]
  have boundsI := sectionEnd_bounds sound foundI
  have boundsJ := sectionEnd_bounds sound foundJ
  unfold Within
  rw [(headingSymbol_span _ sound foundI).1, (headingSymbol_span _ sound foundI).2, (headingSymbol_span _ sound foundJ).1,
    (headingSymbol_span _ sound foundJ).2]
  have start := lineStart_le firstI notBefore lastJ
  rcases sectionEnd_cases hs i h (History.lines source).length with ⟨m, next, after, found, shallow, between, last⟩ | ⟨all, last⟩
  · by_cases inside : m ≤ j
    · right
      have notIn : ¬ InSection hs i j := by
        rintro ⟨-, deeper⟩
        exact absurd (deeper m after inside h next foundI found) (Nat.not_lt.mpr shallow)
      refine ⟨notIn, ?_⟩
      have nextLine : next.line ≤ other.line := by
        rcases inside.lt_or_eq with less | rfl
        · exact (sound.line_lt found foundJ less).le
        · rw [Option.mem_unique found foundJ]
      have beyond := sound.line_lt foundI found after
      have ends := (@lineStop_eq (Utf8.encode source) (next.line - 1) (by omega) (by omega)).1
      rw [Nat.sub_add_cancel (by omega)] at ends
      have starts := @lineStart_le (Utf8.encode source) next.line other.line (by omega) nextLine lastJ
      rw [last]
      omega
    · left
      have isIn : InSection hs i j := by
        refine ⟨order, fun k later upTo a b foundA foundB => ?_⟩
        obtain rfl := Option.mem_unique foundI foundA
        exact between k b later (by omega) foundB
      refine ⟨isIn, start, lineStop_le (by omega) ?_⟩
      rw [last]
      rcases sectionEnd_cases hs j other (History.lines source).length with
        ⟨n, next', after', found', shallow', between', last'⟩ | ⟨all', last'⟩
      · rw [last']
        have notLater : n ≤ m := by
          by_contra later
          have deep := between' m next (by omega) (by omega) found
          rcases order.lt_or_eq with less | rfl
          · have deeper := between j other less (by omega) foundJ
            omega
          · rw [Option.mem_unique foundJ foundI] at deep
            omega
        rcases notLater.lt_or_eq with less | rfl
        · have := sound.line_lt found' found less
          omega
        · rw [Option.mem_unique found found']
      · have deep := all' m next (by omega) found
        rcases order.lt_or_eq with less | rfl
        · have deeper := between j other less (by omega) foundJ
          omega
        · rw [Option.mem_unique foundJ foundI] at deep
          omega
  · left
    have isIn : InSection hs i j := by
      refine ⟨order, fun k later _ a b foundA foundB => ?_⟩
      obtain rfl := Option.mem_unique foundI foundA
      exact all k b later foundB
    refine ⟨isIn, start, lineStop_le (by omega) ?_⟩
    rw [last]
    exact boundsJ.2

theorem nested_iff (filePath : Text) (sound : HeadingsOf (History.lines source) hs)
    (foundI : hs[i]? = some h) (foundJ : hs[j]? = some other) :
    (Within (headingSymbol filePath source other (hs.drop (j + 1))) (headingSymbol filePath source h (hs.drop (i + 1))) ↔
        InSection hs i j) ∧
      (InSection hs i j ∨ InSection hs j i ∨ Apart (headingSymbol filePath source h (hs.drop (i + 1)))
        (headingSymbol filePath source other (hs.drop (j + 1)))) := by
  have first := (sound.written other (List.mem_of_getElem? foundJ)).1
  have last := (sound.line_le (List.mem_of_getElem? foundI)).trans (lines_le_starts source)
  rcases Nat.lt_or_ge j i with less | order
  · have notIn : ¬ InSection hs i j := fun inside => absurd inside.1 (Nat.not_le.mpr less)
    have before := lineStart_lt first (sound.line_lt foundJ foundI less) last
    rw [← (headingSymbol_span filePath sound foundJ).1, ← (headingSymbol_span filePath sound foundI).1] at before
    refine ⟨iff_of_false (fun within => ?_) notIn, ?_⟩
    · exact absurd within.1 (Nat.not_le.mpr before)
    · rcases span_cases filePath sound less.le foundJ foundI with ⟨inside, -⟩ | ⟨-, apart⟩
      · exact .inr (.inl inside)
      · exact .inr (.inr (.inr apart.le))
  · rcases span_cases filePath sound order foundI foundJ with ⟨inside, within⟩ | ⟨notIn, apart⟩
    · exact ⟨iff_of_true within inside, .inl inside⟩
    · refine ⟨iff_of_false (fun within => ?_) notIn, .inr (.inr (.inl apart.le))⟩
      have own := @lineStart_le_lineStop (Utf8.encode source) _ _ first (sectionEnd_bounds sound foundJ).1
      rw [← (headingSymbol_span filePath sound foundJ).1, ← (headingSymbol_span filePath sound foundJ).2] at own
      exact absurd (own.trans within.2) (Nat.not_le.mpr apart)

end Spans

/-- The headings of a text are a tree of sections with distinct names exactly if no name with a number is a slug. -/
theorem sectionTree_iff (filePath source : Text) :
    SectionTree filePath source ↔ NoClash (collectHeadings source) := by
  have sound := headingsOf_collectHeadings source
  have names : (markdownSymbols filePath source).map (·.qualified) =
      (collectHeadings source).map Heading.qualifiedName := by
    rw [markdownSymbols_eq]
    generalize collectHeadings source = hs
    induction hs with
    | nil => rfl
    | cons h later ih =>
      rw [headingSymbols, List.map_cons, List.map_cons, ih]
      rfl
  have symbolAt : ∀ i s, (markdownSymbols filePath source)[i]? = some s → ∃ h, (collectHeadings source)[i]? = some h ∧
      headingSymbol filePath source h ((collectHeadings source).drop (i + 1)) = s := by
    intro i s found
    rw [markdownSymbols_eq, getElem?_headingSymbols] at found
    exact Option.map_eq_some_iff.mp found
  rw [← sound.nodup_iff, ← names]
  constructor
  · exact SectionTree.distinct
  · intro distinct
    constructor
    · rw [List.forall₂_iff_get, markdownSymbols_eq]
      refine ⟨?_, fun i inside inside' => ?_⟩
      · rw [length_headingSymbols]
      · have found := List.getElem?_eq_getElem inside'
        rw [getElem?_headingSymbols, List.getElem?_eq_getElem inside, Option.map_some] at found
        have same := Option.some.inj found
        rw [List.get_eq_getElem, List.get_eq_getElem, ← same]
        exact ⟨rfl, rfl, rfl, (headingSymbol_span filePath sound (List.getElem?_eq_getElem inside)).1⟩
    · exact sound.written
    · exact distinct
    · intro i h s found symbol
      obtain ⟨h', found', rfl⟩ := symbolAt i s symbol
      obtain rfl := Option.mem_unique found found'
      exact sectionEnds_headingSymbol sound found
    · intro i j s t foundI foundJ
      obtain ⟨h, headI, rfl⟩ := symbolAt i s foundI
      obtain ⟨other, headJ, rfl⟩ := symbolAt j t foundJ
      exact (nested_iff filePath sound headI headJ).1
    · intro s memS t memT
      obtain ⟨i, foundI⟩ := List.mem_iff_getElem?.mp memS
      obtain ⟨j, foundJ⟩ := List.mem_iff_getElem?.mp memT
      obtain ⟨h, headI, rfl⟩ := symbolAt i s foundI
      obtain ⟨other, headJ, rfl⟩ := symbolAt j t foundJ
      rcases (nested_iff filePath sound headI headJ).2 with inside | inside | apart
      · exact .inr (.inl ((nested_iff filePath sound headI headJ).1.mpr inside))
      · exact .inl ((nested_iff filePath sound headJ headI).1.mpr inside)
      · exact .inr (.inr apart)

namespace Sample

def clashing : Text := "# A\n# A 3\n# A\n"

/-- Both are called `a-3`. -/
theorem clashing_names :
    (markdownSymbols "r.md".toList clashing).map (·.qualified) = ["a".toList, "a-3".toList, "a-3".toList] ∧
      ¬ SectionTree "r.md".toList clashing := by
  have names : (markdownSymbols "r.md".toList clashing).map (·.qualified) =
      ["a".toList, "a-3".toList, "a-3".toList] := by
    decide +kernel
  refine ⟨names, fun tree => ?_⟩
  have distinct := tree.distinct
  rw [names] at distinct
  revert distinct
  decide

end Sample

end OrbitGraph.Extract
