import OrbitGraph.Output.Fitting

/-!
The loops of the layout.

A round takes one off a flexible column that is wider than eight, or drops the last flexible
column. So the columns that are left are in order, every fixed one is among them with the
width that it needs, and the loops end.
-/

namespace OrbitGraph.Output

open Lib

section Rounds

variable {table : TableView}

theorem maxByKey_mem {α : Type} {key : α → Nat} {xs : List α} {x : α} (found : maxByKey key xs = some x) : x ∈ xs := by
  induction xs generalizing x with
  | nil => cases found
  | cons first rest ih =>
    rw [maxByKey] at found
    cases later : maxByKey key rest with
    | none =>
      rw [later] at found
      obtain rfl := Option.some.inj found
      exact List.mem_cons_self
    | some best =>
      simp only [later] at found
      split_ifs at found
      · obtain rfl := Option.some.inj found
        exact List.mem_cons_of_mem _ (ih later)
      · obtain rfl := Option.some.inj found
        exact List.mem_cons_self

theorem shrinkable_eq_some {fitting : Fitting} {position : Nat} (found : shrinkable table fitting = some position) :
    ∃ index width, fitting.indices[position]? = some index ∧ fitting.widths[position]? = some width ∧
      isFlexible table index = true ∧ 8 < width := by
  obtain ⟨⟨width, position'⟩, best, rfl⟩ := Option.map_eq_some_iff.mp found
  obtain ⟨here, holds⟩ := List.mem_filter.mp (maxByKey_mem best)
  simp only [Bool.and_eq_true, decide_eq_true_eq, Option.any_eq_true] at holds
  obtain ⟨⟨index, at', flexible⟩, wide⟩ := holds
  exact ⟨index, width, at', List.mem_zipIdx_iff_getElem?.mp here, flexible, wide⟩

variable {indices : List Nat}

theorem droppable_eq_some {position : Nat} (found : droppable table indices = some position) :
    ∃ index, indices[position]? = some index ∧ isFlexible table index = true ∧
      ∀ later index', position < later → indices[later]? = some index' → isFlexible table index' = false := by
  unfold droppable at found
  induction indices using List.reverseRecOn with
  | nil => cases found
  | append_singleton indices last ih =>
    simp only [List.zipIdx_append, List.reverse_append, Nat.zero_add, List.zipIdx_singleton, List.reverse_singleton,
      List.singleton_append, List.find?_cons] at found
    cases flexible : isFlexible table last with
    | true =>
      rw [flexible] at found
      obtain rfl := Option.some.inj found
      refine ⟨last, List.getElem?_concat_length, flexible, fun later index' beyond at' => ?_⟩
      rw [List.getElem?_eq_none (by rw [List.length_append, List.length_singleton]; omega)] at at'
      cases at'
    | false =>
      rw [flexible] at found
      obtain ⟨index, at', holds, none⟩ := ih found
      have inside := (List.getElem?_eq_some_iff.mp at').1
      refine ⟨index, (List.getElem?_append_left inside).trans at', holds, fun later index' beyond there => ?_⟩
      rcases Nat.lt_trichotomy later indices.length with before | rfl | behind
      · exact none later index' beyond ((List.getElem?_append_left before).symm.trans there)
      · rw [List.getElem?_concat_length] at there
        exact Option.some.inj there ▸ flexible
      · rw [List.getElem?_eq_none (by rw [List.length_append, List.length_singleton]; omega)] at there
        cases there

theorem droppable_eq_none (none : droppable table indices = none) :
    ∀ index ∈ indices, isFlexible table index = false := by
  intro index mem
  obtain ⟨position, at'⟩ := List.mem_iff_getElem?.mp mem
  have absent := List.find?_eq_none.mp (Option.map_eq_none_iff.mp none) (index, position)
    (List.mem_reverse.mpr (List.mem_zipIdx_iff_getElem?.mpr at'))
  exact Bool.not_eq_true _ ▸ absent

theorem sum_modify_pred {widths : List Nat} {position width : Nat} (here : widths[position]? = some width)
    (positive : 0 < width) : (widths.modify position (· - 1)).sum + 1 = widths.sum := by
  induction widths generalizing position with
  | nil => cases here
  | cons first rest ih =>
    cases position with
    | zero =>
      obtain rfl := Option.some.inj here
      rw [List.modify_zero_cons, List.sum_cons, List.sum_cons]
      omega
    | succ position =>
      rw [List.modify_succ_cons, List.sum_cons, List.sum_cons, Nat.add_assoc, ih here]

def missing (table : TableView) (indices : List Nat) : List Nat :=
  (List.range table.columns.length).filter fun index => index ∉ indices

theorem mem_missing {index : Nat} :
    index ∈ missing table indices ↔ index < table.columns.length ∧ index ∉ indices := by
  rw [missing, List.mem_filter, List.mem_range, decide_eq_true_eq]

theorem pairwise_missing (table : TableView) (indices : List Nat) : (missing table indices).Pairwise (· < ·) :=
  List.Pairwise.filter _ List.pairwise_lt_range

def headingsOf (table : TableView) (indices : List Nat) : List Text :=
  indices.filterMap fun index => table.columns[index]?.map (·.heading.toUppercase)

theorem eq_of_ascending {left right : List Nat} (first : left.Pairwise (· < ·)) (second : right.Pairwise (· < ·))
    (same : ∀ n, n ∈ left ↔ n ∈ right) : left = right := by
  have perm : left.Perm right := (List.perm_ext_iff_of_nodup (first.imp Nat.ne_of_lt) (second.imp Nat.ne_of_lt)).mpr same
  exact perm.eq_of_pairwise (fun _ _ _ _ le ge => absurd le (Nat.lt_asymm ge)) first second

/-- What the loops keep true. -/
structure Fitted (table : TableView) (natural : List Nat) (fitting : Fitting) : Prop where
  length_widths : fitting.widths.length = fitting.indices.length
  ascending : fitting.indices.Pairwise (· < ·)
  inside : ∀ index ∈ fitting.indices, index < table.columns.length
  keepsFixed : ∀ index < table.columns.length, isFlexible table index = false → index ∈ fitting.indices
  /-- The columns are dropped from the last one on. -/
  fromTheEnd : ∀ index ∈ fitting.indices, isFlexible table index = true →
    ∀ other ∈ missing table fitting.indices, index < other
  namesDropped : fitting.dropped.reverse = headingsOf table (missing table fitting.indices)
  enough : ∀ position index width : Nat, fitting.indices[position]? = some index → fitting.widths[position]? = some width →
    width = natural.getD index 0 ∨ isFlexible table index = true ∧ 8 ≤ width

/-- A number that every round makes smaller. -/
def remaining (natural : List Nat) (fitting : Fitting) : Nat :=
  fitting.indices.length * (natural.sum + 1) + fitting.widths.sum

variable {natural : List Nat} {sinkWidth : Nat} {fitting next : Fitting}

theorem enough_natural (indices : List Nat) : ∀ position index width : Nat, indices[position]? = some index →
    (indices.map (natural.getD · 0))[position]? = some width → width = natural.getD index 0 := by
  intro position index width at' there
  rw [List.getElem?_map, at'] at there
  exact (Option.some.inj there).symm

theorem Fitted.start (table : TableView) (natural : List Nat) (length : natural.length = table.columns.length) :
    Fitted table natural ⟨List.range natural.length, (List.range natural.length).map (natural.getD · 0), []⟩ := by
  have nothing : missing table (List.range natural.length) = [] := by
    rw [missing, List.filter_eq_nil_iff, length]
    intro index mem absent
    exact of_decide_eq_true absent mem
  refine ⟨by rw [List.length_map], List.pairwise_lt_range, fun index mem => ?_, fun index small _ => ?_, ?_, ?_, ?_⟩
  · exact length ▸ List.mem_range.mp mem
  · exact List.mem_range.mpr (length ▸ small)
  · intro _ _ _ other mem
    rw [nothing] at mem
    cases mem
  · rw [nothing]
    rfl
  · exact fun position index width at' there => .inl (enough_natural _ position index width at' there)

theorem Fitted.shrink {position : Nat} (fitted : Fitted table natural fitting)
    (found : shrinkable table fitting = some position) :
    Fitted table natural { fitting with widths := fitting.widths.modify position (· - 1) } ∧
      remaining natural { fitting with widths := fitting.widths.modify position (· - 1) } < remaining natural fitting := by
  obtain ⟨index, width, at', there, flexible, wide⟩ := shrinkable_eq_some found
  constructor
  · refine { fitted with length_widths := ?_, enough := fun position' index' width' here now => ?_ }
    · rw [List.length_modify]
      exact fitted.length_widths
    · rw [List.getElem?_modify] at now
      by_cases same : position = position'
      · subst same
        obtain rfl := Option.mem_unique at' here
        rw [there] at now
        simp only [if_true, Option.map_eq_map, Option.map_some, Option.some.injEq] at now
        exact .inr ⟨flexible, by omega⟩
      · simp only [if_neg same, Option.map_eq_map, Option.map_id'] at now
        exact fitted.enough position' index' width' here now
  · have less := sum_modify_pred there (by omega)
    unfold remaining
    dsimp only
    omega

theorem sum_map_natural_le (natural : List Nat) (ascending : indices.Pairwise (· < ·))
    (inside : ∀ index ∈ indices, index < natural.length) : (indices.map (natural.getD · 0)).sum ≤ natural.sum := by
  have whole : (List.range natural.length).map (natural.getD · 0) = natural := by
    refine List.ext_getElem (by simp) fun i _ small => ?_
    simp [List.getElem?_eq_getElem small]
  have part : indices.Subperm (List.range natural.length) :=
    List.subperm_of_subset (ascending.imp Nat.ne_of_lt) fun index mem => List.mem_range.mpr (inside index mem)
  obtain ⟨front, perm, sublist⟩ := part
  calc (indices.map (natural.getD · 0)).sum
      = (front.map (natural.getD · 0)).sum := (perm.map _).sum_eq.symm
    _ ≤ ((List.range natural.length).map (natural.getD · 0)).sum := (sublist.map _).sum_le_sum fun _ _ => Nat.zero_le _
    _ = natural.sum := by rw [whole]

theorem Fitted.drop {position : Nat} (fitted : Fitted table natural fitting) (length : natural.length = table.columns.length)
    (found : droppable table fitting.indices = some position) :
    let indices := fitting.indices.eraseIdx position
    let heading := (fitting.indices[position]?.bind (table.columns[·]?)).map (·.heading.toUppercase)
    let next : Fitting := ⟨indices, indices.map (natural.getD · 0), fitting.dropped ++ heading.toList⟩
    Fitted table natural next ∧ remaining natural next < remaining natural fitting := by
  intro indices heading next
  obtain ⟨index, at', flexible, none⟩ := droppable_eq_some found
  obtain ⟨small, same⟩ := List.getElem?_eq_some_iff.mp at'
  have nodup : fitting.indices.Nodup := fitted.ascending.imp Nat.ne_of_lt
  have mem : index ∈ fitting.indices := List.mem_of_getElem? at'
  have kept : ∀ other, other ∈ indices ↔ other ≠ index ∧ other ∈ fitting.indices := by
    intro other
    have erased : indices = fitting.indices.erase index := by rw [← same, nodup.erase_getElem]
    rw [erased, nodup.mem_erase_iff]
  -- Behind the dropped column only fixed ones are left, so it is the greatest flexible one.
  have greatest : ∀ other ∈ fitting.indices, isFlexible table other = true → other ≤ index := by
    intro other there flexible'
    obtain ⟨position', at''⟩ := List.mem_iff_getElem?.mp there
    obtain ⟨small', same'⟩ := List.getElem?_eq_some_iff.mp at''
    rcases Nat.lt_trichotomy position' position with before | rfl | behind
    · rw [← same, ← same']
      exact (List.pairwise_iff_getElem.mp fitted.ascending position' position small' small before).le
    · exact (Option.mem_unique at'' at').le
    · rw [none position' other behind at''] at flexible'
      cases flexible'
  have ascending : indices.Pairwise (· < ·) := fitted.ascending.sublist (List.eraseIdx_sublist ..)
  have inside : ∀ other ∈ indices, other < table.columns.length := fun other there => fitted.inside other ((kept other).mp there).2
  have gone : missing table indices = index :: missing table fitting.indices := by
    refine eq_of_ascending (pairwise_missing table _) (List.pairwise_cons.mpr ⟨?_, pairwise_missing table _⟩) fun other => ?_
    · exact fitted.fromTheEnd index mem flexible
    · rw [mem_missing, List.mem_cons, mem_missing, kept]
      by_cases equal : other = index
      · simp [equal, fitted.inside index mem]
      · simp [equal]
  refine ⟨⟨by rw [List.length_map], ascending, inside, ?_, ?_, ?_, ?_⟩, ?_⟩
  · intro other small' fixed
    refine (kept other).mpr ⟨fun equal => ?_, fitted.keepsFixed other small' fixed⟩
    rw [equal, flexible] at fixed
    cases fixed
  · intro other there flexible' further out
    obtain ⟨apart, there⟩ := (kept other).mp there
    have least : other < index := lt_of_le_of_ne (greatest other there flexible') apart
    rw [gone] at out
    rcases List.mem_cons.mp out with rfl | out
    · exact least
    · exact fitted.fromTheEnd other there flexible' further out
  · have valid := fitted.inside index mem
    have named : heading = some table.columns[index].heading.toUppercase := by
      change (fitting.indices[position]?.bind _).map _ = _
      rw [at', Option.bind_some, List.getElem?_eq_getElem valid, Option.map_some]
    change (fitting.dropped ++ heading.toList).reverse = headingsOf table (missing table indices)
    rw [gone, named, List.reverse_append, fitted.namesDropped]
    unfold headingsOf
    rw [List.filterMap_cons, List.getElem?_eq_getElem valid]
    rfl
  · exact fun position' index' width' here there => .inl (enough_natural _ position' index' width' here there)
  · have shorter : indices.length + 1 = fitting.indices.length := List.length_eraseIdx_add_one small
    have bound := sum_map_natural_le natural ascending fun other there => length ▸ inside other there
    have more : fitting.indices.length * (natural.sum + 1) = indices.length * (natural.sum + 1) + (natural.sum + 1) := by
      rw [← shorter, Nat.succ_mul]
    change indices.length * (natural.sum + 1) + (indices.map (natural.getD · 0)).sum < _
    unfold remaining
    omega

theorem Fitted.round (fitted : Fitted table natural fitting) (length : natural.length = table.columns.length)
    (goes : fitBody table natural sinkWidth fitting = .inl next) :
    Fitted table natural next ∧ remaining natural next < remaining natural fitting := by
  unfold fitBody at goes
  split_ifs at goes
  cases narrower : shrinkable table fitting with
  | some position =>
    rw [narrower] at goes
    obtain rfl := Sum.inl.inj goes
    exact fitted.shrink narrower
  | none =>
    rw [narrower] at goes
    cases fewer : droppable table fitting.indices with
    | none => simp [fewer] at goes
    | some position =>
      simp only [fewer, Sum.inl.injEq] at goes
      obtain rfl := goes
      exact fitted.drop length fewer

theorem fits_of_ends (ends : fitBody table natural sinkWidth fitting = .inr next) : next = fitting ∧
      (renderedWidth fitting.widths ≤ sinkWidth ∨ ∀ index ∈ fitting.indices, isFlexible table index = false) := by
  unfold fitBody at ends
  split_ifs at ends with fits
  · exact ⟨(Sum.inr.inj ends).symm, .inl fits⟩
  · cases narrower : shrinkable table fitting with
    | some position => simp [narrower] at ends
    | none =>
      cases fewer : droppable table fitting.indices with
      | none =>
        simp only [narrower, fewer, Sum.inr.injEq] at ends
        exact ⟨ends.symm, .inr (droppable_eq_none fewer)⟩
      | some position => simp [narrower, fewer] at ends

end Rounds

section Lines

variable {display : Display} {table : TableView}

theorem length_naturalWidths (display : Display) (table : TableView) :
    (naturalWidths display table).length = table.columns.length := by
  rw [naturalWidths, List.length_map, List.length_zipIdx]

theorem le_foldl_max (width : List Text → Nat) (rows : List (List Text)) (least : Nat) :
    least ≤ rows.foldl (fun so_far row => max so_far (width row)) least ∧
      ∀ row ∈ rows, width row ≤ rows.foldl (fun so_far row => max so_far (width row)) least := by
  induction rows generalizing least with
  | nil => exact ⟨Nat.le_refl _, nofun⟩
  | cons first rest ih =>
    obtain ⟨more, each⟩ := ih (max least (width first))
    rw [List.foldl_cons]
    refine ⟨(Nat.le_max_left _ _).trans more, fun row mem => ?_⟩
    rcases List.mem_cons.mp mem with rfl | later
    · exact (Nat.le_max_right _ _).trans more
    · exact each row later

theorem printable_toUpper : ∀ n < 0x7F, 0x20 ≤ n →
    0x20 ≤ (Char.ofNat n).toUpper.toNat ∧ (Char.ofNat n).toUpper.toNat ≤ 0x7E ∧
      (escapeChar false (Char.ofNat n)).length = (escapeChar false (Char.ofNat n).toUpper).length ∧
      (escapeChar false (Char.ofNat n)).all fun c => decide (0x20 ≤ c.toNat ∧ c.toNat ≤ 0x7E) := by
  decide +kernel

theorem printable_escapeCell {value : Text} (printable : ∀ c ∈ value, 0x20 ≤ c.toNat ∧ c.toNat ≤ 0x7E) :
    ∀ c ∈ escapeCell value, 0x20 ≤ c.toNat ∧ c.toNat ≤ 0x7E := by
  intro c mem
  obtain ⟨d, inside, here⟩ := List.mem_flatMap.mp mem
  obtain ⟨least, most⟩ := printable d inside
  have all := (printable_toUpper d.toNat (by omega) least).2.2.2
  rw [Char.ofNat_toNat] at all
  exact of_decide_eq_true (List.all_eq_true.mp all c here)

theorem width_toUppercase (display : Display) (heading : Heading) :
    display.width (escapeCell heading.toUppercase) = display.width (escapeCell heading.text) := by
  have upper : ∀ c ∈ heading.toUppercase, 0x20 ≤ c.toNat ∧ c.toNat ≤ 0x7E := by
    intro c mem
    obtain ⟨d, inside, rfl⟩ := List.mem_map.mp mem
    obtain ⟨least, most⟩ := heading.printable d inside
    have same := printable_toUpper d.toNat (by omega) least
    rw [Char.ofNat_toNat] at same
    exact ⟨same.1, same.2.1⟩
  rw [(shown_printable display (printable_escapeCell upper)).width_eq,
    (shown_printable display (printable_escapeCell heading.printable)).width_eq]
  have each : ∀ text : Text, (∀ c ∈ text, 0x20 ≤ c.toNat ∧ c.toNat ≤ 0x7E) →
      (escapeCell (text.map Char.toUpper)).length = (escapeCell text).length := by
    intro text printable
    induction text with
    | nil => rfl
    | cons c rest ih =>
      obtain ⟨least, most⟩ := printable c List.mem_cons_self
      have same := (printable_toUpper c.toNat (by omega) least).2.2.1
      rw [Char.ofNat_toNat] at same
      have later := ih fun d mem => printable d (List.mem_cons_of_mem _ mem)
      unfold escapeCell escape at later ⊢
      rw [List.map_cons, List.flatMap_cons, List.flatMap_cons, List.length_append, List.length_append, later, same]
  exact each heading.text heading.printable

variable {cells : List Text}

theorem width_le_natural {index : Nat} (mem : cells ∈ header table :: table.rows)
    (inside : index < table.columns.length) :
    display.width (escapeCell (cells.getD index [])) ≤ (naturalWidths display table).getD index 0 := by
  have natural : (naturalWidths display table).getD index 0 =
      table.rows.foldl (fun width row => max width (display.width (escapeCell (row.getD index []))))
        (display.width (escapeCell table.columns[index].heading.text)) := by
    rw [List.getD_eq_getElem?_getD, naturalWidths, List.getElem?_map, List.getElem?_zipIdx,
      List.getElem?_eq_getElem inside]
    simp
  obtain ⟨least, each⟩ := le_foldl_max (fun row => display.width (escapeCell (row.getD index []))) table.rows
    (display.width (escapeCell table.columns[index].heading.text))
  rw [natural]
  rcases List.mem_cons.mp mem with rfl | row
  · have heading : (header table).getD index [] = table.columns[index].heading.toUppercase := by
      rw [List.getD_eq_getElem?_getD, header, List.getElem?_map, List.getElem?_eq_getElem inside]
      rfl
    rw [heading, width_toUppercase]
    exact least
  · exact each cells row

theorem shown_join {parts : List (Text × Nat)} (each : ∀ part ∈ parts, Shown display part.1 part.2) :
    Shown display (Text.join [' ', ' '] (parts.map Prod.fst)) (renderedWidth (parts.map Prod.snd)) := by
  induction parts with
  | nil => exact ⟨[], nofun, rfl, rfl⟩
  | cons part rest ih =>
    have first := each part List.mem_cons_self
    cases rest with
    | nil => exact first
    | cons next rest =>
      have later := ih fun part mem => each part (List.mem_cons_of_mem _ mem)
      have whole := (first.append (shown_spaces display 2)).append later
      have sum : part.2 + 2 + renderedWidth ((next :: rest).map Prod.snd) =
          renderedWidth ((part :: next :: rest).map Prod.snd) := by
        simp only [renderedWidth, List.map_cons, List.sum_cons, List.length_cons]
        omega
      rw [sum] at whole
      exact whole

theorem width_tableRow {layout : TableLayout} (mem : cells ∈ header table :: table.rows)
    (lengths : layout.widths.length = layout.indices.length)
    (inside : ∀ index ∈ layout.indices, index < table.columns.length)
    (enough : ∀ position index width : Nat, layout.indices[position]? = some index →
      layout.widths[position]? = some width → (naturalWidths display table).getD index 0 ≤ width ∨ 1 ≤ width) :
    display.width (tableRow display table cells layout) = renderedWidth layout.widths := by
  have each : ∀ part ∈ (layout.indices.zip layout.widths).map
      (fun pair => (tableCell display table cells pair.1 pair.2, pair.2)), Shown display part.1 part.2 := by
    intro part there
    obtain ⟨⟨index, width⟩, both, rfl⟩ := List.mem_map.mp there
    obtain ⟨position, at'⟩ := List.mem_iff_getElem?.mp both
    obtain ⟨here, wide⟩ := List.getElem?_zip_eq_some.mp at'
    have valid := inside index (List.mem_of_getElem? here)
    refine shown_tableCell valid ((enough position index width here wide).imp_left fun natural => ?_)
    exact (width_le_natural mem valid).trans natural
  have shown := shown_join each
  rw [List.map_map, List.map_map] at shown
  have widths : (layout.indices.zip layout.widths).map (Prod.snd ∘ fun pair => (tableCell display table cells pair.1 pair.2, pair.2)) =
      layout.widths := List.map_snd_zip lengths.le
  rw [widths] at shown
  exact shown.width_eq

end Lines

/-- What a layout keeps of a table: every fixed column, the order of the columns, and the names of those it drops. -/
structure Keeps (table : TableView) (layout : TableLayout) : Prop where
  ascending : layout.indices.Pairwise (· < ·)
  inside : ∀ index ∈ layout.indices, index < table.columns.length
  keepsFixed : ∀ index < table.columns.length, isFlexible table index = false → index ∈ layout.indices
  namesDropped : layout.dropped = headingsOf table (missing table layout.indices)

section Whole

variable (display : Display) (table : TableView)

def fixedWidth : Nat :=
  renderedWidth (((List.range table.columns.length).filter fun index => !isFlexible table index).map
    ((naturalWidths display table).getD · 0))

/-- A number of rounds after which the loops have ended. -/
def enoughRounds : Nat :=
  table.columns.length * ((naturalWidths display table).sum + 1) + (naturalWidths display table).sum + 1

variable {display table}

variable {fitting : Fitting}

theorem Fitted.keeps {natural : List Nat} (fitted : Fitted table natural fitting) (required : Option Nat) :
    Keeps table ⟨fitting.indices, fitting.widths, fitting.dropped.reverse, required⟩ :=
  ⟨fitted.ascending, fitted.inside, fitted.keepsFixed, fitted.namesDropped⟩

theorem Fitted.width_line (fitted : Fitted table (naturalWidths display table) fitting)
    {required : Option Nat} {line : Text}
    (mem : line ∈ tableLines display table ⟨fitting.indices, fitting.widths, fitting.dropped.reverse, required⟩) :
    display.width line = renderedWidth fitting.widths := by
  obtain ⟨cells, inside, rfl⟩ := List.mem_map.mp mem
  refine width_tableRow inside fitted.length_widths fitted.inside fun position index width at' there => ?_
  rcases fitted.enough position index width at' there with same | ⟨-, wide⟩
  · exact .inl same.ge
  · exact .inr (by omega)

theorem Fitted.fixedWidth_eq (fitted : Fitted table (naturalWidths display table) fitting)
    (fixed : ∀ index ∈ fitting.indices, isFlexible table index = false) :
    renderedWidth fitting.widths = fixedWidth display table := by
  have indices : fitting.indices = (List.range table.columns.length).filter fun index => !isFlexible table index := by
    refine eq_of_ascending fitted.ascending (List.Pairwise.filter _ List.pairwise_lt_range) fun index => ?_
    rw [List.mem_filter, List.mem_range, Bool.not_eq_true']
    exact ⟨fun mem => ⟨fitted.inside index mem, fixed index mem⟩, fun ⟨small, stays⟩ => fitted.keepsFixed index small stays⟩
  have widths : fitting.widths = fitting.indices.map ((naturalWidths display table).getD · 0) := by
    refine List.ext_getElem? fun position => ?_
    rw [List.getElem?_map]
    cases at' : fitting.indices[position]? with
    | none =>
      rw [Option.map_none, List.getElem?_eq_none_iff, fitted.length_widths]
      exact List.getElem?_eq_none_iff.mp at'
    | some index =>
      have small := (List.getElem?_eq_some_iff.mp at').1
      have there := List.getElem?_eq_getElem (fitted.length_widths ▸ small)
      rw [there]
      rcases fitted.enough position index _ at' there with same | ⟨flexible, -⟩
      · rw [same]
        rfl
      · rw [fixed index (List.mem_of_getElem? at')] at flexible
        cases flexible
  rw [fixedWidth, ← indices, ← widths]

/-- The layout ends, and its lines fit unless the fixed columns need more. -/
theorem tableLayout_fits (display : Display) (table : TableView) (sinkWidth : Nat) :
    ∃ layout, (∀ rounds, enoughRounds display table ≤ rounds → tableLayout display table sinkWidth rounds = some layout) ∧
      Keeps table layout ∧
      (0 < sinkWidth → (∀ line ∈ tableLines display table layout, display.width line ≤ sinkWidth) ∨
        layout.fixedWidthRequired = some (fixedWidth display table) ∧ sinkWidth < fixedWidth display table) := by
  have length := length_naturalWidths display table
  have start := Fitted.start table (naturalWidths display table) length
  by_cases whole : sinkWidth = 0 ∨ naturalWidths display table = []
  · -- No width is known, or there is no column: nothing is made narrower.
    have widths : (List.range (naturalWidths display table).length).map ((naturalWidths display table).getD · 0) =
        naturalWidths display table := by
      refine List.ext_getElem (by simp) fun i _ small => ?_
      simp [List.getElem?_eq_getElem small]
    rw [widths] at start
    refine ⟨_, fun rounds _ => (if_pos whole).trans rfl, start.keeps none, fun known => .inl fun line mem => ?_⟩
    rw [start.width_line mem, whole.resolve_left (Nat.ne_of_gt known)]
    exact Nat.zero_le _
  · have bound : remaining (naturalWidths display table) ⟨List.range (naturalWidths display table).length,
        (List.range (naturalWidths display table).length).map ((naturalWidths display table).getD · 0), []⟩ <
          enoughRounds display table := by
      have sum := sum_map_natural_le (naturalWidths display table) List.pairwise_lt_range
        fun index mem => List.mem_range.mp mem
      unfold remaining enoughRounds
      dsimp only
      rw [List.length_range, length] at *
      omega
    have ended := fun rounds (enough : enoughRounds display table ≤ rounds) =>
      @runLoop_of_invariant _ _ (fitBody table (naturalWidths display table) sinkWidth) _
        (remaining (naturalWidths display table)) (Fitted table (naturalWidths display table))
        (fun fitting => Fitted table (naturalWidths display table) fitting ∧
          (renderedWidth fitting.widths ≤ sinkWidth ∨ ∀ index ∈ fitting.indices, isFlexible table index = false))
        (fun _ _ fitted goes => fitted.round length goes)
        (fun fitting last fitted ends => by
          obtain ⟨rfl, result⟩ := fits_of_ends ends
          exact ⟨fitted, result⟩)
        _ start (Nat.lt_of_lt_of_le bound enough)
    obtain ⟨fitting, run, fitted, result⟩ := ended _ (Nat.le_refl _)
    let required := renderedWidth fitting.widths
    refine ⟨_, fun rounds enough => ?_, fitted.keeps (if required > sinkWidth then some required else none), fun known => ?_⟩
    · obtain ⟨last, run', -⟩ := ended rounds enough
      obtain rfl := (yields_iff_runLoop.mpr ⟨_, run'⟩).unique (yields_iff_runLoop.mpr ⟨_, run⟩)
      rw [tableLayout, if_neg whole]
      exact congrArg (Option.map _) run'
    · by_cases fits : renderedWidth fitting.widths ≤ sinkWidth
      · refine .inl fun line mem => ?_
        rw [fitted.width_line mem]
        exact fits
      · have needed := fitted.fixedWidth_eq (result.resolve_left fits)
        refine .inr ⟨?_, by omega⟩
        rw [← needed]
        exact if_pos (by omega)

/-- Redirected, a table has one line for each row, which is read back as the record type and the cells. On a terminal
the layout keeps what it has to, and the lines fit unless it reports the width that the fixed columns need. -/
theorem table_faithful (display : Display) (table : TableView) :
    (Text.splitChar '\n' (emitPlain table) = table.rows.map (plainLine table) ++ [[]] ∧
      decodePlain table.plainRecordType.isSome table.columns.length (emitPlain table) =
        some (table.rows.map fun row => (table.plainRecordType.map (·.text), row))) ∧
    ∀ sinkWidth, ∃ layout,
      (∀ rounds, enoughRounds display table ≤ rounds → tableLayout display table sinkWidth rounds = some layout) ∧
      Keeps table layout ∧
      (0 < sinkWidth → (∀ line ∈ tableLines display table layout, display.width line ≤ sinkWidth) ∨
        layout.fixedWidthRequired = some (fixedWidth display table) ∧ sinkWidth < fixedWidth display table) :=
  ⟨⟨splitChar_emitPlain table, decodePlain_emitPlain table⟩, tableLayout_fits display table⟩

end Whole

namespace Sample

def monospace : Display where
  graphemes := fun value => value.map fun c => [c]
  width := List.length
  flatten_graphemes := fun value => by
    induction value with
    | nil => rfl
    | cons c rest ih => rw [List.map_cons, List.flatten_cons, ih, List.singleton_append]
  additive := fun pieces _ => List.length_flatten
  printable := fun c _ _ => ⟨List.mem_singleton.mpr rfl, rfl⟩
  ellipsis := ⟨List.mem_singleton.mpr rfl, rfl⟩

end Sample

end OrbitGraph.Output
