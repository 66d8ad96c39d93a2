import OrbitGraph.Changes.Conserved
import OrbitGraph.Changes.RoundTrip
import OrbitGraph.Evidence.Types

/-!
What the presentation filters hide, of the changed symbols and of evidence paths.

The filters keep the order and count what they hide. A changed symbol is judged by its two path
fields, which an uncertain group takes from its first candidates, and a path of evidence by the text
of its far endpoint, which has the short name of a symbol where the changed symbols have the
qualified one.
-/

namespace OrbitGraph.Evidence

open Lib Changes

def symbolPath (selector : Text) : Option Text :=
  match Selector.parse selector with
  | .ok (.symbol path _ _) => some path
  | _ => none

def changeStatusOf (changes : Option ChangedSymbols) (selector : Text) : Option Text :=
  changes.bind fun changes => (changes.entriesFor selector).head?.map fun entry => entry.status.label

/-- The endpoint that the traversal found. -/
def farSelector (query : EvidenceQuery) (path : EvidencePath) : Text :=
  match query.direction with
  | .inbound => path.fromNode.selector
  | .outbound => path.toNode.selector

def farFile (query : EvidenceQuery) (path : EvidencePath) : Text :=
  match query.direction with
  | .inbound => (path.edges.head?.map fun edge => edge.source.file).getD []
  | .outbound =>
    (symbolPath (farSelector query path)).getD ((path.edges.getLast?.map fun edge => edge.source.file).getD [])

def pathHides (query : EvidenceQuery) (path : EvidencePath) : Option FilterReason :=
  if !query.filters.languageAdmits (farFile query path) then some .language
  else if !query.filters.scopeAdmits (farFile query path) then some .scope
  else if query.filters.changeKind ≠ [] ∧
      !query.filters.changeKindAdmits (changeStatusOf query.changes (farSelector query path)) then some .changeKind
  else none

def applyFilters (paths : List EvidencePath) (query : EvidenceQuery) (log : FilterLog) :
    List EvidencePath × FilterLog :=
  if query.filters.isEmpty then (paths, log)
  else
    paths.foldl (fun (kept, log) path =>
      match pathHides query path with
      | some reason => (kept, log.record reason (farSelector query path))
      | none => (kept ++ [path], log)) ([], log)

/-! ### Logs -/

/-- How many items a log counts. -/
def logged (log : FilterLog) : Nat := (log.map fun entry => entry.2.1).sum

/-- Every reason has one entry. -/
def OneEach (log : FilterLog) : Prop := (log.map Prod.fst).Nodup

theorem any_reason_iff {log : FilterLog} {reason : FilterReason} :
    (log.any fun entry => entry.1 = reason) = true ↔ reason ∈ log.map Prod.fst := by
  rw [List.any_eq_true, List.mem_map]
  simp only [decide_eq_true_eq]

/-- An item more is counted once. -/
theorem logged_record {log : FilterLog} (each : OneEach log) (reason : FilterReason) (item : Text) :
    logged (log.record reason item) = logged log + 1 ∧ OneEach (log.record reason item) := by
  unfold FilterLog.record
  split
  · next known =>
    rw [any_reason_iff] at known
    constructor
    · unfold logged
      induction log with
      | nil => cases known
      | cons entry rest ih =>
        obtain ⟨apart, each⟩ := List.nodup_cons.mp each
        rw [List.map_cons, List.map_cons, List.map_cons, List.sum_cons, List.sum_cons]
        by_cases here : entry.1 = reason
        · have others : rest.map (fun entry => if entry.1 = reason then
              (reason, entry.2.1 + 1,
                if entry.2.2.length < FILTERED_EXAMPLE_CAP then entry.2.2 ++ [item] else entry.2.2)
              else entry) = rest := by
            refine (List.map_congr_left fun other mem => if_neg fun same => apart ?_).trans (List.map_id rest)
            rw [here, ← same]
            exact List.mem_map_of_mem mem
          rw [others, if_pos here]
          dsimp only
          omega
        · have later := (List.mem_cons.mp known).resolve_left fun same => here same.symm
          rw [ih each later, if_neg here]
          omega
    · unfold OneEach
      rw [List.map_map]
      refine (congrArg List.Nodup (List.map_congr_left fun entry _ => ?_)).mpr each
      rw [Function.comp_apply]
      split
      · next same => exact same.symm
      · rfl
  · next new =>
    rw [Bool.not_eq_true, ← Bool.not_eq_true, any_reason_iff] at new
    constructor
    · unfold logged
      rw [List.map_append, List.sum_append]
      rfl
    · unfold OneEach
      rw [List.map_append, List.nodup_append]
      refine ⟨each, List.nodup_singleton _, fun other mem reason' last => ?_⟩
      rw [List.mem_singleton.mp last]
      intro (same : other = reason)
      exact new (same ▸ mem)

theorem sum_intoFilteredOut (log : FilterLog) : (log.intoFilteredOut.map FilteredOut.count).sum = logged log := by
  unfold FilterLog.intoFilteredOut logged
  rw [List.map_map]
  exact ((List.mergeSort_perm log _).map _).sum_nat

/-- What is not hidden stays in its order, and what is hidden is counted. -/
theorem foldl_sift {α : Type} (hides : α → Option FilterReason) (name : α → Text) (items kept : List α) (log : FilterLog) :
    let after := items.foldl (fun (so : List α × FilterLog) item =>
      match hides item with
      | some reason => (so.1, so.2.record reason (name item))
      | none => (so.1 ++ [item], so.2)) (kept, log)
    after.1 = kept ++ items.filter (fun item => hides item = none) ∧
      (OneEach log → after.1.length + logged after.2 = kept.length + logged log + items.length) := by
  induction items generalizing kept log with
  | nil => simp
  | cons item rest ih =>
    rw [List.foldl_cons]
    cases hidden : hides item with
    | some reason =>
      obtain ⟨stays, sums⟩ := ih kept (log.record reason (name item))
      refine ⟨?_, fun each => ?_⟩
      · rw [List.filter_cons_of_neg (by simp [hidden])]
        exact stays
      · obtain ⟨counted, each'⟩ := logged_record each reason (name item)
        replace sums := sums each'
        rw [counted] at sums
        rw [List.length_cons]
        dsimp only at sums ⊢
        omega
    | none =>
      obtain ⟨stays, sums⟩ := ih (kept ++ [item]) log
      refine ⟨?_, fun each => ?_⟩
      · rw [List.filter_cons_of_pos (by simp [hidden])]
        simpa using stays
      · replace sums := sums each
        rw [List.length_append, List.length_singleton] at sums
        rw [List.length_cons]
        dsimp only at sums ⊢
        omega

/-! ### What is kept -/

theorem hides_of_isEmpty {filters : FilterSet} (empty : filters.isEmpty = true) (e : ChangedSymbol) :
    filters.hides e = none := by
  unfold FilterSet.isEmpty at empty
  simp only [Bool.and_eq_true, Option.isNone_iff_eq_none, List.isEmpty_iff] at empty
  obtain ⟨⟨language, changeKind⟩, scope⟩ := empty
  have admits : filters.languageAdmits = fun _ => true := by
    funext path
    unfold FilterSet.languageAdmits
    rw [language]
  have admits' : filters.scopeAdmits = fun _ => true := by
    funext path
    unfold FilterSet.scopeAdmits
    rw [scope]
  have kind : filters.changeKindAdmits (some e.status.label) = true := by
    unfold FilterSet.changeKindAdmits
    rw [changeKind]
    rfl
  unfold FilterSet.hides
  dsimp only
  have passes : ∀ paths : List Text, ¬ (paths ≠ [] ∧ (!paths.any fun _ => true) = true) := by
    intro paths
    cases paths <;> simp
  rw [admits, admits', kind, if_neg (passes _), if_neg (passes _)]
  exact if_neg Bool.false_ne_true

theorem filtered_keeps (changed : ChangedSymbols) (filters : FilterSet) :
    (changed.filtered filters).1.symbols = changed.symbols.filter (fun e => filters.hides e = none) ∧
      (changed.filtered filters).1.symbols.length +
        ((changed.filtered filters).2.map FilteredOut.count).sum = changed.symbols.length := by
  unfold ChangedSymbols.filtered
  split
  · next empty =>
    rw [sum_intoFilteredOut]
    refine ⟨(List.filter_eq_self.mpr fun e _ => decide_eq_true (hides_of_isEmpty empty e)).symm, rfl⟩
  · obtain ⟨stays, sums⟩ := foldl_sift filters.hides ChangedSymbol.primarySelector changed.symbols [] []
    dsimp only at stays sums ⊢
    rw [sum_intoFilteredOut]
    exact ⟨stays, (sums List.nodup_nil).trans (Nat.zero_add _)⟩

theorem applyFilters_keeps (paths : List EvidencePath) {query : EvidenceQuery} (set : query.filters.isEmpty = false)
    (log : FilterLog) : (applyFilters paths query log).1 = paths.filter fun path => pathHides query path = none := by
  unfold applyFilters
  rw [set, if_neg Bool.false_ne_true]
  exact (foldl_sift (pathHides query) (farSelector query) paths [] log).1

def ownPaths (e : ChangedSymbol) : List Text :=
  (e.base.toList ++ e.head.toList ++ e.uncertainCandidates.map UncertainCandidate.symbol).filterMap fun r =>
    symbolPath r.selector

def pathFields (e : ChangedSymbol) : List Text := e.headPath.toList ++ e.basePath.toList

/-- An entry has one of the requested kinds. -/
def Asked (filters : FilterSet) (e : ChangedSymbol) : Prop := filters.changeKindAdmits (some e.status.label) = true

/-- The symbol is in the slice, with one of the requested kinds. -/
def InSlice (changes : Option ChangedSymbols) (filters : FilterSet) (selector : Text) : Prop :=
  ∃ slice ∈ changes, ∃ e ∈ slice.symbols, e.Mentions selector ∧ Asked filters e

/-- Whatever is set, the filters hide what they exclude and nothing else. What the text of an endpoint resolves to is a
parameter: the selector that the slice has for the symbol. -/
structure FiltersHonest (changed : ChangedSymbols) (resolve : Text → Option Text) (query : EvidenceQuery)
    (paths : List EvidencePath) : Prop where
  order : ∀ filters : FilterSet, (changed.filtered filters).1.symbols.Sublist changed.symbols
  counted : ∀ filters : FilterSet, (changed.filtered filters).1.symbols.length +
    ((changed.filtered filters).2.map FilteredOut.count).sum = changed.symbols.length
  kept : ∀ filters : FilterSet, ∀ e ∈ changed.symbols, e ∈ (changed.filtered filters).1.symbols ↔ filters.hides e = none
  language : ∀ filters : FilterSet, ∀ e ∈ changed.symbols, filters.hides e = some .language → ∀ path ∈ ownPaths e,
    filters.languageAdmits path = false
  scope : ∀ filters : FilterSet, ∀ e ∈ changed.symbols, filters.hides e = some .scope → ∀ path ∈ ownPaths e,
    filters.scopeAdmits path = false
  changeKind : ∀ (filters : FilterSet) (log : FilterLog), filters.changeKind ≠ [] → ∀ path ∈ paths, filters.languageAdmits (farFile query path) = true →
    filters.scopeAdmits (farFile query path) = true →
      (path ∈ (applyFilters paths { query with filters } log).1 ↔
        ∃ s ∈ resolve (farSelector query path), InSlice query.changes filters s)

/-! ### When they do -/

/-- The path fields stand for the paths of the sides and candidates: each has its language in a field, and a field that
it is or that is below it. -/
structure FieldsTell (e : ChangedSymbol) : Prop where
  language : ∀ path ∈ ownPaths e, ∀ language, languageOf path = some language →
    ∃ field ∈ pathFields e, languageOf field = some language
  scope : ∀ path ∈ ownPaths e, path ≠ "/" →
    ∃ field ∈ pathFields e, field = path ∨ Text.startsWith (path ++ "/") field = true

/-- How the text of a far endpoint may tell of its symbol: neither is in the slice, or the first entry with the text as
a side has the status of all entries with the symbol. -/
inductive TextTells (resolve : Text → Option Text) (changes : Option ChangedSymbols) (text : Text) : Prop where
  | absent : (∀ slice ∈ changes, slice.entriesFor text = []) →
      (∀ s ∈ resolve text, ∀ slice ∈ changes, ∀ e ∈ slice.symbols, ¬ e.Mentions s) → TextTells resolve changes text
  | alike (slice : ChangedSymbols) (first : ChangedSymbol) (s : Text) : slice ∈ changes → s ∈ resolve text →
      (slice.entriesFor text).head? = some first → (∃ e ∈ slice.symbols, e.Mentions s) →
      (∀ e ∈ slice.symbols, e.Mentions s → e.status = first.status) → TextTells resolve changes text

theorem none_admitted_iff {paths : List Text} {admits : Text → Bool} :
    (paths ≠ [] ∧ (!paths.any admits) = true) ↔ paths ≠ [] ∧ ∀ path ∈ paths, admits path = false := by
  rw [Bool.not_eq_true', List.any_eq_false]
  simp only [Bool.not_eq_true]

variable {e : ChangedSymbol}

theorem hides_language_iff {filters : FilterSet} : filters.hides e = some .language ↔
    pathFields e ≠ [] ∧ ∀ path ∈ pathFields e, filters.languageAdmits path = false := by
  rw [← none_admitted_iff]
  unfold FilterSet.hides
  dsimp only
  split
  · next hidden => exact iff_of_true rfl hidden
  · next shown =>
    refine iff_of_false ?_ shown
    split
    · exact nofun
    · split <;> exact nofun

theorem hides_scope_iff {filters : FilterSet} : filters.hides e = some .scope ↔
    (∃ path ∈ pathFields e, filters.languageAdmits path = true) ∧
      ∀ path ∈ pathFields e, filters.scopeAdmits path = false := by
  have first : (∃ path ∈ pathFields e, filters.languageAdmits path = true) ↔
      pathFields e ≠ [] ∧ ¬ (pathFields e ≠ [] ∧ (!(pathFields e).any filters.languageAdmits) = true) := by
    rw [none_admitted_iff]
    constructor
    · rintro ⟨path, mem, admitted⟩
      refine ⟨List.ne_nil_of_mem mem, fun none => ?_⟩
      rw [none.2 path mem] at admitted
      cases admitted
    · rintro ⟨some', notNone⟩
      by_contra none
      refine notNone ⟨some', fun path mem => ?_⟩
      exact Bool.eq_false_iff.mpr fun admitted => none ⟨path, mem, admitted⟩
  rw [first]
  unfold FilterSet.hides
  dsimp only
  split
  · next hidden => exact iff_of_false nofun fun shown => shown.1.2 hidden
  · next shown =>
    split
    · next hidden => exact iff_of_true rfl ⟨⟨hidden.1, shown⟩, (none_admitted_iff.mp hidden).2⟩
    · next inScope =>
      refine iff_of_false ?_ fun out => inScope (none_admitted_iff.mpr ⟨out.1.1, out.2⟩)
      split <;> exact nofun

/-! ### Fields -/

theorem mem_split_join {parts : List Text} (clean : ∀ part ∈ parts, IsPart part) (some' : parts ≠ []) :
    ∃ front c, Text.join "/" parts = front ++ [c] ∧ c ≠ '/' := by
  induction parts with
  | nil => exact absurd rfl some'
  | cons part rest ih =>
    rcases rest with _ | ⟨next, rest⟩
    · obtain ⟨named, -, slash, -⟩ := clean part List.mem_cons_self
      refine ⟨part.dropLast, part.getLast named, (List.dropLast_append_getLast named).symm, fun is => slash ?_⟩
      exact is ▸ List.getLast_mem named
    · obtain ⟨front, c, is, other⟩ := ih (fun part mem => clean part (List.mem_cons_of_mem _ mem)) (List.cons_ne_nil _ _)
      refine ⟨part ++ "/" ++ front, c, ?_, other⟩
      rw [Text.join, is, ← List.append_assoc]
      exact List.cons_ne_nil _ _

/-- As a scope, a path that is read from a selector stands for itself. -/
theorem trimmed_of_symbolPath {selector path : Text} (read : symbolPath selector = some path) (root : path ≠ "/") :
    FilterSet.scopeAdmits.trimEndSlashes (FilterSet.scopeAdmits.trimStartDots path) = path ∧ path ≠ [] := by
  unfold symbolPath at read
  split at read
  next path' name kind parsed =>
    obtain rfl := Option.some.inj read
    obtain ⟨⟨raw, normalized, -⟩, -⟩ := parse_ok parsed
    obtain ⟨isAbsolute, parts, normal, rfl, -⟩ := normalizePathText_ok normalized
    have ends : ∃ front c, pathText isAbsolute parts = front ++ [c] ∧ c ≠ '/' := by
      unfold pathText at root ⊢
      split
      next absolute =>
        rw [if_pos absolute] at root
        rcases eq_or_ne parts [] with rfl | some'
        · exact absurd rfl root
        · obtain ⟨front, c, is, other⟩ := mem_split_join normal.clean some'
          exact ⟨"/" ++ front, c, by rw [is, List.append_assoc], other⟩
      next =>
        split
        · exact ⟨[], '.', rfl, by decide⟩
        next some' => exact mem_split_join normal.clean some'
    have starts : FilterSet.scopeAdmits.trimStartDots (pathText isAbsolute parts) = pathText isAbsolute parts := by
      unfold FilterSet.scopeAdmits.trimStartDots
      split
      next dots =>
        exfalso
        unfold pathText at dots
        split at dots
        · cases dots
        split at dots
        · cases dots
        rcases parts with _ | ⟨part, rest⟩
        · cases dots
        obtain ⟨named, other, slash, -⟩ := normal.clean part List.mem_cons_self
        obtain ⟨tail, is⟩ : ∃ tail, Text.join "/" (part :: rest) = part ++ tail := by
          cases rest with
          | nil => exact ⟨[], (List.append_nil _).symm⟩
          | cons next rest => exact ⟨_, List.append_assoc ..⟩
        rw [is] at dots
        -- the part would be `.`, or have the slash
        rcases part with _ | ⟨c, _ | ⟨d, part⟩⟩
        · exact named rfl
        · exact other (congrArg (fun c => [c]) (List.cons.inj dots).1)
        · exact slash (List.mem_cons_of_mem _ ((List.cons.inj (List.cons.inj dots).2).1 ▸ List.mem_cons_self))
      next => rfl
    obtain ⟨front, c, is, other⟩ := ends
    rw [starts, is]
    refine ⟨?_, by simp⟩
    unfold FilterSet.scopeAdmits.trimEndSlashes
    rw [List.reverse_append, List.reverse_singleton, List.singleton_append,
      List.dropWhile_cons_of_neg (by simpa using other), List.reverse_cons, List.reverse_reverse]
  next => cases read

/-- The labels of languages are in lower case. -/
theorem languageOf_lower {path language : Text} (is : languageOf path = some language) :
    language.map Char.toLower = language := by
  obtain ⟨⟨front, extension⟩, -, is⟩ := Option.bind_eq_some_iff.mp is
  dsimp only at is
  have step : ∀ {c : Prop} [Decidable c] {known : Text} {others : Option Text}, known.map Char.toLower = known →
      (others = some language → language.map Char.toLower = language) →
      (if c then some known else others) = some language → language.map Char.toLower = language := by
    intro c _ known others lower later is
    split at is
    · exact Option.some.inj is ▸ lower
    · exact later is
  revert is
  iterate 12 refine step (by decide +kernel) ?_
  exact nofun

theorem scopeAdmits_iff {filters : FilterSet} {scope : Text} (set : filters.scope = some scope) (path : Text) :
    filters.scopeAdmits path = true ↔
      let scope := FilterSet.scopeAdmits.trimEndSlashes (FilterSet.scopeAdmits.trimStartDots scope)
      scope = [] ∨ path = scope ∨ ∃ rest, path = scope ++ "/" ++ rest := by
  unfold FilterSet.scopeAdmits
  rw [set]
  simp only [Bool.or_eq_true, decide_eq_true_eq, or_assoc, Text.startsWith_iff]

theorem trimEndSlashes_ne (scope : Text) : FilterSet.scopeAdmits.trimEndSlashes scope ≠ "/" := by
  intro is
  have reversed : scope.reverse.dropWhile (· = '/') = ['/'] := List.reverse_inj.mp is
  have head := List.head_dropWhile_not (p := (· = '/')) (l := scope.reverse) (by rw [reversed]; exact List.cons_ne_nil _ _)
  simp [reversed] at head

/-- A filter admits a field that stands for a path it admits. -/
theorem scopeAdmits_field {filters : FilterSet} {path field : Text} (admitted : filters.scopeAdmits path = true)
    (stands : field = path ∨ Text.startsWith (path ++ "/") field = true) : filters.scopeAdmits field = true := by
  cases set : filters.scope with
  | none =>
    unfold FilterSet.scopeAdmits
    rw [set]
  | some scope =>
    rw [scopeAdmits_iff set] at admitted ⊢
    rcases stands with rfl | below
    · exact admitted
    · obtain ⟨more, rfl⟩ := Text.startsWith_iff.mp below
      rcases admitted with all | rfl | ⟨rest, rfl⟩
      · exact .inl all
      · exact .inr (.inr ⟨more, rfl⟩)
      · exact .inr (.inr ⟨rest ++ "/" ++ more, by simp only [List.append_assoc]⟩)

/-- The path fields are judged as the paths, by every filter, exactly if they stand for them. -/
theorem ownPaths_judged_iff : (∀ filters : FilterSet,
      (filters.hides e = some .language → ∀ path ∈ ownPaths e, filters.languageAdmits path = false) ∧
      (filters.hides e = some .scope → ∀ path ∈ ownPaths e, filters.scopeAdmits path = false)) ↔
    (pathFields e ≠ [] → FieldsTell e) := by
  simp only [hides_language_iff, hides_scope_iff]
  constructor
  · intro judged some'
    constructor
    · intro path own language is
      by_contra none
      have hidden := (judged ⟨language, [], .none⟩).1 ⟨some', fun field mem => Bool.eq_false_iff.mpr fun yes => ?_⟩ path own
      · have admitted : FilterSet.languageAdmits ⟨language, [], .none⟩ path = true :=
          (Option.any_eq_true _ _).mpr ⟨language, is, decide_eq_true rfl⟩
        rw [admitted] at hidden
        cases hidden
      · obtain ⟨other, isOther, same⟩ := (Option.any_eq_true _ _).mp yes
        have lower : other.map Char.toLower = language.map Char.toLower := of_decide_eq_true same
        rw [languageOf_lower isOther, languageOf_lower is] at lower
        exact none ⟨field, mem, lower ▸ isOther⟩
    · intro path own root
      by_contra none
      obtain ⟨r, -, read⟩ := List.mem_filterMap.mp own
      obtain ⟨trimmed, named⟩ := trimmed_of_symbolPath read root
      have admits : ∀ field, FilterSet.scopeAdmits ⟨.none, [], path⟩ field = true ↔
          path = [] ∨ field = path ∨ ∃ rest, field = path ++ "/" ++ rest := by
        intro field
        rw [scopeAdmits_iff rfl, trimmed]
      obtain ⟨first, mem⟩ := List.exists_mem_of_ne_nil _ some'
      have hidden := (judged ⟨.none, [], path⟩).2 ⟨⟨first, mem, rfl⟩, fun field mem => Bool.eq_false_iff.mpr fun yes => ?_⟩
        path own
      · rw [(admits path).mpr (.inr (.inl rfl))] at hidden
        cases hidden
      · refine none ⟨field, mem, (((admits field).mp yes).resolve_left named).imp_right fun ⟨rest, below⟩ => ?_⟩
        exact Text.startsWith_iff.mpr ⟨rest, below⟩
  · intro tell filters
    constructor
    · rintro ⟨some', none⟩ path own
      refine Bool.eq_false_iff.mpr fun yes => ?_
      obtain ⟨field, mem⟩ := List.exists_mem_of_ne_nil _ some'
      unfold FilterSet.languageAdmits at yes none
      cases set : filters.language with
      | none =>
        rw [set] at none
        cases none field mem
      | some requested =>
        rw [set] at yes none
        obtain ⟨language, is, same⟩ := (Option.any_eq_true _ _).mp yes
        obtain ⟨field, mem, here⟩ := (tell some').language path own language is
        exact Bool.eq_false_iff.mp (none field mem) ((Option.any_eq_true _ _).mpr ⟨language, here, same⟩)
    · rintro ⟨⟨field, mem, -⟩, none⟩ path own
      refine Bool.eq_false_iff.mpr fun yes => ?_
      rcases ne_or_eq path "/" with named | rfl
      · obtain ⟨field', mem', stands⟩ := (tell (List.ne_nil_of_mem mem)).scope path own named
        exact Bool.eq_false_iff.mp (none field' mem') (scopeAdmits_field yes stands)
      -- only an empty scope admits the root
      · refine Bool.eq_false_iff.mp (none field mem) ?_
        cases set : filters.scope with
        | none =>
          unfold FilterSet.scopeAdmits
          rw [set]
        | some scope =>
          rw [scopeAdmits_iff set] at yes ⊢
          rcases yes with all | root | ⟨rest, is⟩
          · exact .inl all
          · exact absurd root.symm (trimEndSlashes_ne _)
          · refine .inl (List.eq_nil_of_length_eq_zero ?_)
            have length := congrArg List.length is
            simp only [List.length_append] at length
            have one : "/".toList.length = 1 := rfl
            omega

/-! ### Evidence paths -/

/-- The first entry that has the text as a side has one of the requested kinds. -/
def FirstAsked (changes : Option ChangedSymbols) (filters : FilterSet) (text : Text) : Prop :=
  ∃ slice ∈ changes, ∃ e ∈ (slice.entriesFor text).head?, Asked filters e

theorem firstAsked_iff {changes : Option ChangedSymbols} {filters : FilterSet} (requested : filters.changeKind ≠ [])
    (text : Text) : FirstAsked changes filters text ↔ filters.changeKindAdmits (changeStatusOf changes text) = true := by
  have unknown : filters.changeKindAdmits none = false := by
    unfold FilterSet.changeKindAdmits
    rw [List.isEmpty_eq_false_iff.mpr requested]
    rfl
  unfold FirstAsked changeStatusOf Asked
  cases changes with
  | none => simp [unknown]
  | some slice =>
    cases first : (slice.entriesFor text).head? with
    | none => simp [unknown, first]
    | some e => simp [first]

theorem mem_applyFilters_iff {paths : List EvidencePath} {query : EvidenceQuery} (requested : query.filters.changeKind ≠ [])
    {path : EvidencePath} (mem : path ∈ paths) (language : query.filters.languageAdmits (farFile query path) = true)
    (scope : query.filters.scopeAdmits (farFile query path) = true) (log : FilterLog) :
    path ∈ (applyFilters paths query log).1 ↔ FirstAsked query.changes query.filters (farSelector query path) := by
  have set : query.filters.isEmpty = false := by
    unfold FilterSet.isEmpty
    rw [List.isEmpty_eq_false_iff.mpr requested, Bool.and_false, Bool.false_and]
  rw [applyFilters_keeps paths set, List.mem_filter, decide_eq_true_iff, firstAsked_iff requested]
  unfold pathHides
  rw [language, scope]
  cases query.filters.changeKindAdmits (changeStatusOf query.changes (farSelector query path)) with
  | true => simp [mem]
  | false => simp [requested]

/-- A request for the kind of one entry asks for the entries of its status. -/
theorem asked_label_iff {status : ChangeStatus} {e : ChangedSymbol} :
    Asked ⟨none, [status.label], none⟩ e ↔ e.status = status := by
  have label : ∀ status status' : ChangeStatus, eqIgnoreAsciiCase status.label status'.label = true ↔ status' = status := by
    intro status status'
    cases status <;> cases status' <;> decide +kernel
  unfold Asked FilterSet.changeKindAdmits
  simp [label]

theorem textTells_iff {resolve : Text → Option Text} {changes : Option ChangedSymbols} {text : Text} :
    (∀ filters : FilterSet, filters.changeKind ≠ [] →
      (FirstAsked changes filters text ↔ ∃ s ∈ resolve text, InSlice changes filters s)) ↔
      TextTells resolve changes text := by
  constructor
  · intro same
    have ask : ∀ status : ChangeStatus, _ := fun status => same ⟨none, [status.label], none⟩ (List.cons_ne_nil _ _)
    by_cases listed : ∃ slice ∈ changes, ∃ e, (slice.entriesFor text).head? = some e
    · obtain ⟨slice, given, first, head⟩ := listed
      obtain ⟨s, resolved, slice', given', e, mem, mentions, -⟩ :=
        (ask first.status).mp ⟨slice, given, first, head, asked_label_iff.mpr rfl⟩
      obtain rfl := Option.mem_unique given given'
      refine .alike slice first s given resolved head ⟨e, mem, mentions⟩ fun other there mentions' => ?_
      obtain ⟨slice', given', first', head', asked⟩ :=
        (ask other.status).mpr ⟨s, resolved, slice, given, other, there, mentions', asked_label_iff.mpr rfl⟩
      obtain rfl := Option.mem_unique given given'
      obtain rfl := Option.mem_unique head head'
      exact (asked_label_iff.mp asked).symm
    · refine .absent (fun slice given => ?_) fun s resolved slice given e mem mentions => listed ?_
      · exact List.head?_eq_none_iff.mp (Option.eq_none_iff_forall_ne_some.mpr fun e head => listed ⟨slice, given, e, head⟩)
      · obtain ⟨slice', given', first, head, -⟩ :=
          (ask e.status).mpr ⟨s, resolved, slice, given, e, mem, mentions, asked_label_iff.mpr rfl⟩
        exact ⟨slice', given', first, head⟩
  · intro tells filters requested
    have asked : ∀ {e e' : ChangedSymbol}, e.status = e'.status → (Asked filters e ↔ Asked filters e') := by
      intro e e' same
      unfold Asked
      rw [same]
    cases tells with
    | absent noEntry noSymbol =>
      refine iff_of_false ?_ ?_
      · rintro ⟨slice, given, e, head, -⟩
        rw [noEntry slice given] at head
        cases head
      · rintro ⟨s, resolved, slice, given, e, mem, mentions, -⟩
        exact noSymbol s resolved slice given e mem mentions
    | alike slice first s given resolved head found alike =>
      constructor
      · rintro ⟨slice', given', first', head', is⟩
        obtain rfl := Option.mem_unique given given'
        obtain rfl := Option.mem_unique head head'
        obtain ⟨e, mem, mentions⟩ := found
        exact ⟨s, resolved, slice, given, e, mem, mentions, (asked (alike e mem mentions)).mpr is⟩
      · rintro ⟨s', resolved', slice', given', e, mem, mentions, is⟩
        obtain rfl := Option.mem_unique given given'
        obtain rfl := Option.mem_unique resolved resolved'
        exact ⟨slice, given, first, head, (asked (alike e mem mentions)).mp is⟩

/-- **The presentation filters hide only what they exclude**, whatever is set, exactly if the path fields of every entry
stand for its own paths, and the text of every far endpoint tells of its symbol. -/
theorem filtersHonest_iff (changed : ChangedSymbols) (resolve : Text → Option Text) (query : EvidenceQuery)
    (paths : List EvidencePath) : FiltersHonest changed resolve query paths ↔
      (∀ e ∈ changed.symbols, pathFields e ≠ [] → FieldsTell e) ∧
      ∀ path ∈ paths, TextTells resolve query.changes (farSelector query path) := by
  constructor
  · intro honest
    constructor
    · exact fun e mem => ownPaths_judged_iff.mp fun filters => ⟨honest.language filters e mem, honest.scope filters e mem⟩
    · intro path mem
      refine textTells_iff.mp fun filters requested => ?_
      -- only the requested kinds
      have judged := honest.changeKind ⟨none, filters.changeKind, none⟩ [] requested path mem rfl rfl
      rw [mem_applyFilters_iff requested mem rfl rfl] at judged
      exact judged
  · rintro ⟨fields, texts⟩
    exact
      { order := by
          intro filters
          rw [(filtered_keeps changed filters).1]
          exact List.filter_sublist
        counted := fun filters => (filtered_keeps changed filters).2
        kept := by
          intro filters e mem
          rw [(filtered_keeps changed filters).1, List.mem_filter, decide_eq_true_iff]
          exact and_iff_right mem
        language := fun filters e mem => (ownPaths_judged_iff.mpr (fields e mem) filters).1
        scope := fun filters e mem => (ownPaths_judged_iff.mpr (fields e mem) filters).2
        changeKind := by
          intro filters log requested path mem language scope
          rw [mem_applyFilters_iff requested mem language scope log]
          exact textTells_iff.mpr (texts path mem) filters requested }

namespace Sample

def uncertainSlice : ChangedSymbols where
  schemaVersion := 1
  symbols :=
    [{ status := .uncertain
       pairing := .uncertain
       pairingEvidence := .none
       base := none
       head := none
       supportingSnapshots := bothSnapshots
       fileChange := .other
       basePath := some "a.rs"
       headPath := some "c.rs"
       uncertainCandidates :=
         [⟨⟨"symbol:a.rs#f:function", "base", "aa"⟩, []⟩,
          ⟨⟨"symbol:b.rs#f:function", "base", "aa"⟩, []⟩,
          ⟨⟨"symbol:c.rs#f:function", "head", "bb"⟩, []⟩]
       note := none }]
  outOfScope := []

def methodSlice : ChangedSymbols where
  schemaVersion := 1
  symbols :=
    [{ status := .modified
       pairing := .sameSelector
       pairingEvidence := .selector
       base := some ⟨"symbol:a.rs#T::f:method", "base", "aa"⟩
       head := some ⟨"symbol:a.rs#T::f:method", "head", "bb"⟩
       supportingSnapshots := bothSnapshots
       fileChange := .modified
       basePath := some "a.rs"
       headPath := some "a.rs"
       uncertainCandidates := []
       note := none }]
  outOfScope := []

def callOfMethod : EvidencePath where
  pathId := []
  fromNode := ⟨"symbol:b.rs#main:function", "head", "b.rs#main", "symbol"⟩
  toNode := ⟨"symbol:a.rs#f:method", "head", "a.rs#f", "symbol"⟩
  distance := 1
  category := .resolvedCall
  truncated := false
  truncatedBy := none
  edges :=
    [{ fromLabel := "b.rs#main"
       fromSelector := "symbol:b.rs#main:function"
       fromOrigin := "symbol"
       toLabel := "a.rs#f"
       toSelector := "symbol:a.rs#f:method"
       relationship := "call"
       category := .resolvedCall
       confidence := "exact"
       snapshot := "head"
       commitSha := "bb"
       source := ⟨"b.rs", some 2⟩
       note := none }]

def modifiedOnly : EvidenceQuery where
  minConfidence := .sameModule
  bounds := ⟨1, 10, 1000⟩
  filters := ⟨none, ["modified"], none⟩
  changes := some methodSlice
  direction := .outbound

def resolveMethod (text : Text) : Option Text :=
  if text = "symbol:a.rs#f:method" ∨ text = "symbol:a.rs#T::f:method" then
    some "symbol:a.rs#T::f:method"
  else none

/-- A candidate in scope is hidden with its group, and the call of a modified method is hidden as unmodified. -/
theorem admitted_hidden :
    (¬ FiltersHonest uncertainSlice resolveMethod modifiedOnly []) ∧
      ¬ FiltersHonest methodSlice resolveMethod modifiedOnly [callOfMethod] := by
  constructor
  · intro honest
    have hidden := honest.scope ⟨none, [], some "b.rs"⟩ _ List.mem_cons_self (by decide +kernel) "b.rs"
      (by decide +kernel)
    exact absurd hidden (by decide +kernel)
  · intro honest
    have judged := honest.changeKind modifiedOnly.filters [] (by decide +kernel) callOfMethod List.mem_cons_self
      (by decide +kernel) (by decide +kernel)
    have asked : modifiedOnly.filters.changeKindAdmits (some ChangeStatus.modified.label) = true := by decide +kernel
    have listed : InSlice modifiedOnly.changes modifiedOnly.filters "symbol:a.rs#T::f:method" :=
      ⟨methodSlice, rfl, _, List.mem_cons_self, .inl ⟨_, rfl, rfl⟩, asked⟩
    have kept := judged.mpr ⟨_, by decide +kernel, listed⟩
    exact absurd kept (by decide +kernel)

end Sample

end OrbitGraph.Evidence
