import OrbitGraph.Sync.Inserts

/-!
The parents of symbols.

`insert_symbols` first inserts the rows of a file's symbols, and notes the id of each under
its qualified name. A second loop over the symbols then sets `parent_symbol` by two lookups
in this map: one for the name of the parent, and one for the symbol's own.
-/

namespace OrbitGraph.Sync

open Lib

/-- A symbol as extracted, with the qualified name of its parent. -/
structure NestedSymbol extends RawSymbol where
  parentSymbol : Option Text
  deriving DecidableEq

/-- The database with the column `symbols.parent_symbol`, by rowid. -/
structure ParentStore where
  store : Store
  parentSymbol : Nat → Option Nat

namespace ParentStore

/-! ### The two loops -/

/-- One symbol of the first loop. -/
def insertSymbol (path : Text) (state : ParentStore × (Text → Option Nat)) (symbol : NestedSymbol) :
    Except SqliteError (ParentStore × (Text → Option Nat)) := do
  let (P, symbolIds) := state
  let symbolId := nextRowid (P.store.symbols.map SymbolRow.id)
  let (store, symbolIds) ← Store.insertSymbol path (P.store, symbolIds) symbol.toRawSymbol
  return (⟨store, Function.update P.parentSymbol symbolId none⟩, symbolIds)

/-- One symbol of the second loop: the row to update, and its parent. -/
def parentUpdate (symbolIds : Text → Option Nat) (symbol : NestedSymbol) : Option (Nat × Option Nat) := do
  let parentQualified ← symbol.parentSymbol
  let parentId ← symbolIds parentQualified
  let symbolId ← symbolIds symbol.qualified
  return (symbolId, some parentId)

def insertSymbols (path : Text) (symbols : List NestedSymbol) (P : ParentStore) :
    Except SqliteError (ParentStore × (Text → Option Nat)) := do
  let (P, symbolIds) ← symbols.foldlM (insertSymbol path) (P, fun _ => none)
  return ({ P with parentSymbol := writeEach (parentUpdate symbolIds) P.parentSymbol symbols }, symbolIds)

end ParentStore

section Purpose

variable (path : Text) (symbols : List NestedSymbol)

def definedNames : List Text := symbols.map fun symbol => symbol.qualified

/-- The rows that `insert_symbols` adds to a database. -/
def newRows (P : ParentStore) : List SymbolRow :=
  numberSymbols path (nextRowid (P.store.symbols.map SymbolRow.id)) (symbols.map NestedSymbol.toRawSymbol)

/-- The links of a file's new rows are complete, and lead nowhere in circles. -/
structure Linked (rows : List SymbolRow) (Q : ParentStore) : Prop where
  /-- A symbol whose parent is defined in the file has a row of that name for its parent. -/
  complete : ∀ row symbol, (row, symbol) ∈ rows.zip symbols → ∀ parent, symbol.parentSymbol = some parent →
    parent ∈ definedNames symbols → ∃ parentRow ∈ Q.store.symbols, Q.parentSymbol row.id = some parentRow.id ∧
      parentRow.filePath = path ∧ parentRow.qualified = parent
  /-- No symbol is its own ancestor. -/
  acyclic : ∀ row ∈ rows, ¬ Relation.TransGen (fun id parent => Q.parentSymbol id = some parent) row.id row.id

def NamedUnder (qualified parent : Text) : Prop :=
  ∃ symbol ∈ symbols, symbol.qualified = qualified ∧ symbol.parentSymbol = some parent ∧ parent ∈ definedNames symbols

/-- No symbol with a parent in the file is followed by one of its own name, and no chain of
parent names comes back to where it began. -/
structure Linkable : Prop where
  last : symbols.Pairwise fun symbol later => symbol.qualified = later.qualified →
    ∀ parent, symbol.parentSymbol = some parent → parent ∉ definedNames symbols
  acyclic : ∀ qualified, ¬ Relation.TransGen (NamedUnder symbols) qualified qualified

end Purpose

section Ids

variable {path : Text} {symbols : List NestedSymbol} {P : ParentStore} {first i k : Nat} {q : Text}
  {symbolIds : Text → Option Nat} {symbol : NestedSymbol}

theorem mem_definedNames : q ∈ definedNames symbols ↔ ∃ symbol ∈ symbols, symbol.qualified = q := List.mem_map

/-- The symbol at `i` is the last one of a name. -/
def LastNamed (symbols : List NestedSymbol) (q : Text) (i : Nat) : Prop :=
  (∃ symbol, symbols[i]? = some symbol ∧ symbol.qualified = q) ∧
    ∀ j other, i < j → symbols[j]? = some other → other.qualified ≠ q

theorem exists_lastNamed (defined : q ∈ definedNames symbols) : ∃ i, LastNamed symbols q i := by
  obtain ⟨symbol, mem, named⟩ := mem_definedNames.mp defined
  obtain ⟨i, other, entry, same, last⟩ := exists_last (p := fun other => other.qualified = q) mem named
  exact ⟨i, ⟨other, entry, same⟩, last⟩

theorem LastNamed.defined (last : LastNamed symbols q i) : q ∈ definedNames symbols := by
  obtain ⟨⟨symbol, entry, named⟩, _⟩ := last
  exact mem_definedNames.mpr ⟨symbol, List.mem_of_getElem? entry, named⟩

theorem LastNamed.unique (last : LastNamed symbols q i) (also : LastNamed symbols q k) : i = k := by
  obtain ⟨⟨a, entryA, namedA⟩, lastA⟩ := last
  obtain ⟨⟨b, entryB, namedB⟩, lastB⟩ := also
  rcases Nat.lt_trichotomy i k with below | same | above
  · exact absurd namedB (lastA k b below entryB)
  · exact same
  · exact absurd namedA (lastB i a above entryA)

/-- The ids that the first loop notes, for symbols numbered from `first`. -/
structure Noted (symbols : List NestedSymbol) (first : Nat) (symbolIds : Text → Option Nat) : Prop where
  named : ∀ {q i}, LastNamed symbols q i → symbolIds q = some (first + i)
  absent : ∀ {q}, q ∉ definedNames symbols → symbolIds q = none

theorem Noted.eq_some (noted : Noted symbols first symbolIds) {id : Nat} (found : symbolIds q = some id) :
    ∃ i, LastNamed symbols q i ∧ id = first + i := by
  by_cases defined : q ∈ definedNames symbols
  · obtain ⟨i, last⟩ := exists_lastNamed defined
    exact ⟨i, last, Option.mem_unique found (noted.named last)⟩
  · rw [noted.absent defined] at found
    cases found

theorem numberSymbols_getElem? (path : Text) (first : Nat) (raws : List RawSymbol) (i : Nat) :
    (numberSymbols path first raws)[i]? = raws[i]?.map fun raw =>
      ⟨first + i, path, raw.name, raw.qualified, raw.kind, raw.spanStart, raw.spanEnd⟩ := by
  induction raws generalizing first i with
  | nil => rfl
  | cons raw rest ih =>
    cases i with
    | zero => rfl
    | succ i =>
      simp only [numberSymbols, List.getElem?_cons_succ, ih, Nat.add_right_comm first 1 i, Nat.add_assoc]

theorem newRows_getElem? : (newRows path symbols P)[i]? = symbols[i]?.map fun symbol =>
    ⟨nextRowid (P.store.symbols.map SymbolRow.id) + i, path, symbol.name, symbol.qualified, symbol.kind,
      symbol.spanStart, symbol.spanEnd⟩ := by
  rw [newRows, numberSymbols_getElem?, List.getElem?_map, Option.map_map]
  rfl

/-- What the first loop leaves: the rows, their ids by name, and an empty column. -/
theorem insertRows_ok (keys : P.store.Keys) (path : Text) (symbols : List NestedSymbol) (symbolIds : Text → Option Nat) :
    ∃ store : Store, symbols.foldlM (ParentStore.insertSymbol path) (P, symbolIds) =
        .ok (⟨store, writeEach (fun row : SymbolRow => some (row.id, none)) P.parentSymbol (newRows path symbols P)⟩,
          writeEach (fun row : SymbolRow => some (row.qualified, some row.id)) symbolIds (newRows path symbols P)) ∧
      store.symbols = P.store.symbols ++ newRows path symbols P := by
  induction symbols generalizing P symbolIds with
  | nil => exact ⟨P.store, rfl, (List.append_nil _).symm⟩
  | cons symbol rest ih =>
    have step := @Store.insertSymbol_ok _ path keys symbolIds symbol.toRawSymbol
    have next : nextRowid ((P.store.addSymbol path symbol.toRawSymbol).symbols.map SymbolRow.id) =
        nextRowid (P.store.symbols.map SymbolRow.id) + 1 := by
      simp only [Store.addSymbol, numberSymbols, List.map_append, List.map_cons, List.map_nil]
      exact nextRowid_append _
    obtain ⟨store, run, rows⟩ := ih (P := ⟨P.store.addSymbol path symbol.toRawSymbol,
        Function.update P.parentSymbol (nextRowid (P.store.symbols.map SymbolRow.id)) none⟩)
      (keys.addSymbol path symbol.toRawSymbol)
      (Function.update symbolIds symbol.qualified (some (nextRowid (P.store.symbols.map SymbolRow.id))))
    have split : newRows path (symbol :: rest) P = ⟨nextRowid (P.store.symbols.map SymbolRow.id), path, symbol.name,
        symbol.qualified, symbol.kind, symbol.spanStart, symbol.spanEnd⟩ ::
          newRows path rest ⟨P.store.addSymbol path symbol.toRawSymbol,
            Function.update P.parentSymbol (nextRowid (P.store.symbols.map SymbolRow.id)) none⟩ := by
      rw [newRows, newRows, next]
      rfl
    refine ⟨store, ?_, ?_⟩
    · have first : ParentStore.insertSymbol path (P, symbolIds) symbol = .ok _ := bind_eq_ok.mpr ⟨_, step, rfl⟩
      rw [List.foldlM_cons, first, split]
      exact run
    · rw [rows, split]
      simp only [Store.addSymbol, numberSymbols, List.append_assoc, List.cons_append, List.nil_append]

theorem noted_newRows : Noted symbols (nextRowid (P.store.symbols.map SymbolRow.id))
    (writeEach (fun row : SymbolRow => some (row.qualified, some row.id)) (fun _ => none) (newRows path symbols P)) where
  named := by
    rintro q i ⟨⟨symbol, entry, rfl⟩, last⟩
    have row := @newRows_getElem? path symbols P i
    rw [entry, Option.map_some] at row
    refine writeEach_of_last row rfl fun j other below found w writes same => ?_
    rw [newRows_getElem?, Option.map_eq_some_iff] at found
    obtain ⟨later, entryLater, rfl⟩ := found
    obtain rfl := Option.some.inj writes
    exact last j later below entryLater same
  absent := by
    intro q undefined
    refine writeEach_of_unwritten fun row mem w writes same => undefined ?_
    obtain ⟨i, found⟩ := List.mem_iff_getElem?.mp mem
    rw [newRows_getElem?, Option.map_eq_some_iff] at found
    obtain ⟨symbol, entry, rfl⟩ := found
    obtain rfl := Option.some.inj writes
    exact mem_definedNames.mpr ⟨symbol, List.mem_of_getElem? entry, same⟩

theorem column_newRows (entry : symbols[i]? = some symbol) :
    writeEach (fun row : SymbolRow => some (row.id, none)) P.parentSymbol (newRows path symbols P)
      (nextRowid (P.store.symbols.map SymbolRow.id) + i) = none := by
  have row := @newRows_getElem? path symbols P i
  rw [entry, Option.map_some] at row
  refine writeEach_of_last row rfl fun j other below found w writes same => ?_
  rw [newRows_getElem?, Option.map_eq_some_iff] at found
  obtain ⟨later, _, rfl⟩ := found
  obtain rfl := Option.some.inj writes
  have : nextRowid (P.store.symbols.map SymbolRow.id) + j = nextRowid (P.store.symbols.map SymbolRow.id) + i := same
  omega

end Ids

section Links

open Relation

variable {symbols : List NestedSymbol} {first i : Nat} {q : Text} {symbolIds : Text → Option Nat}
  {symbol : NestedSymbol} {column : Nat → Option Nat}

theorem parentUpdate_eq_some {w : Nat × Option Nat} :
    ParentStore.parentUpdate symbolIds symbol = some w ↔ ∃ parent, symbol.parentSymbol = some parent ∧
      ∃ parentId, symbolIds parent = some parentId ∧ ∃ symbolId, symbolIds symbol.qualified = some symbolId ∧
        w = (symbolId, some parentId) := by
  simp [ParentStore.parentUpdate, Option.bind_eq_some_iff, eq_comm (a := w)]

theorem unlinked_of_repeated (noted : Noted symbols first symbolIds) (entry : symbols[i]? = some symbol)
    (repeated : ¬ LastNamed symbols symbol.qualified i) :
    writeEach (ParentStore.parentUpdate symbolIds) column symbols (first + i) = column (first + i) := by
  refine writeEach_of_unwritten fun other _ w writes same => repeated ?_
  obtain ⟨parent, _, parentId, _, symbolId, found, rfl⟩ := parentUpdate_eq_some.mp writes
  obtain ⟨k, last, rfl⟩ := noted.eq_some found
  obtain rfl : k = i := Nat.add_left_cancel same
  obtain ⟨named, entry', same⟩ := last.1
  obtain rfl : named = symbol := Option.mem_unique entry' entry
  rwa [same]

theorem linked_of_last (noted : Noted symbols first symbolIds) (entry : symbols[i]? = some symbol)
    (last : LastNamed symbols symbol.qualified i) {parent : Text} (extracted : symbol.parentSymbol = some parent)
    {k : Nat} (parentLast : LastNamed symbols parent k) :
    writeEach (ParentStore.parentUpdate symbolIds) column symbols (first + i) = some (first + k) := by
  refine writeEach_of_last entry (parentUpdate_eq_some.mpr
    ⟨parent, extracted, _, noted.named parentLast, _, noted.named last, rfl⟩) fun j other below found w writes same => ?_
  obtain ⟨_, _, _, _, symbolId, ownId, rfl⟩ := parentUpdate_eq_some.mp writes
  obtain ⟨l, otherLast, rfl⟩ := noted.eq_some ownId
  obtain rfl : l = i := Nat.add_left_cancel same
  obtain ⟨named, entry', sameName⟩ := otherLast.1
  obtain rfl : named = symbol := Option.mem_unique entry' entry
  exact last.2 j other below found sameName.symm

theorem exists_of_link (noted : Noted symbols first symbolIds) (entry : symbols[i]? = some symbol)
    (empty : column (first + i) = none) {parentId : Nat}
    (link : writeEach (ParentStore.parentUpdate symbolIds) column symbols (first + i) = some parentId) :
    ∃ k parent, symbols[k]? = some parent ∧ parentId = first + k ∧
      NamedUnder symbols symbol.qualified parent.qualified := by
  rcases writeEach_cases (ParentStore.parentUpdate symbolIds) column symbols (first + i) with old | ⟨other, mem, writes⟩
  · rw [link, empty] at old
    cases old
  · obtain ⟨parent, extracted, parentId', found, symbolId, ownId, same⟩ := parentUpdate_eq_some.mp writes
    obtain ⟨rowid, value⟩ := Prod.mk.inj same
    obtain ⟨l, ownLast, rfl⟩ := noted.eq_some ownId
    obtain rfl : i = l := Nat.add_left_cancel rowid
    obtain ⟨k, parentLast, rfl⟩ := noted.eq_some found
    obtain ⟨parentSymbol, parentEntry, rfl⟩ := parentLast.1
    obtain ⟨named, entry', sameName⟩ := ownLast.1
    obtain rfl : named = symbol := Option.mem_unique entry' entry
    exact ⟨k, parentSymbol, parentEntry, Option.mem_unique link value,
      other, mem, sameName.symm, extracted, parentLast.defined⟩

theorem named_of_ancestor (noted : Noted symbols first symbolIds)
    (empty : ∀ {i symbol}, symbols[i]? = some symbol → column (first + i) = none)
    (entry : symbols[i]? = some symbol) {ancestor : Nat}
    (above : TransGen (fun id parent => writeEach (ParentStore.parentUpdate symbolIds) column symbols id = some parent)
      (first + i) ancestor) : ∃ k parent, symbols[k]? = some parent ∧ ancestor = first + k ∧
      TransGen (NamedUnder symbols) symbol.qualified parent.qualified := by
  induction above with
  | single link =>
    obtain ⟨k, parent, found, same, under⟩ := exists_of_link noted entry (empty entry) link
    exact ⟨k, parent, found, same, .single under⟩
  | tail _ link ih =>
    obtain ⟨k, parent, found, rfl, under⟩ := ih
    obtain ⟨l, grandparent, found', same, above⟩ := exists_of_link noted found (empty found) link
    exact ⟨l, grandparent, found', same, under.tail above⟩

theorem lastNamed_of_child (last : symbols.Pairwise fun symbol later => symbol.qualified = later.qualified →
      ∀ parent, symbol.parentSymbol = some parent → parent ∉ definedNames symbols)
    (entry : symbols[i]? = some symbol) {parent : Text} (extracted : symbol.parentSymbol = some parent)
    (defined : parent ∈ definedNames symbols) : LastNamed symbols symbol.qualified i := by
  refine ⟨⟨symbol, entry, rfl⟩, fun j other below found same => ?_⟩
  obtain ⟨inside, rfl⟩ := List.getElem?_eq_some_iff.mp entry
  obtain ⟨inside', rfl⟩ := List.getElem?_eq_some_iff.mp found
  exact List.pairwise_iff_getElem.mp last i j inside inside' below same.symm parent extracted defined

/-- Where no child's name comes again, ancestors by name are ancestors among the rows. -/
theorem ancestor_of_named (column : Nat → Option Nat) (noted : Noted symbols first symbolIds)
    (last : symbols.Pairwise fun symbol later => symbol.qualified = later.qualified →
      ∀ parent, symbol.parentSymbol = some parent → parent ∉ definedNames symbols)
    {ancestor : Text} (above : TransGen (NamedUnder symbols) q ancestor) :
    ∃ i k, LastNamed symbols q i ∧ LastNamed symbols ancestor k ∧
      TransGen (fun id parent => writeEach (ParentStore.parentUpdate symbolIds) column symbols id = some parent)
        (first + i) (first + k) := by
  have link : ∀ {q parent}, NamedUnder symbols q parent → ∃ i k, LastNamed symbols q i ∧ LastNamed symbols parent k ∧
      writeEach (ParentStore.parentUpdate symbolIds) column symbols (first + i) = some (first + k) := by
    rintro q parent ⟨symbol, mem, rfl, extracted, defined⟩
    obtain ⟨i, entry⟩ := List.mem_iff_getElem?.mp mem
    obtain ⟨k, parentLast⟩ := exists_lastNamed defined
    have own := lastNamed_of_child last entry extracted defined
    exact ⟨i, k, own, parentLast, linked_of_last noted entry own extracted parentLast⟩
  induction above with
  | single under =>
    obtain ⟨i, k, own, parentLast, linked⟩ := link under
    exact ⟨i, k, own, parentLast, .single linked⟩
  | tail _ under ih =>
    obtain ⟨i, k, own, parentLast, linked⟩ := ih
    obtain ⟨k', l, again, above, last⟩ := link under
    obtain rfl := again.unique parentLast
    exact ⟨i, l, own, above, linked.tail last⟩

end Links

section Complete

open Relation

variable {path : Text} {symbols : List NestedSymbol} {P Q : ParentStore} {symbolIds : Text → Option Nat}
  {column : Nat → Option Nat}

theorem mem_zip_newRows {row : SymbolRow} {symbol : NestedSymbol} :
    (row, symbol) ∈ (newRows path symbols P).zip symbols ↔
      ∃ i : Nat, symbols[i]? = some symbol ∧ (newRows path symbols P)[i]? = some row := by
  rw [List.mem_iff_getElem?]
  exact exists_congr fun i => (List.getElem?_zip_eq_some ..).trans and_comm

theorem exists_newRow (path : Text) (P : ParentStore) {i : Nat} {symbol : NestedSymbol} (entry : symbols[i]? = some symbol) :
    ∃ row, (newRows path symbols P)[i]? = some row ∧ row.id = nextRowid (P.store.symbols.map SymbolRow.id) + i ∧
      row.filePath = path ∧ row.qualified = symbol.qualified := by
  refine ⟨_, newRows_getElem?.trans (congrArg (Option.map _) entry), rfl, rfl, rfl⟩

theorem newRow_id {i : Nat} {row : SymbolRow} (found : (newRows path symbols P)[i]? = some row) :
    (∃ symbol, symbols[i]? = some symbol) ∧ row.id = nextRowid (P.store.symbols.map SymbolRow.id) + i := by
  rw [newRows_getElem?, Option.map_eq_some_iff] at found
  obtain ⟨symbol, entry, rfl⟩ := found
  exact ⟨⟨symbol, entry⟩, rfl⟩

/-- A symbol followed by one of its own name loses its parent. -/
theorem linkable_of_linked (noted : Noted symbols (nextRowid (P.store.symbols.map SymbolRow.id)) symbolIds)
    (empty : ∀ {i symbol}, symbols[i]? = some symbol → column (nextRowid (P.store.symbols.map SymbolRow.id) + i) = none)
    (columns : Q.parentSymbol = writeEach (ParentStore.parentUpdate symbolIds) column symbols)
    (linked : Linked path symbols (newRows path symbols P) Q) : Linkable symbols := by
  have last : symbols.Pairwise fun symbol later => symbol.qualified = later.qualified →
      ∀ parent, symbol.parentSymbol = some parent → parent ∉ definedNames symbols := by
    refine List.pairwise_iff_getElem.mpr fun i j inside inside' below same parent extracted defined => ?_
    have entry : symbols[i]? = some symbols[i] := List.getElem?_eq_getElem inside
    obtain ⟨row, found, id, _⟩ := exists_newRow path P entry
    obtain ⟨parentRow, _, link, _⟩ :=
      linked.complete row _ (mem_zip_newRows.mpr ⟨i, entry, found⟩) parent extracted defined
    have repeated : ¬ LastNamed symbols symbols[i].qualified i := fun own =>
      own.2 j _ below (List.getElem?_eq_getElem inside') same.symm
    rw [columns, id, unlinked_of_repeated noted entry repeated, empty entry] at link
    cases link
  refine ⟨last, fun qualified circle => ?_⟩
  obtain ⟨i, k, own, again, above⟩ := ancestor_of_named column noted last circle
  obtain rfl := own.unique again
  obtain ⟨symbol, entry, _⟩ := own.1
  obtain ⟨row, found, id, _⟩ := exists_newRow path P entry
  refine linked.acyclic row (List.mem_of_getElem? found) ?_
  rwa [columns, id]

theorem linked_of_linkable (noted : Noted symbols (nextRowid (P.store.symbols.map SymbolRow.id)) symbolIds)
    (empty : ∀ {i symbol}, symbols[i]? = some symbol → column (nextRowid (P.store.symbols.map SymbolRow.id) + i) = none)
    (columns : Q.parentSymbol = writeEach (ParentStore.parentUpdate symbolIds) column symbols)
    (rows : Q.store.symbols = P.store.symbols ++ newRows path symbols P) (linkable : Linkable symbols) :
    Linked path symbols (newRows path symbols P) Q where
  complete := by
    intro row symbol mem parent extracted defined
    obtain ⟨i, entry, found⟩ := mem_zip_newRows.mp mem
    have own := lastNamed_of_child linkable.last entry extracted defined
    obtain ⟨k, parentLast⟩ := exists_lastNamed defined
    obtain ⟨parentSymbol, parentEntry, named⟩ := parentLast.1
    obtain ⟨parentRow, parentFound, parentId, inFile, sameName⟩ := exists_newRow path P parentEntry
    refine ⟨parentRow, ?_, ?_, inFile, sameName.trans named⟩
    · rw [rows]
      exact List.mem_append_right _ (List.mem_of_getElem? parentFound)
    · rw [columns, (newRow_id found).2, parentId]
      exact linked_of_last noted entry own extracted parentLast
  acyclic := by
    intro row mem circle
    obtain ⟨i, found⟩ := List.mem_iff_getElem?.mp mem
    obtain ⟨⟨symbol, entry⟩, id⟩ := newRow_id found
    rw [columns, id] at circle
    obtain ⟨k, parent, parentEntry, same, above⟩ := named_of_ancestor noted empty entry circle
    obtain rfl : i = k := Nat.add_left_cancel same
    obtain rfl : symbol = parent := Option.mem_unique entry parentEntry
    exact linkable.acyclic symbol.qualified above

/-- **A file's parent links are complete and free of circles exactly if** no symbol with a
parent in the file is followed by one of its own name, and the parent names run in no circle. -/
theorem insertSymbols_linked_iff (P : ParentStore) (keys : P.store.Keys) (path : Text) (symbols : List NestedSymbol) :
    ∃ Q symbolIds, P.insertSymbols path symbols = .ok (Q, symbolIds) ∧
      Q.store.symbols = P.store.symbols ++ newRows path symbols P ∧
      (Linked path symbols (newRows path symbols P) Q ↔ Linkable symbols) := by
  obtain ⟨store, run, rows⟩ := insertRows_ok keys path symbols (fun _ => none)
  refine ⟨_, _, bind_eq_ok.mpr ⟨_, run, rfl⟩, rows, ?_⟩
  constructor
  · exact linkable_of_linked noted_newRows column_newRows rfl
  · exact linked_of_linkable noted_newRows column_newRows rfl rows

end Complete

namespace CfgVariants

def implBlock : NestedSymbol := ⟨⟨"A", "<A>", "impl", 0, 90⟩, none⟩

/-- The method that follows `#[cfg(unix)]`. -/
def onUnix : NestedSymbol := ⟨⟨"f", "<A>::f", "method", 22, 40⟩, some "<A>"⟩

/-- The method that follows `#[cfg(windows)]`. -/
def onWindows : NestedSymbol := ⟨⟨"f", "<A>::f", "method", 64, 82⟩, some "<A>"⟩

def symbols : List NestedSymbol := [implBlock, onUnix, onWindows]

def empty : ParentStore := ⟨.empty, fun _ => none⟩

/-- The rows of both variants are inserted, and the condition decides on their links. -/
theorem cfgVariants_linked_iff : ∃ Q symbolIds, empty.insertSymbols "a.rs" symbols = .ok (Q, symbolIds) ∧
    Q.store.symbols = empty.store.symbols ++ newRows "a.rs" symbols empty ∧
    (Linked "a.rs" symbols (newRows "a.rs" symbols empty) Q ↔ Linkable symbols) :=
  insertSymbols_linked_iff empty Store.Keys.empty "a.rs" symbols

/-- The first variant's row has no parent. -/
theorem cfgVariants_not_linked : ∃ Q symbolIds, empty.insertSymbols "a.rs" symbols = .ok (Q, symbolIds) ∧
    ¬ Linked "a.rs" symbols (newRows "a.rs" symbols empty) Q := by
  refine ⟨_, _, rfl, fun linked => ?_⟩
  have zipped : (⟨2, "a.rs", "f", "<A>::f", "method", 22, 40⟩, onUnix) ∈
      (newRows "a.rs" symbols empty).zip symbols := by decide
  obtain ⟨parentRow, _, link, _⟩ := linked.complete _ _ zipped "<A>" rfl (by decide)
  cases link

end CfgVariants

end OrbitGraph.Sync
