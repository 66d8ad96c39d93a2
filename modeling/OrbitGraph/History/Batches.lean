import OrbitGraph.History.Projection

/-!
Inserting many deliveries: what a successful run of `insert_delivery` calls adds.

`tags` lists which deliveries are stored and what they were extracted under; an
insertion adds at most one tag, and a transaction that inserts many adds some of
theirs. Deliveries whose keys are new are all inserted.
-/

namespace OrbitGraph.History

open Lib Database

def Database.tags (db : Database) : List (DeliveryKey × Contracts) :=
  db.deliveries.map fun row => (row.key, row.extractedUnder)

def DeliveredChange.currentTag (change : DeliveredChange) : DeliveryKey × Contracts :=
  (change.delivery.key, .current)

variable {db db' : Database}

theorem tags_updatePayload (key : DeliveryKey) (payload : DeliveredChange) :
    (db.updatePayload key payload).tags = db.tags := by
  simp only [tags, updatePayload, List.map_map]
  refine List.map_congr_left fun row _ => ?_
  by_cases h : row.key = key <;> simp [h]

theorem insertDelivery_tags {change : DeliveredChange} {under : Contracts}
    {report : HistoryImportReport} (run : insertDelivery change under db = .ok (report, db')) :
    db'.historyMeta = db.historyMeta ∧ db'.scopes = db.scopes ∧
      ((db'.tags = db.tags ∧ ∃ row, db.row change.delivery.key = some row) ∨
        db'.tags = db.tags ++ [(change.delivery.key, under)]) := by
  rcases insertDelivery_cases run with
    ⟨_, _, rfl⟩ | ⟨row, additions, found, _, _, _, _, ⟨_, rfl⟩ | rfl⟩
  · refine ⟨rfl, rfl, .inr ?_⟩
    simp only [tags, withRows, withDelivery, List.map_append, List.map_cons, List.map_nil]
    rfl
  · exact ⟨rfl, rfl, .inl ⟨rfl, row, found⟩⟩
  · exact ⟨rfl, rfl, .inl ⟨tags_updatePayload _ _, row, found⟩⟩

/-- From `db` to `db'`, stored deliveries were added, with tags among `news`; nothing
was written to the scopes or the version keys. -/
structure Adds (news : List (DeliveryKey × Contracts)) (db db' : Database) : Prop where
  historyMeta : db'.historyMeta = db.historyMeta
  scopes : db'.scopes = db.scopes
  tags : ∃ added, added ⊆ news ∧ db'.tags = db.tags ++ added

namespace Adds

variable {news : List (DeliveryKey × Contracts)}

theorem rfl : Adds news db db := ⟨Eq.refl _, Eq.refl _, [], by simp, by simp⟩

theorem trans {db'' : Database} (h : Adds news db db') (h' : Adds news db' db'') : Adds news db db'' := by
  obtain ⟨added, sub, tags⟩ := h.tags
  obtain ⟨added', sub', tags'⟩ := h'.tags
  refine ⟨h'.historyMeta.trans h.historyMeta, h'.scopes.trans h.scopes, added ++ added', ?_, ?_⟩
  · exact List.append_subset.mpr ⟨sub, sub'⟩
  · rw [tags', tags, List.append_assoc]

theorem mem_tags (h : Adds news db db') {tag : DeliveryKey × Contracts} (mem : tag ∈ db'.tags) :
    tag ∈ db.tags ∨ tag ∈ news := by
  obtain ⟨added, sub, tags⟩ := h.tags
  rw [tags] at mem
  exact (List.mem_append.mp mem).imp_right fun mem => sub mem

theorem insertDelivery {change : DeliveredChange} {under : Contracts} {report : HistoryImportReport}
    (new : (change.delivery.key, under) ∈ news)
    (run : insertDelivery change under db = .ok (report, db')) : Adds news db db' := by
  obtain ⟨historyMeta, scopes, ⟨tags, _⟩ | tags⟩ := insertDelivery_tags run
  · exact ⟨historyMeta, scopes, [], by simp, by simpa using tags⟩
  · exact ⟨historyMeta, scopes, _, by simpa using new, tags⟩

theorem insertStored_all {rows : List (DeliveredChange × Contracts)} (run : rows.foldlM insertStored db = .ok db') :
    Adds (rows.map fun row => (row.1.delivery.key, row.2)) db db' := by
  refine foldlM_keeps (fun s row t mem h run => ?_) Adds.rfl run
  obtain ⟨⟨report, t'⟩, inserted, run⟩ := bind_eq_ok.mp run
  obtain rfl := Except.ok.inj run
  exact h.trans (Adds.insertDelivery (List.mem_map_of_mem mem) inserted)

variable {changes : List DeliveredChange}

theorem insertCurrent_all (run : changes.foldlM HistoryIndex.insertCurrent db = .ok db') :
    Adds (changes.map DeliveredChange.currentTag) db db' := by
  refine foldlM_keeps (fun s change t mem h run => ?_) Adds.rfl run
  obtain ⟨⟨report, t'⟩, inserted, run⟩ := bind_eq_ok.mp run
  obtain rfl := Except.ok.inj run
  exact h.trans (Adds.insertDelivery (List.mem_map_of_mem mem : change.currentTag ∈ _) inserted)

theorem insertExtracted_all {n n' : Nat} (run : changes.foldlM insertExtracted (n, db) = .ok (n', db')) :
    Adds (changes.map DeliveredChange.currentTag) db db' := by
  refine foldlM_keeps (P := fun s : Nat × Database =>
      Adds (changes.map DeliveredChange.currentTag) db s.2)
    (fun s change t mem h run => ?_) (s := (n, db)) Adds.rfl run
  obtain ⟨⟨report, t'⟩, inserted, run⟩ := bind_eq_ok.mp run
  obtain rfl := Except.ok.inj run
  exact h.trans (Adds.insertDelivery (List.mem_map_of_mem mem : change.currentTag ∈ _) inserted)

end Adds

theorem insertScopes_ok {operation : String} {rows : List ScopeRow} {f : ScopeRow → ScopeRow}
    (run : rows.foldlM (fun db row => db.insertScope operation (f row)) db = .ok db') :
    db' = { db with scopes := db.scopes ++ rows.map f } := by
  have step : ∀ done s row t, s = { db with scopes := db.scopes ++ done.map f } →
      s.insertScope operation (f row) = .ok t →
      t = { db with scopes := db.scopes ++ (done ++ [row]).map f } := by
    rintro done s row t rfl h
    rw [insertScope_ok h]
    simp
  have start : db = { db with scopes := db.scopes ++ List.map f [] } := by
    simp
  simpa using foldlM_invariant (P := fun done s => s = { db with scopes := db.scopes ++ done.map f })
    step start run

theorem insertDelivery_fresh {change : DeliveredChange} {under : Contracts}
    {report : HistoryImportReport} (fresh : db.row change.delivery.key = none)
    (run : insertDelivery change under db = .ok (report, db')) : report.inserted = true ∧
      db' = (db.withDelivery (.ofChange (redactChange change) under)).withRows change.delivery.key
        (redactChange change).insertedRows := by
  rcases insertDelivery_cases run with ⟨_, inserted, written⟩ | ⟨row, _, found, _⟩
  · exact ⟨inserted, written⟩
  · rw [fresh] at found
    cases found

theorem insertStored_all_fresh {rows : List (DeliveredChange × Contracts)}
    (distinct : (rows.map fun row => row.1.delivery.key).Nodup)
    (fresh : ∀ row ∈ rows, db.row row.1.delivery.key = none) (run : rows.foldlM insertStored db = .ok db') :
    db'.deliveries = db.deliveries ++ rows.map (fun row => .ofChange (redactChange row.1) row.2) ∧
      db'.scopes = db.scopes ∧ db'.historyMeta = db.historyMeta := by
  induction rows generalizing db with
  | nil =>
    obtain rfl := Except.ok.inj run
    simp
  | cons row rest ih =>
    rw [List.foldlM_cons, bind_eq_ok] at run
    obtain ⟨db₁, first, run⟩ := run
    obtain ⟨⟨report, db₂⟩, inserted, first⟩ := bind_eq_ok.mp first
    obtain rfl := Except.ok.inj first
    obtain ⟨_, rfl⟩ := insertDelivery_fresh (fresh row List.mem_cons_self) inserted
    obtain ⟨notMem, distinct⟩ := List.nodup_cons.mp distinct
    have fresh' : ∀ other ∈ rest, ((db.withDelivery
        (.ofChange (redactChange row.1) row.2)).withRows row.1.delivery.key
          (redactChange row.1).insertedRows).row other.1.delivery.key = none := by
      intro other mem
      have different : (DeliveryRow.ofChange (redactChange row.1) row.2).key ≠
          other.1.delivery.key := by
        rintro eq
        exact notMem (List.mem_map.mpr ⟨other, mem, eq.symm⟩)
      rw [row_withRows, row_withDelivery, fresh other (List.mem_cons_of_mem _ mem), if_neg different]
      rfl
    obtain ⟨deliveries, scopes, historyMeta⟩ := ih distinct fresh' run
    refine ⟨?_, scopes, historyMeta⟩
    rw [deliveries]
    simp [withRows, withDelivery]

end OrbitGraph.History
