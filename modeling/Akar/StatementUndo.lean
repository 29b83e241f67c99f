import Akar.StatementEffects

namespace Akar

open List Option TableCatalog RelTable

section Effects

variable [Rendering] {U L : Prop} {s : Effects} {tableId row : Nat}

section Set

open SetStatement

variable {t : Table}

theorem setCellAt_follows {col : Nat} {v : Value} (ht : s.catalog.tables tableId = some t)
    (hw : Writable t row col) (hsaved : s.catalog.Saved (tableId, .updateCell row col v)) :
    Follows U False s (setCellAt tableId s row col v) := by
  cases t with
  | node =>
    obtain ⟨hok, hset⟩ := setCellAt_node (v := v) ht hw
    rw [hset]
    exact .one (write_updateCell (getNodeTable_eq_some.mpr ht) hok) rfl
      (fun _ => ⟨rfl, clean_of_ne hsaved nofun⟩) False.elim
  | rel t =>
    obtain ⟨hok, hset⟩ := setCellAt_edge (v := v) ht hw
    have hsettable := hw.2
    have hwrite : s.catalog.write tableId (.updateCell row col v) =
        some ⟨s.catalog.set tableId (.rel (t.setCell row col v)),
          .update tableId row col (t.edgeCellUndo row col),
            .update tableId row col (serializeValues [v])⟩ := by
      simp [TableCatalog.write, ht, Table.write, RelTable.write, hok, hsettable]
    rw [hset]
    exact .one hwrite rfl (fun _ => ⟨rfl, clean_of_ne hsaved nofun⟩) False.elim

theorem step_setCellAt {col : Nat} {v : Value} (ht : s.catalog.tables tableId = some t)
    (hw : Writable t row col) :
    TableCatalog.step s.catalog (tableId, .updateCell row col v) =
      some (setCellAt tableId s row col v).catalog := by
  cases t with
  | node =>
    obtain ⟨hok, hset⟩ := setCellAt_node (v := v) ht hw
    rw [hset, TableCatalog.step, write_updateCell (getNodeTable_eq_some.mpr ht) hok]
    rfl
  | rel t =>
    obtain ⟨hok, hset⟩ := setCellAt_edge (v := v) ht hw
    rw [hset]
    simp [TableCatalog.step, TableCatalog.write, ht, Table.write, RelTable.write, hok, hw.2]

def cellWrites (tableId : Nat) (cells : List (Nat × Nat × Value)) : List (Nat × WriteOp) :=
  cells.map fun (row, col, v) => (tableId, .updateCell row col v)

theorem setCells_follows {cells : List (Nat × Nat × Value)} (ht : s.catalog.tables tableId = some t)
    (hw : ∀ cell ∈ cells, Writable t cell.1 cell.2.1)
    (hsaved : Meets TableCatalog.step Saved s.catalog (cellWrites tableId cells)) :
    Follows U False s (setCells tableId s cells) := by
  refine Follows.foldl (P := fun s cells => ∃ t, s.catalog.tables tableId = some t ∧
    (∀ cell ∈ cells, Writable t cell.1 cell.2.1) ∧
      Meets TableCatalog.step Saved s.catalog (cellWrites tableId cells)) ?_ ⟨t, ht, hw, hsaved⟩
  rintro s ⟨row, col, v⟩ cells ⟨t, ht, hw, hsaved⟩
  have hcell := hw _ mem_cons_self
  obtain ⟨t', hcat, _, _, hkeeps⟩ := setCellAt_spec (v := v) ht hcell
  refine ⟨setCellAt_follows ht hcell hsaved.1, t',
    by rw [hcat]; exact set_tables_self .., fun cell hmem => ?_, ?_⟩
  · exact hkeeps _ _ (hw cell (mem_cons_of_mem _ hmem))
  · exact hsaved.2 _ (step_setCellAt ht hcell)

def TargetsExist (cat : TableCatalog) (tableId : Nat) (target : Option String) (items : List SetItem)
    (input : List Chunk) : Prop :=
  ∀ t, cat.tables tableId = some t → ∀ x ∈ targets target input, ∀ item ∈ items,
    Writable t x.1 (item.column t)

variable {target : Option String} {items : List SetItem} {input : List Chunk}

/-- The cells that `PhysicalSet` goes on to write. -/
def cellsToSet (cat : TableCatalog) (tableId : Nat) (target : Option String) (items : List SetItem)
    (input : List Chunk) : List (Nat × Nat × Value) := (cat.tables tableId).toList.flatMap fun t =>
  let rows := targets target input
  let snapshot := appendPipelineColumns (buildOldRowChunk t (rows.map (·.1))) input (rows.map (·.2))
  let values := items.mapM fun item => (range rows.length).mapM fun i => snapshot.eval i item.value
  values.toList.flatMap fun values => (items.zip values).flatMap fun (item, vs) =>
    ((rows.map (·.1)).zip vs).map fun (row, v) => (row, item.column t, v)

omit [Rendering] in
theorem TargetsExist.writable {cat : TableCatalog} (h : TargetsExist cat tableId target items input)
    (ht : cat.tables tableId = some t) (values : List (List Value)) :
    ∀ cell ∈ (items.zip values).flatMap fun (item, vs) =>
      (((targets target input).map (·.1)).zip vs).map fun (row, v) => (row, item.column t, v),
      Writable t cell.1 cell.2.1 := by
  intro cell hcell
  obtain ⟨⟨item, vs⟩, hitem, hcell⟩ := mem_flatMap.mp hcell
  obtain ⟨⟨row, v⟩, hrow, rfl⟩ := mem_map.mp hcell
  obtain ⟨x, hx, rfl⟩ := mem_map.mp (of_mem_zip hrow).1
  exact h t ht x hx item (of_mem_zip hitem).1

theorem executeSet_follows {emitCount : Bool} {out : List Chunk} {s' : Effects}
    (htargets : TargetsExist s.catalog tableId target items input)
    (hsaved : Meets TableCatalog.step Saved s.catalog
      (cellWrites tableId (cellsToSet s.catalog tableId target items input)))
    (h : executeSet tableId target emitCount items s input = .ok (s', out)) : Follows U False s s' := by
  unfold executeSet at h
  simp only at h
  split at h
  · cases h
    exact .refl _
  · split at h
    · cases h
    next t ht =>
      split at h
      · cases h
      next values hvalues =>
        cases h
        refine setCells_follows ht (htargets.writable ht values) ?_
        simpa [cellsToSet, ht, hvalues] using hsaved

end Set

section Delete

def Table.Deletes : Table → List Nat → Prop
  | .node t, rows => ∀ r ∈ rows, r < t.numRows
  | .rel t, rows => rows.Nodup ∧ ∀ r ∈ rows, t.liveAt r = true

theorem deleteAt_node {t : NodeTable} {values : List Value}
    (ht : s.catalog.tables tableId = some (.node t)) (hrow : t.rows[row]? = some values) :
    ∃ t', t.deleteRow row = .ok t' ∧ t'.numRows = t.numRows ∧ deleteAt tableId s row =
      ⟨s.catalog.set tableId (.node t'), s.undos ++ [.delete tableId row (t.rowUndo row)],
        s.records ++ [.delete tableId row], s.written ++ [(tableId, row)]⟩ := by
  have hok := NodeTable.deleteRow_ok hrow
  refine ⟨_, hok, ?_, by simp only [deleteAt, ht, hok]⟩
  simp [NodeTable.numRows]

theorem deleteAt_edge {t : RelTable} {e : Edge} (ht : s.catalog.tables tableId = some (.rel t))
    (hedge : t.edges[row]? = some e) (hlive : e.live = true) :
    t.deleteEdge row = .ok (t.buryEdge row e) ∧ deleteAt tableId s row =
      ⟨s.catalog.set tableId (.rel (t.buryEdge row e)), s.undos ++
        [.delete tableId row (t.edgeUndo row)],
        s.records ++ [.delete tableId row], s.written ++ [(tableId, row)]⟩ := by
  have hok := deleteEdge_live hedge (of_decide_eq_true hlive)
  exact ⟨hok, by simp only [deleteAt, ht, hok]⟩

variable {t : Table} {rows : List Nat}

def rowDeletes (tableId : Nat) (rows : List Nat) : List (Nat × WriteOp) :=
  rows.map fun r => (tableId, .deleteRow r)

theorem deleteAt_deletes (ht : s.catalog.tables tableId = some t) (h : t.Deletes (row :: rows)) :
    ∃ t', (deleteAt tableId s row).catalog.tables tableId = some t' ∧ t'.Deletes rows := by
  cases t with
  | node t =>
    obtain ⟨t', hok, hnum, hdel⟩ := deleteAt_node ht (getElem?_eq_getElem (h row mem_cons_self))
    rw [hdel]
    refine ⟨.node t', by simp, fun r hr => ?_⟩
    rw [hnum]
    exact h r (mem_cons_of_mem row hr)
  | rel t =>
    obtain ⟨hnodup, hlive⟩ := h
    obtain ⟨hnot, hnodup⟩ := nodup_cons.mp hnodup
    obtain ⟨e, he, hel⟩ := liveAt_iff.mp (hlive row mem_cons_self)
    rw [(deleteAt_edge ht he hel).2]
    refine ⟨.rel (t.buryEdge row e), by simp, hnodup, fun r hr => ?_⟩
    have hne : row ≠ r := fun heq => hnot (heq ▸ hr)
    have := hlive r (mem_cons_of_mem row hr)
    rw [liveAt] at this ⊢
    simpa [hne] using this

theorem deleteAt_follows (ht : s.catalog.tables tableId = some t) (h : t.Deletes (row :: rows))
    (hsaved : s.catalog.Saved (tableId, .deleteRow row)) :
    Follows U False s (deleteAt tableId s row) ∧
      TableCatalog.step s.catalog (tableId, .deleteRow row) =
        some (deleteAt tableId s row).catalog := by
  cases t with
  | node t =>
    obtain ⟨t', hok, -, hdel⟩ := deleteAt_node ht (getElem?_eq_getElem (h row mem_cons_self))
    have hwrite := write_deleteRow ht hok
    rw [hdel]
    refine ⟨.one hwrite rfl (fun _ => ⟨rfl, hsaved, fun t₁ ht₁ => ?_⟩) False.elim,
      by simp [TableCatalog.step, hwrite]⟩
    rw [ht] at ht₁
    cases ht₁
  | rel t =>
    obtain ⟨e, he, hel⟩ := liveAt_iff.mp (h.2 row mem_cons_self)
    obtain ⟨hok, hdel⟩ := deleteAt_edge ht he hel
    have hwrite := write_deleteEdge ht hok
    rw [hdel]
    refine ⟨.one hwrite rfl (fun _ => ⟨rfl, hsaved, fun t₁ ht₁ r hr e' he' => ?_⟩) False.elim,
      by simp [TableCatalog.step, hwrite]⟩
    rw [ht] at ht₁
    cases ht₁
    cases hr
    rw [he] at he'
    cases he'
    exact hel

theorem deleteRows_follows (ht : s.catalog.tables tableId = some t) (h : t.Deletes rows)
    (hsaved : Meets TableCatalog.step Saved s.catalog (rowDeletes tableId rows)) :
    Follows U False s (deleteRows tableId s rows) := by
  refine Follows.foldl (P := fun s rows => ∃ t, s.catalog.tables tableId = some t ∧ t.Deletes rows ∧
    Meets TableCatalog.step Saved s.catalog (rowDeletes tableId rows)) ?_ ⟨t, ht, h, hsaved⟩
  rintro s row rows ⟨t, ht, h, hsaved⟩
  obtain ⟨hone, hstep⟩ := deleteAt_follows (U := U) ht h hsaved.1
  obtain ⟨t', ht', h'⟩ := deleteAt_deletes ht h
  exact ⟨hone, t', ht', h', hsaved.2 _ hstep⟩

def NoIncident (cat : TableCatalog) (relIds : List Nat) (tableId : Nat) (rows : List Nat) : Prop :=
  ∀ id ∈ relIds, ∀ t, cat.getRelTable id = some t → ∀ row ∈ rows, t.incident tableId row = []

variable {cat : TableCatalog}

omit [Rendering] in
theorem set_same (h : cat.tables tableId = some t) : cat.set tableId t = cat := by
  unfold TableCatalog.set
  rw [← h, Function.update_eq_self]

variable {relIds : List Nat}

omit [Rendering] in
theorem detach_noIncident (h : NoIncident cat relIds tableId rows) :
    rows.foldl (TableCatalog.detachNode relIds tableId) cat = cat := by
  induction rows with
  | nil => rfl
  | cons row rows ih =>
    have hrow : cat.detachNode relIds tableId row = cat := by
      have hids : ∀ id ∈ relIds, ∀ t, cat.getRelTable id = some t → t.incident tableId row = [] :=
        fun id hid t ht => h id hid t ht row mem_cons_self
      clear ih h
      unfold TableCatalog.detachNode
      induction relIds with
      | nil => rfl
      | cons id ids ih =>
        have hone : cat.detachFrom tableId row id = cat := by
          unfold TableCatalog.detachFrom
          split
          next t ht =>
            rw [hids id mem_cons_self t ht]
            exact set_same (getRelTable_eq_some.mp ht)
          · rfl
        rw [foldl_cons, hone]
        exact ih (forall_mem_cons.mp hids).2
    rw [foldl_cons, hrow]
    exact ih fun id hid t ht r hr => h id hid t ht r (mem_cons_of_mem row hr)

def DeletesExist (cat : TableCatalog) (relIds : List Nat) (tableId : Nat) (detaching : Bool)
    (target : Option String) (input : List Chunk) : Prop :=
  (∀ t, cat.tables tableId = some t → t.Deletes ((targets target input).map (·.1))) ∧
    (detaching = true → NoIncident cat relIds tableId ((targets target input).map (·.1)))

def DeletesSaved (cat : TableCatalog) (tableId : Nat) (target : Option String)
    (input : List Chunk) : Prop :=
  Meets TableCatalog.step Saved cat (rowDeletes tableId ((targets target input).map (·.1)))

theorem executeDelete_follows {detaching : Bool} {target : Option String} {input out : List Chunk}
    {s' : Effects} (hrows : DeletesExist s.catalog relIds tableId detaching target input)
    (hsaved : DeletesSaved s.catalog tableId target input)
    (h : executeDelete relIds tableId detaching target s input = .ok (s', out)) :
    Follows U False s s' := by
  unfold executeDelete at h
  simp only at h
  split at h
  · cases h
    exact .refl _
  · split at h
    · cases h
    next t ht =>
      split at h
      · cases h
      · cases h
        split
        next hdetach =>
          have hcat := detach_noIncident (hrows.2 (Bool.and_eq_true_iff.mp hdetach).2)
          have hrest : Follows U False (detach relIds tableId ((targets target input).map (·.1)) s) _ :=
            deleteRows_follows (t := t) (by rw [detach, hcat]; exact ht) (hrows.1 t ht)
              (by rw [detach, hcat]; exact hsaved)
          have hfirst :
              Follows U False s (detach relIds tableId ((targets target input).map (·.1)) s) :=
            ⟨[], _, rfl, hcat, fun _ => ⟨(append_nil _).symm, trivial⟩, False.elim⟩
          exact hfirst.trans hrest
        next => exact deleteRows_follows ht (hrows.1 t ht) hsaved

end Delete

section Rollback

open TableCatalog

/-- The live rows with their cells, the live edges and their adjacency are the same. -/
def Table.SameData (s t : Table) : Prop := match s, t with
  | .node s, .node t =>
    ∀ (r : Nat) (row : List Value), s.rows[r]? = some row ∧ s.live row ↔ t.rows[r]? = some row ∧
    t.live row
  | .rel s, .rel t => s.Restored t
  | _, _ => False

omit [Rendering] in
theorem relinked_clean {t : RelTable} {op : WriteOp} {own other : Edge → UInt64}
    (h : ∀ r, op = .deleteRow r → ∀ e, t.edges[r]? = some e → e.live) (n : UInt64) :
    relinked own other t op n = [] := by
  cases op with
  | deleteRow r =>
    cases he : t.edges[r]? with
    | none => simp [relinked, he]
    | some e =>
      have hlive : e.src ≠ noOffset := of_decide_eq_true (h r rfl e he)
      simp [relinked, he, hlive]
  | insertRow | insertRel | updateCell => rfl

theorem unharmed_of_clean {cat : TableCatalog} {ws : List (Nat × WriteOp)} {j : Journal}
    (h : cat.writes ws = some j)
    (hclean : Meets step Clean cat ws) (i : Nat) (t₀ : RelTable) :
      (Table.rel t₀).Unharmed (cat.lossOf i ws) := by
  induction ws generalizing cat j with
  | nil => exact Table.unharmed_none _
  | cons w ws ih =>
    obtain ⟨k, op⟩ := w
    obtain ⟨w, hw, j', hj', rfl⟩ := writes_cons_eq_some.mp h
    have hstep : step cat (k, op) = some w.table := by simp [step, hw]
    simp only [lossOf, hw, map_some, getD_some, Table.unharmed_append]
    refine ⟨?_, ih hj' (hclean.2 _ hstep)⟩
    obtain ⟨t, _, ht, _⟩ := write_eq_some.mp hw
    by_cases hk : k = i
    · subst hk
      simp only [lossAt, ht, map_some, getD_some, ↓reduceIte]
      cases t with
      | node => simp [Table.Unharmed, Table.touched]
      | rel t =>
        have hrel (own other : Edge → UInt64) : ∀ n, relinked own other t op n = [] :=
          relinked_clean (hclean.1.2 t ht)
        simp [Table.Unharmed, Table.touched, hrel]
    · simpa [lossAt, hk] using Table.unharmed_none (.rel t₀)

theorem Follows.rollback {s' : Effects} (hlinked : ∀ i, ∀ t ∈ s.catalog.tables i, t.Linked)
    (hs : s.undos = []) (h : Follows True L s s') :
    ∃ cat, s'.catalog.rollbackTransaction s'.undos = .ok cat ∧
      ∀ i, Option.Rel Table.SameData (cat.tables i) (s.catalog.tables i) := by
  obtain ⟨ws, j, hj, hcat, hu, _⟩ := h
  obtain ⟨hundos, hclean⟩ := hu trivial
  have hsaved : Meets step TableCatalog.Saved s.catalog ws :=
    hclean.strengthen (fun _ => True) (fun _ _ _ _ hok _ => ⟨trivial, hok.1⟩) (run_of_writes hj) trivial
  obtain ⟨cat, hroll, hrev⟩ := rollbackTransaction_reverts hj hsaved
  refine ⟨cat, by rw [hcat, hundos, hs, nil_append]; exact hroll, fun i => ?_⟩
  refine rel_of_some (hrev i) fun t ht u hr => ?_
  cases t with
  | node =>
    cases u with
    | rel => cases hr
    | node => exact hr.live_iff
  | rel t =>
    cases u with
    | node => cases hr
    | rel => exact (Reverted.restored_iff hr (hlinked i _ ht)).mpr (unharmed_of_clean hj hclean i t)

def WriteStatement.Undoable (relIds : List Nat) (cat : TableCatalog) : WriteStatement → Prop
  | .set tableId target _ items input => TargetsExist cat tableId target items input ∧
      Meets step TableCatalog.Saved cat (cellWrites tableId (cellsToSet cat tableId target items input))
  | .delete tableId detaching target input =>
      DeletesExist cat relIds tableId detaching target input ∧ DeletesSaved cat tableId target input
  | .create _ => True
  | .merge m =>
    PassesMeet m.node (createEdge true) (fun s p => m.Filed s p ∧ m.Saved s p) (fun _ _ => True)
    m.patterns
      ⟨cat, [], [], []⟩

end Rollback

end Effects

section Social

attribute [local instance] Rendering.blank

def createCid : WriteStatement :=
  .create [⟨some ⟨some "a", 0, [⟨"name", .string "cid", true⟩], id⟩, none⟩,
    ⟨none, some ⟨1, "a", "a", []⟩⟩]

end Social

end Akar
