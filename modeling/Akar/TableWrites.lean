import Akar.Tables

namespace Akar

open List Option

/-- The values are read back from the payload they are serialised to. -/
def ReadsBack [TextDecoding] (vs : List Value) : Prop :=
  deserializeValuesFromBytes (serializeValues vs) vs.length = vs

theorem ReadsBack.of_codable [TextDecoding] {vs : List Value} (h : ∀ v ∈ vs, codable v = true) :
    ReadsBack vs := by
  rw [ReadsBack, serializeValues_eq, deserializeValuesFromBytes_flatMap h]

theorem ReadsBack.payload [TextDecoding] {vs : List Value} {n : Nat} (h : ReadsBack vs)
    (hn : vs.length = n) :
    deserializeValuesFromBytes (serializeValues vs) n = vs := hn ▸ h

theorem ReadsBack.mirrored [TextDecoding] {v : Value} (h : ReadsBack [v]) : mirrored v = v := by
  have hbytes : serializeValues [v] = serializeValue v := by simp [serializeValues_eq]
  have hpos : serializeValue v ≠ [] := fun hnil => absurd (serializeValue_pos v) (by simp [hnil])
  obtain ⟨tag, rest, hcons⟩ := exists_cons_of_ne_nil hpos
  have hread : decodeValues 1 (serializeValue v) = [v] := by
    simpa [ReadsBack, deserializeValuesFromBytes, hbytes, hpos] using h
  rw [hcons, decodeValues, deserializeValue, ← hcons] at hread
  unfold Akar.mirrored
  split at hread <;> simp_all [decodeValues]

/-- The values a write logs are read back from its record. -/
def WriteOp.Recorded [TextDecoding] : WriteOp → Prop
  | .insertRow values => ReadsBack values
  | .insertRel src dst values => ReadsBack (.uint64 src :: .uint64 dst :: values)
  | .updateCell _ _ v => ReadsBack [v]
  | .deleteRow _ => True

namespace NodeTable

section

variable {t : NodeTable} {r c n : Nat} {row : List Value}

theorem row_length (h : t.rows[r]? = some row) : row.length = t.columns.length :=
  t.width row (mem_of_getElem? h)

theorem exists_row (h : r < t.numRows) : ∃ row, t.rows[r]? = some row :=
  ⟨t.rows[r], getElem?_eq_getElem h⟩

theorem getValue_of_row (h : t.rows[r]? = some row) : t.getValue r c = row[c]? := by
  have hr : r < t.numRows := lt_length_of_getElem? h
  have hw := row_length h
  unfold getValue
  split
  next hout =>
    rcases hout with hc | hr'
    · rw [getElem?_eq_none (by omega)]
    · omega
  next => rw [h]; rfl

theorem getValue_eq (t : NodeTable) (r c : Nat) : t.getValue r c = (t.rows[r]?).bind (·[c]?) := by
  cases h : t.rows[r]? with
  | some row => exact getValue_of_row h
  | none =>
    unfold getValue
    rw [h]
    split <;> rfl

variable {v : Value}

theorem getValue_setCell {r' c' : Nat} (hr : r < t.numRows) (hc : c < t.columns.length) :
    (t.setCell r c v).getValue r' c' = if r' = r ∧ c' = c then some v else t.getValue r' c' := by
  rw [getValue_eq, getValue_eq, setCell_rows, getElem?_modify]
  obtain ⟨row, hrow⟩ := exists_row hr
  have hw := row_length hrow
  by_cases hr' : r' = r
  · subst hr'
    simp only [hrow, Option.map_eq_map, map_some, bind_some, ↓reduceIte, getElem?_set, true_and]
    by_cases hc' : c' = c
    · subst hc'
      simp [hw, hc]
    · simp [Ne.symm hc', hc']
  · cases hrow' : t.rows[r']? with
    | none => simp [hr']
    | some row' => simp [hr', Ne.symm hr']

theorem rowUndo_of_row (h : t.rows[r]? = some row) : t.rowUndo r = serializeValues row := by
  have hw := row_length h
  rw [rowUndo]
  congr 1
  apply ext_getElem?
  intro c
  rw [getElem?_map]
  by_cases hc : c < t.columns.length
  · rw [getElem?_range hc, map_some, getValue_of_row h, getElem?_eq_getElem (by omega)]
    rfl
  · rw [getElem?_eq_none (by simp; omega), getElem?_eq_none (by omega)]
    rfl

theorem updateCell_ok (hc : c < t.columns.length) (hr : r < t.numRows) :
    t.updateCell r c v = .ok (t.setCell r c v) := by
  unfold updateCell
  rw [if_neg (by omega), if_neg (by omega)]

end

/-- What the undo record of the write keeps is read back from it. -/
def Saved [TextDecoding] (t : NodeTable) : WriteOp → Prop
  | .updateCell r c _ => ReadsBack [(t.getValue r c).getD .null]
  | .deleteRow r => ∀ row ∈ t.rows[r]?, ReadsBack row
  | _ => True

variable [Rendering] {t : NodeTable} {tableId r : Nat} {values row : List Value}

theorem insertRow_ok (hrow : checkedRow t.toNodeSchema values = .ok row)
    (hfresh : ∀ key, t.keyOf row = some key → t.hashIndex.lookup key = none) :
    t.insertRow values = .ok (t.numRows, t.appendRow row (checkedRow_length hrow)) := by
  have hnone : ((t.keyOf row).filter fun key => (t.hashIndex.lookup key).isSome) = none := by
    rw [filter_eq_none_iff]
    intro key hkey
    simp [hfresh key hkey]
  unfold insertRow
  split
  next e he => rw [hrow] at he; cases he
  next row' hrow' =>
    cases hrow.symm.trans hrow'
    simp only [hnone]

variable {r' c' : Nat}

theorem getValue_buryRow (h : t.rows[r]? = some row) :
    (t.buryRow r row).getValue r' c' = if r' = r ∧ c' <
      t.columns.length then some .null else t.getValue r' c' := by
  rw [getValue_eq, getValue_eq, buryRow_rows, getElem?_modify]
  have hw := row_length h
  by_cases hr' : r' = r
  · subst hr'
    simp only [h, Option.map_eq_map, map_some, bind_some, ↓reduceIte, nullRow, getElem?_map,
      true_and, ← hw]
    by_cases hc : c' < row.length
    · simp [hc]
    · simp [hc]
  · cases hrow' : t.rows[r']? with
    | none => simp [hr']
    | some row' => simp [hr', Ne.symm hr']

theorem getValue_appendRow {hrow : row.length = t.columns.length} (hr : r' < t.numRows) :
    (t.appendRow row hrow).getValue r' c' = t.getValue r' c' := by
  rw [getValue_eq, getValue_eq, appendRow_rows, getElem?_append_left hr]

theorem deleteRow_ok (h : t.rows[r]? = some row) : t.deleteRow r = .ok (t.buryRow r row) := by
  simp only [deleteRow, h]

inductive Writes (t : NodeTable) (tableId : Nat) : WriteOp → Written NodeTable → Prop where
  | insertRow (values row : List Value) (hrow : checkedRow t.toNodeSchema values = .ok row)
      (hfresh : ∀ key, t.keyOf row = some key → t.hashIndex.lookup key = none) :
      Writes t tableId (.insertRow values)
        ⟨t.appendRow row (checkedRow_length hrow), .insert tableId t.numRows,
          .insert tableId (serializeValues values)⟩
  | updateCell (r c : Nat) (v : Value) (hc : c < t.columns.length) (hr : r < t.numRows) :
      Writes t tableId (.updateCell r c v)
        ⟨t.setCell r c v, .update tableId r c (t.cellUndo r c),
          .update tableId r c (serializeValues [v])⟩
  | deleteRow (r : Nat) (row : List Value) (hrow : t.rows[r]? = some row) :
      Writes t tableId (.deleteRow r)
        ⟨t.buryRow r row, .delete tableId r (t.rowUndo r), .delete tableId r⟩

theorem writes_of_write {op : WriteOp} {w : Written NodeTable} (h : t.write tableId op = some w) :
    t.Writes tableId op w := by
  cases op with
  | insertRow values =>
    simp only [write] at h
    split at h
    next rowId t' hins =>
      obtain ⟨row, hrow, hfresh, rfl, rfl⟩ := insertRow_eq_ok hins
      cases h
      exact .insertRow values row hrow hfresh
    · cases h
  | updateCell r c v =>
    simp only [write] at h
    split at h
    next t' hup =>
      obtain ⟨hc, hr, rfl⟩ := updateCell_eq_ok hup
      cases h
      exact .updateCell r c v hc hr
    · cases h
  | deleteRow r =>
    simp only [write] at h
    split at h
    next t' hdel =>
      obtain ⟨row, hrow, rfl⟩ := deleteRow_eq_ok hdel
      cases h
      exact .deleteRow r row hrow
    · cases h
  | insertRel => cases h

end NodeTable

namespace RelTable

variable {t : RelTable} {tableId r c : Nat} {e : Edge} {src dst : UInt64} {values : List Value}
    {v : Value}

theorem edge_width (h : t.edges[r]? = some e) : e.props.length = t.columns.length :=
  t.width e (mem_of_getElem? h)

theorem edgeCellUndo_of_edge (h : t.edges[r]? = some e) : t.edgeCellUndo r c = serializeValues
    [(e.props[c]?).getD .null] := by
  simp only [edgeCellUndo, getEdgeProperties, h]

def Saved [TextDecoding] (t : RelTable) : WriteOp → Prop
  | .updateCell r c _ => ∀ e ∈ t.edges[r]?, ReadsBack [(e.props[c]?).getD .null]
  | .deleteRow r => ∀ e ∈ t.edges[r]?, ReadsBack (.uint64 e.src :: .uint64 e.dst :: e.props)
  | _ => True

theorem insertRel_ok (hv : values.length = t.columns.length) (htype : t.emptyType values = false)
    (hwindow : t.invertedWindow values = false) :
    t.insertRel src dst values = .ok (t.appendEdge ⟨src, dst, values⟩ hv) := by
  simp [insertRel, hv, htype, hwindow, ↓reduceDIte, ↓reduceIte]

theorem updateCell_ok (hc : c < t.columns.length) (hr : r < t.edges.length) :
    t.updateCell r c v = .ok (t.setCell r c v) := by
  unfold updateCell
  rw [if_neg (by omega), if_neg (by omega)]

theorem deleteEdge_live (h : t.edges[r]? = some e) (hlive : e.src ≠ noOffset) :
    t.deleteEdge r = .ok (t.buryEdge r e) := by
  simp only [deleteEdge, h, hlive, ↓reduceIte]

theorem deleteEdge_dead (h : t.edges[r]? = some e) (hdead : e.src = noOffset) : t.deleteEdge r =
    .ok t := by
  simp only [deleteEdge, h, hdead, ↓reduceIte]

inductive Writes (t : RelTable) (tableId : Nat) : WriteOp → Written RelTable → Prop where
  | insertRel (src dst : UInt64) (values : List Value) (hv : values.length = t.columns.length)
      (htype : t.emptyType values = false) (hwindow : t.invertedWindow values = false) :
      Writes t tableId (.insertRel src dst values)
        ⟨t.appendEdge ⟨src, dst, values⟩ hv, .insert tableId t.edges.length,
          .insert tableId (serializeValues (.uint64 src :: .uint64 dst :: values))⟩
  | updateCell (r c : Nat) (v : Value) (hset : t.settable r) (hc : c < t.columns.length)
      (hr : r < t.edges.length) :
      Writes t tableId (.updateCell r c v)
        ⟨t.setCell r c v, .update tableId r c (t.edgeCellUndo r c),
          .update tableId r c (serializeValues [v])⟩
  | deleteLive (r : Nat) (e : Edge) (he : t.edges[r]? = some e) (hlive : e.src ≠ noOffset) :
      Writes t tableId (.deleteRow r)
        ⟨t.buryEdge r e, .delete tableId r (t.edgeUndo r), .delete tableId r⟩
  | deleteDead (r : Nat) (e : Edge) (he : t.edges[r]? = some e) (hdead : e.src = noOffset) :
      Writes t tableId (.deleteRow r) ⟨t, .delete tableId r (t.edgeUndo r), .delete tableId r⟩

theorem writes_of_write {op : WriteOp} {w : Written RelTable} (h : t.write tableId op = some w) :
    t.Writes tableId op w := by
  cases op with
  | insertRow => cases h
  | insertRel src dst values =>
    simp only [write] at h
    split at h
    next t' hins =>
      obtain ⟨hv, htype, hwindow, rfl⟩ := insertRel_eq_ok hins
      cases h
      exact .insertRel src dst values hv htype hwindow
    · cases h
  | updateCell r c v =>
    obtain ⟨hset, h⟩ := ite_none_right_eq_some.mp h
    split at h
    next t' hup =>
      obtain ⟨hc, hup⟩ := reject_ok hup
      obtain ⟨hr, hup⟩ := reject_ok hup
      cases hup
      cases h
      exact .updateCell r c v hset (by omega) (by omega)
    · cases h
  | deleteRow r =>
    simp only [write, RelTable.deleteEdge] at h
    split at h
    next t' hdel =>
      split at hdel
      · cases hdel
      next e he =>
        split at hdel
        next hdead =>
          cases hdel
          cases h
          exact .deleteDead r e he hdead
        next hlive =>
          cases hdel
          cases h
          exact .deleteLive r e he hlive
    · cases h

end RelTable

section

variable [Rendering]

theorem Table.write_tableId {t : Table} {tableId : Nat} {op : WriteOp} {w : Written Table}
    (hw : t.write tableId op = some w) : w.undo.tableId = tableId ∧ w.record.tableId = tableId := by
  cases t with
  | node =>
    obtain ⟨w', hw', rfl⟩ := map_eq_some_iff.mp hw
    cases NodeTable.writes_of_write hw' <;> exact ⟨rfl, rfl⟩
  | rel =>
    obtain ⟨w', hw', rfl⟩ := map_eq_some_iff.mp hw
    cases RelTable.writes_of_write hw' <;> exact ⟨rfl, rfl⟩

def Table.Saved (t : Table) (op : WriteOp) : Prop := match t with
  | .node t => t.Saved op
  | .rel t => t.Saved op

namespace TableCatalog

/-- The values a write overwrites or deletes survive the bytes of its undo record. -/
def Saved (cat : TableCatalog) (w : Nat × WriteOp) : Prop := ∀ t ∈ cat.tables w.1, t.Saved w.2

variable {cat : TableCatalog} {tableId : Nat} {op : WriteOp} {ws : List (Nat × WriteOp)}

theorem write_eq_some {w : Written TableCatalog} :
    cat.write tableId op = some w ↔ ∃ t w', cat.tables tableId = some t ∧ t.write tableId op = some w' ∧
        w = ⟨cat.set tableId w'.table, w'.undo, w'.record⟩ := by
  simp only [write, bind_eq_some_iff, map_eq_some_iff]
  constructor
  · rintro ⟨t, ht, w', hw', rfl⟩
    exact ⟨t, w', ht, hw', rfl⟩
  · rintro ⟨t, w', ht, hw', rfl⟩
    exact ⟨t, ht, w', hw', rfl⟩

theorem writes_cons_eq_some {j : Journal} :
    cat.writes ((tableId, op) :: ws) = some j ↔ ∃ w, cat.write tableId op = some w ∧ ∃ j',
    w.table.writes ws = some j' ∧ j = ⟨j'.catalog, w.undo :: j'.undos, w.record :: j'.records⟩ := by
  simp only [writes, bind_eq_some_iff, map_eq_some_iff]
  constructor
  · rintro ⟨w, hw, j', hj', rfl⟩
    exact ⟨w, hw, j', hj', rfl⟩
  · rintro ⟨w, hw, j', hj', rfl⟩
    exact ⟨w, hw, j', hj', rfl⟩

end TableCatalog

end

end Akar
