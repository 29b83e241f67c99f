import Akar.RelRollback

namespace Akar

open List

/-- A relationship table as it is laid out: the flat edge list, the two adjacency maps and the
properties column by column, `properties[col_idx][edge_idx]`. -/
structure ColumnarRelTable extends RelSchema where
  numRows : Nat
  edges : List (UInt64 × UInt64)
  fwdAdj : UInt64 → List (UInt64 × Nat)
  revAdj : UInt64 → List (UInt64 × Nat)
  properties : List (List Value)
  persistenceDirty : Bool

def eachColumn (f : List Value → Value → List Value) : List (List Value) → List Value →
    List (List Value)
  | col :: cols, v :: vs => f col v :: eachColumn f cols vs
  | cols, _ => cols

theorem getElem?_eachColumn (f : List Value → Value → List Value) (cols : List (List Value))
    (vs : List Value)
    (k : Nat) : (eachColumn f cols vs)[k]? = (cols[k]?).map fun col => (vs[k]?).elim col (f col) := by
  induction cols, vs using eachColumn.induct generalizing k with
  | case1 col cols v vs ih =>
    cases k with
    | zero => simp [eachColumn]
    | succ k => simpa [eachColumn] using ih k
  | case2 cols vs hne =>
    have hsame : eachColumn f cols vs = cols := by
      unfold eachColumn
      split
      next col cols v vs => exact absurd rfl (hne col cols v vs rfl)
      next => rfl
    rw [hsame]
    cases cols with
    | nil => simp
    | cons col cols =>
      cases vs with
      | nil => simp
      | cons v vs => exact absurd rfl (hne col cols v vs rfl)

namespace ColumnarRelTable

open RelTable (push unlink)

def new (tableId : Nat) (name : String) (srcTableId dstTableId : Nat)
    (columns : List ColumnDefinition) :
    ColumnarRelTable where
  tableId := tableId
  name := name
  srcTableId := srcTableId
  dstTableId := dstTableId
  columns := columns
  numRows := 0
  edges := []
  fwdAdj := fun _ => []
  revAdj := fun _ => []
  properties := replicate columns.length []
  persistenceDirty := false

def appendEdge (t : ColumnarRelTable) (src dst : UInt64) (values : List Value) : ColumnarRelTable :=
  { t with
    edges := t.edges ++ [(src, dst)]
    fwdAdj := push t.fwdAdj src dst t.edges.length
    revAdj := push t.revAdj dst src t.edges.length
    properties := eachColumn (fun col v => col ++ [v]) t.properties values }

def insertRel (t : ColumnarRelTable) (src dst : UInt64) (values : List Value) :
    Except StorageError ColumnarRelTable :=
  if values.length ≠ t.columns.length then
    .error (.page s!"Column count mismatch: expected {t.columns.length} values, got {values.length}")
  else if t.emptyType values then .error (.page "Relationship type cannot be empty")
  else if t.invertedWindow values then .error
    (.page "Validity window is inverted: valid_from > valid_to")
  else .ok { t.appendEdge src dst values with numRows := t.numRows + 1, persistenceDirty := true }

structure BatchRel where
  src : UInt64
  dst : UInt64
  values : List Value

def validateRels (t : ColumnarRelTable) : Nat → List BatchRel → Except StorageError Unit
  | _, [] => .ok ()
  | i, rel :: rels =>
    if rel.values.length ≠ t.columns.length then
      .error (.page
        s!"Rel {i} column count mismatch: expected {t.columns.length} values, got {rel.values.length}")
    else if t.emptyType rel.values then .error (.page s!"Rel {i}: relationship type cannot be empty")
    else if t.invertedWindow rel.values then
      .error (.page s!"Rel {i}: Validity window is inverted: valid_from > valid_to")
    else validateRels t (i + 1) rels

def appendEdges (t : ColumnarRelTable) (rels : List BatchRel) : ColumnarRelTable :=
  rels.foldl (fun t rel => t.appendEdge rel.src rel.dst rel.values) t

def insertRelsBatch (t : ColumnarRelTable) (rels : List BatchRel) :
    Except StorageError (ColumnarRelTable × Nat) :=
  if rels.isEmpty then .ok (t, 0)
  else
    (t.validateRels 0 rels).map fun _ =>
      ({ t.appendEdges rels with numRows := t.numRows + rels.length, persistenceDirty := true },
        rels.length)

def deleteEdge (t : ColumnarRelTable) (edgeIdx : Nat) : Except StorageError ColumnarRelTable :=
  match t.edges[edgeIdx]? with
  | none => .error (.page s!"Edge index {edgeIdx} out of range")
  | some (src, dst) =>
    if src = noOffset then .ok t
    else
      .ok { t with
        fwdAdj := unlink t.fwdAdj src edgeIdx
        revAdj := unlink t.revAdj dst edgeIdx
        edges := t.edges.set edgeIdx (noOffset, noOffset)
        persistenceDirty := true
        properties := t.properties.map fun col => col.set edgeIdx .null }

def updateCell (t : ColumnarRelTable) (edgeIdx colIdx : Nat) (value : Value) :
    Except StorageError ColumnarRelTable :=
  if t.columns.length ≤ colIdx then .error (.page s!"Column index {colIdx} out of range")
  else if ((t.properties[colIdx]?).getD []).length ≤ edgeIdx then
    .error (.page s!"Edge index {edgeIdx} out of range")
  else
    .ok { t with
      properties := t.properties.modify colIdx fun col => col.set edgeIdx value
      persistenceDirty := true }

def putValue (edgeIdx : Nat) (col : List Value) (v : Value) : List Value :=
  if edgeIdx < col.length then col.set edgeIdx v else col ++ [v]

def restoreDeletedEdge (t : ColumnarRelTable) (edgeIdx : Nat) (src dst : UInt64) (props : List Value) :
    Except StorageError ColumnarRelTable :=
  if t.edges.length ≤ edgeIdx then .error (.page s!"Edge index {edgeIdx} out of range")
  else
    .ok { t with
      edges := t.edges.set edgeIdx (src, dst)
      fwdAdj := push t.fwdAdj src dst edgeIdx
      revAdj := push t.revAdj dst src edgeIdx
      properties := eachColumn (putValue edgeIdx) t.properties props
      persistenceDirty := true }

theorem validateRels_width {t : ColumnarRelTable} {i : Nat} {rels : List BatchRel}
    (h : t.validateRels i rels = .ok ()) : ∀ rel ∈ rels, rel.values.length = t.columns.length := by
  induction rels generalizing i with
  | nil => exact nofun
  | cons rel rels ih =>
    unfold validateRels at h
    by_cases hv : rel.values.length = t.columns.length
    · rw [if_neg (not_not_intro hv)] at h
      split at h
      · cases h
      · obtain ⟨_, h⟩ := reject_ok h
        exact forall_mem_cons.mpr ⟨hv, ih h⟩
    · rw [if_pos hv] at h
      cases h

def getEdgeProperties (t : ColumnarRelTable) (edgeIdx : Nat) : List Value :=
  t.properties.map fun col => (col[edgeIdx]?).getD .null

def edgeUndo (t : ColumnarRelTable) (edgeIdx : Nat) : (UInt64 × UInt64) × List Value :=
  ((t.edges[edgeIdx]?).getD (noOffset, noOffset), t.getEdgeProperties edgeIdx)

end ColumnarRelTable

namespace RelTable

variable {t : RelTable} {r c : Nat} {src dst : UInt64} {values : List Value}

def propertyColumn (edges : List Edge) (k : Nat) : List Value :=
  edges.map fun e => (e.props[k]?).getD .null

def columnar (t : RelTable) : ColumnarRelTable := { t.toRelSchema with
    numRows := t.edges.length
    edges := t.edges.map fun e => (e.src, e.dst)
    fwdAdj := t.fwdAdj
    revAdj := t.revAdj
    properties := (range t.columns.length).map (propertyColumn t.edges)
    persistenceDirty := t.persistenceDirty }

@[simp] theorem columnar_toRelSchema : t.columnar.toRelSchema = t.toRelSchema := rfl

@[simp] theorem columnar_edges : t.columnar.edges = t.edges.map fun e => (e.src, e.dst) := rfl

theorem length_columnar_edges : t.columnar.edges.length = t.edges.length := by simp

theorem getElem?_columnar_properties (k : Nat) :
    t.columnar.properties[k]? = if k <
      t.columns.length then some (propertyColumn t.edges k) else none := by
  unfold columnar
  rw [getElem?_map]
  by_cases hk : k < t.columns.length
  · rw [getElem?_range hk, if_pos hk]
    rfl
  · rw [getElem?_eq_none (by simpa using Nat.le_of_not_lt hk), if_neg hk]
    rfl

variable {α : Type}

theorem map_modify_of_comm {β : Type} {l : List α} {f : α → α} {g : α → β} {h : β → β}
    (hf : ∀ a ∈ l, g (f a) = h (g a)) : (l.modify r f).map g = (l.map g).modify r h := by
  apply ext_getElem?
  intro i
  simp only [getElem?_map, getElem?_modify]
  cases hi : l[i]? with
  | none => rfl
  | some a =>
    have ha := hf a (mem_of_getElem? hi)
    by_cases hr : r = i
    · simp [hr, ha]
    · simp [hr]

theorem modify_same (l : List α) : l.modify r (fun a => a) = l := modify_id ..

theorem length_propertyColumn (edges : List Edge) (k : Nat) : (propertyColumn edges k).length =
    edges.length :=
  length_map ..

variable {e : Edge}

theorem properties_appendEdge (he : e.props.length = t.columns.length) :
    (t.appendEdge e he).columnar.properties =
      eachColumn (fun col v => col ++ [v]) t.columnar.properties e.props := by
  apply ext_getElem?
  intro k
  rw [getElem?_eachColumn, getElem?_columnar_properties, getElem?_columnar_properties]
  by_cases hk : k < t.columns.length
  · have hval : e.props[k]? = some (e.props[k]) := getElem?_eq_getElem (he ▸ hk)
    simp [hk, hval, propertyColumn]
  · simp [hk]

theorem columnar_appendEdge (he : e.props.length = t.columns.length) :
    (t.appendEdge e he).columnar = { t.columnar.appendEdge e.src e.dst e.props with
        numRows := t.columnar.numRows + 1
        persistenceDirty := true } := by
  have hprops := properties_appendEdge he
  have hlen : t.columnar.edges.length = t.edges.length := length_columnar_edges
  simp only [ColumnarRelTable.appendEdge, hlen, ← hprops]
  simp [columnar, appendEdge]

theorem columnar_insertRel :
    t.columnar.insertRel src dst values = (t.insertRel src dst values).map columnar := by
  unfold ColumnarRelTable.insertRel insertRel
  rw [columnar_toRelSchema]
  by_cases hv : values.length = t.columns.length
  · rw [if_neg (not_not_intro hv), dif_pos hv]
    split
    · rfl
    · split
      · rfl
      · exact congrArg Except.ok (columnar_appendEdge (e := ⟨src, dst, values⟩) hv).symm
  · rw [if_pos hv, dif_neg hv]
    rfl

theorem appendEdges_with (c : ColumnarRelTable) (n : Nat) (d : Bool)
    (rels : List ColumnarRelTable.BatchRel) :
    ColumnarRelTable.appendEdges { c with numRows := n, persistenceDirty := d } rels =
      { c.appendEdges rels with numRows := n, persistenceDirty := d } := by
  induction rels generalizing c with
  | nil => rfl
  | cons rel rels ih => exact ih (c.appendEdge rel.src rel.dst rel.values)

theorem columnar_appendEdges (t : RelTable) (rels : List ColumnarRelTable.BatchRel)
    (hrels : ∀ rel ∈ rels, rel.values.length = t.columns.length) :
    ∃ u : RelTable, u.columnar = { t.columnar.appendEdges rels with
        numRows := t.columnar.numRows + rels.length
        persistenceDirty := true } := by
  induction rels generalizing t with
  | nil => exact ⟨{ t with persistenceDirty := true }, rfl⟩
  | cons rel rels ih =>
    have hrel := hrels rel (mem_cons_self ..)
    obtain ⟨u, hu⟩ := ih (t.appendEdge ⟨rel.src, rel.dst, rel.values⟩ hrel) fun r hr =>
      hrels r (mem_cons_of_mem _ hr)
    refine ⟨u, hu.trans ?_⟩
    rw [columnar_appendEdge, appendEdges_with, length_cons, Nat.add_assoc, Nat.add_comm 1]
    rfl

theorem properties_modifyEdge {f : Edge → Edge} (hf : ∀ e, (f e).props.length = e.props.length)
    {cols : List (List Value)} (g : Nat → Value → Value)
    (hg : ∀ k < t.columns.length, ∀ e ∈ t.edges, ((f e).props[k]?).getD .null =
      g k ((e.props[k]?).getD .null))
    (hcols : ∀ k, cols[k]? = (t.columnar.properties[k]?).map fun col : List Value =>
      col.modify r (g k)) :
    (t.modifyEdge r f hf).columnar.properties = cols := by
  apply ext_getElem?
  intro k
  rw [hcols, getElem?_columnar_properties, getElem?_columnar_properties, modifyEdge_toRelSchema]
  split
  next hk =>
    have hcol : propertyColumn (t.edges.modify r f) k = (propertyColumn t.edges k).modify r (g k) :=
      map_modify_of_comm (hg k hk)
    rw [modifyEdge_edges, hcol]
    rfl
  next => rfl

theorem columnar_deleteEdge : t.columnar.deleteEdge r = (t.deleteEdge r).map columnar := by
  unfold ColumnarRelTable.deleteEdge deleteEdge
  rw [columnar_edges, getElem?_map]
  cases t.edges[r]? with
  | none => rfl
  | some e =>
    simp only [Option.map_some]
    split
    · rfl
    · have hprops : (t.buryEdge r e).columnar.properties = t.columnar.properties.map fun col =>
          col.set r .null := by
        apply properties_modifyEdge Edge.buried_width fun _ _ => .null
        · intro k hk e he
          simp only [Edge.buried, getElem?_map]
          cases e.props[k]? <;> rfl
        · intro k
          simp [← set_eq_modify]
      have hedges : (t.buryEdge r e).columnar.edges = t.columnar.edges.set r (noOffset, noOffset) := by
        rw [set_eq_modify]
        exact map_modify_of_comm fun e he => rfl
      have hnum : (t.buryEdge r e).columnar.numRows = t.columnar.numRows := length_modify ..
      rw [← hprops, ← columnar_edges, ← hedges, ← hnum]
      rfl

theorem columnar_updateCell {v : Value} : t.columnar.updateCell r c v =
    (t.updateCell r c v).map columnar := by
  unfold ColumnarRelTable.updateCell updateCell
  rw [columnar_toRelSchema]
  by_cases hc : t.columns.length ≤ c
  · rw [if_pos hc, if_pos hc]
    rfl
  · have hcol : t.columnar.properties[c]? = some (propertyColumn t.edges c) := by
      rw [getElem?_columnar_properties, if_pos (Nat.lt_of_not_le hc)]
    rw [if_neg hc, if_neg hc, hcol, Option.getD_some, length_propertyColumn]
    split
    · rfl
    · have hprops : (t.setCell r c v).columnar.properties =
          t.columnar.properties.modify c fun col => col.set r v := by
        apply properties_modifyEdge (fun e => length_set) fun k old => if c = k then v else old
        · intro k hk e he
          have hwidth := t.width e he
          simp only [getElem?_set, hwidth]
          by_cases hck : c = k
          · simp [hck, hk]
          · simp [hck]
        · intro k
          rw [getElem?_modify]
          by_cases hck : c = k
          · simp only [hck, if_true, ← set_eq_modify]
            rfl
          · simp [hck, modify_same]
      have hedges : (t.setCell r c v).columnar.edges = t.columnar.edges := by
        have hmap :=
          map_modify_of_comm (l := t.edges) (r := r) (f := fun e =>
          { e with props := e.props.set c v })
          (g := fun e => (e.src, e.dst)) (h := id) fun e he => rfl
        rwa [modify_id] at hmap
      have hnum : (t.setCell r c v).columnar.numRows = t.columnar.numRows := length_modify ..
      rw [← hprops, ← hedges, ← hnum]
      rfl

theorem getElem?_overwrite {old new : List Value} {k : Nat} (hk : k < old.length) :
    (overwrite old new)[k]? = (new[k]?).or old[k]? := by
  unfold overwrite
  by_cases hn : k < new.length
  · rw [getElem?_append_left (by simp; omega), getElem?_take_of_lt hk, getElem?_eq_getElem hn]
    rfl
  · rw [getElem?_append_right (by simp; omega), getElem?_drop,
      getElem?_eq_none (Nat.le_of_not_lt hn), Option.none_or]
    congr 1
    simp
    omega

theorem columnar_restoreDeletedEdge :
    t.columnar.restoreDeletedEdge r src dst values = (t.restoreDeletedEdge r src dst values).map
      columnar := by
  unfold ColumnarRelTable.restoreDeletedEdge restoreDeletedEdge
  rw [length_columnar_edges]
  split
  · rfl
  next hr =>
    have hprops : (t.reviveEdge r src dst values).columnar.properties =
        eachColumn (ColumnarRelTable.putValue r) t.columnar.properties values := by
      apply properties_modifyEdge (fun e => overwrite_length e.props values) fun k old =>
        (values[k]?).getD old
      · intro k hk e he
        have hwidth := t.width e he
        rw [getElem?_overwrite (hwidth ▸ hk)]
        cases values[k]? <;> rfl
      · intro k
        rw [getElem?_eachColumn, getElem?_columnar_properties]
        split
        · cases values[k]? with
          | none => simp [modify_same]
          | some v =>
            have hput : ColumnarRelTable.putValue r (propertyColumn t.edges k) v =
                (propertyColumn t.edges k).set r v :=
              if_pos (by rw [length_propertyColumn]; omega)
            simp [hput, ← set_eq_modify]
        · rfl
    have hedges : (t.reviveEdge r src dst values).columnar.edges =
        t.columnar.edges.set r (src, dst) := by
      rw [set_eq_modify]
      exact map_modify_of_comm fun e he => rfl
    have hnum : (t.reviveEdge r src dst values).columnar.numRows = t.columnar.numRows :=
      length_modify ..
    rw [← hprops, ← hedges, ← hnum]
    rfl

end RelTable

end Akar
