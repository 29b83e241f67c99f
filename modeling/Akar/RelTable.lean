import Akar.NodeTable

namespace Akar

/-- `u64::MAX`, the endpoint of a tombstoned edge. -/
def noOffset : UInt64 := 0xFFFFFFFFFFFFFFFF

@[ext] structure Edge where
  src : UInt64
  dst : UInt64
  props : List Value

namespace Edge

def live (e : Edge) : Bool := e.src ≠ noOffset

def buried (e : Edge) : Edge := ⟨noOffset, noOffset, e.props.map fun _ => .null⟩

theorem buried_width (e : Edge) : e.buried.props.length = e.props.length := List.length_map ..

@[simp] theorem buried_live (e : Edge) : e.buried.live = false := by simp [buried, live]

end Edge

structure RelSchema where
  tableId : Nat
  name : String
  srcTableId : Nat
  dstTableId : Nat
  columns : List ColumnDefinition

namespace RelSchema

def column (t : RelSchema) (name : String) (values : List Value) : Option Value :=
  (t.columns.findIdx? (·.name = name)).bind (values[·]?)

def emptyType (t : RelSchema) (values : List Value) : Bool := match t.column "type" values with
  | some (.string s) => s.isEmpty
  | _ => false

def invertedWindow (t : RelSchema) (values : List Value) : Bool :=
  match t.column "valid_from" values, t.column "valid_to" values with
  | some (.int64 validFrom), some (.int64 validTo) => validTo < validFrom
  | _, _ => false

end RelSchema

/-- A relationship table: the edge list with its properties row by row, and both adjacency maps. -/
structure RelTable extends RelSchema where
  edges : List Edge
  fwdAdj : UInt64 → List (UInt64 × Nat)
  revAdj : UInt64 → List (UInt64 × Nat)
  persistenceDirty : Bool
  width : ∀ e ∈ edges, e.props.length = columns.length

@[simps]
def Edge.mirrored [TextDecoding] (e : Edge) : Edge := { e with props := e.props.map Akar.mirrored }

namespace RelTable

def new (tableId : Nat) (name : String) (srcTableId dstTableId : Nat)
    (columns : List ColumnDefinition) :
    RelTable where
  tableId := tableId
  name := name
  srcTableId := srcTableId
  dstTableId := dstTableId
  columns := columns
  edges := []
  fwdAdj := fun _ => []
  revAdj := fun _ => []
  persistenceDirty := false
  width := nofun

def push (adj : UInt64 → List (UInt64 × Nat)) (at' other : UInt64) (edgeIdx : Nat) :
    UInt64 → List (UInt64 × Nat) :=
  Function.update adj at' (adj at' ++ [(other, edgeIdx)])

def unlink (adj : UInt64 → List (UInt64 × Nat)) (at' : UInt64) (edgeIdx : Nat) : UInt64 →
    List (UInt64 × Nat) :=
  Function.update adj at' ((adj at').filter (·.2 ≠ edgeIdx))

@[simps! toRelSchema edges fwdAdj revAdj]
def appendEdge (t : RelTable) (e : Edge) (he : e.props.length = t.columns.length) : RelTable := { t with
    edges := t.edges ++ [e]
    fwdAdj := push t.fwdAdj e.src e.dst t.edges.length
    revAdj := push t.revAdj e.dst e.src t.edges.length
    persistenceDirty := true
    width := by
      intro e' he'
      rcases List.mem_append.mp he' with h | h
      · exact t.width e' h
      · rw [List.mem_singleton.mp h]; exact he }

def insertRel (t : RelTable) (src dst : UInt64) (values : List Value) : Except StorageError RelTable :=
  if h : values.length = t.columns.length then
    if t.emptyType values then .error (.page "Relationship type cannot be empty")
    else if t.invertedWindow values then
      .error (.page "Validity window is inverted: valid_from > valid_to")
    else .ok (t.appendEdge ⟨src, dst, values⟩ h)
  else
    .error (.page s!"Column count mismatch: expected {t.columns.length} values, got {values.length}")

theorem insertRel_eq_ok {t t' : RelTable} {src dst : UInt64} {values : List Value}
    (h : t.insertRel src dst values = .ok t') : ∃ hv : values.length = t.columns.length,
      t.emptyType values = false ∧ t.invertedWindow values = false ∧ t' =
        t.appendEdge ⟨src, dst, values⟩ hv := by
  unfold insertRel at h
  split at h
  next hv =>
    obtain ⟨htype, h⟩ := reject_ok h
    obtain ⟨hwindow, h⟩ := reject_ok h
    cases h
    exact ⟨hv, Bool.not_eq_true _ ▸ htype, Bool.not_eq_true _ ▸ hwindow, rfl⟩
  next => cases h

@[simps! toRelSchema edges fwdAdj revAdj]
def modifyEdge (t : RelTable) (edgeIdx : Nat) (f : Edge → Edge)
    (hf : ∀ e, (f e).props.length = e.props.length) : RelTable :=
  { t with
    edges := t.edges.modify edgeIdx f
    persistenceDirty := true
    width := NodeTable.forall_mem_modify t.width fun e h => (hf e).trans h }

@[simps! toRelSchema edges fwdAdj revAdj]
def buryEdge (t : RelTable) (edgeIdx : Nat) (e : Edge) : RelTable :=
  { t.modifyEdge edgeIdx Edge.buried Edge.buried_width with
    fwdAdj := unlink t.fwdAdj e.src edgeIdx
    revAdj := unlink t.revAdj e.dst edgeIdx }

/-- Deleting a tombstone succeeds and changes nothing. -/
def deleteEdge (t : RelTable) (edgeIdx : Nat) : Except StorageError RelTable :=
  match t.edges[edgeIdx]? with
  | none => .error (.page s!"Edge index {edgeIdx} out of range")
  | some e => if e.src = noOffset then .ok t else .ok (t.buryEdge edgeIdx e)

@[simps! toRelSchema edges fwdAdj revAdj]
def setCell (t : RelTable) (edgeIdx colIdx : Nat) (value : Value) : RelTable :=
  t.modifyEdge edgeIdx (fun e => { e with props := e.props.set colIdx value }) fun _ => List.length_set

def updateCell (t : RelTable) (edgeIdx colIdx : Nat) (value : Value) : Except StorageError RelTable :=
  if t.columns.length ≤ colIdx then .error (.page s!"Column index {colIdx} out of range")
  else if t.edges.length ≤ edgeIdx then .error (.page s!"Edge index {edgeIdx} out of range")
  else .ok (t.setCell edgeIdx colIdx value)

def getEdgeProperties (t : RelTable) (edgeIdx : Nat) : List Value := match t.edges[edgeIdx]? with
  | some e => e.props
  | none => t.columns.map fun _ => .null

def edgeUndo (t : RelTable) (edgeIdx : Nat) : ByteCodec.Bytes := match t.edges[edgeIdx]? with
  | some e => serializeValues (.uint64 e.src :: .uint64 e.dst :: e.props)
  | none => serializeValues (.uint64 noOffset :: .uint64 noOffset :: t.getEdgeProperties edgeIdx)

def edgeCellUndo (t : RelTable) (edgeIdx colIdx : Nat) : ByteCodec.Bytes :=
  serializeValues [((t.getEdgeProperties edgeIdx)[colIdx]?).getD .null]

def overwrite (old new : List Value) : List Value := new.take old.length ++ old.drop new.length

theorem overwrite_length (old new : List Value) : (overwrite old new).length = old.length := by
  simp [overwrite]
  omega

@[simps! toRelSchema edges fwdAdj revAdj]
def reviveEdge (t : RelTable) (edgeIdx : Nat) (src dst : UInt64) (props : List Value) : RelTable :=
  { t.modifyEdge edgeIdx (fun e => ⟨src, dst, overwrite e.props props⟩) (fun e => overwrite_length e.props props) with
    fwdAdj := push t.fwdAdj src dst edgeIdx
    revAdj := push t.revAdj dst src edgeIdx }

def restoreDeletedEdge (t : RelTable) (edgeIdx : Nat) (src dst : UInt64) (props : List Value) :
    Except StorageError RelTable :=
  if t.edges.length ≤ edgeIdx then .error (.page s!"Edge index {edgeIdx} out of range")
  else .ok (t.reviveEdge edgeIdx src dst props)

/-- The adjacency `load_rel_table` rebuilds; tombstones are skipped. -/
def linkEdges : Nat → List Edge → (UInt64 → List (UInt64 × Nat)) → (UInt64 → List (UInt64 × Nat)) →
    (UInt64 → List (UInt64 × Nat)) × (UInt64 → List (UInt64 × Nat))
  | _, [], fwd, rev => (fwd, rev)
  | i, e :: es, fwd, rev =>
    if e.live then linkEdges (i + 1) es (push fwd e.src e.dst i) (push rev e.dst e.src i)
    else linkEdges (i + 1) es fwd rev

@[simps! toRelSchema edges]
def loadPersistedEdges (t : RelTable) (edges : List Edge)
    (h : ∀ e ∈ edges, e.props.length = t.columns.length) :
    RelTable :=
  { t with
    edges := edges
    fwdAdj := (linkEdges 0 edges (fun _ => []) fun _ => []).1
    revAdj := (linkEdges 0 edges (fun _ => []) fun _ => []).2
    width := h }

@[simps! toRelSchema edges]
def blank (t : RelTable) : RelTable :=
  { t with edges := [], fwdAdj := fun _ => [], revAdj := fun _ => [], persistenceDirty := false, width := nofun }

theorem mirrored_width [TextDecoding] (t : RelTable) :
    ∀ e ∈ t.edges.map Edge.mirrored, e.props.length = t.columns.length := by
  intro e he
  obtain ⟨e', he', rfl⟩ := List.mem_map.mp he
  rw [Edge.mirrored_props, List.length_map, t.width e' he']

@[simps! toRelSchema edges]
def reload [TextDecoding] (t : RelTable) : RelTable :=
  t.blank.loadPersistedEdges (t.edges.map Edge.mirrored) t.mirrored_width

end RelTable

end Akar
