import Akar.RelTable
import Akar.TransactionManager
import Akar.ValueRoundTrip

namespace Akar

inductive Table where
  | node (t : NodeTable)
  | rel (t : RelTable)

def Table.cell (t : Table) (rowId column : Nat) : Option Value := match t with
  | .node t => t.getValue rowId column
  | .rel t => (t.edges[rowId]?).bind (·.props[column]?)

structure TableCatalog where
  tables : Nat → Option Table

def TableCatalog.getNodeTable (cat : TableCatalog) (tableId : Nat) : Option NodeTable :=
  match cat.tables tableId with
  | some (.node t) => some t
  | _ => none

def TableCatalog.getRelTable (cat : TableCatalog) (tableId : Nat) : Option RelTable :=
  match cat.tables tableId with
  | some (.rel t) => some t
  | _ => none

def TableCatalog.set (cat : TableCatalog) (tableId : Nat) (t : Table) : TableCatalog :=
  ⟨Function.update cat.tables tableId (some t)⟩

@[simp] theorem TableCatalog.set_tables_self (cat : TableCatalog) (tableId : Nat) (t : Table) :
    (cat.set tableId t).tables tableId = some t := Function.update_self ..

theorem TableCatalog.set_tables_ne {cat : TableCatalog} {tableId i : Nat} {t : Table}
    (h : i ≠ tableId) :
    (cat.set tableId t).tables i = cat.tables i := Function.update_of_ne h ..

theorem TableCatalog.getNodeTable_eq_some {cat : TableCatalog} {tableId : Nat} {t : NodeTable} :
    cat.getNodeTable tableId = some t ↔ cat.tables tableId = some (.node t) := by
  unfold getNodeTable
  split <;> simp_all

theorem TableCatalog.getRelTable_eq_some {cat : TableCatalog} {tableId : Nat} {t : RelTable} :
    cat.getRelTable tableId = some t ↔ cat.tables tableId = some (.rel t) := by
  unfold getRelTable
  split <;> simp_all

/-- A typed log record of a write, its `data` serialised. -/
inductive DataRecord where
  | insert (tableId : Nat) (data : ByteCodec.Bytes)
  | delete (tableId rowId : Nat)
  | update (tableId rowId column : Nat) (data : ByteCodec.Bytes)

def DataRecord.tableId : DataRecord → Nat
  | .insert tableId _ | .delete tableId _ | .update tableId _ _ _ => tableId

inductive WriteOp where
  | insertRow (values : List Value)
  | insertRel (src dst : UInt64) (values : List Value)
  | updateCell (rowId column : Nat) (value : Value)
  | deleteRow (rowId : Nat)

structure Written (τ : Type) where
  table : τ
  undo : UndoRecord
  record : DataRecord

section Write

variable [Rendering]

def NodeTable.write (t : NodeTable) (tableId : Nat) : WriteOp → Option (Written NodeTable)
  | .insertRow values =>
    match t.insertRow values with
    | .ok (rowId, t') => some ⟨t', .insert tableId rowId, .insert tableId (serializeValues values)⟩
    | .error _ => none
  | .updateCell rowId column value =>
    match t.updateCell rowId column value with
    | .ok t' =>
      some ⟨t', .update tableId rowId column (t.cellUndo rowId column),
      .update tableId rowId column (serializeValues [value])⟩
    | .error _ => none
  | .deleteRow rowId =>
    match t.deleteRow rowId with
    | .ok t' => some ⟨t', .delete tableId rowId (t.rowUndo rowId), .delete tableId rowId⟩
    | .error _ => none
  | .insertRel .. => none

/-- `SET` skips an edge with a tombstoned endpoint. -/
def RelTable.settable (t : RelTable) (edgeIdx : Nat) : Bool :=
  (t.edges[edgeIdx]?).any fun e => e.src ≠ noOffset ∧ e.dst ≠ noOffset

def RelTable.write (t : RelTable) (tableId : Nat) : WriteOp → Option (Written RelTable)
  | .insertRel src dst values =>
    match t.insertRel src dst values with
    | .ok t' =>
      some ⟨t', .insert tableId t.edges.length,
      .insert tableId (serializeValues (.uint64 src :: .uint64 dst :: values))⟩
    | .error _ => none
  | .updateCell edgeIdx column value =>
    if t.settable edgeIdx then
      match t.updateCell edgeIdx column value with
      | .ok t' =>
        some ⟨t', .update tableId edgeIdx column (t.edgeCellUndo edgeIdx column),
          .update tableId edgeIdx column (serializeValues [value])⟩
      | .error _ => none
    else none
  | .deleteRow edgeIdx =>
    match t.deleteEdge edgeIdx with
    | .ok t' => some ⟨t', .delete tableId edgeIdx (t.edgeUndo edgeIdx), .delete tableId edgeIdx⟩
    | .error _ => none
  | .insertRow _ => none

def Table.write (t : Table) (tableId : Nat) (op : WriteOp) : Option (Written Table) := match t with
  | .node t => (t.write tableId op).map fun w => ⟨.node w.table, w.undo, w.record⟩
  | .rel t => (t.write tableId op).map fun w => ⟨.rel w.table, w.undo, w.record⟩

def TableCatalog.write (cat : TableCatalog) (tableId : Nat) (op : WriteOp) :
    Option (Written TableCatalog) :=
  (cat.tables tableId).bind fun t =>
    (t.write tableId op).map fun w => ⟨cat.set tableId w.table, w.undo, w.record⟩

structure Journal where
  catalog : TableCatalog
  undos : List UndoRecord
  records : List DataRecord

def TableCatalog.writes (cat : TableCatalog) : List (Nat × WriteOp) → Option Journal
  | [] => some ⟨cat, [], []⟩
  | (tableId, op) :: ws =>
    (cat.write tableId op).bind fun w =>
      (TableCatalog.writes w.table ws).map fun j =>
        ⟨j.catalog, w.undo :: j.undos, w.record :: j.records⟩

end Write

section Undo

variable [Rendering]

def NodeTable.restoreCells (t : NodeTable) (rowId : Nat) : Nat → List Value → NodeTable
  | _, [] => t
  | col, v :: vs =>
    NodeTable.restoreCells ((t.updateCell rowId col v).toOption.getD t) rowId (col + 1) vs

def NodeTable.undo (t : NodeTable) (r : UndoRecord) : Except StorageError NodeTable :=
  match r.undoType with
  | .update =>
    match (deserializeValuesFromBytes r.oldData 1).head? with
    | some v =>
      (t.updateCell r.rowId r.column v).mapError fun e =>
        .undo s!"Undo failed for table {r.tableId} row {r.rowId}: {e.text}"
    | none => .ok t
  | .insert => .ok ((t.deleteRow r.rowId).toOption.getD t)
  | .delete => .ok (t.restoreCells r.rowId 0 (deserializeValuesFromBytes r.oldData t.columns.length))

/-- The rel-table branch; every failure is ignored. -/
def RelTable.undo (t : RelTable) (r : UndoRecord) : RelTable := match r.undoType with
  | .update =>
    match (deserializeValuesFromBytes r.oldData 1).head? with
    | some v => (t.updateCell r.rowId r.column v).toOption.getD t
    | none => t
  | .insert => (t.deleteEdge r.rowId).toOption.getD t
  | .delete =>
    let values := deserializeValuesFromBytes r.oldData (t.columns.length + 2)
    let src := (values.head?.bind Value.asU64).getD noOffset
    let dst := (values.tail.head?.bind Value.asU64).getD noOffset
    (t.restoreDeletedEdge r.rowId src dst values.tail.tail).toOption.getD t

def Table.undo (t : Table) (r : UndoRecord) : Except StorageError Table := match t with
  | .node t => (t.undo r).map .node
  | .rel t => .ok (.rel (t.undo r))

def TableCatalog.undo (cat : TableCatalog) (r : UndoRecord) : Except StorageError TableCatalog :=
  match cat.tables r.tableId with
  | some t => (t.undo r).map (cat.set r.tableId)
  | none => .ok cat

def TableCatalog.rollbackTransaction (cat : TableCatalog) (records : List UndoRecord) :
    Except StorageError TableCatalog :=
  records.reverse.foldlM TableCatalog.undo cat

/-- The loop of `rollback_transaction` over the records, newest first; it stops at the first that
fails. -/
def TableCatalog.undoAll (cat : TableCatalog) : List UndoRecord → TableCatalog
  | [] => cat
  | r :: rs =>
    match cat.undo r with
    | .ok cat' => cat'.undoAll rs
    | .error _ => cat

end Undo

section Replay

variable [Rendering]

/-- The last-write-wins overwrite: all cells but the primary key, in column order. -/
def NodeTable.overwriteCells (t : NodeTable) (rowId : Nat) (values : List Value) :
    List Nat → Except StorageError NodeTable
  | [] => .ok t
  | col :: cols => do
    let t ← t.updateCell rowId col (values[col]?.getD .null)
    NodeTable.overwriteCells t rowId values cols

/-- The node branch of a replayed insert. A duplicate key is the only index error there is. -/
def NodeTable.replayInsert (t : NodeTable) (data : ByteCodec.Bytes) : Except String NodeTable :=
  let values := deserializeValuesFromBytes data t.columns.length
  match t.insertRow values with
  | .ok (_, t') => .ok t'
  | .error (.index msg) =>
    match (values[t.primaryKeyColumn]?).bind t.lookupByPk with
    | some rowOffset =>
      (t.overwriteCells rowOffset values
        ((List.range t.columns.length).filter (· ≠ t.primaryKeyColumn))).mapError
        fun e => s!"WAL recovery insert failed: {e.text}"
    | none => .error s!"WAL recovery insert failed: {(StorageError.index msg).text}"
  | .error e => .error s!"WAL recovery insert failed: {e.text}"

def NodeTable.replay (t : NodeTable) : DataRecord → Except String NodeTable
  | .insert _ data => t.replayInsert data
  | .delete _ rowId => (t.deleteRow rowId).mapError fun e => s!"WAL recovery delete failed: {e.text}"
  | .update _ rowId column data =>
    match (deserializeValuesFromBytes data 1).head? with
    | some v => (t.updateCell rowId column v).mapError fun e => s!"WAL recovery update failed: {e.text}"
    | none => .ok t

def RelTable.replay (t : RelTable) : DataRecord → Except String RelTable
  | .insert _ data =>
    match deserializeValuesFromBytes data (t.columns.length + 2) with
    | v₁ :: v₂ :: props =>
      match v₁.asU64, v₂.asU64 with
      | some src, some dst =>
        (t.insertRel src dst props).mapError fun e => s!"WAL recovery rel insert failed: {e.text}"
      | _, _ => .error "WAL recovery: rel insert endpoints missing"
    | _ => .error "WAL recovery: rel insert payload too short"
  | .delete _ rowId =>
    (t.deleteEdge rowId).mapError fun e => s!"WAL recovery edge delete failed: {e.text}"
  | .update _ rowId column data =>
    match (deserializeValuesFromBytes data 1).head? with
    | some v =>
      (t.updateCell rowId column v).mapError fun e => s!"WAL recovery edge update failed: {e.text}"
    | none => .ok t

def Table.replay (t : Table) (r : DataRecord) : Except String Table := match t with
  | .node t => (t.replay r).map .node
  | .rel t => (t.replay r).map .rel

/-- `replay_data_record` on a data record; records of an unknown table are skipped. -/
def TableCatalog.replay (cat : TableCatalog) (r : DataRecord) : Except String TableCatalog :=
  match cat.tables r.tableId with
  | some t => (t.replay r).map (cat.set r.tableId)
  | none => .ok cat

/-- A table as its own mirror gives it back: the rows or edges, and what is computed from them. -/
def Table.reload : Table → Table
  | .node t => .node t.reload
  | .rel t => .rel t.reload

end Replay

/-! A database of two tables for the concrete runs: persons with a string key and an age, and who
knows whom. -/

@[reducible] def Rendering.blank : Rendering :=
  { lenient with doubleText := fun _ => "", floatText := fun _ => "", debugText := fun _ => "" }

def person : NodeTable := .new 0 "Person" [⟨"name", .string, true⟩, ⟨"age", .uint64, false⟩]

def knows : RelTable := .new 1 "Knows" 0 0 [⟨"since", .int64, false⟩]

def social : TableCatalog :=
  ⟨fun i => if i = 0 then some (.node person) else if i = 1 then some (.rel knows) else none⟩

def newPerson (name : String) (age : UInt64) : Nat × WriteOp :=
  (0, .insertRow [.string name, .uint64 age])

def newKnows (src dst : UInt64) (since : Int64) : Nat × WriteOp :=
  (1, .insertRel src dst [.int64 since])

def socialWith (ws : List (Nat × WriteOp)) : TableCatalog := letI := Rendering.blank
  ((social.writes ws).map (·.catalog)).getD social

end Akar
