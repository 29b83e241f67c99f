import Akar.Rollback
import Akar.ArrowArray

namespace Akar

structure FieldName where
  qualifier : Option String
  base : String
  deriving DecidableEq

namespace FieldName

def bare (name : String) : FieldName := ⟨none, name⟩

def property (var prop : String) : FieldName := ⟨some var, prop⟩

def isId (n : FieldName) : Bool := n.base = "_id"

end FieldName

structure Chunk where
  names : List FieldName
  rows : List (List Value)

namespace Chunk

def cell (c : Chunk) (col row : Nat) : Value := ((c.rows[row]?).bind (·[col]?)).getD .null

def address (c : Chunk) (col row : Nat) : Option Nat := match c.cell col row with
  | .int64 x => some x.toUInt64.toNat
  | _ => none

def rowIdColumnIndexFor (c : Chunk) (target : Option String) : Option Nat :=
  match target.bind fun var => c.names.findIdx? (· = .property var "_id") with
  | some col => some col
  | none => c.names.findIdx? FieldName.isId

end Chunk

def mapPropertyValue (v : Value) (prop : String) : Value := match v with
  | .map kvs => ((kvs.find? fun kv => kv.1.partialEq (.string prop)).map (·.2)).getD .null
  | .struct fields => ((fields.find? fun f => f.1 = prop).map (·.2)).getD .null
  | _ => .null

inductive Read where
  | property (var prop : String)
  | var (name : String)

structure Expr where
  reads : List Read
  compute : List Value → Value

namespace Chunk

/-- `evaluate_arrow_property_access` and `evaluate_arrow_variable`: the qualified column, a key of
the variable's map, the bare column. The keys of a column count if any row has one. -/
def read (c : Chunk) (i : Nat) : Read → Option Value
  | .var x => (c.names.findIdx? (· = .bare x)).map fun col => c.cell col i
  | .property x p =>
    match c.names.findIdx? (· = .property x p) with
    | some col => some (c.cell col i)
    | none =>
      let keys := ((c.names.findIdx? (· = .bare x)).map fun col =>
        (List.range c.rows.length).map fun j => mapPropertyValue (c.cell col j) p).getD []
      if keys.any (!·.isNull) then some ((keys[i]?).getD .null)
      else
        match c.names.findIdx? (· = .bare p) with
        | some col => some (c.cell col i)
        | none => if (c.names.findIdx? (· = .bare x)).isSome then some .null else none

def eval (c : Chunk) (i : Nat) (e : Expr) : Option Value := (e.reads.mapM (c.read i)).map e.compute

end Chunk

structure SetItem where
  columnName : String
  columnIdx : Nat
  value : Expr

namespace Table

def columns : Table → List ColumnDefinition
  | node t => t.columns
  | rel t => t.columns

end Table

def SetItem.column (item : SetItem) (t : Table) : Nat :=
  (t.columns.findIdx? fun c => c.name = item.columnName).getD item.columnIdx

def physicalTypeFromLogical : LogicalTypeID → PhysicalTypeID
  | .any => .any
  | .bool => .bool
  | .int64 | .serial | .date | .timestamp | .timestampSec | .timestampMs | .timestampNs
  | .timestampTz | .time => .int64
  | .int32 => .int32
  | .int16 => .int16
  | .int8 => .int8
  | .uint64 => .uint64
  | .uint32 => .uint32
  | .uint16 => .uint16
  | .uint8 => .uint8
  | .double => .double
  | .float => .float
  | .int128 | .decimal | .uint128 => .int128
  | .interval => .interval
  | .string | .blob | .uuid | .json => .string
  | .list | .array => .list
  | .internalID | .map | .struct | .union | .node | .rel | .recursiveRel => .struct

section Chunks

variable [Rendering]

def storedColumn (t : Table) (rows : List Nat) (col : Nat) : List Value :=
  rows.map fun row => (t.cell row col).getD .null

/-- What is left of a column in the chunk of the rows: an array of its type is built of the
cells. -/
def oldColumn (t : Table) (rows : List Nat) (col : Nat) : List Value :=
  buildArrowFromValues ((t.columns[col]?).elim .any fun c => physicalTypeFromLogical c.logicalType)
    (storedColumn t rows col)

def buildOldRowChunk (t : Table) (rows : List Nat) : Chunk where
  names := t.columns.map fun c => .bare c.name
  rows := (List.range rows.length).map fun i =>
    (List.range t.columns.length).map fun col => (oldColumn t rows col).getD i .null

/-- The columns of one chunk that `append_pipeline_columns` adds: no addresses, and no name or base
name that is there already. -/
def appendedColumns (names : List FieldName) (c : Chunk) : List (Nat × FieldName) :=
  ((List.range c.names.length).zip c.names).filter fun (_, n) =>
    !n.isId && !names.contains n && !(n.qualifier.isSome && names.contains (.bare n.base))

def appendColumn (ci : Nat) (c : Chunk) (sources : List (Nat × Nat)) (s : Chunk)
    (column : Nat × FieldName) : Chunk :=
  let values := sources.map fun source => if source.1 = ci then c.cell column.1 source.2 else .null
  let first := (values.find? (!·.isNull)).getD .null
  ⟨s.names ++ [column.2],
    List.zipWith (fun row v => row ++ [v]) s.rows (buildArrowFromValues first.physicalType values)⟩

def appendPipelineColumns (snapshot : Chunk) (input : List Chunk) (sources : List (Nat × Nat)) :
    Chunk :=
  ((List.range input.length).zip input).foldl
    (fun s p => (appendedColumns s.names p.2).foldl (appendColumn p.1 p.2 sources) s) snapshot

end Chunks

/-- The effects of an operator on the tables: undo and log records, and the rows written. -/
structure Effects where
  catalog : TableCatalog
  undos : List UndoRecord
  records : List DataRecord
  written : List (Nat × Nat)

def targets (target : Option String) (input : List Chunk) : List (Nat × (Nat × Nat)) :=
  ((List.range input.length).zip input).flatMap fun (ci, c) =>
    (List.range c.rows.length).filterMap fun row =>
      (c.address ((c.rowIdColumnIndexFor target).getD 0) row).map fun r => (r, (ci, row))

/-- One cell write of `PhysicalSet`: the undo record goes out before the write is tried. -/
def setCellAt (tableId : Nat) (s : Effects) (row col : Nat) (v : Value) : Effects :=
  match s.catalog.tables tableId with
  | some (.node t) =>
    let undos := s.undos ++ [.update tableId row col (t.cellUndo row col)]
    match t.updateCell row col v with
    | .ok t' =>
      ⟨s.catalog.set tableId (.node t'), undos, s.records ++
      [.update tableId row col (serializeValues [v])],
        s.written ++ [(tableId, row)]⟩
    | .error _ => { s with undos }
  | some (.rel t) =>
    if t.settable row then
      let undos := s.undos ++ [.update tableId row col (t.edgeCellUndo row col)]
      match t.updateCell row col v with
      | .ok t' =>
        ⟨s.catalog.set tableId (.rel t'), undos, s.records ++
        [.update tableId row col (serializeValues [v])],
          s.written ++ [(tableId, row)]⟩
      | .error _ => { s with undos }
    else s
  | none => s

def setCells (tableId : Nat) (s : Effects) (cells : List (Nat × Nat × Value)) : Effects :=
  cells.foldl (fun s (row, col, v) => setCellAt tableId s row col v) s

variable [Rendering] in
/-- `PhysicalSet::execute`: every item is evaluated on one chunk made of the target rows as they are
stored. -/
def executeSet (tableId : Nat) (target : Option String) (emitCount : Bool) (items : List SetItem)
    (s : Effects) (input : List Chunk) : Except String (Effects × List Chunk) :=
  let rows := targets target input
  if rows = [] then .ok (s, if emitCount then [⟨[], [[.int64 0]]⟩] else [])
  else
    match s.catalog.tables tableId with
    | none => .error "table not found for SET"
    | some t =>
      let snapshot := appendPipelineColumns (buildOldRowChunk t (rows.map (·.1))) input (rows.map (·.2))
      match items.mapM fun item => (List.range rows.length).mapM fun i => snapshot.eval i item.value with
      | none => .error "Variable not found in field_names"
      | some values =>
        let cells := (items.zip values).flatMap fun (item, vs) =>
          ((rows.map (·.1)).zip vs).map fun (row, v) => (row, item.column t, v)
        let s' := setCells tableId s cells
        let updated := s'.written.length - s.written.length
        let post := (s'.catalog.tables tableId).getD t
        let out := appendPipelineColumns (buildOldRowChunk post (rows.map (·.1))) input (rows.map (·.2))
        .ok (s', [⟨.bare "" :: out.names ++ [.bare "_id"], List.zipWith (fun row (r, _) =>
          .int64 (Int64.ofNat updated) :: row ++ [.int64 (Int64.ofNat r)]) out.rows rows⟩])

end Akar
