import Akar.SnapshotReads

namespace Akar

/-- The JSON text of a row and what the parser makes of it. Not every row survives: a NaN is written
as null, and a float may be read back as its neighbour. -/
class SpillText where
  Line : Type
  toLine : List Value → Line
  fromLine : Line → Except String (List Value)

def Survives [SpillText] (row : List Value) : Prop :=
  SpillText.fromLine (SpillText.toLine row) = .ok row

structure SpillGroup [SpillText] extends GroupInfo where
  startOffset : Nat
  rows : List (List Value)
  spillFiles : List (List SpillText.Line)

inductive InsertError where
  | storage (e : StorageError)
  | spiller (msg : String)

namespace SpillGroup

variable [SpillText]

def new (startOffset : Nat) (spiller : Option Nat) : SpillGroup where
  versionInfo := none
  spiller := spiller
  startOffset := startOffset
  rows := []
  spillFiles := []

def isFull (g : SpillGroup) : Bool := nodeGroupSize ≤ g.rows.length

def remaining (g : SpillGroup) : Nat := nodeGroupSize - g.rows.length

/-- Version tracking is switched on by the first call that has a transaction. -/
def enableFor (g : SpillGroup) (txnId : Option Nat) : SpillGroup :=
  if txnId.isSome then { g with toGroupInfo := g.enableVersionInfo } else g

/-- The rows in memory go to a spill file, one line each, and every version record is dropped. -/
def spillAndClear (g : SpillGroup) : SpillGroup := if g.rows.isEmpty then g
  else
    { g with
      spillFiles := g.spillFiles ++ [g.rows.map SpillText.toLine]
      rows := []
      versionInfo := g.versionInfo.map (·.reset) }

def appendRowWithTxn (g : SpillGroup) (numCols : Nat) (row : List Value) (txnId : Option Nat) :
    SpillGroup :=
  let g := if numCols ≠ 0 ∧ g.shouldSpill g.rows.length then g.spillAndClear else g
  { g with
    rows := g.rows ++ [row]
    versionInfo := g.versionInfo.map fun vi =>
      match txnId with
      | some txn => vi.insert txn g.rows.length
      | none => vi }

def parseLines : List SpillText.Line → Except String (List (List Value))
  | [] => .ok []
  | line :: lines =>
    match SpillText.fromLine line with
    | .error e => .error e
    | .ok row => (parseLines lines).map (row :: ·)

/-- `restore_columns` and the rows read off the columns again: a line gives its values to the
columns in order, and a missing cell is null. -/
def restoreColumns (file : List SpillText.Line) (numCols : Nat) : Except String (List (List Value)) :=
  (parseLines file).map fun parsed =>
    let column (c : Nat) : List Value := parsed.filterMap (·[c]?)
    let numRows := if numCols = 0 then 0 else (column 0).length
    (List.range numRows).map fun r => (List.range numCols).map fun c => ((column c)[r]?).getD .null

def restoreFiles (numCols : Nat) : List (List SpillText.Line) → Except String (List (List Value))
  | [] => .ok []
  | file :: files =>
    match restoreColumns file numCols with
    | .error e => .error e
    | .ok rows => (restoreFiles numCols files).map (rows ++ ·)

/-- The spill files are read back in front of the rows in memory, and every version record is
dropped. A line that does not parse leaves the group without the spilled rows. -/
def restoreSpilled (g : SpillGroup) (numCols : Nat) : Except InsertError Unit × SpillGroup :=
  if g.spillFiles.isEmpty then (.ok (), g)
  else
    match restoreFiles numCols g.spillFiles with
    | .error e =>
      (.error (.spiller s!"Failed to deserialize row from spill file: {e}"),
        { g with spillFiles := [] })
    | .ok rows =>
      (.ok (), { g with
          rows := rows ++ g.rows
          spillFiles := []
          versionInfo := g.versionInfo.map (·.reset) })

def stored (g : SpillGroup) : List (Nat × List Value) :=
  g.rows.mapIdx fun i row => (g.startOffset + i, row)

def visible (g : SpillGroup) (snapshotTs : Nat) (commitHistory : Nat → Option Nat) : List Nat :=
  ((List.range g.rows.length).filter fun i => g.isRowVisible i snapshotTs commitHistory).map
    (g.startOffset + ·)

end SpillGroup

inductive InsertCall where
  | row (values : List Value) (txnId : Option Nat)
  | batch (rows : List (List Value)) (txnId : Option Nat)

def InsertCall.txn : InsertCall → Option Nat
  | .row _ txnId => txnId
  | .batch _ txnId => txnId

structure SpillTable [SpillText] extends NodeSchema where
  hashIndex : HashIndex
  artIndex : Option ArtIndex
  numRows : Nat
  groups : List SpillGroup
  spiller : Option Nat
  persistenceDirty : Bool

namespace SpillTable

variable [SpillText]

def new (schema : NodeSchema) (artIndex : Option ArtIndex) (spiller : Option Nat) : SpillTable where
  toNodeSchema := schema
  hashIndex := .empty
  artIndex := artIndex
  numRows := 0
  groups := []
  spiller := spiller
  persistenceDirty := false

def withRoom (t : SpillTable) : List SpillGroup × SpillGroup := match t.groups.getLast? with
  | some g => if g.isFull then (t.groups, .new t.numRows t.spiller) else (t.groups.dropLast, g)
  | none => ([], .new t.numRows t.spiller)

section

variable [Rendering]

def duplicate (t : SpillTable) (key : Option String) : Option String :=
  key.filter fun key => (t.hashIndex.lookup key).isSome

def duplicateError (t : SpillTable) (key : String) : StorageError :=
  .index s!"Duplicate primary key value: '{key}' in table '{t.name}'"

def index (t : SpillTable) (startOffset : Nat) (rows : List (List Value)) : SpillTable := { t with
    hashIndex := NodeTable.indexRows t.toNodeSchema startOffset rows t.hashIndex
    artIndex := t.artIndex.map (NodeTable.artRows t.toNodeSchema startOffset rows)
    persistenceDirty := true }

def insertRowWithTxn (t : SpillTable) (values : List Value) (txnId : Option Nat) :
    Except InsertError Nat × SpillTable :=
  match NodeTable.checkedRow t.toNodeSchema values with
  | .error e => (.error (.storage e), t)
  | .ok row =>
    match t.duplicate (t.keyOf row) with
    | some key => (.error (.storage (t.duplicateError key)), t)
    | none =>
      let current := (t.withRoom.2.enableFor txnId).appendRowWithTxn t.columns.length row txnId
      match current.restoreSpilled t.columns.length with
      | (.error e, current) => (.error e, { t with groups := t.withRoom.1 ++ [current] })
      | (.ok (), current) =>
        (.ok t.numRows,
          index { t with groups := t.withRoom.1 ++ [current], numRows := t.numRows + 1 } t.numRows
          [row])

def checkBatch (t : SpillTable) : Nat → List (List Value) → Except StorageError Unit
  | _, [] => .ok ()
  | i, row :: rows =>
    if row.length ≠ t.columns.length then
      .error (.page
        s!"Row {i} column count mismatch: expected {t.columns.length} values, got {row.length}")
    else if (t.pkOf row).any (·.isNull) then
      .error (.page s!"NULL value not allowed for primary key column '{t.pkName}' in table '{t.name}'")
    else
      match t.duplicate ((t.pkOf row).map pkValueToString) with
      | some key => .error (t.duplicateError key)
      | none => checkBatch t (i + 1) rows

/-- The append loop of a batch. `room` is what the group could take when the loop came to it: a
spill empties the group, but does not let it take more. -/
def appendRows (t : SpillTable) (txnId : Option Nat) :
    List SpillGroup → SpillGroup → Nat → Nat → List (List Value) → List SpillGroup
  | done, current, _, _, [] => done ++ [current]
  | done, current, 0, offset, row :: rows =>
    let next := (SpillGroup.new offset t.spiller).enableFor txnId
    appendRows t txnId (done ++ [current]) (next.appendRowWithTxn t.columns.length row txnId)
      (nodeGroupSize - 1)
      (offset + 1) rows
  | done, current, room + 1, offset, row :: rows =>
    appendRows t txnId done (current.appendRowWithTxn t.columns.length row txnId) room (offset + 1) rows

def restoreGroups (numCols : Nat) : List SpillGroup → Except InsertError Unit × List SpillGroup
  | [] => (.ok (), [])
  | g :: gs =>
    match g.restoreSpilled numCols with
    | (.error e, g) => (.error e, g :: gs)
    | (.ok (), g) =>
      let (result, gs) := restoreGroups numCols gs
      (result, g :: gs)

def insertRowsBatchWithTxn (t : SpillTable) (batch : List (List Value)) (txnId : Option Nat) :
    Except InsertError Nat × SpillTable :=
  if batch.isEmpty then (.ok 0, t)
  else
    match t.checkBatch 0 batch with
    | .error e => (.error (.storage e), t)
    | .ok () =>
      match NodeTable.coerceRows t.columns batch with
      | .error e => (.error (.storage e), t)
      | .ok rows =>
        let current := t.withRoom.2.enableFor txnId
        let groups := t.appendRows txnId t.withRoom.1 current current.remaining t.numRows rows
        match restoreGroups t.columns.length groups with
        | (.error e, groups) =>
          (.error e, { t with groups := groups, numRows := t.numRows + rows.length })
        | (.ok (), groups) =>
          (.ok rows.length, index { t with groups := groups, numRows := t.numRows + rows.length }
            t.numRows rows)

def call (t : SpillTable) : InsertCall → Except InsertError Nat × SpillTable
  | .row values txnId => t.insertRowWithTxn values txnId
  | .batch rows txnId => t.insertRowsBatchWithTxn rows txnId

def step (t : SpillTable) (c : InsertCall) : Option SpillTable := some (t.call c).2

end

def stored (t : SpillTable) : List (Nat × List Value) := t.groups.flatMap SpillGroup.stored

def visible (t : SpillTable) (snapshotTs : Nat) (commitHistory : Nat → Option Nat) : List Nat :=
  t.groups.flatMap (·.visible snapshotTs commitHistory)

end SpillTable

end Akar
