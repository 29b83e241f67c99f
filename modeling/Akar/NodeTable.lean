import Akar.PrimaryKeyIndex
import Akar.ValueCodec
import Akar.Slots
import Mathlib.Data.Finset.Lattice.Basic
import Mathlib.Data.Finset.Range

namespace Akar

open List

structure ColumnDefinition where
  name : String
  logicalType : LogicalTypeID
  isPrimaryKey : Bool

inductive StorageError where
  | page (msg : String)
  | index (msg : String)
  | undo (msg : String)
  deriving DecidableEq, Repr

def StorageError.text : StorageError → String
  | .page msg => s!"page: {msg}"
  | .index msg => s!"index: {msg}"
  | .undo msg => s!"undo: {msg}"

/-- `NodeTable::primary_key_column` of a table without a primary key. -/
def noPrimaryKey : Nat := 2 ^ 64 - 1

structure NodeSchema where
  tableId : Nat
  name : String
  columns : List ColumnDefinition
  primaryKeyColumn : Nat

namespace NodeSchema

def hasPk (t : NodeSchema) : Bool := t.primaryKeyColumn < t.columns.length

def pkName (t : NodeSchema) : String := (t.columns[t.primaryKeyColumn]?.map (·.name)).getD ""

def pkOf (t : NodeSchema) (row : List Value) : Option Value :=
  if t.hasPk then row[t.primaryKeyColumn]? else none

/-- The key under which the indexes file a row: none for a row whose primary key is null. -/
def keyOf [Rendering] (t : NodeSchema) (row : List Value) : Option String :=
  ((t.pkOf row).filter (!·.isNull)).map pkValueToString

def artKeyOf (t : NodeSchema) (row : List Value) : Option (List UInt8) :=
  (t.pkOf row).bind artKeyFromValue

/-- A soft-deleted row has lost its primary key; without one, a row of nulls counts as deleted. -/
def live (t : NodeSchema) (row : List Value) : Bool :=
  if t.hasPk then (t.pkOf row).any (!·.isNull) else row.any (!·.isNull)

end NodeSchema

/-- A node table with the node groups flattened to one list of rows. Every row has a cell for every
column, and the ART index files existing offsets only. -/
structure NodeTable extends NodeSchema where
  rows : List (List Value)
  hashIndex : HashIndex
  artIndex : Option ArtIndex
  dirtyColumns : Finset Nat
  persistenceDirty : Bool
  width : ∀ row ∈ rows, row.length = columns.length
  filed : ∀ art ∈ artIndex, art.Below rows.length

namespace NodeTable

def new (tableId : Nat) (name : String) (columns : List ColumnDefinition) : NodeTable where
  tableId := tableId
  name := name
  columns := columns
  primaryKeyColumn := (columns.findIdx? (·.isPrimaryKey)).getD noPrimaryKey
  rows := []
  hashIndex := .empty
  artIndex := none
  dirtyColumns := ∅
  persistenceDirty := false
  width := nofun
  filed := nofun

def numRows (t : NodeTable) : Nat := t.rows.length

def liveRows (t : NodeTable) : List (List Value) := t.rows.filter t.live

def liveAt (t : NodeTable) (rowIdx : Nat) : Option (List Value) := (t.rows[rowIdx]?).filter t.live

def getValue (t : NodeTable) (row col : Nat) : Option Value :=
  if t.columns.length ≤ col ∨ t.numRows ≤ row then none else (t.rows[row]?).bind (·[col]?)

/-- The literal coercion of one cell to its column (`None` in the source leaves the value as it
is). -/
def coerceValue (col : ColumnDefinition) (v : Value) : Except StorageError Value :=
  match col.logicalType, v with
  | .uint64, .int64 x =>
    if 0 ≤ x then .ok (.uint64 x.toUInt64) else .error (negativeIn col)
  | .uint64, .int32 x =>
    if 0 ≤ x then .ok (.uint64 x.toInt64.toUInt64) else .error (negativeIn col)
  | .uint64, .int16 x =>
    if 0 ≤ x then .ok (.uint64 x.toInt64.toUInt64) else .error (negativeIn col)
  | .uint64, .int8 x =>
    if 0 ≤ x then .ok (.uint64 x.toInt64.toUInt64) else .error (negativeIn col)
  | .uint64, .uint32 x => .ok (.uint64 x.toUInt64)
  | .uint64, .uint16 x => .ok (.uint64 x.toUInt64)
  | .uint64, .uint8 x => .ok (.uint64 x.toUInt64)
  | _, v => .ok v
where
  negativeIn (col : ColumnDefinition) : StorageError :=
    .page s!"Cannot store negative value in UINT64 column '{col.name}'"

variable {x : Int64}

theorem toUInt64_toNat (h : 0 ≤ x) : (x.toUInt64.toNat : Int) = x.toInt := by
  have h0 : (0 : Int) ≤ x.toInt := Int64.le_iff_toInt_le.mp h
  have hx : x.toInt = if 2 * x.toBitVec.toNat <
      2 ^ 64 then (x.toBitVec.toNat : Int) else x.toBitVec.toNat - 2 ^ 64 :=
    BitVec.toInt_eq_toNat_cond x.toBitVec
  have hnat : x.toUInt64.toNat = x.toBitVec.toNat := rfl
  split at hx <;> omega

theorem toString_toUInt64 (h : 0 ≤ x) : toString x.toUInt64 = toString x := by
  show toString (x.toUInt64.toNat : Int) = toString x.toInt
  rw [toUInt64_toNat h]

variable {v : Value}

theorem coerceValue_text [Rendering] {col : ColumnDefinition} {w : Value}
    (h : coerceValue col v = .ok w) :
    pkValueToString w = pkValueToString v ∧ w.isNull = v.isNull := by
  have nonneg32 {x : Int32} (hx : 0 ≤ x) : 0 ≤ x.toInt64 := by
    rw [Int64.le_iff_toInt_le, Int32.toInt_toInt64]
    exact Int32.le_iff_toInt_le.mp hx
  have nonneg16 {x : Int16} (hx : 0 ≤ x) : 0 ≤ x.toInt64 := by
    rw [Int64.le_iff_toInt_le, Int16.toInt_toInt64]
    exact Int16.le_iff_toInt_le.mp hx
  have nonneg8 {x : Int8} (hx : 0 ≤ x) : 0 ≤ x.toInt64 := by
    rw [Int64.le_iff_toInt_le, Int8.toInt_toInt64]
    exact Int8.le_iff_toInt_le.mp hx
  unfold coerceValue at h
  split at h
  · obtain ⟨hx, h⟩ := guard_ok h
    cases h
    exact ⟨toString_toUInt64 hx, rfl⟩
  · obtain ⟨hx, h⟩ := guard_ok h
    cases h
    exact ⟨(toString_toUInt64 (nonneg32 hx)).trans (congrArg toString (Int32.toInt_toInt64 _)), rfl⟩
  · obtain ⟨hx, h⟩ := guard_ok h
    cases h
    exact ⟨(toString_toUInt64 (nonneg16 hx)).trans (congrArg toString (Int16.toInt_toInt64 _)), rfl⟩
  · obtain ⟨hx, h⟩ := guard_ok h
    cases h
    exact ⟨(toString_toUInt64 (nonneg8 hx)).trans (congrArg toString (Int8.toInt_toInt64 _)), rfl⟩
  next x _ => cases h; exact ⟨congrArg toString (UInt32.toNat_toUInt64 x), rfl⟩
  next x _ => cases h; exact ⟨congrArg toString (UInt16.toNat_toUInt64 x), rfl⟩
  next x _ => cases h; exact ⟨congrArg toString (UInt8.toNat_toUInt64 x), rfl⟩
  · cases h
    exact ⟨rfl, rfl⟩

def coerceValuesToColumns : List ColumnDefinition → List Value → Except StorageError (List Value)
  | col :: cols, v :: vs => do
    let v ← coerceValue col v
    let vs ← coerceValuesToColumns cols vs
    return v :: vs
  | _, vs => .ok vs

variable {cols : List ColumnDefinition} {vs : List Value}

theorem coerceValuesToColumns_length {vs' : List Value}
    (h : coerceValuesToColumns cols vs = .ok vs') : vs'.length = vs.length := by
  induction cols generalizing vs vs' with
  | nil => cases vs <;> cases h <;> rfl
  | cons col cols ih =>
    cases vs with
    | nil => cases h; rfl
    | cons v vs =>
      simp only [coerceValuesToColumns] at h
      obtain ⟨w, hv, h⟩ := bind_eq_ok.mp h
      obtain ⟨ws, hs, rfl⟩ := map_eq_ok.mp h
      simp [ih hs]

theorem coerceValuesToColumns_at {ws : List Value} {col : Nat}
    {c : ColumnDefinition} (h : coerceValuesToColumns cols vs = .ok ws) (hc : cols[col]? = some c)
    (hv : vs[col]? = some v) :
    ∃ w, ws[col]? = some w ∧ coerceValue c v = .ok w := by
  induction cols generalizing vs ws col with
  | nil => cases hc
  | cons c₀ cols ih =>
    cases vs with
    | nil => cases hv
    | cons v₀ vs =>
      simp only [coerceValuesToColumns] at h
      obtain ⟨w, hw, h⟩ := bind_eq_ok.mp h
      obtain ⟨ws', hs, rfl⟩ := map_eq_ok.mp h
      cases col with
      | zero => cases hv; cases hc; exact ⟨w, rfl, hw⟩
      | succ => simpa using ih hs (by simpa using hc) (by simpa using hv)

def allColumns (t : NodeTable) : Finset Nat := Finset.range t.columns.length

@[simps! toNodeSchema rows hashIndex artIndex]
def appendRow [Rendering] (t : NodeTable) (row : List Value)
    (hrow : row.length = t.columns.length) : NodeTable :=
  { t with
    rows := t.rows ++ [row]
    persistenceDirty := true
    hashIndex := t.hashIndex.file (t.keyOf row) t.numRows
    artIndex := t.artIndex.map (·.file (t.artKeyOf row) t.numRows)
    width := forall_mem_append.mpr ⟨t.width, forall_mem_singleton.mpr hrow⟩
    filed := by
      intro art ha
      obtain ⟨art₀, h₀, rfl⟩ := Option.map_eq_some_iff.mp ha
      rw [List.length_append, List.length_singleton]
      exact (t.filed art₀ h₀).file }

/-- The checks `insert_row_with_txn` makes before it looks at the index, and the row it stores. -/
def checkedRow (t : NodeSchema) (values : List Value) : Except StorageError (List Value) :=
  if values.length ≠ t.columns.length then
    .error (.page s!"Column count mismatch: expected {t.columns.length} values, got {values.length}")
  else if (t.pkOf values).any (·.isNull) then
    .error (.page s!"NULL value not allowed for primary key column '{t.pkName}' in table '{t.name}'")
  else coerceValuesToColumns t.columns values

variable {t : NodeSchema} {values row : List Value}

section

variable (h : checkedRow t values = .ok row)
include h

theorem checkedRow_eq_ok : values.length = t.columns.length ∧
    ¬(t.pkOf values).any (·.isNull) ∧ coerceValuesToColumns t.columns values = .ok row := by
  obtain ⟨hlen, h⟩ := reject_ok h
  exact ⟨not_not.mp hlen, reject_ok h⟩

theorem values_length : values.length = t.columns.length := (checkedRow_eq_ok h).1

theorem checkedRow_length : row.length = t.columns.length := by
  obtain ⟨hlen, -, h⟩ := checkedRow_eq_ok h
  rw [coerceValuesToColumns_length h, hlen]

end

theorem checkedRow_key [Rendering] (h : checkedRow t values = .ok row) (hpk : t.hasPk = true) :
    ∃ v, values[t.primaryKeyColumn]? = some v ∧ t.keyOf row = some (pkValueToString v) := by
  have hlt : t.primaryKeyColumn < t.columns.length := by simpa [NodeSchema.hasPk] using hpk
  have hlt' : t.primaryKeyColumn < values.length := by rw [values_length h]; exact hlt
  obtain ⟨v, hv⟩ : ∃ v, values[t.primaryKeyColumn]? = some v := ⟨_, getElem?_eq_getElem hlt'⟩
  obtain ⟨-, hnull, h⟩ := checkedRow_eq_ok h
  obtain ⟨w, hw, hcoerce⟩ := coerceValuesToColumns_at h (getElem?_eq_getElem hlt) hv
  obtain ⟨htext, hn⟩ := coerceValue_text hcoerce
  have hnull' : w.isNull = false := by simpa [NodeSchema.pkOf, hpk, hv, hn] using hnull
  exact ⟨v, hv, by simp [NodeSchema.keyOf, NodeSchema.pkOf, hpk, hw, hnull', htext]⟩

/-- `insert_row_with_txn` without the version record; returns the new row's offset. -/
def insertRow [Rendering] (t : NodeTable) (values : List Value) :
    Except StorageError (Nat × NodeTable) :=
  match hc : checkedRow t.toNodeSchema values with
  | .error e => .error e
  | .ok row =>
    match (t.keyOf row).filter fun key => (t.hashIndex.lookup key).isSome with
    | some key => .error (.index s!"Duplicate primary key value: '{key}' in table '{t.name}'")
    | none => .ok (t.numRows, t.appendRow row (checkedRow_length hc))

theorem insertRow_eq_ok [Rendering] {t t' : NodeTable} {n : Nat}
    (h : t.insertRow values = .ok (n, t')) :
    ∃ row, ∃ hrow : checkedRow t.toNodeSchema values = .ok row,
      (∀ key, t.keyOf row = some key → t.hashIndex.lookup key = none) ∧ n = t.numRows ∧
      t' = t.appendRow row (checkedRow_length hrow) := by
  unfold insertRow at h
  split at h
  next => cases h
  next row hrow =>
    split at h
    next => cases h
    next hnone =>
      cases h
      refine ⟨row, hrow, fun key hkey => ?_, rfl, rfl⟩
      simpa using Option.filter_eq_none_iff.mp hnone key hkey

variable {i : Nat}

theorem forall_mem_modify {α : Type} {P : α → Prop} {l : List α} {f : α → α} (h : ∀ x ∈ l, P x)
    (hf : ∀ x, P x → P (f x)) : ∀ x ∈ l.modify i f, P x := by
  intro x hx
  obtain ⟨j, hj, rfl⟩ := mem_iff_getElem.mp hx
  rw [getElem_modify]
  split
  · exact hf _ (h _ (getElem_mem _))
  · exact h _ (getElem_mem _)

@[simps! toNodeSchema rows hashIndex artIndex]
def modifyRow (t : NodeTable) (rowIdx : Nat) (f : List Value → List Value)
    (hf : ∀ row, (f row).length = row.length) : NodeTable :=
  { t with
    rows := t.rows.modify rowIdx f
    persistenceDirty := true
    width := forall_mem_modify t.width fun row h => (hf row).trans h
    filed := by rw [List.length_modify]; exact t.filed }

@[simps! toNodeSchema rows hashIndex artIndex]
def setCell (t : NodeTable) (rowIdx colIdx : Nat) (value : Value) : NodeTable :=
  { t.modifyRow rowIdx (·.set colIdx value) (fun _ => List.length_set) with
    dirtyColumns := insert colIdx t.dirtyColumns }

def updateCell (t : NodeTable) (rowIdx colIdx : Nat) (value : Value) : Except StorageError NodeTable :=
  if t.columns.length ≤ colIdx then .error (.page s!"Column index {colIdx} out of range")
  else if t.numRows ≤ rowIdx then
    .error (.page s!"Row index {rowIdx} out of range (num_rows={t.numRows})")
  else .ok (t.setCell rowIdx colIdx value)

theorem updateCell_eq_ok {t t' : NodeTable} {r c : Nat} {v : Value} (h : t.updateCell r c v = .ok t') :
    c < t.columns.length ∧ r < t.numRows ∧ t' = t.setCell r c v := by
  obtain ⟨hc, h⟩ := reject_ok h
  obtain ⟨hr, h⟩ := reject_ok h
  cases h
  exact ⟨Nat.not_le.mp hc, Nat.not_le.mp hr, rfl⟩

def nullRow (row : List Value) : List Value := row.map fun _ => .null

theorem nullRow_length (row : List Value) : (nullRow row).length = row.length := length_map ..

/-- A soft delete of the row `row` at `rowIdx`: the slot stays, its cells are null, and its key
leaves the indexes. -/
@[simps! toNodeSchema rows hashIndex artIndex]
def buryRow [Rendering] (t : NodeTable) (rowIdx : Nat) (row : List Value) : NodeTable :=
  { t.modifyRow rowIdx nullRow nullRow_length with
    dirtyColumns := t.dirtyColumns ∪ t.allColumns
    hashIndex := t.hashIndex.unfile (t.keyOf row)
    artIndex := t.artIndex.map (·.unfile (t.artKeyOf row) rowIdx)
    filed := by
      intro art ha
      obtain ⟨art₀, h₀, rfl⟩ := Option.map_eq_some_iff.mp ha
      show ArtIndex.Below _ (t.rows.modify rowIdx nullRow).length
      rw [List.length_modify]
      exact (t.filed art₀ h₀).unfile }

def deleteRow [Rendering] (t : NodeTable) (rowIdx : Nat) : Except StorageError NodeTable :=
  match t.rows[rowIdx]? with
  | none => .error (.page s!"Row index {rowIdx} out of range (num_rows={t.numRows})")
  | some row => .ok (t.buryRow rowIdx row)

theorem deleteRow_eq_ok [Rendering] {t t' : NodeTable} {r : Nat} (h : t.deleteRow r = .ok t') :
    ∃ row, t.rows[r]? = some row ∧ t' = t.buryRow r row := by
  unfold deleteRow at h
  split at h
  next => cases h
  next row hrow =>
    cases h
    exact ⟨row, hrow, rfl⟩

def rowUndo (t : NodeTable) (rowIdx : Nat) : ByteCodec.Bytes :=
  serializeValues ((range t.columns.length).map fun col => (t.getValue rowIdx col).getD .null)

def cellUndo (t : NodeTable) (rowIdx colIdx : Nat) : ByteCodec.Bytes :=
  serializeValues [(t.getValue rowIdx colIdx).getD .null]

def lookupByPk [Rendering] (t : NodeTable) (pk : Value) : Option Nat :=
  t.hashIndex.lookup (pkValueToString pk)

def indexRows [Rendering] (t : NodeSchema) : Nat → List (List Value) → HashIndex → HashIndex
  | _, [], ix => ix
  | i, row :: rows, ix =>
    indexRows t (i + 1) rows (ix.file (t.keyOf row) i)

def artRows (t : NodeSchema) : Nat → List (List Value) → ArtIndex → ArtIndex
  | _, [], ix => ix
  | i, row :: rows, ix =>
    artRows t (i + 1) rows (ix.file (t.artKeyOf row) i)

variable {rows : List (List Value)}

theorem artRows_below {ix : ArtIndex} (h : ix.Below i) :
    (artRows t i rows ix).Below (i + rows.length) := by
  induction rows generalizing i ix with
  | nil => simpa [artRows] using h
  | cons row rows ih =>
    rw [artRows, length_cons, Nat.add_comm rows.length 1, ← Nat.add_assoc]
    exact ih h.file

def appendRows [Rendering] (t : NodeTable) (rows : List (List Value))
    (h : ∀ row ∈ rows, row.length = t.columns.length) : NodeTable :=
  { t with
    rows := t.rows ++ rows
    persistenceDirty := true
    hashIndex := indexRows t.toNodeSchema t.numRows rows t.hashIndex
    artIndex := t.artIndex.map (artRows t.toNodeSchema t.numRows rows)
    width := forall_mem_append.mpr ⟨t.width, h⟩
    filed := by
      intro art ha
      obtain ⟨art₀, h₀, rfl⟩ := Option.map_eq_some_iff.mp ha
      rw [List.length_append]
      exact artRows_below (t.filed art₀ h₀) }

/-- The validation loop of `insert_rows_batch_with_txn`. A key is looked up in the index only, never
compared with the other keys of the batch. -/
def checkBatch [Rendering] (t : NodeTable) : Nat → List (List Value) → Except StorageError Unit
  | _, [] => .ok ()
  | i, row :: rows =>
    if row.length ≠ t.columns.length then
      .error (.page
        s!"Row {i} column count mismatch: expected {t.columns.length} values, got {row.length}")
    else if (t.pkOf row).any (·.isNull) then
      .error (.page s!"NULL value not allowed for primary key column '{t.pkName}' in table '{t.name}'")
    else
      match ((t.pkOf row).map pkValueToString).filter fun key => (t.hashIndex.lookup key).isSome with
      | some key => .error (.index s!"Duplicate primary key value: '{key}' in table '{t.name}'")
      | none => checkBatch t (i + 1) rows

def coerceRows (cols : List ColumnDefinition) : List (List Value) →
    Except StorageError (List (List Value))
  | [] => .ok []
  | row :: rows => do
    let row ← coerceValuesToColumns cols row
    let rows ← coerceRows cols rows
    return row :: rows

theorem coerceRows_checked [Rendering] {t : NodeTable} {batch : List (List Value)}
    (hcheck : t.checkBatch i batch = .ok ()) (h : coerceRows t.columns batch = .ok rows) :
    ∀ row ∈ rows, (∃ values, checkedRow t.toNodeSchema values = .ok row) ∧
      ∀ key, t.keyOf row = some key → t.hashIndex.lookup key = none := by
  induction batch generalizing i rows with
  | nil => cases h; nofun
  | cons values batch ih =>
    obtain ⟨hlen, hcheck⟩ := reject_ok hcheck
    obtain ⟨hnull, hcheck⟩ := reject_ok hcheck
    split at hcheck
    · cases hcheck
    next hfresh =>
    simp only [coerceRows] at h
    obtain ⟨row, hrow, h⟩ := bind_eq_ok.mp h
    obtain ⟨rest, hrest, rfl⟩ := map_eq_ok.mp h
    have hchecked : checkedRow t.toNodeSchema values = .ok row := by
      unfold checkedRow
      rw [if_neg hlen, if_neg hnull, hrow]
    intro r hr
    rcases mem_cons.mp hr with rfl | hr
    · refine ⟨⟨values, hchecked⟩, fun key hkey => ?_⟩
      cases hpk : t.hasPk with
      | false => simp [NodeSchema.keyOf, NodeSchema.pkOf, hpk] at hkey
      | true =>
        obtain ⟨v, hv, htext⟩ := checkedRow_key hchecked hpk
        cases hkey.symm.trans htext
        have hnone :=
          Option.filter_eq_none_iff.mp hfresh (pkValueToString v)
          (by simp [NodeSchema.pkOf, hpk, hv])
        simpa using hnone
    · exact ih hcheck hrest r hr

def insertRowsBatch [Rendering] (t : NodeTable) (batch : List (List Value)) :
    Except StorageError (Nat × NodeTable) :=
  if batch = [] then .ok (0, t)
  else
    match hcheck : t.checkBatch 0 batch with
    | .error e => .error e
    | .ok () =>
      match hrows : coerceRows t.columns batch with
      | .error e => .error e
      | .ok rows =>
        .ok (batch.length, t.appendRows rows fun row hrow =>
          checkedRow_length (coerceRows_checked hcheck hrows row hrow).1.choose_spec)

@[simps! toNodeSchema rows hashIndex artIndex]
def loaded [Rendering] (t : NodeTable) (rows : List (List Value))
    (h : ∀ row ∈ rows, row.length = t.columns.length) :
    NodeTable :=
  { t with
    rows := rows
    hashIndex := indexRows t.toNodeSchema 0 rows .empty
    artIndex := t.artIndex.map fun _ => artRows t.toNodeSchema 0 rows .empty
    width := h
    filed := by
      intro art ha
      obtain ⟨_, _, rfl⟩ := Option.map_eq_some_iff.mp ha
      simpa using artRows_below (ArtIndex.below_empty 0) }

def loadPersistedRows [Rendering] (t : NodeTable) (rows : List (List Value)) :
    Except StorageError NodeTable :=
  if h : ∀ row ∈ rows, row.length = t.columns.length then .ok (t.loaded rows h)
  else
    .error (.page
      s!"load_persisted_rows: expected {t.columns.length} values, got {badWidth t.columns.length rows}")
where
  badWidth (n : Nat) (rows : List (List Value)) : Nat :=
    ((rows.find? (·.length ≠ n)).map (·.length)).getD 0

def createArtIndex (t : NodeTable) : Except StorageError NodeTable :=
  if t.artIndex.isSome then .error (.index s!"Table '{t.name}' already has an ART index")
  else
    .ok { t with
      artIndex := some (artRows t.toNodeSchema 0 t.rows .empty)
      filed := by
        intro art ha
        cases ha
        simpa using artRows_below (ArtIndex.below_empty 0) }

def dropArtIndex (t : NodeTable) : NodeTable := { t with
    artIndex := none
    filed := nofun }

@[simps! toNodeSchema rows hashIndex artIndex]
def blank (t : NodeTable) : NodeTable := { t with
    rows := []
    hashIndex := .empty
    artIndex := t.artIndex.map fun _ => .empty
    dirtyColumns := ∅
    persistenceDirty := false
    width := nofun
    filed := by
      intro art ha
      obtain ⟨_, _, rfl⟩ := Option.map_eq_some_iff.mp ha
      exact ArtIndex.below_empty 0 }

theorem mirrored_width [Rendering] (t : NodeTable) :
    ∀ row ∈ t.rows.map (List.map mirrored), row.length = t.columns.length := by
  intro row hrow
  obtain ⟨row', hrow', rfl⟩ := mem_map.mp hrow
  rw [length_map, t.width row' hrow']

/-- The table that `load_node_table` builds from a mirror of `t`, each cell through its bytes. -/
@[simps! toNodeSchema rows hashIndex artIndex]
def reload [Rendering] (t : NodeTable) : NodeTable :=
  t.blank.loaded (t.rows.map (List.map mirrored)) t.mirrored_width

end NodeTable

end Akar
