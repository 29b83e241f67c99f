import Akar.AggregateMerge
import Akar.ArrowArray
import Akar.ArtRange
import Akar.Compression

namespace Akar.ArtRangeScan

open List ArtTable Aggregate ArrowArray

/-- Comparisons of a property with a constant, which is on the left if `reversed`, and their
conjunctions. -/
inductive Expression where
  | compare (op : ComparisonOp) (var prop : String) (const : Value) (reversed : Bool)
  | and (left right : Expression)

structure RangeBounds where
  property : String
  lower : Option Value
  lowerInclusive : Bool
  upper : Option Value
  upperInclusive : Bool

def mergeSameProperty (l r : RangeBounds) : Option RangeBounds :=
  if l.lower.isSome && r.lower.isSome || l.upper.isSome && r.upper.isSome then none
  else some
    { property := l.property
      lower := l.lower.or r.lower
      lowerInclusive := if l.lower.isSome then l.lowerInclusive else r.lowerInclusive
      upper := l.upper.or r.upper
      upperInclusive := if l.upper.isSome then l.upperInclusive else r.upperInclusive }

def flipped : ComparisonOp → ComparisonOp
  | .lt => .gt
  | .lte => .gte
  | .gt => .lt
  | .gte => .lte
  | op => op

def extractSingleBound (property : String) (val : Value) : ComparisonOp → Option RangeBounds
  | .gte => some ⟨property, some val, true, none, true⟩
  | .gt => some ⟨property, some val, false, none, true⟩
  | .lte => some ⟨property, none, true, some val, true⟩
  | .lt => some ⟨property, none, true, some val, false⟩
  | .eq => some ⟨property, some val, true, some val, true⟩
  | .notEq => none

def extractRangeBounds : Expression → Option RangeBounds
  | .compare op var prop c reversed =>
    if c.isNull then none else extractSingleBound (var ++ "." ++ prop) c
      (if reversed then flipped op else op)
  | .and left right =>
    (extractRangeBounds left).bind fun l => (extractRangeBounds right).bind fun r =>
      if l.property = r.property then mergeSameProperty l r else none

/-- A scan with the rows that its full-text search answers and those that a predicate folded into it
lets through. -/
structure LogicalScanNode where
  tableName : String
  aliasName : Option String
  ftsQuery : Option (List Nat)
  predicate : Option (Nat → Bool)

def LogicalScanNode.var (sn : LogicalScanNode) : String := sn.aliasName.getD sn.tableName

/-- The range scan that replaces the scan and the filter after it. The search of the scan is not
carried over. -/
def detect (sn : LogicalScanNode) (e : Expression) : Option RangeBounds :=
  if sn.predicate.isNone then extractRangeBounds e else none

def columnNames (t : NodeSchema) : List String := t.columns.map (·.name) ++ ["_id"]

def int64Column : Value → Value
  | .int16 x => .int64 x.toInt64
  | .int8 x => .int64 x.toInt64
  | .uint64 x => .int64 x.toInt64
  | .uint32 x => .int64 (.ofNat x.toNat)
  | .uint16 x => .int64 (.ofNat x.toNat)
  | .uint8 x => .int64 (.ofNat x.toNat)
  | v => valueInt64 v

def uint64Column : Value → Value
  | .uint64 x => .uint64 x
  | .uint32 x => .uint64 x.toUInt64
  | .uint16 x => .uint64 x.toUInt64
  | .uint8 x => .uint64 x.toUInt64
  | .int64 x => if 0 ≤ x then .uint64 x.toUInt64 else .null
  | _ => .null

def int32Column : Value → Value
  | .int32 x => .int32 x
  | .int16 x => .int32 x.toInt32
  | .int8 x => .int32 x.toInt32
  | _ => .null

section Scan

variable [Rendering]

/-- `to_arrow_array` of a column, as it is read with the type that the scan gives it: most types
without an array of their own read as null. The values of a nested column are those of one node
group. -/
def scanColumn (type : LogicalTypeID) (values : List Value) : List Value := match type with
  | .bool => values.map boolCell
  | .int64 | .serial | .date | .timestamp | .timestampSec | .timestampMs | .timestampNs
  | .timestampTz | .time => values.map int64Column
  | .uint64 => values.map uint64Column
  | .int32 => values.map int32Column
  | .double => values.map float64Cell
  | .float => values.map float32Cell
  | .string | .json => values.map (ownKind .string)
  | .list | .array | .map | .struct | .union => (arrowArrayFromValues values).cells
  | .internalID | .node | .rel | .recursiveRel => match arrowArrayFromValues values with
    | ⟨.int64, cells⟩ => cells
    | _ => values.map fun _ => .null
  | _ => values.map fun _ => .null

def scanned (t : NodeTable) (i j : Nat) : Value :=
  ((t.columns[j]?).bind fun c => (scanColumn c.logicalType (t.rows.map (·.getD j .null)))[i]?).getD .null

def scannedRow (t : NodeTable) (i : Nat) : List Value :=
  (range t.columns.length).map (scanned t i) ++ [.int64 (.ofNat i)]

def readProperty (t : NodeTable) (i : Nat) (prop : String) : Value :=
  (((columnNames t.toNodeSchema).findIdx? (· = prop)).bind ((scannedRow t i)[·]?)).getD .null

def Expression.holds (t : NodeTable) (i : Nat) : Expression → Bool
  | compare op _ prop c reversed =>
    let v := readProperty t i prop
    !v.isNull && !c.isNull && if reversed then compares op c v else compares op v c
  | and left right => left.holds t i && right.holds t i

/-- The properties are columns of the scan; any other is an error. -/
def Expression.resolves (t : NodeSchema) (var : String) : Expression → Bool
  | compare _ x prop _ _ => x = var && prop ∈ columnNames t
  | and left right => left.resolves t var && right.resolves t var

def rowsToEmit (t : NodeTable) (sn : LogicalScanNode) : List Nat :=
  ((sn.ftsQuery.getD (range t.numRows)).filter (· < t.numRows)).filter fun i =>
    (!t.hasPk || (t.liveAt i).isSome) && sn.predicate.all (· i)

/-- The scan of an empty table has no columns, and there the filter looks for none. -/
def scanThenFilter (t : NodeTable) (sn : LogicalScanNode) (e : Expression) :
    Option (List (List Value)) :=
  if t.numRows = 0 ∨ e.resolves t.toNodeSchema sn.var then
    some (((rowsToEmit t sn).filter (e.holds t)).map (scannedRow t))
  else none

end Scan

/-- The type of the vector that the range scan fills for a column. -/
def vectorType : LogicalTypeID → PhysicalTypeID
  | .bool => .bool
  | .int64 | .serial | .timestamp => .int64
  | .int32 | .date => .int32
  | .int16 => .int16
  | .int8 => .int8
  | .uint64 => .uint64
  | .uint32 => .uint32
  | .uint16 => .uint16
  | .uint8 => .uint8
  | .double => .double
  | .float => .float
  | .string => .string
  | .interval => .interval
  | .list => .list
  | .struct | .node | .rel | .internalID => .struct
  | _ => .any

/-- The zero bytes of a cell as they are read back; a type without an array of its own gives
null. -/
def zero : PhysicalTypeID → Value
  | .bool => .bool false
  | .int64 => .int64 0
  | .uint64 => .uint64 0
  | .int32 => .int32 0
  | .double => .double 0
  | .float => .float 0
  | .string => .string ""
  | .list => .list []
  | _ => .null

/-- One cell of the result. An integer, double or string goes to the place it has in a vector of its
own type: in another vector the string is an error, and the number panics or overwrites other cells.
The other variants are not written. -/
def writeCell (type : PhysicalTypeID) (v : Value) : Option Value := match type, v with
  | _, .null => some .null
  | .int64, .int64 _ | .int32, .int32 _ | .double, .double _ => some v
  | .string, .string s => if s.utf8ByteSize ≤ 255 then some v else none
  | _, .int64 _ | _, .int32 _ | _, .double _ | _, .string _ => none
  | type, _ => some (zero type)

def written (t : NodeTable) (i j : Nat) : Option Value :=
  (t.columns[j]?).bind fun c => writeCell (vectorType c.logicalType) ((t.getValue i j).getD .null)

def writeRow (t : NodeTable) (i : Nat) : Option (List Value) :=
  ((range t.columns.length).mapM (written t i)).map (· ++ [.int64 (.ofNat i)])

def rowIds (t : ArtTable) (b : RangeBounds) : List Nat :=
  t.lookupByPkRange b.lower b.lowerInclusive b.upper b.upperInclusive 0xFFFFFFFFFFFFFFFF

def rangeScan (t : ArtTable) (b : RangeBounds) : Option (List (List Value)) :=
  if t.art.isSome then (rowIds t b).mapM (writeRow t.table) else none

/-- Only constants of the kind, compared with the property `key` of `var`. -/
def Expression.Over (kind : KeyKind) (var key : String) : Expression → Prop
  | compare _ x prop c _ => x = var ∧ prop = key ∧ c.keyKind = some kind
  | and left right => left.Over kind var key ∧ right.Over kind var key

def RangeBounds.Contains (b : RangeBounds) (v : Value) : Prop :=
  InBounds b.lower b.lowerInclusive b.upper b.upperInclusive v

def RangeBounds.BoundsOf (kind : KeyKind) (b : RangeBounds) : Prop :=
  ∀ v, v ∈ b.lower ∨ v ∈ b.upper → v.keyKind = some kind

/-- The comparison in the order of the keys; no range is `<>`. -/
def onKeys (op : ComparisonOp) (v c : Value) : Prop := match op with
  | .eq => v.KeyLe c ∧ c.KeyLe v
  | .notEq => False
  | .lt => v.KeyLt c
  | .lte => v.KeyLe c
  | .gt => c.KeyLt v
  | .gte => c.KeyLe v

open Option RangeBounds Expression Value ComparisonOp

variable {e : Expression} {b l r : RangeBounds} {p var key : String} {op : ComparisonOp} {v c : Value}
  {kind : KeyKind} {t : NodeTable} {i : Nat}

section Order

variable {α : Type*} [LT α] [LE α] [DecidableLT α] [DecidableEq α] [Std.IsLinearOrder α]
    [Std.LawfulOrderLT α] {a b : α}

theorem test_compare (op : ComparisonOp) : op.test (compareOfLessAndEq a b) = true ↔ match op with
    | .eq => a ≤ b ∧ b ≤ a
    | .notEq => a ≠ b
    | .lt => a < b
    | .lte => a ≤ b
    | .gt => b < a
    | .gte => b ≤ a := by
  have heq : a = b ↔ a ≤ b ∧ b ≤ a :=
    ⟨fun h => h ▸ ⟨Std.le_refl a, Std.le_refl a⟩, fun h => Std.le_antisymm h.1 h.2⟩
  have hlt : a < b ↔ ¬b ≤ a := Std.not_le.symm
  have hgt : b < a ↔ ¬a ≤ b := Std.not_le.symm
  have htotal : a ≤ b ∨ b ≤ a := Std.le_total
  simp only [compareOfLessAndEq, heq, hlt, hgt, Ne]
  by_cases hle : a ≤ b <;> by_cases hge : b ≤ a <;> cases op <;> simp_all [test]

end Order

theorem compares_int64 {x y : Int64} (hop : op ≠ .notEq) :
    compares op (.int64 x) (.int64 y) = op.test (compareOfLessAndEq x.toInt y.toInt) := by
  cases op with
  | eq =>
    show valuesEqual (.int64 x) (.int64 y) = _
    by_cases hxy : x = y
    · simp [hxy, valuesEqual, partialEq, test, compareOfLessAndEq]
    · have hne := mt Int64.toInt_inj.mp hxy
      have hfalse : valuesEqual (.int64 x) (.int64 y) = false := by
        simp [valuesEqual, partialEq, promotedEqual, integerToI128, hxy, hne]
      rw [hfalse, compareOfLessAndEq, if_neg hne]
      split <;> rfl
  | notEq => exact absurd rfl hop
  | lt | lte | gt | gte => rfl

theorem compares_string {x y : String} (hop : op ≠ .notEq) :
    compares op (.string x) (.string y) =
      op.test (compareOfLessAndEq x.toUTF8.toList y.toUTF8.toList) := by
  cases op with
  | eq =>
    show valuesEqual (.string x) (.string y) = _
    by_cases hxy : x = y
    · simp [hxy, valuesEqual, partialEq, test, compareOfLessAndEq]
    · have hne := mt ByteCodec.toUTF8_toList_inj hxy
      have hfalse : valuesEqual (.string x) (.string y) = false := by
        simp [valuesEqual, partialEq, promotedEqual, integerToI128, numericToF64, hxy]
      rw [hfalse, compareOfLessAndEq, if_neg hne]
      split <;> rfl
  | notEq => exact absurd rfl hop
  | lt | lte | gt | gte => rfl

theorem compares_iff (htype : kind = .int64 ∨ kind = .string) (hv : v.keyKind = some kind)
    (hc : c.keyKind = some kind) (hop : op ≠ .notEq) : compares op v c = true ↔ onKeys op v c := by
  rcases htype with rfl | rfl
  · cases v <;> cases hv
    cases c <;> cases hc
    rw [compares_int64 hop, test_compare]
    cases op <;> simp_all [onKeys, KeyLe, KeyLt, intKey, textKey]
  · obtain ⟨x, rfl⟩ : ∃ x, v = .string x := by cases v <;> cases hv; exact ⟨_, rfl⟩
    obtain ⟨y, rfl⟩ : ∃ y, c = .string y := by cases c <;> cases hc; exact ⟨_, rfl⟩
    rw [compares_string hop, test_compare (a := x.toUTF8.toList)]
    cases op <;> simp_all [onKeys, KeyLe, KeyLt, intKey, textKey]

theorem onKeys_flipped : onKeys (flipped op) v c ↔ onKeys op c v := by
  cases op <;> simp [onKeys, flipped, and_comm]

theorem contains_single (h : extractSingleBound p c op = some b) (hc : c.keyKind = some kind) :
    op ≠ .notEq ∧ b.BoundsOf kind ∧ (b.Contains v ↔ onKeys op v c) := by
  cases op <;> cases h <;>
    simp [BoundsOf, Contains, InBounds, onKeys, hc, and_comm]

theorem contains_merge (h : mergeSameProperty l r = some b) (hl : l.BoundsOf kind)
    (hr : r.BoundsOf kind) :
    b.BoundsOf kind ∧ (b.Contains v ↔ l.Contains v ∧ r.Contains v) := by
  obtain ⟨_, h⟩ := ite_none_left_eq_some.mp h
  cases h
  obtain ⟨_, _ | _, _, _ | _, _⟩ := l <;> obtain ⟨_, _ | _, _, _ | _, _⟩ := r <;>
    simp_all [BoundsOf, Contains, InBounds, or_imp, forall_and, and_comm]

theorem not_null_of_keyKind (h : v.keyKind = some kind) : v.isNull = false := by
  cases v <;> first | rfl | cases h

theorem resolves_of_over {s : NodeSchema} (hover : e.Over kind var key) (hmem : key ∈ columnNames s) :
    e.resolves s var = true := by
  induction e with
  | compare op _ prop c reversed =>
    obtain ⟨rfl, rfl, -⟩ := hover
    simp [resolves, hmem]
  | and left right ihl ihr => rw [resolves, ihl hover.1, ihr hover.2, Bool.and_self]

theorem mapM_forall₂ {α β : Type} {f : α → Option β} {l : List α} {bs : List β}
    (h : l.mapM f = some bs) :
    Forall₂ (fun a b => f a = some b) l bs := by
  induction l generalizing bs with
  | nil =>
    cases h
    exact .nil
  | cons a l ih =>
    rw [mapM_cons] at h
    obtain ⟨b, hb, h⟩ := bind_eq_some_iff.mp h
    obtain ⟨bs', hbs', h⟩ := bind_eq_some_iff.mp h
    cases h
    exact .cons hb (ih hbs')

/-- The address in the last column of a row. -/
def address (row : List Value) : Nat := match row.getLast? with
  | some (.int64 x) => x.toUInt64.toNat
  | _ => 0

theorem address_append {row : List Value} (hi : i < 0xFFFFFFFFFFFFFFFF) :
    address (row ++ [.int64 (.ofNat i)]) = i := by
  rw [address, getLast?_concat]
  show (Int64.ofNat i).toUInt64.toNat = i
  simp
  omega

theorem address_writeRow {row : List Value} (h : writeRow t i = some row)
    (hi : i < 0xFFFFFFFFFFFFFFFF) :
    address row = i := by
  obtain ⟨cells, -, rfl⟩ := Option.map_eq_some_iff.mp h
  exact address_append hi

section Rewrite

variable [Rendering]

/-- The bounds taken from a filter over the key contain the keys that the filter lets through. -/
theorem contains_extract (h : extractRangeBounds e = some b) (hover : e.Over kind var key)
    (htype : kind = .int64 ∨ kind = .string) :
    b.BoundsOf kind ∧ ∀ t i v, readProperty t i key = v → v.keyKind = some kind →
      (b.Contains v ↔ e.holds t i = true) := by
  induction e generalizing b with
  | compare op _ prop c reversed =>
    obtain ⟨rfl, rfl, hc⟩ := hover
    rw [extractRangeBounds, not_null_of_keyKind hc, if_neg Bool.false_ne_true] at h
    refine ⟨(contains_single (v := .null) h hc).2.1, fun t i v hv hkind => ?_⟩
    obtain ⟨hop, -, hcontains⟩ := contains_single (v := v) h hc
    rw [hcontains, holds, hv, not_null_of_keyKind hc, not_null_of_keyKind hkind]
    cases reversed with
    | false =>
      rw [if_neg Bool.false_ne_true] at *
      simp [compares_iff htype hkind hc hop]
    | true =>
      have hop' : op ≠ .notEq := by
        rintro rfl
        exact hop rfl
      simp [onKeys_flipped, compares_iff htype hc hkind hop']
  | and left right ihl ihr =>
    obtain ⟨l, hl, h⟩ := bind_eq_some_iff.mp h
    obtain ⟨r, hr, h⟩ := bind_eq_some_iff.mp h
    obtain ⟨hboundsl, hcontainsl⟩ := ihl hl hover.1
    obtain ⟨hboundsr, hcontainsr⟩ := ihr hr hover.2
    split at h
    next =>
      refine ⟨(contains_merge (v := .null) h hboundsl hboundsr).1, fun t i v hv hkind => ?_⟩
      rw [(contains_merge h hboundsl hboundsr).2, hcontainsl t i v hv hkind,
        hcontainsr t i v hv hkind, holds, Bool.and_eq_true]
    next => cases h

/-- The rows that the filter is for. -/
def matched (t : NodeTable) (e : Expression) : List Nat :=
  (range t.numRows).filter fun i => (!t.hasPk || (t.liveAt i).isSome) && e.holds t i

/-- A number or a string of the column has the place in the vector that its cell has. -/
def Placed (type : LogicalTypeID) : Value → Prop
  | .int64 _ => vectorType type = .int64
  | .int32 _ => vectorType type = .int32
  | .double _ => vectorType type = .double
  | .string _ => vectorType type = .string
  | _ => True

/-- The filter compares the key of the scanned variable with constants of its own kind, and the key
has an index. -/
structure OnKey (kind : KeyKind) (key : String) (t : ArtTable) (sn : LogicalScanNode)
    (e : Expression) : Prop where
  typed : ∀ c ∈ t.table.columns[t.table.primaryKeyColumn]?, kind = .int64 ∧ (c.logicalType =
    .int64 ∨ c.logicalType = .serial) ∨ kind = .string ∧ c.logicalType = .string
  bounded : e.Over kind sn.var key
  named : t.table.columns.findIdx? (·.name = key) = some t.table.primaryKeyColumn
  indexed : t.art.isSome = true
  filed : t.Filed kind
  size : t.table.numRows ≤ 0xFFFFFFFFFFFFFFFF
  placed : ∀ row ∈ t.table.rows, Forall₂ (fun c v => Placed c.logicalType v) t.table.columns row

/-- The range scan gives the cells that the scan gives. -/
def RowKept (t : NodeTable) (i : Nat) : Prop :=
  ∀ j < t.columns.length, written t i j = some (scanned t i j)

theorem writeRow_eq_scannedRow_iff : writeRow t i = some (scannedRow t i) ↔ RowKept t i := by
  rw [writeRow, scannedRow, Option.map_eq_some_iff]
  simp only [append_cancel_right_eq, exists_eq_right]
  constructor
  · intro h j hj
    exact forall₂_same.mp (forall₂_map_right_iff.mp (mapM_forall₂ h)) j (mem_range.mpr hj)
  · exact fun h => mapM_eq_some_map fun j hj => h j (mem_range.mp hj)

namespace OnKey

variable {t : ArtTable} {sn : LogicalScanNode} (h : OnKey kind key t sn e)
include h

omit [Rendering] in
theorem hasPk : t.table.hasPk = true :=
  decide_eq_true (findIdx?_eq_some_iff_findIdx_eq.mp h.named).1

omit [Rendering] in
theorem ranged : kind = .int64 ∨ kind = .string := by
  have hlt := (findIdx?_eq_some_iff_findIdx_eq.mp h.named).1
  rcases h.typed _ (getElem?_eq_getElem hlt) with ⟨hkind, -⟩ | ⟨hkind, -⟩
  · exact .inl hkind
  · exact .inr hkind

/-- The scan gives the key as it is stored. -/
theorem readProperty_key {row : List Value} (hrow : t.table.rows[i]? = some row)
    (hv : row[t.table.primaryKeyColumn]? = some v) (hkind : v.keyKind = some kind) :
    readProperty t.table i key = v := by
  have hlt := (findIdx?_eq_some_iff_findIdx_eq.mp h.named).1
  have hname : (columnNames t.table.toNodeSchema).findIdx? (· = key) =
      some t.table.primaryKeyColumn := by
    rw [columnNames, findIdx?_append, findIdx?_map]
    exact (congrArg (Option.or · _) h.named).trans rfl
  have hcell : scanned t.table i t.table.primaryKeyColumn = v := by
    have htyped := h.typed _ (getElem?_eq_getElem hlt)
    rw [scanned, getElem?_eq_getElem hlt, bind_some]
    rcases htyped with ⟨rfl, htype | htype⟩ | ⟨rfl, htype⟩ <;> rw [htype] <;>
      cases v <;> cases hkind <;> simp [scanColumn, hrow, hv, int64Column, valueInt64, ownKind, PhysicalTypeID.fits,
        PhysicalTypeID.kind, Value.kind]
  rw [readProperty, hname, bind_some, scannedRow, getElem?_append_left (by simpa using hlt)]
  simpa [hlt] using hcell

theorem key_of_live {row : List Value} (hrow : t.table.liveAt i = some row) :
    ∃ v, t.table.pkOf row = some v ∧ readProperty t.table i key = v ∧ v.keyKind = some kind := by
  obtain ⟨hmem, hlive⟩ := filter_eq_some_iff.mp hrow
  have hlt := (findIdx?_eq_some_iff_findIdx_eq.mp h.named).1
  have hwidth : t.table.primaryKeyColumn < row.length := by
    rw [t.table.width row (mem_of_getElem? hmem)]
    exact hlt
  have hcell := getElem?_eq_getElem hwidth
  have hv : t.table.pkOf row = some _ := (if_pos h.hasPk).trans hcell
  have hkind := h.filed.keys row (mem_of_getElem? hmem) _
    ((t.table.liveKey_eq_some row h.hasPk).mpr ⟨hlive, hv⟩)
  exact ⟨_, hv, h.readProperty_key hmem hcell hkind, hkind⟩

/-- The index answers the matched rows. -/
theorem rowIds_perm (hb : detect sn e = some b) : (rowIds t b).Perm (matched t.table e) := by
  obtain ⟨-, hb⟩ := ite_none_right_eq_some.mp hb
  obtain ⟨ix, hix⟩ := isSome_iff_exists.mp h.indexed
  obtain ⟨hbounds, hcontains⟩ := contains_extract hb h.bounded h.ranged
  have hanswer : RangeAnswer t.table b.Contains (rowIds t b) :=
    h.filed.rangeAnswer hix (fun l hl => hbounds l (.inl hl)) (fun u hu => hbounds u (.inr hu)) h.size
  refine (perm_ext_iff_of_nodup hanswer.nodup (nodup_range.filter _)).mpr fun i => ?_
  rw [hanswer.mem, mem_filter, mem_range, h.hasPk, Bool.not_true, Bool.false_or, Bool.and_eq_true]
  constructor
  · rintro ⟨row, v, hrow, hv, hin⟩
    obtain ⟨w, hw, hread, hkind⟩ := h.key_of_live hrow
    cases hv.symm.trans hw
    have hi := (List.getElem?_eq_some_iff.mp (filter_eq_some_iff.mp hrow).1).1
    exact ⟨hi, isSome_iff_exists.mpr ⟨row, hrow⟩, (hcontains _ i v hread hkind).mp hin⟩
  · rintro ⟨-, hlive, hholds⟩
    obtain ⟨row, hrow⟩ := isSome_iff_exists.mp hlive
    obtain ⟨v, hv, hread, hkind⟩ := h.key_of_live hrow
    exact ⟨row, v, hrow, hv, (hcontains _ i v hread hkind).mpr hholds⟩

theorem scanThenFilter_eq :
    scanThenFilter t.table sn e =
      some (((rowsToEmit t.table sn).filter (e.holds t.table)).map (scannedRow t.table)) := by
  refine if_pos (.inr (resolves_of_over h.bounded (mem_append_left _ ?_)))
  obtain ⟨hlt, hname, -⟩ := findIdx?_eq_some_iff_getElem.mp h.named
  exact mem_map.mpr ⟨_, getElem_mem hlt, of_decide_eq_true hname⟩

end OnKey

/-- How often the scan and the filter return a row. -/
theorem count_emitted {sn : LogicalScanNode} (hpred : sn.predicate = none) :
    ((rowsToEmit t sn).filter (e.holds t)).count i =
      if i ∈ matched t e then (sn.ftsQuery.getD (range t.numRows)).count i else 0 := by
  rw [rowsToEmit, List.filter_filter, List.filter_filter]
  split
  next hi =>
    obtain ⟨hlt, hlive⟩ := mem_filter.mp hi
    refine count_filter ?_
    simp_all
  next hi =>
    refine count_eq_zero_of_not_mem fun hmem => hi ?_
    have hkeep := (mem_filter.mp hmem).2
    simp_all [matched]

/-- The addresses tell the rows apart. -/
theorem rows_of_perm {ids emitted : List Nat} {out : List (List Value)}
    (hwritten : Forall₂ (fun i row => writeRow t i = some row) ids out)
    (hids : ∀ i ∈ ids, i < 0xFFFFFFFFFFFFFFFF)
    (hemitted : ∀ i ∈ emitted, i < 0xFFFFFFFFFFFFFFFF) (hperm : out.Perm (emitted.map (scannedRow t))) :
    ids.Perm emitted ∧ ∀ i ∈ emitted, writeRow t i = some (scannedRow t i) := by
  have hstored : (emitted.map (scannedRow t)).map address = emitted := by
    rw [List.map_map]
    exact (map_congr_left fun i hi => address_append (hemitted i hi)).trans (map_id _)
  obtain ⟨haddresses, hrow⟩ : out.map address = ids ∧
      ∀ row ∈ out, writeRow t (address row) = some row := by
    clear hperm
    induction hwritten with
    | nil => simp
    | cons hwrite _ ih =>
      rw [forall_mem_cons] at hids
      obtain ⟨haddresses, hrow⟩ := ih hids.2
      rw [map_cons, forall_mem_cons, address_writeRow hwrite hids.1, haddresses]
      exact ⟨rfl, hwrite, hrow⟩
  refine ⟨haddresses ▸ hstored ▸ hperm.map address, fun i hi => ?_⟩
  have hwrite := hrow _ (hperm.mem_iff.mpr (mem_map_of_mem hi))
  rwa [scannedRow, address_append (hemitted i hi)] at hwrite

end Rewrite

/-- Two people, one of them without a name. -/
def people : NodeTable :=
  { NodeTable.new 0 "Person" [⟨"id", .int64, true⟩, ⟨"age", .int64, false⟩, ⟨"name", .string, false⟩] with
    rows := [[.int64 7, .int64 20, .string "ann"], [.int64 3, .int64 5, .null]]
    width := by simp [NodeTable.new]
    filed := nofun }

def scanPeople (ftsQuery : Option (List Nat)) : LogicalScanNode := ⟨"Person", some "a", ftsQuery, none⟩

/-- The ids from 2 on and below 9. -/
def twoToNine : Expression :=
  .and (.compare .gte "a" "id" (.int64 2) false) (.compare .gt "a" "id" (.int64 9) true)

theorem people_keys : KeysOf .int64 people.toNodeSchema people.rows := by
  intro row hrow v hv
  rcases mem_cons.mp hrow with rfl | hrow
  · cases hv
    rfl
  · rw [mem_singleton.mp hrow] at hv
    cases hv
    rfl

end Akar.ArtRangeScan
