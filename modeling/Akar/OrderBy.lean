import Akar.DataChunks
import Akar.SortRuns

namespace Akar

/-- The position of a value of a column in the order that `ORDER BY` stands for: integers by value,
strings by their bytes, nulls last. -/
def Value.rank : Value → List Int
  | .null => [1]
  | v => 0 :: v.sortKey.getD []

namespace OrderBy

/-- `value_cmp`: nulls come last, and what it has no case for ties. -/
def valueCmp : Value → Value → Ordering
  | .null, .null => .eq
  | .null, _ => .gt
  | _, .null => .lt
  | .bool x, .bool y => compareOfLessAndEq x.toNat y.toNat
  | .int64 x, .int64 y => compareOfLessAndEq x.toInt y.toInt
  | .int32 x, .int32 y => compareOfLessAndEq x.toInt y.toInt
  | .int16 x, .int16 y => compareOfLessAndEq x.toInt y.toInt
  | .int8 x, .int8 y => compareOfLessAndEq x.toInt y.toInt
  | .uint64 x, .uint64 y => compareOfLessAndEq x.toNat y.toNat
  | .uint32 x, .uint32 y => compareOfLessAndEq x.toNat y.toNat
  | .double x, .double y => doubleCmp x.toNat y.toNat
  | .float x, .float y => doubleCmp (widen x.toNat) (widen y.toNat)
  | .string x, .string y => compareOfLessAndEq x.toUTF8.toList y.toUTF8.toList
  | .date x, .date y => compareOfLessAndEq x.toInt y.toInt
  | .timestamp x, .timestamp y => compareOfLessAndEq x.toInt y.toInt
  | _, _ => .eq

abbrev SortKeys := List (Nat × Bool)

def directed (asc : Bool) (o : Ordering) : Ordering := if asc then o else o.swap

/-- The comparator of the sort operators, on row indices; keys past the last column are passed
over. -/
def keyCmp (value : Nat → Nat → Value) (numFields : Nat) : SortKeys → Nat → Nat → Ordering
  | [], _, _ => .eq
  | (col, asc) :: keys, i, j =>
    if numFields ≤ col then keyCmp value numFields keys i j
    else (directed asc (valueCmp (value col i) (value col j))).then (keyCmp value numFields keys i j)

def flipSign (k : Int64) : Nat := (k.toUInt64 ^^^ 0x8000000000000000).toNat

def radixSortIndices (indices : List Nat) (keys : List Int64) : List Nat :=
  if indices.length < 2 then indices
  else (radixSort Prod.fst 256 8 ((keys.map flipSign).zip indices)).map (·.2)

def radixCell : Value → Bool
  | .int64 _ | .null => true
  | _ => false

def isRadixEligible (column : Nat → Value) (totalRows : Nat) : Bool :=
  (List.range totalRows).all fun i => radixCell (column i)

/-- A null gets the key `i64::MAX`. -/
def radixKey : Value → Int64
  | .int64 x => x
  | _ => Int64.maxValue

section BlockMergeSort

variable (value : Nat → Nat → Value) (numFields totalRows : Nat) (keys : SortKeys)

def sortBlock (indices : List Nat) : List Nat := match keys with
  | [] => indices
  | (col, asc) :: rest =>
    if numFields ≤ col then indices
    else if isRadixEligible (value col) totalRows then
      let sorted := radixSortIndices indices (indices.map fun i => radixKey (value col i))
      let sorted := if asc then sorted else sorted.reverse
      -- the tie-break runs over all the keys again, and only if there is a second one
      if rest = [] then sorted else sortBy (keyCmp value numFields keys) sorted
    else sortBy (keyCmp value numFields keys) indices

def blockIndices (blockSize block : Nat) : List Nat :=
  List.range' (block * blockSize) (min (block * blockSize + blockSize) totalRows - block * blockSize)

/-- `BlockMergeSorter::sort`. The heap of `k_way_merge` pops the least head, of the lowest block
among equals. -/
def blockMergeSort (blockSize : Nat) : List Nat :=
  let numBlocks := (totalRows + blockSize - 1) / blockSize
  if numBlocks ≤ 1 then sortBlock value numFields totalRows keys (List.range totalRows)
  else
    mergeRuns (leBy (keyCmp value numFields keys)) totalRows
      ((List.range numBlocks).map fun block =>
        sortBlock value numFields totalRows keys (blockIndices totalRows blockSize block))

end BlockMergeSort

section OrderBy

variable (b : DataChunks) (keys : SortKeys)

def sortCols (numFields : Nat) (keys : SortKeys) : List Nat :=
  keys.foldl (fun cols key => if key.1 < numFields ∧ key.1 ∉ cols then cols ++ [key.1] else cols) []

def compactKeys (numFields : Nat) (keys : SortKeys) : SortKeys :=
  (keys.filter (·.1 < numFields)).filterMap fun key =>
    ((sortCols numFields keys).findIdx? (· = key.1)).map fun idx => (idx, key.2)

def compactValue (i row : Nat) : Value := match (sortCols b.numFields keys)[i]? with
  | some col => b.value col row
  | none => .null

def orderBlockSize : Nat := 10000

def orderIndices : List Nat := if orderBlockSize < b.totalRows ∧ keys ≠ [] then
    if sortCols b.numFields keys = [] then List.range b.totalRows
    else
      blockMergeSort (compactValue b keys) (sortCols b.numFields keys).length b.totalRows
        (compactKeys b.numFields keys)
        orderBlockSize
  else if keys = [] then List.range b.totalRows
  else sortBy (keyCmp b.value b.numFields keys) (List.range b.totalRows)

def takeGlobalRows (indices : List Nat) : List (List Value) :=
  indices.map fun i => (b.rows[i % 2 ^ 32]?).getD []

def orderBy : List (List Value) := takeGlobalRows b (orderIndices b keys)

end OrderBy

/-- `TopKHeapEntry::cmp` on entries of two rows; a key past the last column is null for every
row. -/
def topKCmp (value : Nat → Nat → Value) (numFields : Nat) : SortKeys → Nat → Nat → Ordering
  | [], _, _ => .eq
  | (col, asc) :: keys, i, j =>
    let vi := if numFields ≤ col then .null else value col i
    let vj := if numFields ≤ col then .null else value col j
    (if asc then valueCmp vi vj else valueCmp vj vi).then (topKCmp value numFields keys i j)

/-- `PhysicalTopK::execute` with the 64-bit sums of a release build; `none` is a panic of the slice.
`pop` is the heap's. -/
def topK (b : DataChunks) (limit offset : UInt64) (pop : List Nat → Nat × List Nat) :
    Option (List (List Value)) :=
  let capacity := (limit + offset).toNat
  if capacity = 0 ∨ b.totalRows = 0 then some []
  else
    let heap := keepLeast pop capacity (List.range b.totalRows)
    let sorted := drainSorted pop heap.length heap []
    let start := min offset.toNat sorted.length
    let stop := min (UInt64.ofNat start + limit).toNat sorted.length
    if stop < start then none else some (takeGlobalRows b ((sorted.take stop).drop start))

end OrderBy

end Akar
