import Akar.DataChunks
import Akar.JoinSpill

namespace Akar

open List Option

namespace HashJoin

/-- What `hash_chunk_cell` feeds to the hasher. Integers of different widths are different input; a
value that `get_value` cannot read feeds nothing. -/
inductive HashInput where
  | int64 (x : Int64)
  | int32 (x : Int32)
  | double (bits : UInt64)
  | bool (b : Bool)
  | string (s : String)
  | value (v : Value)
  | nothing

def hashInput : PhysicalTypeID → Value → HashInput
  | .int64, .int64 x => .int64 x
  | .int32, .int32 x => .int32 x
  | .double, .double bits => .double bits
  | .bool, .bool b => .bool b
  | .string, .string s => .string s
  | t, v => if t.readable then .value v else .nothing

variable (hash : HashInput → UInt64) (build probe : DataChunks)

def cell (b : DataChunks) (col g : Nat) : Option (PhysicalTypeID × Value) :=
  (b.fieldTypes[col]?).bind fun t => (b.rows[g]?).bind fun row => (row[col]?).map fun v => (t, v)

/-- The input of `hash_chunk_cell`: `none` for a null and for a column that does not exist. -/
def hashChunkCell (b : DataChunks) (col g : Nat) : Option HashInput := match cell b col g with
  | some (t, v) => if v.isNull then none else some (hashInput t v)
  | none => none

def cellsEqual (t : PhysicalTypeID) (v : Value) (t' : PhysicalTypeID) (w : Value) : Bool :=
  if v.isNull || w.isNull then v.isNull && w.isNull
  else
    match t, v, t', w with
    | .int64, .int64 x, .int64, .int64 y => x = y
    | .int32, .int32 x, .int32, .int32 y => x = y
    | .int64, .int64 x, .int32, .int32 y => x.toInt = y.toInt
    | .int32, .int32 x, .int64, .int64 y => x.toInt = y.toInt
    | .double, .double x, .double, .double y => Value.floatEq .binary64 x.toNat y.toNat
    | .bool, .bool x, .bool, .bool y => x = y
    | .string, .string x, .string, .string y => x = y
    -- `get_value` on both sides: two cells it cannot read are both `None`
    | t, v, t', w => if t.readable then t'.readable && v.partialEq w else !t'.readable

def chunkCellsEqual (bcol pcol i j : Nat) : Bool := match cell build bcol i, cell probe pcol j with
  | some (t, v), some (t', w) => cellsEqual t v t' w
  | _, _ => false

def chunkIndices : Nat → List (List (List Value)) → List (List Nat)
  | _, [] => []
  | offset, chunk :: chunks =>
    range' offset chunk.length :: chunkIndices (offset + chunk.length) chunks

abbrev Buckets := UInt64 → List Nat

def push (b : DataChunks) (col : Nat) (table : Buckets) (g : Nat) : Buckets :=
  match hashChunkCell b col g with
  | some x => Function.update table (hash x) (table (hash x) ++ [g])
  | none => table

def buildSequential (col : Nat) : Buckets :=
  (chunkIndices 0 build.chunks).flatten.foldl (push hash build col) fun _ => []

def buildParallel (col : Nat) : Buckets :=
  ((chunkIndices 0 build.chunks).map fun rows => rows.foldl (push hash build col) fun _ => []).foldl
    (fun merged part h => merged h ++ part h) fun _ => []

def buildTable (col : Nat) : Buckets :=
  if 1000 < build.totalRows then buildParallel hash build col else buildSequential hash build col

def probeMatches (table : Buckets) (bcol pcol : Nat) : List (Nat × Nat) :=
  (chunkIndices 0 probe.chunks).flatten.flatMap fun j =>
    match hashChunkCell probe pcol j with
    | some x =>
      (table (hash x)).filterMap fun i => if chunkCellsEqual build probe bcol pcol i j then some
      (i, j) else none
    | none => []

/-- `split_prop`: an operand of a key as its qualified name, its variable and its property. -/
structure KeyOperand where
  full : String
  var : String
  key : String

/-- `resolve_side`: the column an operand names on one side, and the key to take from it if it holds
maps. -/
def resolveSide (o : KeyOperand) (names : List String) : Option (Nat × Option String) :=
  if names.contains o.full then some (names.idxOf o.full, none)
  else if names.contains o.key then some (names.idxOf o.key, none)
  else if o.var ≠ "" && names.contains o.var then some (names.idxOf o.var, some o.key)
  else none

def resolveKey (own other : KeyOperand) (names : List String) : Option (Nat × Option String) :=
  resolveSide own names <|> resolveSide other names

/-- `derive_join_bindings`: the two columns of each key, and the keys to take from them. -/
def deriveJoinBindings (pairs : List (KeyOperand × KeyOperand)) (buildNames probeNames : List String) :
    List ((Nat × Option String) × (Nat × Option String)) :=
  let bindings := pairs.map fun (l, r) =>
    ((resolveKey l r buildNames).getD (0, none), (resolveKey r l probeNames).getD (0, none))
  if bindings.isEmpty then [((0, none), (0, none))] else bindings

/-- `PhysicalHashJoin::execute_binary`, as the pairs of 32-bit row indices given to Arrow's `take`.
Only the first key column of each side is used. -/
def executeBinary (keys : List (Nat × Nat)) : List (Nat × Nat) :=
  if build.chunks = [] ∨ probe.chunks = [] then []
  else
    let bcol := (keys.head?.map (·.1)).getD 0
    let pcol := (keys.head?.map (·.2)).getD 0
    (probeMatches hash build probe (buildTable hash build bcol) bcol pcol).map fun m =>
      (m.1 % 2 ^ 32, m.2 % 2 ^ 32)

def executeJoin (pairs : List (KeyOperand × KeyOperand)) : List (Nat × Nat) :=
  executeBinary hash build probe
    ((deriveJoinBindings pairs build.fieldNames probe.fieldNames).map fun binding =>
      (binding.1.1, binding.2.1))

/-- The evaluator's `=` on two cells is true: neither is null and they are equal. -/
def cellsJoin (bcol pcol i j : Nat) : Bool := match cell build bcol i, cell probe pcol j with
  | some (_, v), some (_, w) => !v.isNull && !w.isNull && valuesEqual v w
  | _, _ => false

def rowsJoin (keys : List (Nat × Nat)) (i j : Nat) : Bool :=
  keys.all fun key => cellsJoin build probe key.1 key.2 i j

def joined (keys : List (Nat × Nat)) : List (Nat × Nat) := (range probe.totalRows).flatMap fun j =>
    ((range build.totalRows).filter fun i => rowsJoin build probe keys i j).map fun i => (i, j)

section Tables

variable {hash build probe}

theorem flatten_chunkIndices (offset : Nat) (chunks : List (List (List Value))) :
    (chunkIndices offset chunks).flatten = range' offset (chunks.map List.length).sum := by
  induction chunks generalizing offset with
  | nil => rfl
  | cons chunk chunks ih =>
    rw [chunkIndices, flatten_cons, ih, map_cons, sum_cons]
    exact range'_append_1

theorem flatten_chunkIndices_rows (b : DataChunks) : (chunkIndices 0 b.chunks).flatten =
    range b.totalRows := by
  rw [flatten_chunkIndices, range_eq_range']
  rfl

theorem foldl_push (b : DataChunks) (col : Nat) (rows : List Nat) (table : Buckets) (h : UInt64) :
    rows.foldl (push hash b col) table h =
      table h ++ rows.filter fun g => (hashChunkCell b col g).map hash = some h := by
  induction rows generalizing table with
  | nil => simp
  | cons g rows ih =>
    rw [foldl_cons, ih, push]
    cases hcell : hashChunkCell b col g with
    | none => rw [filter_cons_of_neg (by simp [hcell])]
    | some x =>
      by_cases hx : hash x = h
      · subst hx
        rw [filter_cons_of_pos (by simp [hcell])]
        simp
      · rw [filter_cons_of_neg (by simp [hcell, hx])]
        simp [Function.update_of_ne (Ne.symm hx)]

theorem buildParallel_eq (col : Nat) (h : UInt64) : buildParallel hash build col h =
    (range build.totalRows).filter fun g => (hashChunkCell build col g).map hash = some h := by
  rw [← flatten_chunkIndices_rows, buildParallel]
  have hmerge : ∀ (parts : List (List Nat)) (merged : Buckets),
      (parts.map fun rows => rows.foldl (push hash build col) fun _ => []).foldl
          (fun merged part h => merged h ++ part h) merged h =
        merged h ++ parts.flatten.filter fun g => (hashChunkCell build col g).map hash = some h := by
    intro parts
    induction parts with
    | nil => intro merged; simp
    | cons part parts ih =>
      intro merged
      rw [map_cons, foldl_cons, ih, foldl_push, flatten_cons, filter_append]
      simp
  rw [hmerge]
  rfl

theorem buildTable_eq (col : Nat) (h : UInt64) : buildTable hash build col h =
    (range build.totalRows).filter fun g => (hashChunkCell build col g).map hash = some h := by
  unfold buildTable
  split
  · exact buildParallel_eq col h
  · rw [buildSequential, foldl_push, flatten_chunkIndices_rows, nil_append]

def matched (hash : HashInput → UInt64) (build probe : DataChunks) (bcol pcol i j : Nat) : Bool :=
  match hashChunkCell build bcol i, hashChunkCell probe pcol j with
  | some x, some y => hash x = hash y && chunkCellsEqual build probe bcol pcol i j
  | _, _ => false

theorem probeMatches_eq (bcol pcol : Nat) :
    probeMatches hash build probe (buildTable hash build bcol) bcol pcol =
    (range probe.totalRows).flatMap fun j =>
      ((range build.totalRows).filter fun i => matched hash build probe bcol pcol i j).map fun i =>
        (i, j) := by
  rw [probeMatches, flatten_chunkIndices_rows]
  apply flatMap_congr
  intro j _
  have hmatched (i : Nat) (y : HashInput) (hy : hashChunkCell probe pcol j = some y) :
      matched hash build probe bcol pcol i j =
        (decide ((hashChunkCell build bcol i).map hash = some (hash y)) && chunkCellsEqual build
          probe bcol pcol i j) := by
    unfold matched
    rw [hy]
    cases hashChunkCell build bcol i <;> simp
  have hunmatched (i : Nat) (hy : hashChunkCell probe pcol j = none) :
      matched hash build probe bcol pcol i j = false := by
    unfold matched
    rw [hy]
    cases hashChunkCell build bcol i <;> rfl
  cases hcell : hashChunkCell probe pcol j with
  | none => simp [hunmatched _ hcell]
  | some y =>
    simp only [buildTable_eq, hmatched _ y hcell]
    generalize range build.totalRows = l
    induction l with
    | nil => rfl
    | cons i l ih =>
      by_cases hi : (hashChunkCell build bcol i).map hash = some (hash y)
      · by_cases he : chunkCellsEqual build probe bcol pcol i j = true
        · rw [filter_cons_of_pos (by simpa using hi), filterMap_cons, if_pos he, ih,
            filter_cons_of_pos (by simp [hi, he]), map_cons]
        · rw [filter_cons_of_pos (by simpa using hi), filterMap_cons, if_neg he, ih,
            filter_cons_of_neg (by simp [he])]
      · rw [filter_cons_of_neg (by simpa using hi), ih, filter_cons_of_neg (by simp [hi])]

variable {i j : Nat}

theorem mem_probeMatches {bcol pcol : Nat} :
    (i, j) ∈ probeMatches hash build probe (buildTable hash build bcol) bcol pcol ↔
      (i < build.totalRows ∧ j < probe.totalRows) ∧ matched hash build probe bcol pcol i j = true := by
  rw [probeMatches_eq]
  simp only [mem_flatMap, List.mem_map, mem_filter, mem_range, Prod.mk.injEq]
  constructor
  · rintro ⟨_, hj, _, ⟨hi, hmatched⟩, rfl, rfl⟩
    exact ⟨⟨hi, hj⟩, hmatched⟩
  · rintro ⟨⟨hi, hj⟩, hmatched⟩
    exact ⟨j, hj, i, ⟨hi, hmatched⟩, rfl, rfl⟩

theorem mem_joined {keys : List (Nat × Nat)} : (i, j) ∈ joined build probe keys ↔
    (i < build.totalRows ∧ j < probe.totalRows) ∧ rowsJoin build probe keys i j = true := by
  unfold joined
  simp only [mem_flatMap, List.mem_map, mem_filter, mem_range, Prod.mk.injEq]
  constructor
  · rintro ⟨_, hj, _, ⟨hi, hjoin⟩, rfl, rfl⟩
    exact ⟨⟨hi, hj⟩, hjoin⟩
  · rintro ⟨⟨hi, hj⟩, hjoin⟩
    exact ⟨j, hj, i, ⟨hi, hjoin⟩, rfl, rfl⟩

theorem map_fits_take {l : List (Nat × Nat)} (h : ∀ m ∈ l, m.1 < 2 ^ 32 ∧ m.2 < 2 ^ 32) :
    (l.map fun m => (m.1 % 2 ^ 32, m.2 % 2 ^ 32)) = l := by
  conv_rhs => rw [← List.map_id l]
  apply map_congr_left
  intro m hm
  rw [Nat.mod_eq_of_lt (h m hm).1, Nat.mod_eq_of_lt (h m hm).2]
  rfl

theorem executeBinary_eq (key : Nat × Nat) (keys : List (Nat × Nat)) (hbuild : build.totalRows ≤ 2 ^ 32)
    (hprobe : probe.totalRows ≤ 2 ^ 32) : executeBinary hash build probe (key :: keys) =
      probeMatches hash build probe (buildTable hash build key.1) key.1 key.2 := by
  have hrange : ∀ m ∈ probeMatches hash build probe (buildTable hash build key.1) key.1 key.2,
      m.1 < 2 ^ 32 ∧ m.2 < 2 ^ 32 := by
    rintro ⟨i, j⟩ hm
    have hlt := (mem_probeMatches.mp hm).1
    omega
  unfold executeBinary
  split
  next hempty =>
    rw [eq_comm, eq_nil_iff_forall_not_mem]
    rintro ⟨i, j⟩ hm
    have hlt := (mem_probeMatches.mp hm).1
    rcases hempty with h | h
    · have hzero : build.totalRows = 0 := by rw [DataChunks.totalRows, h]; rfl
      omega
    · have hzero : probe.totalRows = 0 := by rw [DataChunks.totalRows, h]; rfl
      omega
  next => exact map_fits_take hrange

/-- What the spilling join reads of the numbers of two rows. -/
def rowKey (hash : HashInput → UInt64) (build probe : DataChunks) (key : Nat × Nat) :
    JoinSpill.JoinKey Nat where
  build i := (hashChunkCell build key.1 i).map hash
  probe j := (hashChunkCell probe key.2 j).map hash
  equal := chunkCellsEqual build probe key.1 key.2

theorem agree_rowKey (key : Nat × Nat) :
    (rowKey hash build probe key).agree i j = matched hash build probe key.1 key.2 i j := by
  simp only [JoinSpill.JoinKey.agree, matched, rowKey]
  cases hashChunkCell build key.1 i <;> cases hashChunkCell probe key.2 j <;> rfl

/-- The two models of `execute_binary` are one on the numbers of the rows. -/
theorem executeBinary_eq_spill (key : Nat × Nat) (keys : List (Nat × Nat))
    (hbuild : build.totalRows ≤ 2 ^ 32)
    (hprobe : probe.totalRows ≤ 2 ^ 32) : executeBinary hash build probe (key :: keys) =
      JoinSpill.executeBinary (rowKey hash build probe key) (range build.totalRows)
        (range probe.totalRows) := by
  rw [executeBinary_eq key keys hbuild hprobe, probeMatches_eq,
    JoinSpill.executeBinary_eq (JoinSpill.numbered_of_length (by simpa using hbuild))
      (JoinSpill.numbered_of_length (by simpa using hprobe)), JoinSpill.matchRows]
  simp only [agree_rowKey]

end Tables

section Keys

variable {build probe}

def Resolves (build probe : DataChunks) (pairs : List (KeyOperand × KeyOperand))
    (keys : List (Nat × Nat)) : Prop :=
  List.Forall₂ (fun pair key => resolveKey pair.1 pair.2 build.fieldNames = some (key.1, none) ∧
    resolveKey pair.2 pair.1 probe.fieldNames = some (key.2, none)) pairs keys

/-- The first key decides: for two rows with no null in it, the cells are equal exactly when the
rows join, and then they feed the hasher alike. -/
def FirstKeyDecides (build probe : DataChunks) (keys : List (Nat × Nat)) : Prop :=
  ∀ key ∈ keys.head?, ∀ i < build.totalRows, ∀ j < probe.totalRows, ∀ x ∈ hashChunkCell build key.1 i,
    ∀ y ∈ hashChunkCell probe key.2 j,
      (chunkCellsEqual build probe key.1 key.2 i j = true ↔ rowsJoin build probe keys i j = true) ∧
        (rowsJoin build probe keys i j = true → x = y)

def soundType : PhysicalTypeID → Bool
  | .int64 | .int32 | .uint64 | .string => true
  | _ => false

variable {keys : List (Nat × Nat)}

theorem executeJoin_eq {hash : HashInput → UInt64} {pairs : List (KeyOperand × KeyOperand)}
    (hne : keys ≠ []) (hresolves : Resolves build probe pairs keys) :
    executeJoin hash build probe pairs = executeBinary hash build probe keys := by
  have hcols : ((pairs.map fun (l, r) => ((resolveKey l r build.fieldNames).getD (0, none),
      (resolveKey r l probe.fieldNames).getD (0, none))).map fun binding =>
        (binding.1.1, binding.2.1)) = keys := by
    clear hne
    induction hresolves with
    | nil => rfl
    | cons hpair _ ih => simp [hpair.1, hpair.2, ih]
  rw [executeJoin, deriveJoinBindings]
  split
  next hempty =>
    rw [List.isEmpty_iff.mp hempty] at hcols
    exact absurd hcols.symm hne
  next => rw [hcols]

variable {key : Nat × Nat} {i j : Nat}

theorem rowsJoin_hashed (h : rowsJoin build probe (key :: keys) i j = true) :
    (hashChunkCell build key.1 i).isSome = true ∧ (hashChunkCell probe key.2 j).isSome = true := by
  rw [rowsJoin, all_cons, Bool.and_eq_true] at h
  have hfirst := h.1
  unfold cellsJoin at hfirst
  unfold hashChunkCell
  split at hfirst
  next hb hp =>
    simp only [Bool.and_eq_true, Bool.not_eq_true'] at hfirst
    simp [hb, hp, hfirst.1.1, hfirst.1.2]
  next => cases hfirst

theorem matched_iff {hash : HashInput → UInt64} {bcol pcol : Nat} :
    matched hash build probe bcol pcol i j = true ↔
    ∃ x ∈ hashChunkCell build bcol i, ∃ y ∈ hashChunkCell probe pcol j,
      hash x = hash y ∧ chunkCellsEqual build probe bcol pcol i j = true := by
  unfold matched
  cases hashChunkCell build bcol i <;> cases hashChunkCell probe pcol j <;> simp

theorem matched_eq_rowsJoin (h : FirstKeyDecides build probe (key :: keys)) (hash : HashInput → UInt64)
    (hi : i < build.totalRows) (hj : j < probe.totalRows) :
    matched hash build probe key.1 key.2 i j = rowsJoin build probe (key :: keys) i j := by
  rw [Bool.eq_iff_iff, matched_iff]
  constructor
  · rintro ⟨x, hx, y, hy, -, hcells⟩
    exact (h key rfl i hi j hj x hx y hy).1.mp hcells
  · intro hjoin
    obtain ⟨hb, hp⟩ := rowsJoin_hashed hjoin
    obtain ⟨x, hx⟩ := isSome_iff_exists.mp hb
    obtain ⟨y, hy⟩ := isSome_iff_exists.mp hp
    have hkey := h key rfl i hi j hj x hx y hy
    exact ⟨x, hx, y, hy, congrArg hash (hkey.2 hjoin), hkey.1.mpr hjoin⟩

theorem probeMatches_eq_joined (h : FirstKeyDecides build probe (key :: keys))
    (hash : HashInput → UInt64) :
    probeMatches hash build probe (buildTable hash build key.1) key.1 key.2 =
      joined build probe (key :: keys) := by
  rw [probeMatches_eq, joined]
  apply flatMap_congr
  intro j hj
  congr 1
  apply filter_congr
  intro i hi
  exact matched_eq_rowsJoin h hash (mem_range.mp hi) (mem_range.mp hj)

open Classical in
/-- A hash function that puts everything in one bucket, and one that separates two given inputs, are
enough to see that the first key has to decide. -/
theorem firstKeyDecides_of_perm
    (h : ∀ hash, (probeMatches hash build probe (buildTable hash build key.1) key.1 key.2).Perm
      (joined build probe (key :: keys))) : FirstKeyDecides build probe (key :: keys) := by
  have hiff (hash : HashInput → UInt64) (i j : Nat) (hi : i < build.totalRows)
      (hj : j < probe.totalRows) :
      matched hash build probe key.1 key.2 i j = true ↔ rowsJoin build probe (key :: keys) i j =
        true := by
    have hmem := (h hash).mem_iff (a := (i, j))
    rw [mem_probeMatches, mem_joined] at hmem
    exact ⟨fun hm => (hmem.mp ⟨⟨hi, hj⟩, hm⟩).2, fun hm => (hmem.mpr ⟨⟨hi, hj⟩, hm⟩).2⟩
  intro first hfirst i hi j hj x hx y hy
  obtain rfl : key = first := some.inj hfirst
  have hone := hiff (fun _ => 0) i j hi hj
  have hcells : matched (fun _ => 0) build probe key.1 key.2 i j = true ↔
      chunkCellsEqual build probe key.1 key.2 i j = true := by
    rw [matched_iff]
    exact ⟨fun ⟨_, _, _, _, _, hcells⟩ => hcells, fun hcells => ⟨x, hx, y, hy, rfl, hcells⟩⟩
  refine ⟨hcells.symm.trans hone, fun hjoin => ?_⟩
  by_contra hxy
  obtain ⟨x', hx', y', hy', hhash, -⟩ :=
    matched_iff.mp ((hiff (fun z => if z = x then 1 else 0) i j hi hj).mpr hjoin)
  obtain rfl : x = x' := some.inj (hx.symm.trans hx')
  obtain rfl : y = y' := some.inj (hy.symm.trans hy')
  rw [if_pos rfl, if_neg (Ne.symm hxy)] at hhash
  exact absurd hhash (by decide)

variable {t : PhysicalTypeID} {v w : Value}

section

variable (ht : soundType t = true) (hv : v.kind = t.kind) (hw : w.kind = t.kind)
include ht hv hw

theorem valuesEqual_sound : valuesEqual v w = true ↔ v = w := by
  cases t <;> cases ht <;> cases v <;> cases hv <;> cases w <;> cases hw <;>
    simp [valuesEqual, Value.partialEq, promotedEqual, Value.integerToI128, Value.numericToF64,
      Int64.toInt_inj, Int32.toInt_inj, UInt64.toNat_inj]

theorem cellsEqual_sound : cellsEqual t v t w = true ↔ v = w := by
  cases t <;> cases ht <;> cases v <;> cases hv <;> cases w <;> cases hw <;>
    simp [cellsEqual, Value.isNull, PhysicalTypeID.readable, Value.partialEq]

end

theorem cell_of_hashed {b : DataChunks} {col g : Nat} {x : HashInput}
    (h : hashChunkCell b col g = some x) :
    ∃ t v, b.fieldTypes[col]? = some t ∧ cell b col g = some (t, v) ∧ v.isNull = false ∧ v.kind =
    t.kind ∧ x = hashInput t v := by
  unfold hashChunkCell at h
  split at h
  next t v hcell =>
    obtain ⟨hnull, h⟩ := ite_none_left_eq_some.mp h
    have hparts := hcell
    simp only [cell, bind_eq_some_iff, map_eq_some_iff, Prod.mk.injEq] at hparts
    obtain ⟨t', ht, row, hrow, v', hv, rfl, rfl⟩ := hparts
    have hfits := DataChunks.cell_fits (mem_of_getElem? hrow) ht hv
    rw [PhysicalTypeID.fits, Bool.or_eq_true, decide_eq_true_eq] at hfits
    exact ⟨t', v', ht, hcell, by simpa using hnull, hfits.resolve_left hnull, (some.inj h).symm⟩
  next => cases h

theorem firstKeyDecides_single (ht : soundType t = true) (hbuild : build.fieldTypes[key.1]? = some t)
    (hprobe : probe.fieldTypes[key.2]? = some t) : FirstKeyDecides build probe [key] := by
  intro first hfirst i _ j _ x hx y hy
  obtain rfl := some.inj hfirst
  obtain ⟨tb, v, htb, hcellb, hnullb, hkindb, rfl⟩ := cell_of_hashed hx
  obtain ⟨tp, w, htp, hcellp, hnullp, hkindp, rfl⟩ := cell_of_hashed hy
  obtain rfl := some.inj (htb.symm.trans hbuild)
  obtain rfl := some.inj (htp.symm.trans hprobe)
  have hjoin : rowsJoin build probe [key] i j = true ↔ v = w := by
    rw [rowsJoin, all_cons, all_nil, Bool.and_true, cellsJoin, hcellb, hcellp]
    simp only [hnullb, hnullp, Bool.not_false, Bool.true_and]
    exact valuesEqual_sound ht hkindb hkindp
  have hcells : chunkCellsEqual build probe key.1 key.2 i j = true ↔ v = w := by
    rw [chunkCellsEqual, hcellb, hcellp]
    exact cellsEqual_sound ht hkindb hkindp
  exact ⟨hcells.trans hjoin.symm, fun h => congrArg (hashInput tp) (hjoin.mp h)⟩

/-- The hash join is right for every hash function exactly when the first key decides, as a single
key over two columns of one type does. -/
theorem executeJoin_correct_iff (build probe : DataChunks) (pairs : List (KeyOperand × KeyOperand))
    (keys : List (Nat × Nat)) (hne : keys ≠ []) (hresolves : Resolves build probe pairs keys)
    (hbuild : build.totalRows ≤ 2 ^ 32) (hprobe : probe.totalRows ≤ 2 ^ 32) :
    ((∀ hash, (executeJoin hash build probe pairs).Perm (joined build probe keys)) ↔
      FirstKeyDecides build probe keys) ∧
      ∀ key t, keys = [key] → soundType t = true → build.fieldTypes[key.1]? = some t →
        probe.fieldTypes[key.2]? = some t → FirstKeyDecides build probe keys := by
  obtain ⟨first, rest, rfl⟩ := exists_cons_of_ne_nil hne
  constructor
  · simp only [executeJoin_eq hne hresolves, executeBinary_eq first rest hbuild hprobe]
    constructor
    · exact firstKeyDecides_of_perm
    · intro h hash
      rw [probeMatches_eq_joined h hash]
  · rintro key t hkeys ht htb htp
    rw [hkeys]
    exact firstKeyDecides_single ht htb htp

def cities (rows : List (String × Int64)) : DataChunks where
  fieldTypes := [.string, .int64]
  fieldNames := ["name", "year"]
  chunks := [rows.map fun (name, year) => [.string name, .int64 year]]
  typed := by
    intro chunk hchunk row hrow
    obtain rfl := List.mem_singleton.mp hchunk
    obtain ⟨_, -, rfl⟩ := List.mem_map.mp hrow
    exact .cons rfl (.cons rfl .nil)

def sameName : KeyOperand × KeyOperand := (⟨"a.name", "a", "name"⟩, ⟨"b.name", "b", "name"⟩)

def sameYear : KeyOperand × KeyOperand := (⟨"a.year", "a", "year"⟩, ⟨"b.year", "b", "year"⟩)

theorem executeJoin_correct_on_names :
    (executeJoin (fun _ => 0) (cities [("Jena", 1)]) (cities [("Ulm", 2), ("Jena", 2)])
      [sameName]).Perm [(0, 1)] := by
  have h :=
    executeJoin_correct_iff (cities [("Jena", 1)]) (cities [("Ulm", 2), ("Jena", 2)]) [sameName]
    [(0, 0)]
    (by decide) (.cons ⟨by decide, by decide⟩ .nil) (by decide) (by decide)
  exact h.1.mpr (h.2 (0, 0) .string rfl rfl rfl rfl) _

/-- `a.name = b.name AND a.year = b.year`: the year is not compared. -/
theorem executeJoin_ignores_second_key :
    joined (cities [("Jena", 1)]) (cities [("Jena", 2)]) [(0, 0), (1, 1)] = [] ∧
      ∀ hash, executeJoin hash (cities [("Jena", 1)]) (cities [("Jena", 2)]) [sameName, sameYear] =
    [(0, 0)] := by
  constructor
  · decide
  · intro hash
    have hresolves : Resolves (cities [("Jena", 1)]) (cities [("Jena", 2)]) [sameName, sameYear]
        [(0, 0), (1, 1)] :=
      .cons ⟨by decide, by decide⟩ (.cons ⟨by decide, by decide⟩ .nil)
    rw [executeJoin_eq (by decide) hresolves, executeBinary_eq _ _ (by decide) (by decide),
      probeMatches_eq]
    have hmatched : matched hash (cities [("Jena", 1)]) (cities [("Jena", 2)]) 0 0 0 0 = true :=
      matched_iff.mpr ⟨.string "Jena", rfl, .string "Jena", rfl, rfl, by decide⟩
    have hone : (cities [("Jena", 1)]).totalRows = 1 := rfl
    have hone' : (cities [("Jena", 2)]).totalRows = 1 := rfl
    simp [hone, hone', hmatched]

end Keys

end HashJoin

end Akar
