import Akar.LegacyVector

namespace Akar.UnionQuery

open List LegacyVector Function

structure ResultChunk where
  fieldNames : List String
  numFields : Nat
  rows : List (List Value)

def rowsOf (chunks : List ResultChunk) : List (List Value) := chunks.flatMap (·.rows)

def valueToPhysicalType (v : Value) : PhysicalTypeID := match v.kind with
  | .null => .any
  | .bool => .bool
  | .int32 => .int32
  | .int16 => .int16
  | .int8 => .int8
  | .uint64 => .uint64
  | .uint32 => .uint32
  | .uint16 => .uint16
  | .uint8 => .uint8
  | .int128 | .uint128 => .int128
  | .double => .double
  | .float => .float
  | .string | .blob | .json => .string
  | .union | .map | .struct => .struct
  | .list => .list
  | .int64 | .date | .timestamp | .timestampTz | .timestampNs | .timestampMs | .timestampSec
  | .interval | .internalID
  | .dTime => .int64

def columnType (rows : List (List Value)) (col : Nat) : PhysicalTypeID :=
  valueToPhysicalType (((rows.filterMap (·[col]?)).find? fun v => !v.isNull).getD .null)

/-- The rows read from the columns that `rows_to_columns` makes of rows. -/
def rowsToColumns (casts : FloatCasts) (rows : List (List Value)) : List (List Value) :=
  rows.map (·.mapIdx fun col v => cell casts (columnType rows col) v)

structure Dedup where
  deduped : List (List Value)
  seen : UInt64 → List Nat

def Dedup.add (hashRow : List Value → UInt64) (s : Dedup) (row : List Value) : Dedup :=
  let h := hashRow row
  if (s.seen h).any fun i => (s.deduped[i]?).any (Value.partialEqAll · row) then s
  else ⟨s.deduped ++ [row], update s.seen h (s.seen h ++ [s.deduped.length])⟩

def dedup (hashRow : List Value → UInt64) (rows : List (List Value)) : List (List Value) :=
  (rows.foldl (Dedup.add hashRow) ⟨[], fun _ => []⟩).deduped

def mergeUnionChunks (casts : FloatCasts) (hashRow : List Value → UInt64)
    (left right : List ResultChunk) (all : Bool) : Except String (List ResultChunk) :=
  match left, right with
  | [], _ => .ok right
  | _, [] => .ok left
  | first :: _, _ =>
    match right.find? (·.numFields ≠ first.numFields) with
    | some c =>
      .error (s!"UNION column count mismatch: left has {first.numFields} columns, " ++
        s!"right has {c.numFields} columns")
    | none =>
      let deduped :=
        if all then rowsOf left ++ rowsOf right else dedup hashRow (rowsOf left ++ rowsOf right)
      if deduped.isEmpty then .ok [⟨[], 0, []⟩]
      else .ok [⟨first.fieldNames, (deduped.headD []).length, rowsToColumns casts deduped⟩]

inductive LogicalOperator where
  | projection (expressions : List String) (children : List LogicalOperator)
  | other (op : Nat)

def unionChild : List LogicalOperator → LogicalOperator
  | [op] => op
  | plan => .projection [] plan

def flattenUnionChild : LogicalOperator → List LogicalOperator
  | .projection [] children => children
  | op => [op]

section Paths

variable (execute : List LogicalOperator → List ResultChunk)

/-- The union of a connection, which does not read `all`. -/
def connectionUnion (left right : List LogicalOperator) (_all : Bool) : List ResultChunk :=
  execute left ++ execute right

def plannedUnion (casts : FloatCasts) (hashRow : List Value → UInt64)
    (left right : List LogicalOperator) (all : Bool) : Except String (List ResultChunk) :=
  mergeUnionChunks casts hashRow (execute (flattenUnionChild (unionChild left)))
    (execute (flattenUnionChild (unionChild right))) all

end Paths

def Distinct (rows : List (List Value)) : Prop := rows.Pairwise fun a b => ¬Value.partialEqAll a b

def Answers (left right : List (List Value)) (all : Bool) (rows : List (List Value)) : Prop :=
  if all then rows.Perm (left ++ right) else Distinct rows ∧ ∀ row, row ∈ rows ↔ row ∈ left ∨
    row ∈ right

/-- Every value is null or kept by a vector of the type of its column's first value. -/
def Kept (rows : List (List Value)) : Prop :=
  ∀ row ∈ rows, ∀ col v, row[col]? = some v → keeps (columnType rows col) v = true

variable {casts : FloatCasts} {hashRow : List Value → UInt64} {rows : List (List Value)}
  {left right : List ResultChunk}

theorem flatten_unionChild {plan : List LogicalOperator}
    (h : ∀ children, plan ≠ [.projection [] children]) :
    flattenUnionChild (unionChild plan) = plan := by
  match plan with
  | [] => rfl
  | _ :: _ :: _ => rfl
  | [.other _] => rfl
  | [.projection (_ :: _) _] => rfl
  | [.projection [] children] => exact absurd rfl (h children)

theorem rowsToColumns_of_kept (h : Kept rows) : rowsToColumns casts rows = rows := by
  have hrow : ∀ row ∈ rows, row.mapIdx (fun col v => cell casts (columnType rows col) v) = row := by
    intro row hmem
    refine ext_getElem? fun col => ?_
    rw [getElem?_mapIdx]
    cases hv : row[col]? with
    | none => rfl
    | some v => rw [Option.map_some, (cell_eq_self_iff casts).mpr (h row hmem col v hv)]
  rw [rowsToColumns, map_congr_left hrow, map_id']

/-- What comes out of the columns is kept by them, so columns that give back the same rows keep
them. -/
theorem kept_of_perm (h : (rowsToColumns casts rows).Perm rows) : Kept rows := by
  intro row hrow col v hv
  obtain ⟨old, -, rfl⟩ := mem_map.mp (h.mem_iff.mpr hrow)
  rw [getElem?_mapIdx] at hv
  obtain ⟨w, -, rfl⟩ := Option.map_eq_some_iff.mp hv
  exact keeps_cell casts _ w

theorem foldl_add {s : Dedup} (h : Distinct (s.deduped ++ rows)) :
    (rows.foldl (Dedup.add hashRow) s).deduped = s.deduped ++ rows := by
  induction rows generalizing s with
  | nil => simp
  | cons row rows ih =>
    have hnew : ((s.seen (hashRow row)).any fun i =>
        (s.deduped[i]?).any (Value.partialEqAll · row)) = false := by
      rw [any_eq_false]
      intro i _ hany
      cases hold : s.deduped[i]? with
      | none => simp [hold] at hany
      | some old =>
        rw [hold] at hany
        exact (pairwise_append.mp h).2.2 old (mem_of_getElem? hold) row mem_cons_self hany
    have hadd : (s.add hashRow row).deduped = s.deduped ++ [row] := by
      simp only [Dedup.add, hnew]
      rfl
    rw [foldl_cons, ih (by rwa [hadd, append_assoc]), hadd, append_assoc]
    rfl

/-- With a chunk on both sides, the rows of both go through new columns. -/
def merged (casts : FloatCasts) (left right : List ResultChunk) : List (List Value) :=
  if left = [] ∨ right = [] then rowsOf left ++
    rowsOf right else rowsToColumns casts (rowsOf left ++ rowsOf right)

theorem mergeUnionChunks_rows (casts : FloatCasts) {n : Nat} (hashRow : List Value → UInt64)
    {all : Bool}
    (hwidth : ∀ c ∈ left ++ right, c.numFields = n)
    (h : all = true ∨ Distinct (rowsOf left ++ rowsOf right)) :
    ∃ out, mergeUnionChunks casts hashRow left right all = .ok out ∧ rowsOf out =
      merged casts left right := by
  unfold mergeUnionChunks merged
  split
  next => exact ⟨right, rfl, by simp [rowsOf]⟩
  next => exact ⟨left, rfl, by simp [rowsOf]⟩
  next first rest hright =>
    have hfirst := hwidth first (mem_append_left _ mem_cons_self)
    have hfind : right.find? (·.numFields ≠ first.numFields) = none := by
      rw [find?_eq_none]
      intro c hc
      simp [hfirst, hwidth c (mem_append_right _ hc)]
    have hall : (if all then rowsOf (first :: rest) ++ rowsOf right
        else dedup hashRow (rowsOf (first :: rest) ++ rowsOf right)) = rowsOf (first :: rest) ++
          rowsOf right := by
      split
      next => rfl
      next hnot => exact foldl_add (h.resolve_left hnot)
    have hne : ¬(first :: rest = [] ∨ right = []) := by simpa using hright
    simp only [hfind, hall, if_neg hne]
    split
    next hempty => exact ⟨_, rfl, by rw [List.isEmpty_iff.mp hempty]; rfl⟩
    next => exact ⟨_, rfl, append_nil _⟩

theorem merged_perm_iff (casts : FloatCasts) :
    (merged casts left right).Perm (rowsOf left ++ rowsOf right) ↔
    left = [] ∨ right = [] ∨ Kept (rowsOf left ++ rowsOf right) := by
  unfold merged
  split
  next h => exact iff_of_true (.refl _) (h.imp_right .inl)
  next h =>
    obtain ⟨hleft, hright⟩ := not_or.mp h
    simp only [hleft, hright, false_or]
    exact ⟨kept_of_perm, fun hkept => by rw [rowsToColumns_of_kept hkept]⟩

def oneRow : List LogicalOperator → List ResultChunk
  | [.other n] => [⟨["n"], 1, [[.int64 (.ofNat n)]]⟩]
  | _ => []

def noCasts : FloatCasts := ⟨fun _ => 0, fun _ => 0, fun _ => 0⟩

section Optional

variable (casts : FloatCasts) (hash : Value → UInt64) (left right : List ResultChunk)

def namesOf (chunks : List ResultChunk) : List String := (chunks.head?.map (·.fieldNames)).getD []

def joinColumns (leftNames rightNames : List String) : Option (Nat × Nat) :=
  (leftNames.findIdx? rightNames.contains).bind fun li =>
    (rightNames.findIdx? (some · = leftNames[li]?)).map fun ri => (li, ri)

def hashIndex (ri : Nat) (rows : List (List Value)) : UInt64 → List (List Value) :=
  rows.foldl (fun table row =>
    match row[ri]? with
    | some v => if v.isNull then table else update table (hash v) (table (hash v) ++ [row])
    | none => table) fun _ => []

def bucketMatches (li ri : Nat) (table : UInt64 → List (List Value)) (lrow : List Value) :
    List (List Value) :=
  match lrow[li]? with
  | some key =>
    if key.isNull then [] else (table (hash key)).filter fun r =>
    (r[ri]?).any (Value.partialEq · key)
  | none => []

def padded (numRightCols : Nat) (lrow : List Value) (found : List (List Value)) : List (List Value) :=
  if found.isEmpty then [lrow ++ replicate numRightCols .null] else found.map (lrow ++ ·)

def combined (leftRows rightRows : List (List Value)) (numRightCols : Nat) : List (List Value) :=
  match joinColumns (namesOf left) (namesOf right) with
  | some (li, ri) =>
    leftRows.flatMap fun l =>
      padded numRightCols l (bucketMatches hash li ri (hashIndex hash ri rightRows) l)
  | none => leftRows.flatMap fun l => rightRows.map (l ++ ·)

def mergeOptionalChunks : List ResultChunk :=
  let leftRows := rowsOf left
  let rightRows := rowsOf right
  let numRightCols := (rightRows.head?.map List.length).getD (namesOf right).length
  let chunk (rows : List (List Value)) : List ResultChunk :=
    [⟨namesOf left ++ namesOf right, (rows.headD []).length, rowsToColumns casts rows⟩]
  if left.isEmpty || right.isEmpty || leftRows.isEmpty then left
  else if rightRows.isEmpty then
    if numRightCols = 0 then left else chunk (leftRows.map (· ++ replicate numRightCols .null))
  else if (combined hash left right leftRows rightRows numRightCols).isEmpty then []
  else chunk (combined hash left right leftRows rightRows numRightCols)

def sharedColumns (leftNames rightNames : List String) : List (Nat × Nat) :=
  leftNames.zipIdx.filterMap fun n => (rightNames.findIdx? (· = n.1)).map fun ri => (n.2, ri)

def agree (shared : List (Nat × Nat)) (l r : List Value) : Bool :=
  shared.all fun s => (l[s.1]?).any fun v => !v.isNull && (r[s.2]?).any fun w =>
    !w.isNull && w.partialEq v

def outerJoin : List (List Value) := (rowsOf left).flatMap fun l => padded (namesOf right).length l
    ((rowsOf right).filter (agree (sharedColumns (namesOf left) (namesOf right)) l))

variable {hash left right}

theorem head?_shared (rn ln : List String) (k : Nat) :
    ((ln.zipIdx k).filterMap fun n => (rn.findIdx? (· = n.1)).map fun ri => (n.2, ri)).head? =
      (ln.findIdx? rn.contains).bind fun li => (rn.findIdx? (some · = ln[li]?)).map fun ri =>
        (li + k, ri) := by
  induction ln generalizing k with
  | nil => rfl
  | cons n ln ih =>
    rw [zipIdx_cons, filterMap_cons, findIdx?_cons]
    cases hn : rn.findIdx? (· = n) with
    | none =>
      have hout : n ∉ rn := fun h => by simpa using findIdx?_eq_none_iff.mp hn n h
      simp [hout, ih, Option.bind_map, Nat.add_assoc, Nat.add_comm 1]
    | some ri =>
      have hin : n ∈ rn := by
        obtain ⟨hlt, hget, _⟩ := findIdx?_eq_some_iff_getElem.mp hn
        exact of_decide_eq_true hget ▸ getElem_mem hlt
      simp [hin, hn]

theorem joinColumns_eq (ln rn : List String) : joinColumns ln rn = (sharedColumns ln rn).head? :=
  (head?_shared rn ln 0).symm

theorem foldl_hashIndex (ri : Nat) (rows : List (List Value)) (table : UInt64 → List (List Value))
    (h : UInt64) :
    rows.foldl (fun table row =>
      match row[ri]? with
      | some v => if v.isNull then table else update table (hash v) (table (hash v) ++ [row])
      | none => table) table h =
      table h ++ rows.filter fun row => (row[ri]?).any fun v => !v.isNull && hash v = h := by
  induction rows generalizing table with
  | nil => simp
  | cons row rows ih =>
    rw [foldl_cons, ih, filter_cons]
    cases row[ri]? with
    | none => simp
    | some v =>
      by_cases hnull : v.isNull
      · simp [hnull]
      · by_cases hv : hash v = h
        · simp [hnull, hv]
        · simp [hnull, hv, update_of_ne (Ne.symm hv)]

/-- The pairs that the hash index lets meet: equal on the one column, with equal hashes. -/
def meets (hash : Value → UInt64) (li ri : Nat) (l r : List Value) : Bool :=
  agree [(li, ri)] l r && (l[li]?).map hash = (r[ri]?).map hash

theorem bucketMatches_eq (hash : Value → UInt64) (li ri : Nat) (rows : List (List Value))
    (l : List Value) :
    bucketMatches hash li ri (hashIndex hash ri rows) l = rows.filter (meets hash li ri l) := by
  unfold bucketMatches hashIndex
  cases hkey : l[li]? with
  | none => simp [meets, agree, hkey]
  | some key =>
    by_cases hnull : key.isNull
    · simp [meets, agree, hkey, hnull]
    · simp only [foldl_hashIndex, nil_append, filter_filter, hnull]
      refine filter_congr fun r _ => ?_
      cases hr : r[ri]? with
      | none => simp [meets, agree, hkey, hr]
      | some w =>
        by_cases hw : w.isNull
        · simp [meets, agree, hkey, hr, hw]
        · cases heq : w.partialEq key <;> by_cases hhash : hash w = hash key <;>
            simp [meets, agree, hkey, hr, hw, hnull, heq, hhash, eq_comm]

theorem padded_ne_nil (n : Nat) (l : List Value) (found : List (List Value)) : padded n l found ≠
    [] := by
  cases found <;> simp [padded]

/-- A null row is told apart from the rows found by a column that is null in none of them. -/
theorem padded_inj {n ri : Nat} {l : List Value} {found found' : List (List Value)}
    (h : ∀ r ∈ found, ∃ v, r[ri]? = some v ∧ v.isNull = false)
    (h' : ∀ r ∈ found', ∃ v, r[ri]? = some v ∧ v.isNull = false)
    (heq : padded n l found = padded n l found') :
    found = found' := by
  have hnull (r : List Value) (hr : ∃ v, r[ri]? = some v ∧ v.isNull = false) :
      r ≠ replicate n .null := by
    rintro rfl
    obtain ⟨v, hv, hvnull⟩ := hr
    rw [getElem?_replicate] at hv
    split at hv
    · cases hv
      cases hvnull
    · cases hv
  have hinj : Function.Injective (l ++ · : List Value → List Value) := fun _ _ => append_cancel_left
  cases found with
  | nil =>
    cases found' with
    | nil => rfl
    | cons r rest =>
      have hrow := append_cancel_left (cons.inj heq).1
      exact absurd hrow.symm (hnull r (h' r mem_cons_self))
  | cons r rest =>
    cases found' with
    | nil =>
      have hrow := append_cancel_left (cons.inj heq).1
      exact absurd hrow (hnull r (h r mem_cons_self))
    | cons => exact hinj.list_map heq

section Keyed

open Classical in
/-- Where every item tells which element it came from, two ways to expand a list agree only element
by element. -/
theorem flatMap_inj_of_keyed {α β : Type} {f g : α → List β} {key : β → α} {l : List α}
    (hf : ∀ a ∈ l, ∀ b ∈ f a, key b = a) (hg : ∀ a ∈ l, ∀ b ∈ g a, key b = a)
    (h : l.flatMap f = l.flatMap g) :
    ∀ a ∈ l, f a = g a := by
  have hcount {f : α → List β} (a : α) {l : List α} (hf : ∀ a ∈ l, ∀ b ∈ f a, key b = a) :
      (l.flatMap f).countP (fun b => key b = a) = l.count a * (f a).length := by
    induction l with
    | nil => simp
    | cons c l ih =>
      obtain ⟨hc, hl⟩ := forall_mem_cons.mp hf
      rw [flatMap_cons, countP_append, ih hl]
      by_cases hca : c = a
      · subst hca
        rw [count_cons_self, countP_eq_length.mpr fun b hb =>
          by simpa using hc b hb, Nat.succ_mul, Nat.add_comm]
      · have hnone : (f c).countP (fun b => key b = a) = 0 :=
          countP_eq_zero.mpr fun b hb => by simpa [hc b hb] using hca
        rw [hnone, count_cons_of_ne (by simpa using hca), Nat.zero_add]
  have hlen : ∀ a ∈ l, (f a).length = (g a).length := by
    intro a ha
    have hsame := (hcount a hf).symm.trans ((congrArg (countP _) h).trans (hcount a hg))
    exact Nat.eq_of_mul_eq_mul_left (count_pos_iff.mpr ha) hsame
  clear hcount hf hg
  induction l with
  | nil => exact forall_mem_nil _
  | cons c l ih =>
    obtain ⟨hc, hl⟩ := forall_mem_cons.mp hlen
    obtain ⟨hfirst, hrest⟩ := append_inj h hc
    exact forall_mem_cons.mpr ⟨hfirst, ih hrest hl⟩

end Keyed

/-- Between the rows of the sides, the first shared column and its hash decide what all shared
columns say. -/
def FirstDecides (hash : Value → UInt64) (left right : List ResultChunk) : Prop :=
  ∀ li ri, joinColumns (namesOf left) (namesOf right) = some (li, ri) → ∀ l ∈ rowsOf left,
    ∀ r ∈ rowsOf right,
    meets hash li ri l r = agree (sharedColumns (namesOf left) (namesOf right)) l r

theorem notNull_of_agree {li ri : Nat} {shared : List (Nat × Nat)} {l r : List Value}
    (hmem : (li, ri) ∈ shared)
    (h : agree shared l r = true) : ∃ v, r[ri]? = some v ∧ v.isNull = false := by
  have hpair := all_eq_true.mp h _ hmem
  cases hr : r[ri]? with
  | none => cases hl : l[li]? <;> simp [hl, hr] at hpair
  | some w =>
    refine ⟨w, rfl, ?_⟩
    cases hl : l[li]? <;> simp [hl, hr] at hpair
    exact hpair.2.1

theorem combined_eq_iff {w : Nat} (hwidth : ∀ l ∈ rowsOf left, l.length = w)
    (hrows : rowsOf right ≠ []) :
    combined hash left right (rowsOf left) (rowsOf right) (namesOf right).length =
    outerJoin left right ↔ FirstDecides hash left right := by
  unfold combined outerJoin FirstDecides
  cases hs : joinColumns (namesOf left) (namesOf right) with
  | none =>
    have hnone := (joinColumns_eq (namesOf left) (namesOf right)).symm.trans hs
    rw [head?_eq_none_iff.mp hnone]
    have hall (l : List Value) : (rowsOf right).filter (agree [] l) = rowsOf right :=
      filter_eq_self.mpr fun _ _ => rfl
    simp [hall, padded, hrows]
  | some columns =>
    obtain ⟨li, ri⟩ := columns
    have hfirst : (li, ri) ∈ sharedColumns (namesOf left) (namesOf right) :=
      mem_of_mem_head? ((joinColumns_eq (namesOf left) (namesOf right)).symm.trans hs)
    have hkey (found : List Value → List (List Value)) : ∀ l ∈ rowsOf left,
        ∀ row ∈ padded (namesOf right).length l (found l), row.take w = l := by
      intro l hl row hrow
      unfold padded at hrow
      split at hrow
      · rw [mem_singleton.mp hrow, ← hwidth l hl, take_left]
      · obtain ⟨r, -, rfl⟩ := mem_map.mp hrow
        rw [← hwidth l hl, take_left]
    simp only [bucketMatches_eq]
    constructor
    · intro heq li' ri' hsome l hl r hr
      cases hsome
      have hpieces := flatMap_inj_of_keyed (hkey _) (hkey _) heq l hl
      have hmeets : ∀ r ∈ (rowsOf right).filter (meets hash li ri l), ∃ v, r[ri]? = some v ∧
          v.isNull = false :=
        fun r hr => notNull_of_agree (mem_singleton_self _)
          (Bool.and_eq_true_iff.mp (mem_filter.mp hr).2).1
      have hagree :
          ∀ r ∈ (rowsOf right).filter (agree (sharedColumns (namesOf left) (namesOf right)) l),
          ∃ v, r[ri]? = some v ∧ v.isNull = false :=
        fun r hr => notNull_of_agree hfirst (mem_filter.mp hr).2
      have hfound := padded_inj hmeets hagree hpieces
      rw [Bool.eq_iff_iff]
      constructor
      · exact fun h => (mem_filter.mp (hfound ▸ mem_filter.mpr ⟨hr, h⟩)).2
      · exact fun h => (mem_filter.mp (hfound.symm ▸ mem_filter.mpr ⟨hr, h⟩)).2
    · intro h
      refine flatMap_congr fun l hl => congrArg (padded _ l) (filter_congr fun r hr => ?_)
      exact h li ri rfl l hl r hr

end Optional

/-- The rows that new columns are made of. -/
def joinedRows (hash : Value → UInt64) (left right : List ResultChunk) : List (List Value) :=
  if rowsOf right = [] then (rowsOf left).map (· ++ replicate (namesOf right).length .null)
  else combined hash left right (rowsOf left) (rowsOf right) (namesOf right).length

def OuterJoined (left right out : List ResultChunk) : Prop :=
  out ≠ [] ∧ (∀ c ∈ out, c.fieldNames = namesOf left ++ namesOf right) ∧ rowsOf out =
    outerJoin left right

theorem joinedRows_eq_iff {hash : Value → UInt64} {left right : List ResultChunk} {w : Nat}
    (hwidth : ∀ l ∈ rowsOf left, l.length = w) :
    joinedRows hash left right = outerJoin left right ↔ FirstDecides hash left right := by
  unfold joinedRows
  split
  next hrows =>
    refine iff_of_true ?_ fun _ _ _ _ _ r hr => by rw [hrows] at hr; cases hr
    simp [outerJoin, hrows, padded, map_eq_flatMap]
  next hrows => exact combined_eq_iff hwidth hrows

section Outcome

variable {casts : FloatCasts} {hash : Value → UInt64} {left right : List ResultChunk}

theorem firstDecides_of_nil (h : rowsOf left = [] ∨ rowsOf right = []) :
    FirstDecides hash left right := by
  intro _ _ _ l hl r hr
  rcases h with h | h
  · rw [h] at hl
    cases hl
  · rw [h] at hr
    cases hr

theorem outerJoined_left (hne : left ≠ []) (hnames : ∀ c ∈ left, c.fieldNames = namesOf left)
    (hrows : rowsOf left = [] ∨ rowsOf right = [] ∧ namesOf right = []) :
    OuterJoined left right left ↔ namesOf right = [] := by
  constructor
  · rintro ⟨-, hall, -⟩
    obtain ⟨c, rest, rfl⟩ := exists_cons_of_ne_nil hne
    have hc := (hnames c mem_cons_self).symm.trans (hall c mem_cons_self)
    simpa using hc
  · intro hnil
    refine ⟨hne, fun c hc => by rw [hnil, append_nil, hnames c hc], ?_⟩
    rcases hrows with h | ⟨h, -⟩
    · simp [outerJoin, h]
    · simp [outerJoin, h, hnil, padded]

theorem mergeOptionalChunks_columns (hright : ∀ r ∈ rowsOf right, r.length = (namesOf right).length)
    (hrows : rowsOf left ≠ []) (hne : right ≠ []) (hadd : ¬(rowsOf right = [] ∧ namesOf right = [])) :
    ∃ n, mergeOptionalChunks casts hash left right =
      [⟨namesOf left ++ namesOf right, n, rowsToColumns casts (joinedRows hash left right)⟩] := by
  have hsides : (left.isEmpty || right.isEmpty || (rowsOf left).isEmpty) = false := by
    have hleft : left ≠ [] := by
      rintro rfl
      exact hrows rfl
    simp [hleft, hne, hrows]
  have hcols : ((rowsOf right).head?.map List.length).getD (namesOf right).length =
      (namesOf right).length := by
    cases hr : rowsOf right with
    | nil => rfl
    | cons r rs => exact hright r (hr ▸ mem_cons_self)
  simp only [mergeOptionalChunks, hsides, hcols]
  by_cases hempty : rowsOf right = []
  · have hnames : namesOf right ≠ [] := fun h => hadd ⟨hempty, h⟩
    exact ⟨((joinedRows hash left right).headD []).length, by simp [hempty, hnames, joinedRows]⟩
  · have hfull : combined hash left right (rowsOf left) (rowsOf right) (namesOf right).length ≠ [] := by
      obtain ⟨l, ls, hl⟩ := exists_cons_of_ne_nil hrows
      unfold combined
      split
      · simp [hl, padded_ne_nil]
      · simp [hl, hempty]
    exact ⟨((joinedRows hash left right).headD []).length, by simp [hempty, hfull, joinedRows]⟩

end Outcome

def numbers (names : List String) (rows : List (List Int64)) : List ResultChunk :=
  [⟨names, names.length, rows.map (·.map .int64)⟩]

end Akar.UnionQuery
