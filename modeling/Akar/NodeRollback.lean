import Akar.TableWrites

namespace Akar

open List Option

namespace ArtIndex

def without (ix : ArtIndex) (entries : List UInt8 → List Nat) : ArtIndex :=
  ⟨fun key => (ix.offsets key).diff (entries key)⟩

def entry (key : Option (List UInt8)) (n : Nat) (k : List UInt8) : List Nat :=
  if key = some k then [n] else []

variable {ix : ArtIndex} {key : Option (List UInt8)} {n : Nat} {entries : List UInt8 → List Nat}

theorem unfile_without (hne : key ≠ some []) :
    (ix.unfile key n).without entries = ix.without fun k => entry key n k ++ entries k := by
  ext1
  funext k
  simp only [without, offsets_unfile ix hne, entry]
  split <;> simp

theorem file_without_unfile (hne : key ≠ some []) (hnew : ix.Below n) :
    ((ix.file key n).without entries).unfile key n = ix.without fun k => entry key n k ++
      entries k := by
  ext1
  funext k
  have hn : n ∉ ix.offsets k := fun hmem => Nat.lt_irrefl n (hnew k n hmem)
  rw [offsets_unfile _ hne]
  simp only [without, offsets_file ix hne, entry]
  split
  · -- the offset filed last is erased, whether or not a later write already took it out
    rw [diff_erase, erase_append_right _ hn]
    simp [erase_of_not_mem hn]
  · simp

end ArtIndex

namespace NodeTable

def splice (col : Nat) (values row : List Value) : List Value :=
  row.take col ++ values ++ row.drop (col + values.length)

theorem splice_set {col : Nat} {v : Value} {values row : List Value} (h : col < row.length) :
    splice (col + 1) values (row.set col v) = splice col (v :: values) row := by
  have hlen : col + 1 + values.length = col + (values.length + 1) := by omega
  have htake : (row.set col v).take (col + 1) = row.take col ++ [v] := by
    rw [take_set, take_add_one, getElem?_eq_getElem h, toList_some,
      set_append_right _ _ (by simp), length_take_of_le (by omega), Nat.sub_self]
    rfl
  simp only [splice, htake, length_cons, hlen]
  rw [drop_set_of_lt (by omega)]
  simp

theorem restoreCells_spec (t : NodeTable) (r col : Nat) (values : List Value) (hr : r < t.numRows)
    (hc : col + values.length ≤ t.columns.length) :
    (t.restoreCells r col values).toNodeSchema = t.toNodeSchema ∧
      (t.restoreCells r col values).hashIndex = t.hashIndex ∧
      (t.restoreCells r col values).artIndex = t.artIndex ∧
      (t.restoreCells r col values).rows = t.rows.modify r (splice col values) := by
  induction values generalizing t col with
  | nil =>
    refine ⟨rfl, rfl, rfl, ?_⟩
    rw [modify_eq_self fun row _ => by simp [splice]]
    rfl
  | cons v values ih =>
    rw [length_cons] at hc
    have hset : t.updateCell r col v = .ok (t.setCell r col v) := updateCell_ok (by omega) hr
    have hnum : r < (t.setCell r col v).numRows := by simpa [numRows] using hr
    have hcol : col + 1 + values.length ≤ (t.setCell r col v).columns.length := by
      rw [show (t.setCell r col v).columns = t.columns from rfl]
      omega
    obtain ⟨hs, hh, ha, hrows⟩ := ih _ _ hnum hcol
    simp only [restoreCells, hset, Except.toOption, getD_some]
    refine ⟨hs, hh, ha, ?_⟩
    rw [hrows, setCell_rows, modify_modify_eq]
    apply modify_congr
    intro row hrow
    exact splice_set (by rw [row_length hrow]; omega)

/-- `s` is what undoing some writes on `t` leaves: the slots they added are empty, and the keys and
ART entries they touched are gone from the indexes. -/
structure Reverted (s t : NodeTable) (keys : List String) (entries : List UInt8 → List Nat) : Prop where
  schema : s.toNodeSchema = t.toNodeSchema
  rows : ∃ n, s.rows = t.rows ++ replicate n (t.columns.map fun _ => .null)
  hash : ∀ key, s.hashIndex.lookup key = if key ∈ keys then none else t.hashIndex.lookup key
  art : s.artIndex = t.artIndex.map (·.without entries)

theorem reverted_refl (t : NodeTable) : t.Reverted t [] fun _ => [] where
  schema := rfl
  rows := ⟨0, by simp⟩
  hash := by simp
  art := by simp [ArtIndex.without]

theorem Reverted.row {s t : NodeTable} {keys : List String} {entries : List UInt8 → List Nat} {r : Nat}
    {row : List Value} (h : s.Reverted t keys entries) (hr : t.rows[r]? = some row) : s.rows[r]? =
      some row := by
  obtain ⟨n, hn⟩ := h.rows
  rw [hn, getElem?_append_left (lt_length_of_getElem? hr), hr]

theorem live_nulls (t : NodeTable) : t.live (t.columns.map fun _ => .null) = false := by
  cases hpk : t.hasPk with
  | true =>
    simp only [NodeSchema.live, NodeSchema.pkOf, hpk, ↓reduceIte]
    cases hv : (t.columns.map fun _ => Value.null)[t.primaryKeyColumn]? with
    | none => rfl
    | some v =>
      have hmem := mem_of_getElem? hv
      simp only [List.mem_map] at hmem
      obtain ⟨_, _, rfl⟩ := hmem
      simp
  | false => simp [NodeSchema.live, hpk]

theorem Reverted.live_iff {s t : NodeTable} {keys : List String} {entries : List UInt8 → List Nat}
    (h : s.Reverted t keys entries) (r : Nat) (row : List Value) :
    s.rows[r]? = some row ∧ s.live row ↔ t.rows[r]? = some row ∧ t.live row := by
  obtain ⟨n, hn⟩ := h.rows
  rw [h.schema]
  apply and_congr_left
  intro hlive
  constructor
  · intro hs
    rw [hn] at hs
    by_cases hr : r < t.rows.length
    · rwa [getElem?_append_left hr] at hs
    · rw [getElem?_append_right (by omega)] at hs
      have hmem := eq_of_mem_replicate (mem_of_getElem? hs)
      rw [hmem, live_nulls] at hlive
      cases hlive
  · exact h.row

theorem diff_eq_self_iff {l l' : List Nat} : l.diff l' = l ↔ ∀ x ∈ l', x ∉ l := by
  induction l' generalizing l with
  | nil => simp
  | cons x l' ih =>
    rw [diff_cons, forall_mem_cons]
    by_cases hx : x ∈ l
    · refine iff_of_false (fun heq => ?_) fun hh => hh.1 hx
      have hle := (diff_sublist (l.erase x) l').length_le
      rw [heq, length_erase_of_mem hx] at hle
      have hpos := length_pos_of_mem hx
      omega
    · rw [erase_of_not_mem hx, ih]
      exact (and_iff_right hx).symm

theorem artKeyOf_ne_nil (t : NodeSchema) (row : List Value) : t.artKeyOf row ≠ some [] := by
  intro h
  obtain ⟨v, _, hv⟩ := bind_eq_some_iff.mp h
  exact artKeyFromValue_ne_nil v hv

section

variable [Rendering]

def touchedRow (t : NodeTable) : WriteOp → Option (List Value × Nat)
  | .insertRow values => (checkedRow t.toNodeSchema values).toOption.map (·, t.numRows)
  | .deleteRow r => (t.rows[r]?).map (·, r)
  | .updateCell .. | .insertRel .. => none

def touchedKey (t : NodeTable) (op : WriteOp) : List String :=
  ((t.touchedRow op).bind fun row => t.keyOf row.1).toList

def touchedArt (t : NodeTable) (op : WriteOp) : List UInt8 → List Nat := match t.touchedRow op with
  | some (row, offset) => ArtIndex.entry (t.artKeyOf row) offset
  | none => fun _ => []

variable {s t : NodeTable} {tableId r c : Nat} {v : Value} {values row : List Value}
    {keys : List String}
  {entries : List UInt8 → List Nat}

theorem Reverted.undo_insertRow (hrow : checkedRow t.toNodeSchema values = .ok row)
    (h : s.Reverted (t.appendRow row (checkedRow_length hrow)) keys entries) :
    ∃ s', s.undo (.insert tableId t.numRows) = .ok s' ∧
      s'.Reverted t (t.touchedKey (.insertRow values) ++ keys)
        fun key => t.touchedArt (.insertRow values) key ++ entries key := by
  obtain ⟨n, hn⟩ := h.rows
  have hat : s.rows[t.numRows]? = some row := h.row (by simp [numRows])
  have hrow' : t.touchedRow (.insertRow values) = some (row, t.numRows) := by
    simp [touchedRow, hrow, Except.toOption]
  refine ⟨s.buryRow t.numRows row, ?_, h.schema, ⟨n + 1, ?_⟩, ?_, ?_⟩
  · simp [undo, UndoRecord.insert, deleteRow_ok hat, Except.toOption]
  · rw [buryRow_rows, hn, appendRow_rows, modify_append_left (by simp [numRows]), numRows,
      modify_concat, nullRow, map_const', checkedRow_length hrow, ← map_const', append_assoc]
    rfl
  · intro key
    rw [buryRow_hashIndex, HashIndex.lookup_unfile, h.hash, appendRow_hashIndex,
      HashIndex.lookup_file, h.schema]
    simp only [touchedKey, hrow', bind_some, appendRow_toNodeSchema]
    by_cases hk : t.keyOf row = some key <;> simp [hk]
  · rw [buryRow_artIndex, h.art, appendRow_artIndex, Option.map_map, Option.map_map, h.schema]
    apply Option.map_congr
    intro art hart
    simp only [touchedArt, hrow']
    exact ArtIndex.file_without_unfile (artKeyOf_ne_nil _ _) (t.filed art hart)

theorem Reverted.undo_updateCell (hc : c < t.columns.length) (hr : r < t.numRows)
    (hsaved : ReadsBack [(t.getValue r c).getD .null]) (h : s.Reverted (t.setCell r c v) keys entries) :
    ∃ s', s.undo (.update tableId r c (t.cellUndo r c)) = .ok s' ∧ s'.Reverted t keys entries := by
  obtain ⟨row, hrow⟩ := exists_row hr
  obtain ⟨n, hn⟩ := h.rows
  have hcell : c < row.length := by rw [row_length hrow]; exact hc
  have hr' : r < s.numRows := by
    simp only [numRows, hn, setCell_rows, length_append, length_modify]
    exact Nat.lt_add_right _ hr
  have hc' : c < s.columns.length := by rw [h.schema]; exact hc
  refine ⟨s.setCell r c row[c], ?_, h.schema, ⟨n, ?_⟩, h.hash, h.art⟩
  · have hread := hsaved.payload (n := 1) rfl
    have hcells : (t.getValue r c).getD .null = row[c] := by simp [getValue_of_row hrow, hcell]
    rw [hcells] at hread
    simp [undo, UndoRecord.update, cellUndo, hcells, hread, updateCell_ok hc' hr', Except.mapError]
  · rw [setCell_rows, hn, setCell_rows, modify_append_left (by rw [length_modify]; exact hr),
      modify_modify_eq, modify_eq_self]
    · rfl
    · intro row' hrow'
      cases hrow.symm.trans hrow'
      simp

theorem Reverted.undo_deleteRow (hrow : t.rows[r]? = some row) (hsaved : ReadsBack row)
    (h : s.Reverted (t.buryRow r row) keys entries) :
    ∃ s', s.undo (.delete tableId r (t.rowUndo r)) = .ok s' ∧
      s'.Reverted t (t.touchedKey (.deleteRow r) ++ keys)
        fun key => t.touchedArt (.deleteRow r) key ++ entries key := by
  obtain ⟨n, hn⟩ := h.rows
  have hw := row_length hrow
  have hr := lt_length_of_getElem? hrow
  have hr' : r < s.numRows := by
    rw [numRows, hn, buryRow_rows, length_append, length_modify]
    omega
  have hcols : s.columns = t.columns := congrArg NodeSchema.columns h.schema
  have hrow' : t.touchedRow (.deleteRow r) = some (row, r) := by simp [touchedRow, hrow]
  obtain ⟨hs, hh, ha, hrows⟩ := restoreCells_spec s r 0 row hr' (by rw [hcols]; omega)
  refine ⟨s.restoreCells r 0 row, ?_, hs.trans h.schema, ⟨n, ?_⟩, ?_, ?_⟩
  · simp only [undo, UndoRecord.delete, rowUndo_of_row hrow, hcols, hsaved.payload hw]
  · rw [hrows, hn, buryRow_rows, modify_append_left (by rw [length_modify]; exact hr),
      modify_modify_eq, modify_eq_self]
    · rfl
    · intro row₀ hrow₀
      cases hrow.symm.trans hrow₀
      simp [splice, nullRow_length]
  · intro key
    rw [hh, h.hash, buryRow_hashIndex, HashIndex.lookup_unfile]
    simp only [touchedKey, hrow', bind_some]
    by_cases hk : t.keyOf row = some key <;> simp [hk]
  · rw [ha, h.art, buryRow_artIndex, Option.map_map]
    apply Option.map_congr
    intro art _
    simp only [touchedArt, hrow']
    exact ArtIndex.unfile_without (artKeyOf_ne_nil _ _)

theorem Reverted.undo_write {op : WriteOp} {w : Written NodeTable} (hw : t.Writes tableId op w)
    (hsaved : t.Saved op) (h : s.Reverted w.table keys entries) :
    ∃ s', s.undo w.undo = .ok s' ∧
      s'.Reverted t (t.touchedKey op ++ keys) fun key => t.touchedArt op key ++ entries key := by
  cases hw with
  | insertRow values row hrow => exact h.undo_insertRow hrow
  | updateCell r c v hc hr => exact h.undo_updateCell hc hr hsaved
  | deleteRow r row hrow => exact h.undo_deleteRow hrow (hsaved row hrow)

def Restored (s t : NodeTable) : Prop :=
  (∀ (r : Nat) (row : List Value), s.rows[r]? = some row ∧ s.live row ↔ t.rows[r]? = some row ∧
    t.live row) ∧
    (∀ pk, s.lookupByPk pk = t.lookupByPk pk) ∧
    ∀ key, s.artIndex.map (·.offsets key) = t.artIndex.map (·.offsets key)

theorem Reverted.restored_iff (h : s.Reverted t keys entries) :
    s.Restored t ↔ (∀ key ∈ keys, t.hashIndex.lookup key = none) ∧
      ∀ art ∈ t.artIndex, ∀ key, ∀ n ∈ entries key, n ∉ art.offsets key := by
  have hhash : (∀ pk, s.lookupByPk pk = t.lookupByPk pk) ↔ ∀ key ∈ keys, t.hashIndex.lookup key =
      none := by
    constructor
    · intro hpk key hkey
      -- every key is the text of some primary key, its own string
      have := hpk (.string key)
      rw [lookupByPk, lookupByPk, h.hash, pkValueToString, if_pos hkey] at this
      exact this.symm
    · intro hnone pk
      rw [lookupByPk, lookupByPk, h.hash]
      split
      next hkey => exact (hnone _ hkey).symm
      next => rfl
  have hart : (∀ key, s.artIndex.map (·.offsets key) = t.artIndex.map (·.offsets key)) ↔
      ∀ art ∈ t.artIndex, ∀ key, ∀ n ∈ entries key, n ∉ art.offsets key := by
    rw [h.art]
    cases t.artIndex with
    | none => simp
    | some art =>
      simp [ArtIndex.without, diff_eq_self_iff]
  rw [Restored, hhash, hart]
  exact and_iff_right h.live_iff

end

end NodeTable

end Akar
