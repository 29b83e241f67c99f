import Akar.LastWrite

namespace Akar

open List Option NodeSchema

namespace NodeTable

theorem overwriteCells_ok {p : NodeTable} {values : List Value} {o : Nat} {cols : List Nat}
    (ho : o < p.numRows) (hcols : ∀ c ∈ cols, c < p.columns.length)
    (hlen : values.length = p.columns.length) :
    ∃ p', p.overwriteCells o values cols = .ok p' ∧ p'.toNodeSchema = p.toNodeSchema ∧
      p'.hashIndex = p.hashIndex ∧
      p'.numRows = p.numRows ∧ ∀ r c, p'.getValue r c = if r = o ∧
        c ∈ cols then values[c]? else p.getValue r c := by
  induction cols generalizing p with
  | nil => exact ⟨p, rfl, rfl, rfl, rfl, by simp⟩
  | cons col cols ih =>
    have hcol := hcols col mem_cons_self
    obtain ⟨v, hv⟩ : ∃ v, values[col]? = some v := ⟨_, getElem?_eq_getElem (hlen ▸ hcol)⟩
    obtain ⟨p', hp', hschema, hindex, hnum, hcell⟩ :=
      @ih (p.setCell o col v) (by simpa [numRows] using ho)
      (forall_mem_cons.mp hcols).2 hlen
    refine ⟨p', ?_, hschema, hindex, by simpa [numRows] using hnum, fun r c => ?_⟩
    · rw [overwriteCells, hv, getD_some, updateCell_ok hcol ho]
      exact hp'
    · rw [hcell, getValue_setCell ho hcol]
      by_cases hr : r = o
      · by_cases hc : c = col
        · subst hc
          simp [hr, hv]
        · simp [hr, hc]
      · simp [hr]

theorem row_eq_of_cells {s p : NodeTable} {r : Nat} {row row' : List Value}
    (hrow : s.rows[r]? = some row)
    (hrow' : p.rows[r]? = some row') (hcells : ∀ c, p.getValue r c = s.getValue r c) : row = row' := by
  apply ext_getElem?
  intro c
  have := hcells c
  rw [getValue_of_row hrow, getValue_of_row hrow'] at this
  exact this.symm

variable [Rendering]

/-- The cell `(r, c)` once `pre` has been replayed on `s`, as long as every insert found its key. -/
def cellAfter (s : NodeTable) (pre : List DataRecord) (r c : Nat) : Option Value :=
  (lastWritten s.toNodeSchema s.hashIndex pre r c).or (s.getValue r c)

def Unfiles (s : NodeTable) (key : String) (pre : List DataRecord) : DataRecord → Prop
  | .delete _ r =>
    s.hasPk = true ∧ ((s.cellAfter pre r s.primaryKeyColumn).filter (!·.isNull)).map
      pkValueToString = some key
  | _ => False

def Misses (s : NodeTable) (pre : List DataRecord) : DataRecord → Prop
  | .insert _ data =>
    ∀ pk ∈ (deserializeValuesFromBytes data s.columns.length)[s.primaryKeyColumn]?,
      s.lookupByPk pk = none ∨ AtSome (s.Unfiles (pkValueToString pk)) pre
  | _ => False

def insertedRows (t : NodeSchema) (records : List DataRecord) : List (List Value) :=
  records.filterMap fun
    | .insert _ data => (checkedRow t (deserializeValuesFromBytes data t.columns.length)).toOption
    | _ => none

/-- `p` is what a replay of `pre` makes of the table `s`, whose own writes left `pre` in the log. -/
structure Redone (s p : NodeTable) (pre : List DataRecord) : Prop where
  schema : p.toNodeSchema = s.toNodeSchema
  numRows_le : s.numRows ≤ p.numRows
  bound : ∀ key o, p.hashIndex.lookup key = some o → o < p.numRows
  free : ∀ r c, r < s.numRows → s.hasPk = false ∨ c = s.primaryKeyColumn → p.getValue r c =
    s.cellAfter pre r c
  live : s.hasPk = true → ∀ row ∈ p.rows.drop s.numRows, s.live row = true
  keyless : s.hasPk = false → p.rows.drop s.numRows = insertedRows s.toNodeSchema pre
  grown : s.hasPk = true → AtSome s.Misses pre → s.numRows < p.numRows
  unfiled : s.hasPk = true → ¬AtSome s.Misses pre → ∀ key, AtSome (s.Unfiles key) pre →
    p.hashIndex.lookup key = none
  index : s.hasPk = true → ¬AtSome s.Misses pre → ∀ key, ¬AtSome (s.Unfiles key) pre →
    p.hashIndex.lookup key = s.hashIndex.lookup key
  numRows_eq : s.hasPk = true → ¬AtSome s.Misses pre → p.numRows = s.numRows
  cells : s.hasPk = true → ¬AtSome s.Misses pre → ∀ r c, r < s.numRows → p.getValue r c =
    s.cellAfter pre r c

variable {s p p' : NodeTable} {pre : List DataRecord} {rec : DataRecord} {tableId r c : Nat} {v : Value}
  {values row : List Value} {data : ByteCodec.Bytes}

theorem cellAfter_concat (s : NodeTable) (pre : List DataRecord) (rec : DataRecord) (r c : Nat) :
    s.cellAfter (pre ++ [rec]) r c = (writtenBy s.toNodeSchema s.hashIndex r c rec).or
      (s.cellAfter pre r c) := by
  rw [cellAfter, lastWritten_append, lastWritten_singleton, Option.or_assoc]
  rfl

theorem keyOf_eq (hrow : p.rows[r]? = some row) :
    p.keyOf row =
      if p.hasPk = true then ((p.getValue r p.primaryKeyColumn).filter (!·.isNull)).map
        pkValueToString else none := by
  rw [getValue_of_row hrow, keyOf, pkOf]
  split <;> rfl

theorem Redone.self (hbound : ∀ key o, s.hashIndex.lookup key = some o → o < s.numRows) :
    s.Redone s [] where
  schema := rfl
  numRows_le := le_rfl
  bound := hbound
  free := fun _ _ _ _ => rfl
  live := fun _ row hrow => by simp [numRows] at hrow
  keyless := fun _ => drop_length
  grown := fun _ h => absurd h not_atSome_nil
  unfiled := fun _ _ _ h => absurd h not_atSome_nil
  index := fun _ _ _ _ => rfl
  numRows_eq := fun _ _ => rfl
  cells := fun _ _ _ _ _ => rfl

theorem Redone.inPlace (h : s.Redone p pre) (hschema : p'.toNodeSchema = p.toNodeSchema)
    (hnum : p'.numRows = p.numRows)
    (hlive : s.hasPk = true → ∀ row ∈ p'.rows.drop s.numRows, s.live row = true)
    (hkeyless : s.hasPk = false → p'.rows.drop s.numRows = insertedRows s.toNodeSchema (pre ++ [rec]))
    (hmiss : s.hasPk = true → s.Misses pre rec → AtSome s.Misses pre)
    (hgone : ∀ key, s.Unfiles key pre rec → p'.hashIndex.lookup key = none)
    (hkept : ∀ key, ¬s.Unfiles key pre rec → p'.hashIndex.lookup key = p.hashIndex.lookup key)
    (hcell : ∀ r c, r < s.numRows → s.hasPk = false ∨ c = s.primaryKeyColumn ∨
      ¬AtSome s.Misses (pre ++ [rec]) →
      p.getValue r c = s.cellAfter pre r c → p'.getValue r c = s.cellAfter (pre ++ [rec]) r c) :
    s.Redone p' (pre ++ [rec]) where
  schema := hschema.trans h.schema
  numRows_le := hnum ▸ h.numRows_le
  bound := fun key o ho => by
    by_cases hu : s.Unfiles key pre rec
    · rw [hgone key hu] at ho
      cases ho
    · rw [hnum]
      exact h.bound key o ((hkept key hu).symm.trans ho)
  free := fun r c hr hfree => hcell r c hr (hfree.imp_right .inl) (h.free r c hr hfree)
  live := hlive
  keyless := hkeyless
  grown := fun hpk hm => by
    rw [hnum]
    exact h.grown hpk ((atSome_concat.mp hm).elim id (hmiss hpk))
  unfiled := fun hpk hm key hu => by
    by_cases hrec : s.Unfiles key pre rec
    · exact hgone key hrec
    · rw [hkept key hrec]
      have hpre := (atSome_concat.mp hu).resolve_right hrec
      exact h.unfiled hpk (not_atSome_of_concat hm) key hpre
  index := fun hpk hm key hu => by
    rw [hkept key fun hrec => hu (atSome_concat.mpr (.inr hrec))]
    exact h.index hpk (not_atSome_of_concat hm) key fun hu' => hu (atSome_concat.mpr (.inl hu'))
  numRows_eq := fun hpk hm => by
    rw [hnum]
    exact h.numRows_eq hpk (not_atSome_of_concat hm)
  cells := fun hpk hm r c hr =>
    hcell r c hr (.inr (.inr hm)) (h.cells hpk (not_atSome_of_concat hm) r c hr)

theorem Redone.update (h : s.Redone p pre) (hr : r < s.numRows) (hc : c < s.columns.length)
    (hback : ReadsBack [v]) :
    ∃ p', p.replay (.update tableId r c (serializeValues [v])) = .ok p' ∧
      s.Redone p' (pre ++ [.update tableId r c (serializeValues [v])]) := by
  have hdata := hback.payload (n := 1) rfl
  have hr' := hr.trans_le h.numRows_le
  have hc' : c < p.columns.length := by rw [h.schema]; exact hc
  have hdrop : (p.setCell r c v).rows.drop s.numRows = p.rows.drop s.numRows :=
    drop_modify_of_lt _ _ _ _ hr
  refine ⟨p.setCell r c v, ?_, h.inPlace rfl (by simp [numRows]) ?_ ?_ (fun _ => nofun)
    (fun _ => nofun) (fun _ _ => rfl) ?_⟩
  · simp [replay, hdata, updateCell_ok hc' hr', Except.mapError]
  · intro hpk
    rw [hdrop]
    exact h.live hpk
  · intro hpk
    rw [hdrop, h.keyless hpk]
    simp [insertedRows]
  · intro r' c' _ _ hcell
    rw [getValue_setCell hr' hc', cellAfter_concat, hcell]
    simp only [writtenBy, hdata, head?_cons]
    split <;> rfl

theorem Redone.delete (h : s.Redone p pre) (hr : r < s.numRows) :
    ∃ p', p.replay (.delete tableId r) = .ok p' ∧ s.Redone p' (pre ++ [.delete tableId r]) := by
  obtain ⟨row, hrow⟩ := exists_row (hr.trans_le h.numRows_le)
  have hdrop : (p.buryRow r row).rows.drop s.numRows = p.rows.drop s.numRows :=
    drop_modify_of_lt _ _ _ _ hr
  have hunfiles (key : String) : s.Unfiles key pre (.delete tableId r) ↔ p.keyOf row = some key := by
    rw [keyOf_eq hrow, h.schema, h.free r _ hr (.inr rfl)]
    by_cases hpk : s.hasPk = true <;> simp [Unfiles, hpk]
  refine ⟨p.buryRow r row, ?_, h.inPlace rfl (by simp [numRows]) ?_ ?_ (fun _ => nofun) ?_ ?_ ?_⟩
  · simp [replay, deleteRow_ok hrow, Except.mapError]
  · intro hpk
    rw [hdrop]
    exact h.live hpk
  · intro hpk
    rw [hdrop, h.keyless hpk]
    simp [insertedRows]
  · intro key hu
    rw [buryRow_hashIndex, HashIndex.lookup_unfile, if_pos ((hunfiles key).mp hu)]
  · intro key hu
    rw [buryRow_hashIndex, HashIndex.lookup_unfile, if_neg (mt (hunfiles key).mpr hu)]
  · intro r' c' _ _ hcell
    rw [getValue_buryRow hrow, cellAfter_concat, hcell, h.schema]
    simp only [writtenBy]
    split <;> rfl

theorem insertRow_duplicate {key : String} {o : Nat} (hrow : checkedRow p.toNodeSchema values = .ok row)
    (hkey : p.keyOf row = some key) (ho : p.hashIndex.lookup key = some o) :
    p.insertRow values =
      .error (.index s!"Duplicate primary key value: '{key}' in table '{p.name}'") := by
  unfold insertRow
  split
  next e he => rw [hrow] at he; cases he
  next row' hrow' =>
    cases hrow.symm.trans hrow'
    simp [hkey, Option.filter, ho]

theorem writtenBy_insert_free (hfree : s.hasPk = false ∨ c = s.primaryKeyColumn) :
    writtenBy s.toNodeSchema s.hashIndex r c (.insert tableId data) = none := by
  rcases hfree with h | h <;> simp [writtenBy, h]

theorem live_of_checkedRow (hrow : checkedRow s.toNodeSchema values = .ok row) (hpk : s.hasPk = true) :
    s.live row = true := by
  obtain ⟨v, _, hkey⟩ := checkedRow_key hrow hpk
  obtain ⟨w, hw, _⟩ := map_eq_some_iff.mp hkey
  obtain ⟨hw, hnull⟩ := filter_eq_some_iff.mp hw
  simp [live, hpk, hw, hnull]

theorem Redone.misses_insert_iff (h : s.Redone p pre)
    (hdata : deserializeValuesFromBytes data s.columns.length = values) (hpk : s.hasPk = true)
    (hm : ¬AtSome s.Misses pre) {pk : Value} (hv : values[s.primaryKeyColumn]? = some pk) :
    s.Misses pre (.insert tableId data) ↔ p.hashIndex.lookup (pkValueToString pk) = none := by
  have hone : s.Misses pre (.insert tableId data) ↔
      s.lookupByPk pk = none ∨ AtSome (s.Unfiles (pkValueToString pk)) pre := by
    simp [Misses, hdata, hv]
  rw [hone]
  by_cases hu : AtSome (s.Unfiles (pkValueToString pk)) pre
  · exact iff_of_true (.inr hu) (h.unfiled hpk hm _ hu)
  · rw [h.index hpk hm _ hu, or_iff_left hu, lookupByPk]

theorem Redone.append (h : s.Redone p pre)
    (hdata : deserializeValuesFromBytes data s.columns.length = values) (hrow : checkedRow s.toNodeSchema values = .ok row)
    (hnone : ∀ key, s.keyOf row = some key → p.hashIndex.lookup key = none) :
    ∃ p', p.replay (.insert tableId data) = .ok p' ∧ s.Redone p' (pre ++ [.insert tableId data]) := by
  have hrow' : checkedRow p.toNodeSchema values = .ok row := by rw [h.schema]; exact hrow
  have hdata' : deserializeValuesFromBytes data p.columns.length = values := by rw [h.schema]; exact hdata
  have hdrop : (p.rows ++ [row]).drop s.numRows = p.rows.drop s.numRows ++ [row] :=
    drop_append_of_le_length h.numRows_le
  have hmiss (hpk : s.hasPk = true) : AtSome s.Misses (pre ++ [.insert tableId data]) := by
    rw [atSome_concat]
    by_cases hm : AtSome s.Misses pre
    · exact .inl hm
    · obtain ⟨v, hv, hkey⟩ := checkedRow_key hrow hpk
      exact .inr ((h.misses_insert_iff hdata hpk hm hv).mpr (hnone _ hkey))
  refine ⟨p.appendRow row (checkedRow_length hrow'), ?_, ?_⟩
  · rw [h.schema.symm] at hnone
    simp only [replay, replayInsert, hdata', insertRow_ok hrow' hnone]
  · exact
      { schema := h.schema
        numRows_le := by simpa [numRows] using Nat.le_succ_of_le h.numRows_le
        bound := fun key o ho => by
          rw [appendRow_hashIndex, HashIndex.lookup_file] at ho
          simp only [numRows, appendRow_rows, length_append, length_singleton]
          split at ho
          · cases ho
            exact Nat.lt_succ_self _
          · exact Nat.lt_succ_of_lt (h.bound key o ho)
        free := fun r c hr hfree => by
          rw [getValue_appendRow (hr.trans_le h.numRows_le), h.free r c hr hfree, cellAfter_concat,
            writtenBy_insert_free hfree]
          rfl
        live := fun hpk row' hrow₀ => by
          rw [appendRow_rows, hdrop, mem_append, mem_singleton] at hrow₀
          rcases hrow₀ with hrow₀ | rfl
          · exact h.live hpk row' hrow₀
          · exact live_of_checkedRow hrow hpk
        keyless := fun hpk => by
          rw [appendRow_rows, hdrop, h.keyless hpk]
          simp [insertedRows, hdata, hrow, Except.toOption]
        grown := fun _ _ => by simpa [numRows] using Nat.lt_succ_of_le h.numRows_le
        unfiled := fun hpk hm => absurd (hmiss hpk) hm
        index := fun hpk hm => absurd (hmiss hpk) hm
        numRows_eq := fun hpk hm => absurd (hmiss hpk) hm
        cells := fun hpk hm => absurd (hmiss hpk) hm }

theorem Redone.overwrite (h : s.Redone p pre)
    (hdata : deserializeValuesFromBytes data s.columns.length = values)
    (hrow : checkedRow s.toNodeSchema values = .ok row) {key : String} {o : Nat}
    (hkey : s.keyOf row = some key) (ho : p.hashIndex.lookup key = some o) :
    ∃ p', p.replay (.insert tableId data) = .ok p' ∧ s.Redone p' (pre ++ [.insert tableId data]) := by
  have hpk : s.hasPk = true := by
    by_contra hno
    simp [keyOf, pkOf, hno] at hkey
  obtain ⟨pk, hv, hkey'⟩ := checkedRow_key hrow hpk
  cases hkey.symm.trans hkey'
  have hrow' : checkedRow p.toNodeSchema values = .ok row := by rw [h.schema]; exact hrow
  have hlen := values_length hrow'
  obtain ⟨p', hp', hschema, hindex, hnum, hcell⟩ := @overwriteCells_ok p values o
    ((range p.columns.length).filter (· ≠ p.primaryKeyColumn)) (h.bound _ o ho)
    (fun c hc => mem_range.mp (mem_filter.mp hc).1) hlen
  have hpkcell (r : Nat) : p'.getValue r s.primaryKeyColumn = p.getValue r s.primaryKeyColumn := by
    simp [hcell, h.schema]
  refine ⟨p', ?_, h.inPlace hschema hnum ?_ ?_ ?_ ?_ (fun key _ => by rw [hindex]) ?_⟩
  · have hdup := insertRow_duplicate hrow' (h.schema ▸ hkey) ho
    have hfound : (values[p.primaryKeyColumn]?).bind p.lookupByPk = some o := by
      rw [h.schema, hv]
      exact ho
    have hdata' : deserializeValuesFromBytes data p.columns.length = values := by rw [h.schema]; exact hdata
    simp only [replay, replayInsert, hdata', hdup, hfound, hp', Except.mapError]
  · intro _ row₁ hrow₁
    obtain ⟨k, hk⟩ := mem_iff_getElem?.mp hrow₁
    rw [getElem?_drop] at hk
    obtain ⟨row₀, hrow₀⟩ : ∃ row₀, p.rows[s.numRows + k]? = some row₀ :=
      exists_row (hnum ▸ lt_length_of_getElem? hk)
    have hlive := h.live hpk row₀ (mem_of_getElem? (by rw [getElem?_drop]; exact hrow₀))
    have hcell' := hpkcell (s.numRows + k)
    rw [getValue_of_row hk, getValue_of_row hrow₀] at hcell'
    simpa [NodeSchema.live, NodeSchema.pkOf, hpk, hcell'] using hlive
  · intro hno
    rw [hpk] at hno
    cases hno
  · intro _ hm
    by_contra hpre
    rw [(h.misses_insert_iff hdata hpk hpre hv).mp hm] at ho
    cases ho
  · intro key hunfiles
    cases hunfiles
  · intro r c hr hfound hpre
    rw [cellAfter_concat, hcell, hpre]
    by_cases hfree : s.hasPk = false ∨ c = s.primaryKeyColumn
    · rw [writtenBy_insert_free hfree, if_neg]
      · rfl
      · rcases hfree with hno | hc
        · rw [hpk] at hno
          cases hno
        · simp [hc, h.schema]
    · obtain ⟨_, hc⟩ := not_or.mp hfree
      have hm : ¬AtSome s.Misses (pre ++ [.insert tableId data]) := by
        rcases hfound with hno | hc' | hm
        · exact absurd (.inl hno) hfree
        · exact absurd hc' hc
        · exact hm
      have hlookup : s.hashIndex.lookup (pkValueToString pk) = some o := by
        rw [← h.index hpk (not_atSome_of_concat hm)]
        · exact ho
        · intro hu
          rw [h.unfiled hpk (not_atSome_of_concat hm) _ hu] at ho
          cases ho
      have hwritten : writtenBy s.toNodeSchema s.hashIndex r c (.insert tableId data) =
          if r = o then values[c]? else none := by
        simp [writtenBy, hdata, hpk, hc, hv, hlookup, eq_comm]
      rw [hwritten]
      by_cases hr : r = o
      · by_cases hlt : c < p.columns.length
        · simp [hr, hlt, h.schema ▸ hc, getElem?_eq_getElem (hlen ▸ hlt)]
        · simp [hr, hlt, getElem?_eq_none (hlen ▸ Nat.le_of_not_lt hlt)]
      · simp [hr]

theorem Redone.replay (h : s.Redone p pre) (hlog : s.Logged tableId rec) :
    ∃ p', p.replay rec = .ok p' ∧ s.Redone p' (pre ++ [rec]) := by
  cases hlog with
  | update r c v hr hc hback => exact h.update hr hc hback
  | delete r hr => exact h.delete hr
  | insert values row hrow hback =>
    have hdata := hback.payload (values_length hrow)
    cases hkey : s.keyOf row with
    | none => exact h.append hdata hrow (by simp [hkey])
    | some key =>
      cases ho : p.hashIndex.lookup key with
      | none => exact h.append hdata hrow (by simpa [hkey] using ho)
      | some o => exact h.overwrite hdata hrow hkey ho

theorem Redone.replayAll {records : List DataRecord} (h : s.Redone p pre)
    (hlog : ∀ rec ∈ records, s.Logged tableId rec) :
    ∃ p', records.foldlM NodeTable.replay p = .ok p' ∧ s.Redone p' (pre ++ records) := by
  induction records generalizing p pre with
  | nil => exact ⟨p, rfl, by simpa using h⟩
  | cons rec records ih =>
    obtain ⟨p₁, hp₁, h₁⟩ := h.replay (hlog rec mem_cons_self)
    obtain ⟨p', hp', h'⟩ := ih h₁ (forall_mem_cons.mp hlog).2
    refine ⟨p', ?_, by simpa using h'⟩
    rw [foldlM_cons, hp₁]
    exact hp'

theorem indexRows_bound {t : NodeSchema} {rows : List (List Value)} {i : Nat} {ix : HashIndex}
    (h : ∀ key o, ix.lookup key = some o → o < i) {key : String} {o : Nat}
    (ho : (indexRows t i rows ix).lookup key = some o) : o < i + rows.length := by
  induction rows generalizing i ix with
  | nil => exact h key o ho
  | cons row rows ih =>
    rw [length_cons, Nat.add_comm rows.length 1, ← Nat.add_assoc]
    refine ih (fun key' o' ho' => ?_) ho
    rw [HashIndex.lookup_file] at ho'
    split at ho'
    · cases ho'
      exact Nat.lt_succ_self i
    · exact Nat.lt_succ_of_lt (h key' o' ho')

/-- A second replay changes no live row: every insert finds its key in the index, and the last write
to each cell of a live row is the one its value is from. -/
def Repeatable (s : NodeTable) (records : List DataRecord) : Prop := if s.hasPk = true then
    ¬AtSome s.Misses records ∧ ∀ (r : Nat) (row : List Value), s.rows[r]? = some row → s.live row =
      true →
      ∀ c v, lastWritten s.toNodeSchema s.hashIndex records r c = some v → row[c]? = some v
  else ∀ row ∈ insertedRows s.toNodeSchema records, s.live row = false

variable {records : List DataRecord}

theorem Redone.liveAt_keyless (h : s.Redone p records) (hpk : s.hasPk = false)
    (hlast : ∀ r c, r < s.numRows → s.cellAfter records r c = s.getValue r c) :
    (∀ r, p.liveAt r = s.liveAt r) ↔ ∀ row ∈ insertedRows s.toNodeSchema records, s.live row =
      false := by
  have hrows : p.rows = s.rows ++ insertedRows s.toNodeSchema records := by
    rw [← take_append_drop s.numRows p.rows, h.keyless hpk]
    congr 1
    apply ext_getElem?
    intro r
    rw [getElem?_take]
    split
    next hr =>
      obtain ⟨row, hrow⟩ := exists_row hr
      obtain ⟨row', hrow'⟩ := exists_row (hr.trans_le h.numRows_le)
      rw [hrow, hrow', row_eq_of_cells hrow hrow' fun c =>
        (h.free r c hr (.inl hpk)).trans (hlast r c hr)]
    next hr => rw [getElem?_eq_none (Nat.le_of_not_lt hr)]
  simp only [liveAt, h.schema, hrows]
  constructor
  · intro hsame row hrow
    obtain ⟨k, hk⟩ := mem_iff_getElem?.mp hrow
    have hslot := hsame (s.rows.length + k)
    rw [getElem?_append_right (Nat.le_add_right _ _), Nat.add_sub_cancel_left, hk,
      getElem?_eq_none (Nat.le_add_right _ _), filter_none, filter_eq_none_iff] at hslot
    simpa using hslot row rfl
  · intro hdead r
    by_cases hr : r < s.rows.length
    · rw [getElem?_append_left hr]
    · rw [getElem?_append_right (Nat.le_of_not_lt hr), getElem?_eq_none (Nat.le_of_not_lt hr),
        filter_none, filter_eq_none_iff]
      intro row hrow
      simp [hdead row (mem_of_getElem? hrow)]

theorem Redone.liveAt_keyed (h : s.Redone p records) (hpk : s.hasPk = true)
    (hlast : ∀ r, r < s.numRows → s.cellAfter records r s.primaryKeyColumn =
      s.getValue r s.primaryKeyColumn) :
    (∀ r, p.liveAt r = s.liveAt r) ↔
      ¬AtSome s.Misses records ∧ ∀ (r : Nat) (row : List Value), s.rows[r]? = some row →
        s.live row = true →
        ∀ c v, lastWritten s.toNodeSchema s.hashIndex records r c = some v → row[c]? = some v := by
  have hmask : ∀ (r : Nat) (row row' : List Value), s.rows[r]? = some row → p.rows[r]? = some row' →
      s.live row = s.live row' := by
    intro r row row' hrow hrow'
    have hr := lt_length_of_getElem? hrow
    have hcell := (h.free r _ hr (.inr rfl)).trans (hlast r hr)
    rw [getValue_of_row hrow, getValue_of_row hrow'] at hcell
    simp [NodeSchema.live, NodeSchema.pkOf, hpk, hcell]
  have hrest : ∀ (r : Nat) (row : List Value), s.rows.length ≤ r → p.rows[r]? = some row →
      s.live row = true := by
    intro r row hr hrow
    refine h.live hpk row (mem_of_getElem? (i := r - s.numRows) ?_)
    rw [getElem?_drop, numRows, Nat.add_sub_cancel' hr]
    exact hrow
  simp only [liveAt, h.schema]
  rw [slots_eq_iff_of_mask h.numRows_le hmask hrest]
  constructor
  · rintro ⟨hlen, hagree⟩
    have hm : ¬AtSome s.Misses records := fun hm => Nat.ne_of_gt (h.grown hpk hm) hlen
    refine ⟨hm, fun r row hrow hlive c v hv => ?_⟩
    have hr := lt_length_of_getElem? hrow
    obtain ⟨row', hrow'⟩ := exists_row (hr.trans_le h.numRows_le)
    have hcell := h.cells hpk hm r c hr
    rw [getValue_of_row hrow', ← hagree r row row' hrow hrow' hlive, cellAfter, hv] at hcell
    exact hcell
  · rintro ⟨hm, hcells⟩
    refine ⟨h.numRows_eq hpk hm, fun r row row' hrow hrow' hlive =>
      row_eq_of_cells hrow hrow' fun c => ?_⟩
    rw [h.cells hpk hm r c (lt_length_of_getElem? hrow), cellAfter, getValue_of_row hrow]
    cases hv : lastWritten s.toNodeSchema s.hashIndex records r c with
    | none => rfl
    | some v => exact (hcells r row hrow hlive c v hv).symm

theorem getValue_reload (t : NodeTable) (r c : Nat) : t.reload.getValue r c =
    (t.getValue r c).map mirrored := by
  cases hrow : t.rows[r]? with
  | none => simp [getValue_eq, hrow]
  | some row =>
    have hrow' : t.reload.rows[r]? = some (row.map mirrored) := by simp [hrow]
    rw [getValue_of_row hrow', getValue_of_row hrow, getElem?_map]

theorem Wrote.replay_reload {t t' : NodeTable} (h : Wrote tableId t records t') :
    ∃ p, records.foldlM NodeTable.replay t'.reload = .ok p ∧ ((∀ r, p.liveAt r = t'.reload.liveAt r) ↔
        t'.reload.Repeatable records) := by
  have hbound : ∀ key o, t'.reload.hashIndex.lookup key = some o → o < t'.reload.numRows := by
    intro key o ho
    have hempty : ∀ key o, HashIndex.empty.lookup key = some o → o < 0 := fun _ _ => nofun
    simpa [numRows] using indexRows_bound hempty ho
  have hnum : t'.reload.numRows = t'.numRows := by simp [numRows]
  have hlog : ∀ rec ∈ records, t'.reload.Logged tableId rec := by
    intro rec hrec
    cases h.logged rec hrec with
    | insert values row hrow hback => exact .insert values row hrow hback
    | update r c v hr hc hback => exact .update r c v (hnum ▸ hr) hc hback
    | delete r hr => exact .delete r (hnum ▸ hr)
  obtain ⟨p, hp, hredone⟩ := (Redone.self hbound).replayAll hlog
  refine ⟨p, hp, ?_⟩
  have hlast (r c : Nat) (hfree : t'.hasPk = false ∨ c = t'.primaryKeyColumn) :
      t'.reload.cellAfter records r c = t'.reload.getValue r c := by
    rw [cellAfter]
    cases hv : lastWritten t'.reload.toNodeSchema t'.reload.hashIndex records r c with
    | none => rfl
    | some v =>
      rw [reload_toNodeSchema, h.schema] at hv
      rw [h.schema] at hfree
      have hcell := h.getValue_of_lastWritten hfree hv
      rw [some_or, getValue_reload, hcell, map_some, h.mirrored_of_lastWritten hfree hv]
  unfold Repeatable
  split
  next hpk => exact hredone.liveAt_keyed hpk fun r _ => hlast r _ (.inr rfl)
  next hpk =>
    have hpk := Bool.not_eq_true _ ▸ hpk
    exact hredone.liveAt_keyless hpk fun r c _ => hlast r c (.inl hpk)

end NodeTable

end Akar
