import Akar.TableWrites

namespace Akar

open List

variable {op : WriteOp} {records : List DataRecord}

namespace NodeTable

variable [Rendering]

/-- What a replayed log record writes to the cell `(r, c)` of a table with index `ix`: an insert
whose key is there goes to the row it leads to, and spares its primary key. -/
def writtenBy (t : NodeSchema) (ix : HashIndex) (r c : Nat) : DataRecord → Option Value
  | .update _ rowId column data =>
    if r = rowId ∧ c = column then (deserializeValuesFromBytes data 1).head? else none
  | .delete _ rowId => if r = rowId ∧ c < t.columns.length then some .null else none
  | .insert _ data =>
    let values := deserializeValuesFromBytes data t.columns.length
    if t.hasPk ∧ c ≠ t.primaryKeyColumn ∧
        (values[t.primaryKeyColumn]?).bind (fun pk => ix.lookup (pkValueToString pk)) = some r then
      values[c]?
    else none

def lastWritten (t : NodeSchema) (ix : HashIndex) (records : List DataRecord) (r c : Nat) :
    Option Value :=
  records.reverse.findSome? (writtenBy t ix r c)

theorem lastWritten_append (t : NodeSchema) (ix : HashIndex) (rs rs' : List DataRecord) (r c : Nat) :
    lastWritten t ix (rs ++ rs') r c = (lastWritten t ix rs' r c).or (lastWritten t ix rs r c) := by
  rw [lastWritten, reverse_append, findSome?_append]
  rfl

theorem lastWritten_singleton (t : NodeSchema) (ix : HashIndex) (rec : DataRecord) (r c : Nat) :
    lastWritten t ix [rec] r c = writtenBy t ix r c rec := by
  simp [lastWritten]

theorem lastWritten_cons (t : NodeSchema) (ix : HashIndex) (rec : DataRecord)
    (rs : List DataRecord) (r c : Nat) :
    lastWritten t ix (rec :: rs) r c = (lastWritten t ix rs r c).or (writtenBy t ix r c rec) := by
  rw [← singleton_append, lastWritten_append, lastWritten_singleton]

inductive Wrote (tableId : Nat) : NodeTable → List DataRecord → NodeTable → Prop where
  | nil (t : NodeTable) : Wrote tableId t [] t
  | cons {t t' : NodeTable} {op : WriteOp} {w : Written NodeTable} {records : List DataRecord}
      (hw : t.Writes tableId op w) (hrec : op.Recorded) (hrest : Wrote tableId w.table records t') :
      Wrote tableId t (w.record :: records) t'

variable {t t' : NodeTable} {tableId r c : Nat} {w : Written NodeTable} {ix : HashIndex}

theorem Writes.schema (hw : t.Writes tableId op w) : w.table.toNodeSchema = t.toNodeSchema := by
  cases hw <;> rfl

theorem Writes.numRows_le (hw : t.Writes tableId op w) : t.numRows ≤ w.table.numRows := by
  cases hw <;> simp [numRows]

theorem Wrote.schema (h : Wrote tableId t records t') : t'.toNodeSchema = t.toNodeSchema := by
  induction h with
  | nil => rfl
  | cons hw _ _ ih => exact ih.trans hw.schema

theorem Wrote.numRows_le (h : Wrote tableId t records t') : t.numRows ≤ t'.numRows := by
  induction h with
  | nil => exact le_rfl
  | cons hw _ _ ih => exact hw.numRows_le.trans ih

theorem Writes.getValue (hw : t.Writes tableId op w) (hrec : op.Recorded)
    (hfree : t.hasPk = false ∨ c = t.primaryKeyColumn) (hr : r < t.numRows) :
    w.table.getValue r c = (writtenBy t.toNodeSchema ix r c w.record).or (t.getValue r c) := by
  cases hw with
  | insertRow values =>
    have hnone : writtenBy t.toNodeSchema ix r c (.insert tableId (serializeValues values)) = none := by
      rcases hfree with h | h <;> simp [writtenBy, h]
    rw [hnone, getValue_appendRow hr]
    rfl
  | updateCell r' c' v hc' hr' =>
    rw [getValue_setCell hr' hc']
    simp only [writtenBy, hrec.payload (n := 1) rfl, head?_cons]
    split <;> rfl
  | deleteRow r' row hrow =>
    rw [getValue_buryRow hrow]
    simp only [writtenBy]
    split <;> rfl

variable {v : Value}

theorem Writes.lt_of_writtenBy (hw : t.Writes tableId op w)
    (hfree : t.hasPk = false ∨ c = t.primaryKeyColumn)
    (h : writtenBy t.toNodeSchema ix r c w.record = some v) : r < t.numRows := by
  cases hw with
  | insertRow => rcases hfree with hf | hf <;> simp [writtenBy, hf] at h
  | updateCell r' c' v' _ hr' =>
    obtain ⟨heq, h⟩ := Option.ite_none_right_eq_some.mp h
    rw [heq.1]; exact hr'
  | deleteRow r' row hrow =>
    obtain ⟨heq, h⟩ := Option.ite_none_right_eq_some.mp h
    rw [heq.1]; exact lt_length_of_getElem? hrow

theorem Writes.mirrored_of_writtenBy (hw : t.Writes tableId op w) (hrec : op.Recorded)
    (hfree : t.hasPk = false ∨ c = t.primaryKeyColumn)
    (h : writtenBy t.toNodeSchema ix r c w.record = some v) :
    mirrored v = v := by
  cases hw with
  | insertRow => rcases hfree with hf | hf <;> simp [writtenBy, hf] at h
  | updateCell r' c' v' =>
    obtain ⟨-, h⟩ := Option.ite_none_right_eq_some.mp h
    rw [hrec.payload (n := 1) rfl] at h
    cases h
    exact hrec.mirrored
  | deleteRow =>
    obtain ⟨-, h⟩ := Option.ite_none_right_eq_some.mp h
    cases h
    rfl

section

variable (h : Wrote tableId t records t') (hfree : t.hasPk = false ∨ c = t.primaryKeyColumn)
include h hfree

theorem Wrote.getValue (hr : r < t.numRows) :
    t'.getValue r c = (lastWritten t.toNodeSchema ix records r c).or (t.getValue r c) := by
  induction h with
  | nil => rfl
  | cons hw hrec hrest ih =>
    rw [hw.schema] at ih
    rw [ih hfree (hr.trans_le hw.numRows_le), hw.getValue hrec hfree hr, lastWritten_cons,
      Option.or_assoc]

theorem Wrote.getValue_of_lastWritten (hv : lastWritten t.toNodeSchema ix records r c = some v) :
    t'.getValue r c = some v := by
  induction h with
  | nil => cases hv
  | @cons t t' op w records hw hrec hrest ih =>
    rw [hw.schema] at ih
    rw [lastWritten_cons] at hv
    cases hlast : lastWritten t.toNodeSchema ix records r c with
    | some v' =>
      rw [hlast] at hv
      cases hv
      exact ih hfree hlast
    | none =>
      rw [hlast, Option.none_or] at hv
      have hr := hw.lt_of_writtenBy hfree hv
      have hget : t'.getValue r c = (lastWritten w.table.toNodeSchema ix records r c).or
          (w.table.getValue r c) :=
        hrest.getValue (hw.schema ▸ hfree) (hr.trans_le hw.numRows_le)
      rw [hget, hw.schema, hlast, Option.none_or, hw.getValue hrec hfree hr, hv]
      rfl

theorem Wrote.mirrored_of_lastWritten (hv : lastWritten t.toNodeSchema ix records r c = some v) :
    mirrored v = v := by
  induction h with
  | nil => cases hv
  | @cons t t' op w records hw hrec hrest ih =>
    rw [hw.schema] at ih
    rw [lastWritten_cons, Option.or_eq_some_iff] at hv
    rcases hv with hv | ⟨-, hv⟩
    · exact ih hfree hv
    · exact hw.mirrored_of_writtenBy hrec hfree hv

end

/-- A record that a write on an earlier state of `t` can have left in the log. -/
inductive Logged (t : NodeTable) (tableId : Nat) : DataRecord → Prop where
  | insert (values row : List Value) (hrow : checkedRow t.toNodeSchema values = .ok row) (hback : ReadsBack values) :
      Logged t tableId (.insert tableId (serializeValues values))
  | update (r c : Nat) (v : Value) (hr : r < t.numRows) (hc : c < t.columns.length) (hback : ReadsBack [v]) :
      Logged t tableId (.update tableId r c (serializeValues [v]))
  | delete (r : Nat) (hr : r < t.numRows) : Logged t tableId (.delete tableId r)

theorem Writes.logged (hw : t.Writes tableId op w) (hrec : op.Recorded)
    (hschema : t'.toNodeSchema = t.toNodeSchema)
    (hle : t.numRows ≤ t'.numRows) : Logged t' tableId w.record := by
  cases hw with
  | insertRow values row hrow => exact .insert values row (by rw [hschema]; exact hrow) hrec
  | updateCell r c v hc hr => exact .update r c v (hr.trans_le hle) (by rw [hschema]; exact hc) hrec
  | deleteRow r row hrow => exact .delete r ((lt_length_of_getElem? hrow).trans_le hle)

theorem Wrote.logged (h : Wrote tableId t records t') : ∀ rec ∈ records, Logged t' tableId rec := by
  induction h with
  | nil => nofun
  | cons hw hrec hrest ih =>
    exact forall_mem_cons.mpr
      ⟨hw.logged hrec (hrest.schema.trans hw.schema) (hw.numRows_le.trans hrest.numRows_le), ih⟩

end NodeTable

namespace RelTable

variable [TextDecoding]

def rewrite (r : Nat) (e : Edge) : DataRecord → Edge
  | .update _ rowId column data =>
    if r = rowId then
      match (deserializeValuesFromBytes data 1).head? with
      | some v => { e with props := e.props.set column v }
      | none => e
    else e
  | .delete _ rowId => if r = rowId ∧ e.live then e.buried else e
  | .insert .. => e

def rewriteAll (r : Nat) (e : Edge) (records : List DataRecord) : Edge := records.foldl (rewrite r) e

theorem rewriteAll_concat (r : Nat) (e : Edge) (rs : List DataRecord) (rec : DataRecord) :
    rewriteAll r e (rs ++ [rec]) = rewrite r (rewriteAll r e rs) rec := by
  simp [rewriteAll]

def propWritten (r c : Nat) : DataRecord → Option Value
  | .update _ rowId column data =>
    if r = rowId ∧ c = column then (deserializeValuesFromBytes data 1).head? else none
  | _ => none

variable {e : Edge} {rec : DataRecord}

theorem rewrite_live_iff {r : Nat} :
    (rewrite r e rec).live = true ↔ e.live = true ∧ ∀ tableId, rec ≠ .delete tableId r := by
  cases rec with
  | insert => simp [rewrite]
  | delete tableId rowId =>
    by_cases hr : r = rowId
    · by_cases hlive : e.live <;> simp [rewrite, hr, hlive]
    · simp [rewrite, hr, Ne.symm hr]
  | update =>
    simp only [rewrite]
    split
    · split <;> simp [Edge.live]
    · simp

theorem rewrite_of_live {r : Nat} (h : (rewrite r e rec).live) :
    (rewrite r e rec).src = e.src ∧ (rewrite r e rec).dst = e.dst ∧
      (rewrite r e rec).props.length = e.props.length ∧
      ∀ c < e.props.length, (rewrite r e rec).props[c]? = (propWritten r c rec).or e.props[c]? := by
  cases rec with
  | insert => exact ⟨rfl, rfl, rfl, fun c _ => rfl⟩
  | delete =>
    have hlive := (rewrite_live_iff.mp h).1
    simp only [rewrite, hlive, and_true] at h ⊢
    split at h
    · simp at h
    next hne => simp [hne, propWritten]
  | update tableId rowId column data =>
    simp only [rewrite, propWritten]
    by_cases hr : r = rowId
    · simp only [hr, ↓reduceIte, true_and]
      cases (deserializeValuesFromBytes data 1).head? with
      | none => simp
      | some =>
        refine ⟨rfl, rfl, length_set, fun c hc => ?_⟩
        by_cases hcol : c = column
        · subst hcol
          simp [hc]
        · simp [hcol, Ne.symm hcol]
    · simp [hr]

theorem rewriteAll_live_iff {r : Nat} {records : List DataRecord} :
    (rewriteAll r e records).live = true ↔ e.live = true ∧ ∀ tableId,
      DataRecord.delete tableId r ∉ records := by
  induction records using List.reverseRecOn with
  | nil => simp [rewriteAll]
  | append_singleton rs rec ih =>
    rw [rewriteAll_concat, rewrite_live_iff, ih]
    simp only [mem_append, mem_singleton, not_or, and_assoc, ne_eq]
    constructor
    · rintro ⟨h, hrs, hrec⟩
      exact ⟨h, fun i => ⟨hrs i, fun heq => hrec i heq.symm⟩⟩
    · rintro ⟨h, hboth⟩
      exact ⟨h, fun i => (hboth i).1, fun i heq => (hboth i).2 heq.symm⟩

def lastProp (records : List DataRecord) (r c : Nat) : Option Value :=
  records.reverse.findSome? (propWritten r c)

theorem rewriteAll_of_live {r : Nat} {records : List DataRecord} (h : (rewriteAll r e records).live) :
    (rewriteAll r e records).src = e.src ∧ (rewriteAll r e records).dst = e.dst ∧
      (rewriteAll r e records).props.length = e.props.length ∧
      ∀ c < e.props.length, (rewriteAll r e records).props[c]? =
        (lastProp records r c).or e.props[c]? := by
  induction records using List.reverseRecOn with
  | nil => exact ⟨rfl, rfl, rfl, fun c _ => rfl⟩
  | append_singleton rs rec ih =>
    rw [rewriteAll_concat] at h ⊢
    obtain ⟨hsrc, hdst, hlen, hprop⟩ := ih (rewrite_live_iff.mp h).1
    obtain ⟨hsrc', hdst', hlen', hprop'⟩ := rewrite_of_live h
    refine ⟨hsrc'.trans hsrc, hdst'.trans hdst, hlen'.trans hlen, fun c hc => ?_⟩
    rw [hprop' c (hlen ▸ hc), hprop c hc, ← Option.or_assoc]
    simp [lastProp, findSome?_cons]
    cases propWritten r c rec <;> rfl

theorem mirrored_of_lastProp {records : List DataRecord} {r c : Nat} {v : Value}
    (h : ∀ tableId rowId column data, DataRecord.update tableId rowId column data ∈ records →
      ∀ v ∈ (deserializeValuesFromBytes data 1).head?, mirrored v = v)
        (hv : lastProp records r c = some v) :
    mirrored v = v := by
  obtain ⟨rec, hrec, hwritten⟩ := exists_of_findSome?_eq_some hv
  cases rec with
  | update tableId rowId column data =>
    obtain ⟨-, hdata⟩ := Option.ite_none_right_eq_some.mp hwritten
    exact h tableId rowId column data (mem_reverse.mp hrec) v hdata
  | insert | delete => cases hwritten

/-- A second run over the mirrored edge changes nothing of a live one: what it writes there, it
wrote before. -/
theorem rewriteAll_mirrored (r : Nat) (e : Edge) {records : List DataRecord}
    (h : ∀ c v, lastProp records r c = some v → mirrored v = v) :
    (rewriteAll r (rewriteAll r e records).mirrored records).live =
    (rewriteAll r e records).mirrored.live ∧ ((rewriteAll r e records).mirrored.live →
        rewriteAll r (rewriteAll r e records).mirrored records =
          (rewriteAll r e records).mirrored) := by
  have hsame : (rewriteAll r e records).mirrored.live = (rewriteAll r e records).live := rfl
  have hlive : (rewriteAll r (rewriteAll r e records).mirrored records).live =
      (rewriteAll r e records).live := by
    rw [Bool.eq_iff_iff, rewriteAll_live_iff, hsame, rewriteAll_live_iff, and_assoc, and_self]
  refine ⟨hlive.trans hsame.symm, fun hl => ?_⟩
  obtain ⟨hsrc, hdst, hlen, hprop⟩ := rewriteAll_of_live (hlive.trans (hsame.symm.trans hl))
  obtain ⟨_, _, hlen', hprop'⟩ := rewriteAll_of_live (hsame.symm.trans hl)
  refine Edge.ext hsrc hdst (ext_getElem? fun c => ?_)
  by_cases hc : c < e.props.length
  · have hcell : (rewriteAll r e records).mirrored.props[c]? =
        (((lastProp records r c).or e.props[c]?).map Akar.mirrored) := by
      rw [Edge.mirrored_props, getElem?_map, hprop' c hc]
    rw [hprop c (by simpa [hlen'] using hc), hcell]
    cases hv : lastProp records r c with
    | none => rfl
    | some v => simp [h c v hv]
  · rw [getElem?_eq_none (by simpa [hlen, hlen'] using hc),
      getElem?_eq_none (by simpa [hlen'] using hc)]

inductive Wrote (tableId : Nat) : RelTable → List DataRecord → RelTable → Prop where
  | nil (t : RelTable) : Wrote tableId t [] t
  | cons {t t' : RelTable} {op : WriteOp} {w : Written RelTable} {records : List DataRecord}
      (hw : t.Writes tableId op w) (hrec : op.Recorded) (hrest : Wrote tableId w.table records t') :
      Wrote tableId t (w.record :: records) t'

variable {t t' : RelTable} {tableId r : Nat} {w : Written RelTable}

omit [TextDecoding] in
theorem Writes.schema (hw : t.Writes tableId op w) : w.table.toRelSchema = t.toRelSchema := by
  cases hw <;> rfl

omit [TextDecoding] in
theorem Writes.length_le (hw : t.Writes tableId op w) : t.edges.length ≤ w.table.edges.length := by
  cases hw <;> simp

theorem Wrote.schema (h : Wrote tableId t records t') : t'.toRelSchema = t.toRelSchema := by
  induction h with
  | nil => rfl
  | cons hw _ _ ih => exact ih.trans hw.schema

theorem Wrote.length_le (h : Wrote tableId t records t') : t.edges.length ≤ t'.edges.length := by
  induction h with
  | nil => exact le_rfl
  | cons hw _ _ ih => exact hw.length_le.trans ih

theorem Writes.edge (hw : t.Writes tableId op w) (hrec : op.Recorded) (he : t.edges[r]? = some e) :
    w.table.edges[r]? = some (rewrite r e w.record) := by
  cases hw with
  | insertRel =>
    rw [appendEdge_edges, getElem?_append_left (lt_length_of_getElem? he), he]
    rfl
  | updateCell r' =>
    rw [setCell_edges, getElem?_modify, he]
    by_cases hr : r = r'
    · simp [rewrite, hr, hrec.payload (n := 1) rfl]
    · simp [rewrite, hr, Ne.symm hr]
  | deleteLive r' e' he' hlive =>
    rw [buryEdge_edges, getElem?_modify, he]
    by_cases hr : r = r'
    · subst hr
      cases he.symm.trans he'
      simp [rewrite, Edge.live, hlive]
    · simp [rewrite, hr, Ne.symm hr]
  | deleteDead r' e' he' hdead =>
    have hsame : rewrite r e (.delete tableId r') = e := by
      by_cases hr : r = r'
      · subst hr
        cases he.symm.trans he'
        simp [rewrite, Edge.live, hdead]
      · simp [rewrite, hr]
    rw [hsame]
    exact he

theorem Writes.rewrite_beyond (hw : t.Writes tableId op w) (hr : t.edges.length ≤ r) (e : Edge) :
    rewrite r e w.record = e := by
  cases hw with
  | insertRel => rfl
  | updateCell r' => simp [rewrite, show r ≠ r' by omega]
  | deleteLive r' e' he' _ | deleteDead r' e' he' _ =>
    have := lt_length_of_getElem? he'
    simp [rewrite, show r ≠ r' by omega]

theorem Wrote.edge (h : Wrote tableId t records t') {e' : Edge} (he' : t'.edges[r]? = some e') :
    ∃ e, (∀ e₀, t.edges[r]? = some e₀ → e = e₀) ∧ e' = rewriteAll r e records := by
  induction h with
  | nil =>
    refine ⟨e', fun e₀ h₀ => ?_, rfl⟩
    exact Option.some.inj (he'.symm.trans h₀)
  | @cons t t' op w records hw hrec hrest ih =>
    obtain ⟨e₁, hstart, rfl⟩ := ih he'
    by_cases hr : r < t.edges.length
    · refine ⟨t.edges[r], fun e₀ h₀ => Option.some.inj ((getElem?_eq_getElem hr).symm.trans h₀), ?_⟩
      rw [hstart _ (hw.edge hrec (getElem?_eq_getElem hr))]
      rfl
    · refine ⟨e₁, fun e₀ h₀ => absurd (lt_length_of_getElem? h₀) hr, ?_⟩
      show _ = rewriteAll r (rewrite r e₁ w.record) records
      rw [hw.rewrite_beyond (Nat.le_of_not_lt hr)]

inductive Logged (t : RelTable) (tableId : Nat) : DataRecord → Prop where
  | insert (src dst : UInt64) (values : List Value) (hv : values.length = t.columns.length)
      (htype : t.emptyType values = false) (hwindow : t.invertedWindow values = false)
      (hback : ReadsBack (.uint64 src :: .uint64 dst :: values)) :
      Logged t tableId (.insert tableId (serializeValues (.uint64 src :: .uint64 dst :: values)))
  | update (r c : Nat) (v : Value) (hr : r < t.edges.length) (hc : c < t.columns.length) (hback : ReadsBack [v]) :
      Logged t tableId (.update tableId r c (serializeValues [v]))
  | delete (r : Nat) (hr : r < t.edges.length) : Logged t tableId (.delete tableId r)

theorem Writes.logged (hw : t.Writes tableId op w) (hrec : op.Recorded)
    (hschema : t'.toRelSchema = t.toRelSchema)
    (hle : t.edges.length ≤ t'.edges.length) : Logged t' tableId w.record := by
  cases hw with
  | insertRel src dst values hv htype hwindow =>
    exact .insert src dst values (by rw [hschema]; exact hv) (by rw [hschema]; exact htype)
      (by rw [hschema]; exact hwindow) hrec
  | updateCell r c v _ hc hr => exact .update r c v (hr.trans_le hle) (by rw [hschema]; exact hc) hrec
  | deleteLive r e he _ | deleteDead r e he _ =>
    exact .delete r ((lt_length_of_getElem? he).trans_le hle)

theorem Wrote.logged (h : Wrote tableId t records t') : ∀ rec ∈ records, Logged t' tableId rec := by
  induction h with
  | nil => nofun
  | cons hw hrec hrest ih =>
    exact forall_mem_cons.mpr
      ⟨hw.logged hrec (hrest.schema.trans hw.schema) (hw.length_le.trans hrest.length_le), ih⟩

theorem Wrote.mirrored_of_lastProp (h : Wrote tableId t records t') {c : Nat} {v : Value}
    (hv : lastProp records r c = some v) : mirrored v = v := by
  refine RelTable.mirrored_of_lastProp (fun i rowId column data hmem v hdata => ?_) hv
  cases h.logged _ hmem with
  | update _ _ v' _ _ hback =>
    rw [hback.payload (n := 1) rfl] at hdata
    cases hdata
    exact hback.mirrored

end RelTable

end Akar
