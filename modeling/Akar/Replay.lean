import Akar.Rollback

namespace Akar

open List Option NodeTable

variable {frontier : Option Nat} {lost : String → Prop} {op : WriteOp} {tableId : Nat}

namespace NodeTable

/-- `rep` is a replayed copy of `mem`: it lacks the slots that rolled-back inserts left in `mem`,
and its index holds no key beyond those of `mem` but the `lost` ones. -/
structure Tracks (mem rep : NodeTable) (frontier : Option Nat) (lost : String → Prop) : Prop where
  schema : rep.toNodeSchema = mem.toNodeSchema
  rows : Aligned mem.live frontier mem.rows rep.rows
  keys : ∀ key, mem.hashIndex.lookup key = none → ¬lost key → rep.hashIndex.lookup key = none

variable {mem mem' rep : NodeTable} {tableId r c : Nat} {v : Value} {values row : List Value}

theorem Tracks.numRows_lt (h : mem.Tracks rep frontier lost) (hr : r < frontier.getD mem.numRows) :
    r < rep.numRows := by
  have hmem := hr.trans_le h.rows.frontier_le
  have hget := h.rows.get hr
  rw [getElem?_eq_getElem hmem] at hget
  exact lt_length_of_getElem? hget

theorem Tracks.leave {keys : List String} {entries : List UInt8 → List Nat}
    (h : mem.Tracks rep frontier lost) (hrev : mem'.Reverted mem keys entries) :
    mem'.Tracks rep (frontierAfter frontier mem.numRows mem'.numRows) fun key =>
      lost key ∨ mem.hashIndex.lookup key ≠ none ∧ mem'.hashIndex.lookup key = none := by
  obtain ⟨n, hn⟩ := hrev.rows
  refine ⟨h.schema.trans hrev.schema.symm, ?_, ?_⟩
  · have hdead : ∀ row ∈ replicate n (mem.columns.map fun _ => Value.null), mem.live row = false := by
      intro row hrow
      rw [eq_of_mem_replicate hrow]
      exact mem.live_nulls
    rw [hrev.schema, numRows, numRows, hn]
    exact h.rows.leave hdead
  · intro key hnone hl
    have hkeep : mem.hashIndex.lookup key = none := by
      by_contra hne
      exact hl (.inr ⟨hne, hnone⟩)
    exact h.keys key hkeep fun hlk => hl (.inl hlk)

variable [Rendering]

section

variable (h : mem.Tracks rep frontier lost)
include h

theorem Tracks.replay_insertRow (hrow : checkedRow mem.toNodeSchema values = .ok row)
    (hfresh : ∀ key, mem.keyOf row = some key → mem.hashIndex.lookup key = none)
    (hback : ReadsBack values) (hlost : ∀ key ∈ mem.keyOf row, ¬lost key) :
    ∃ rep', rep.replay (.insert tableId (serializeValues values)) = .ok rep' ∧
      (mem.appendRow row (checkedRow_length hrow)).Tracks rep' frontier lost := by
  have hrow' : checkedRow rep.toNodeSchema values = .ok row := by rw [h.schema]; exact hrow
  have hdata := hback.payload (values_length hrow')
  have hfresh' : ∀ key, rep.keyOf row = some key → rep.hashIndex.lookup key = none := by
    intro key hkey
    rw [h.schema] at hkey
    exact h.keys key (hfresh key hkey) (hlost key hkey)
  refine ⟨rep.appendRow row (checkedRow_length hrow'), ?_, h.schema, ?_, ?_⟩
  · simp only [replay, replayInsert, hdata, insertRow_ok hrow' hfresh']
  · exact h.rows.append row
  · intro key hmem hl
    rw [appendRow_hashIndex, HashIndex.lookup_file] at hmem ⊢
    rw [h.schema]
    split at hmem
    · cases hmem
    next hne => rw [if_neg hne]; exact h.keys key hmem hl

theorem Tracks.replay_updateCell (hc : c < mem.columns.length) (hr : r < frontier.getD mem.numRows)
    (hback : ReadsBack [v]) :
    ∃ rep', rep.replay (.update tableId r c (serializeValues [v])) = .ok rep' ∧
      (mem.setCell r c v).Tracks rep' frontier lost := by
  have hc' : c < rep.columns.length := by rw [h.schema]; exact hc
  refine ⟨rep.setCell r c v, ?_, h.schema, h.rows.modify hr _, h.keys⟩
  simp [replay, hback.payload (n := 1) rfl, updateCell_ok hc' (h.numRows_lt hr), Except.mapError]

theorem Tracks.replay_deleteRow (hrow : mem.rows[r]? = some row) (hr : r < frontier.getD mem.numRows) :
    ∃ rep', rep.replay (.delete tableId r) = .ok rep' ∧
      (mem.buryRow r row).Tracks rep' frontier fun key => lost key ∧ mem.keyOf row ≠ some key := by
  have hrow' : rep.rows[r]? = some row := (h.rows.get hr).trans hrow
  refine ⟨rep.buryRow r row, ?_, h.schema, h.rows.modify hr _, ?_⟩
  · simp [replay, deleteRow_ok hrow', Except.mapError]
  · intro key hmem hl
    rw [buryRow_hashIndex, HashIndex.lookup_unfile] at hmem ⊢
    rw [h.schema]
    split at hmem
    next heq => rw [if_pos heq]
    next hne => rw [if_neg hne]; exact h.keys key hmem fun hlk => hl ⟨hlk, hne⟩

end

end NodeTable

namespace RelTable

def liveEdges (t : RelTable) : List Edge := t.edges.filter Edge.live

structure Tracks (mem rep : RelTable) (frontier : Option Nat) : Prop where
  schema : rep.toRelSchema = mem.toRelSchema
  edges : Aligned Edge.live frontier mem.edges rep.edges

variable {mem mem' rep : RelTable}

theorem Tracks.leave {fwd rev : UInt64 → List (UInt64 × Nat)} (h : mem.Tracks rep frontier)
    (hrev : mem'.Reverted mem fwd rev) :
    mem'.Tracks rep (frontierAfter frontier mem.edges.length mem'.edges.length) := by
  obtain ⟨dead, hd, hdead⟩ := hrev.edges
  refine ⟨h.schema.trans hrev.schema.symm, ?_⟩
  rw [hd]
  exact h.edges.leave hdead

variable [Rendering] {w : Written RelTable}

theorem Tracks.replay_write (h : mem.Tracks rep frontier) (hw : mem.Writes tableId op w)
    (hrec : op.Recorded)
    (hslot : ∀ r, (op = .deleteRow r ∨ ∃ c v, op = .updateCell r c v) → r <
      frontier.getD mem.edges.length) :
    ∃ rep', rep.replay w.record = .ok rep' ∧ w.table.Tracks rep' frontier := by
  have hcols := congrArg RelSchema.columns h.schema
  cases hw with
  | insertRel src dst values hv htype hwindow =>
    have hv' : values.length = rep.columns.length := by rw [hcols]; exact hv
    refine ⟨rep.appendEdge ⟨src, dst, values⟩ hv', ?_, h.schema, h.edges.append _⟩
    have hdata := hrec.payload (n := rep.columns.length + 2) (by simp [hv'])
    have hins : rep.insertRel src dst values = .ok (rep.appendEdge ⟨src, dst, values⟩ hv') :=
      insertRel_ok hv' (h.schema ▸ htype) (h.schema ▸ hwindow)
    simp [replay, hdata, Value.asU64, hins, Except.mapError]
  | updateCell r c v _ hc hr =>
    have hlt := hslot r (.inr ⟨c, v, rfl⟩)
    have hr' : r < rep.edges.length := by
      have hget := h.edges.get hlt
      rw [getElem?_eq_getElem hr] at hget
      exact lt_length_of_getElem? hget
    refine ⟨rep.setCell r c v, ?_, h.schema, h.edges.modify hlt _⟩
    simp [replay, hrec.payload (n := 1) rfl, updateCell_ok (hcols ▸ hc) hr', Except.mapError]
  | deleteLive r e he hlive =>
    have hlt := hslot r (.inl rfl)
    have he' : rep.edges[r]? = some e := (h.edges.get hlt).trans he
    refine ⟨rep.buryEdge r e, ?_, h.schema, h.edges.modify hlt _⟩
    simp [replay, deleteEdge_live he' hlive, Except.mapError]
  | deleteDead r e he hdead =>
    have he' : rep.edges[r]? = some e := (h.edges.get (hslot r (.inl rfl))).trans he
    exact ⟨rep, by simp [replay, deleteEdge_dead he' hdead, Except.mapError], h⟩

omit [Rendering] in
theorem Writes.live_edge (hw : mem.Writes tableId op w) {e' : Edge}
    (he' : e' ∈ w.table.edges) (hlive : e'.live) :
    (∃ e ∈ mem.edges, e.live ∧ e.src = e'.src ∧ e.dst = e'.dst) ∨ ∃ values, op =
      .insertRel e'.src e'.dst values := by
  cases hw with
  | insertRel src dst values =>
    rw [appendEdge_edges, mem_append, mem_singleton] at he'
    rcases he' with he' | rfl
    · exact .inl ⟨e', he', hlive, rfl, rfl⟩
    · exact .inr ⟨values, rfl⟩
  | updateCell =>
    left
    rw [setCell_edges, mem_iff_getElem?] at he'
    obtain ⟨k, hk⟩ := he'
    rw [getElem?_modify] at hk
    obtain ⟨e, he, rfl⟩ := map_eq_some_iff.mp hk
    refine ⟨e, mem_of_getElem? he, ?_⟩
    split at hlive <;> simp_all [Edge.live]
  | deleteLive r e =>
    left
    rw [buryEdge_edges, mem_iff_getElem?] at he'
    obtain ⟨k, hk⟩ := he'
    rw [getElem?_modify] at hk
    obtain ⟨e, he, rfl⟩ := map_eq_some_iff.mp hk
    refine ⟨e, mem_of_getElem? he, ?_⟩
    split at hlive
    · simp at hlive
    next hne => simp [hne, hlive]
  | deleteDead => exact .inl ⟨e', he', hlive, rfl, rfl⟩

end RelTable

namespace Table

def slots : Table → Nat
  | .node t => t.numRows
  | .rel t => t.edges.length

def holds (t : Table) (key : String) : Prop := match t with
  | .node t => t.hashIndex.lookup key ≠ none
  | .rel _ => False

def Tracks (mem rep : Table) (frontier : Option Nat) (lost : String → Prop) : Prop :=
  match mem, rep with
  | .node mem, .node rep => mem.Tracks rep frontier lost
  | .rel mem, .rel rep => mem.Tracks rep frontier
  | _, _ => False

variable {mem mem' rep : Table}

theorem Tracks.leave {loss : Loss} (h : mem.Tracks rep frontier lost) (hrev : mem'.Reverted mem loss) :
    mem'.Tracks rep (frontierAfter frontier mem.slots mem'.slots) fun key =>
      lost key ∨ mem.holds key ∧ ¬mem'.holds key := by
  cases mem with
  | node =>
    cases rep with
    | rel => cases h
    | node =>
      cases mem' with
      | rel => cases hrev
      | node =>
        simp only [holds, not_not]
        exact Tracks.leave h hrev
  | rel =>
    cases rep with
    | node => cases h
    | rel =>
      cases mem' with
      | node => cases hrev
      | rel => exact RelTable.Tracks.leave h hrev

variable [Rendering]

/-- A write whose log record means the same on a replayed copy: it inserts no key that the copy
still holds, and it goes to a slot below the frontier. -/
def InStep (t : Table) (frontier : Option Nat) (lost : String → Prop) : WriteOp → Prop
  | .insertRow values =>
    match t with
    | .node t =>
      ∀ row, NodeTable.checkedRow t.toNodeSchema values = .ok row → ∀ key ∈ t.keyOf row, ¬lost key
    | .rel _ => True
  | .insertRel .. => True
  | .updateCell r _ _ | .deleteRow r => r < frontier.getD t.slots

def lostAfter (t : Table) (lost : String → Prop) (op : WriteOp) (key : String) : Prop :=
  match t, op with
  | .node t, .deleteRow r => lost key ∧ ∀ row ∈ t.rows[r]?, t.keyOf row ≠ some key
  | _, _ => lost key

variable {w : Written Table}

theorem Tracks.replay_write (h : mem.Tracks rep frontier lost)
    (hw : mem.write tableId op = some w) (hrec : op.Recorded) (hstep : mem.InStep frontier lost op) :
    ∃ rep', rep.replay w.record = .ok rep' ∧ w.table.Tracks rep' frontier (mem.lostAfter lost op) := by
  cases mem with
  | node mem =>
    cases rep with
    | rel => cases h
    | node rep =>
      obtain ⟨w', hw', rfl⟩ := map_eq_some_iff.mp hw
      have hnode : ∃ rep', rep.replay w'.record = .ok rep' ∧
          w'.table.Tracks rep' frontier (lostAfter (.node mem) lost op) := by
        cases writes_of_write hw' with
        | insertRow values row hrow hfresh =>
          exact Tracks.replay_insertRow h hrow hfresh hrec (hstep row hrow)
        | updateCell r c v hc => exact Tracks.replay_updateCell h hc hstep hrec
        | deleteRow r row hrow =>
          have hlost : lostAfter (.node mem) lost (.deleteRow r) = fun key => lost key ∧
              mem.keyOf row ≠ some key := by
            funext key
            simp [lostAfter, hrow]
          rw [hlost]
          exact Tracks.replay_deleteRow h hrow hstep
      obtain ⟨rep', hrep', htracks⟩ := hnode
      exact ⟨.node rep', by simp [replay, hrep', Except.map], htracks⟩
  | rel mem =>
    cases rep with
    | node => cases h
    | rel =>
      obtain ⟨w', hw', rfl⟩ := map_eq_some_iff.mp hw
      have hslot : ∀ r, (op = .deleteRow r ∨ ∃ c v, op = .updateCell r c v) → r <
          frontier.getD mem.edges.length := by
        rintro r (rfl | ⟨c, v, rfl⟩) <;> exact hstep
      obtain ⟨rep', hrep', htracks⟩ :=
        RelTable.Tracks.replay_write h (RelTable.writes_of_write hw') hrec hslot
      exact ⟨.rel rep', by simp [replay, hrep', Except.map], htracks⟩

theorem write_node {t : NodeTable} (hw : (Table.node t).write tableId op = some w) :
    ∃ t', w.table = .node t' ∧ t.numRows ≤ t'.numRows := by
  obtain ⟨w', hw', rfl⟩ := map_eq_some_iff.mp hw
  cases writes_of_write hw' <;> simp [NodeTable.numRows]

end Table

end Akar
