import Akar.NodeSecondReplay
import Akar.Recovery

namespace Akar

open List Option NodeTable RelTable

namespace RelTable

variable [Rendering]

def insertedEdge (t : RelSchema) : DataRecord → Option Edge
  | .insert _ data =>
    match deserializeValuesFromBytes data (t.columns.length + 2) with
    | v₁ :: v₂ :: props =>
      match v₁.asU64, v₂.asU64 with
      | some src, some dst => some ⟨src, dst, props⟩
      | _, _ => none
    | _ => none
  | _ => none

/-- `p` is what a replay of `pre` makes of `s`, whose own writes left `pre` in the log: edges are
not deduplicated, so every insert is a new edge. -/
structure Redone (s p : RelTable) (pre : List DataRecord) : Prop where
  schema : p.toRelSchema = s.toRelSchema
  edges : ∀ (r : Nat) (e : Edge), s.edges[r]? = some e → p.edges[r]? = some (rewriteAll r e pre)
  length_le : s.edges.length ≤ p.edges.length
  rest : p.edges.drop s.edges.length = pre.filterMap (insertedEdge s.toRelSchema)

variable {s p : RelTable} {pre records : List DataRecord} {rec : DataRecord} {tableId r c : Nat}
    {v : Value}

theorem Redone.self (s : RelTable) : s.Redone s [] := ⟨rfl, fun _ _ he => he, le_rfl, drop_length⟩

theorem Redone.insert {src dst : UInt64} {values : List Value} (h : s.Redone p pre)
    (hv : values.length = s.columns.length) (htype : s.emptyType values = false)
    (hwindow : s.invertedWindow values = false)
    (hback : ReadsBack (.uint64 src :: .uint64 dst :: values)) :
    ∃ p', p.replay (.insert tableId (serializeValues (.uint64 src :: .uint64 dst :: values))) = .ok p' ∧
      s.Redone p' (pre ++ [.insert tableId
        (serializeValues (.uint64 src :: .uint64 dst :: values))]) := by
  have hv' : values.length = p.columns.length := by rw [h.schema]; exact hv
  have hdata := hback.payload (n := p.columns.length + 2) (by simp [hv'])
  have hins : p.insertRel src dst values = .ok (p.appendEdge ⟨src, dst, values⟩ hv') :=
    insertRel_ok hv' (h.schema ▸ htype) (h.schema ▸ hwindow)
  refine ⟨p.appendEdge ⟨src, dst, values⟩ hv', ?_, h.schema, ?_, ?_, ?_⟩
  · simp [replay, hdata, Value.asU64, hins, Except.mapError]
  · intro r e he
    have hedge := h.edges r e he
    rw [appendEdge_edges, getElem?_append_left (lt_length_of_getElem? hedge), hedge, rewriteAll_concat]
    rfl
  · rw [appendEdge_edges, length_append]
    exact Nat.le_add_right_of_le h.length_le
  · rw [h.schema] at hdata
    rw [appendEdge_edges, drop_append_of_le_length h.length_le, h.rest, filterMap_append]
    simp [insertedEdge, hdata, Value.asU64]

theorem Redone.update (h : s.Redone p pre) (hr : r < s.edges.length) (hc : c < s.columns.length)
    (hback : ReadsBack [v]) :
    ∃ p', p.replay (.update tableId r c (serializeValues [v])) = .ok p' ∧
      s.Redone p' (pre ++ [.update tableId r c (serializeValues [v])]) := by
  have hdata := hback.payload (n := 1) rfl
  have hr' := hr.trans_le h.length_le
  have hc' : c < p.columns.length := by rw [h.schema]; exact hc
  refine ⟨p.setCell r c v, ?_, h.schema, ?_, by simpa using h.length_le, ?_⟩
  · simp [replay, hdata, updateCell_ok hc' hr', Except.mapError]
  · intro r' e he
    rw [setCell_edges, getElem?_modify, h.edges r' e he, rewriteAll_concat]
    by_cases hr' : r' = r
    · simp [rewrite, hr', hdata]
    · simp [rewrite, hr', Ne.symm hr']
  · rw [setCell_edges, drop_modify_of_lt _ _ _ _ hr, h.rest]
    simp [insertedEdge]

theorem Redone.delete (h : s.Redone p pre) (hr : r < s.edges.length) :
    ∃ p', p.replay (.delete tableId r) = .ok p' ∧ s.Redone p' (pre ++ [.delete tableId r]) := by
  have hedge := h.edges r _ (getElem?_eq_getElem hr)
  have hrest : pre.filterMap (insertedEdge s.toRelSchema) =
      (pre ++ [DataRecord.delete tableId r]).filterMap (insertedEdge s.toRelSchema) := by
    simp [insertedEdge]
  by_cases hdead : (rewriteAll r s.edges[r] pre).src = noOffset
  · refine ⟨p, by simp [replay, deleteEdge_dead hedge hdead, Except.mapError], h.schema, fun r' e he => ?_, h.length_le,
      h.rest.trans hrest⟩
    rw [h.edges r' e he, rewriteAll_concat]
    by_cases hr' : r' = r
    · subst hr'
      cases (getElem?_eq_getElem hr).symm.trans he
      simp [rewrite, Edge.live, hdead]
    · simp [rewrite, hr']
  · refine ⟨p.buryEdge r (rewriteAll r s.edges[r] pre), by
      simp [replay, deleteEdge_live hedge hdead, Except.mapError], h.schema, fun r' e he => ?_,
      by simpa using h.length_le, ?_⟩
    · rw [buryEdge_edges, getElem?_modify, h.edges r' e he, rewriteAll_concat]
      by_cases hr' : r' = r
      · subst hr'
        cases (getElem?_eq_getElem hr).symm.trans he
        simp [rewrite, Edge.live, hdead]
      · simp [rewrite, hr', Ne.symm hr']
    · rw [buryEdge_edges, drop_modify_of_lt _ _ _ _ hr, h.rest, hrest]

theorem Redone.replay (h : s.Redone p pre) (hlog : s.Logged tableId rec) :
    ∃ p', p.replay rec = .ok p' ∧ s.Redone p' (pre ++ [rec]) := by
  cases hlog with
  | insert src dst values hv htype hwindow hback => exact h.insert hv htype hwindow hback
  | update r c v hr hc hback => exact h.update hr hc hback
  | delete r hr => exact h.delete hr

theorem Redone.replayAll (h : s.Redone p pre) (hlog : ∀ rec ∈ records, s.Logged tableId rec) :
    ∃ p', records.foldlM RelTable.replay p = .ok p' ∧ s.Redone p' (pre ++ records) := by
  induction records generalizing p pre with
  | nil => exact ⟨p, rfl, by simpa using h⟩
  | cons rec records ih =>
    obtain ⟨p₁, hp₁, h₁⟩ := h.replay (hlog rec mem_cons_self)
    obtain ⟨p', hp', h'⟩ := ih h₁ (forall_mem_cons.mp hlog).2
    refine ⟨p', ?_, by simpa using h'⟩
    rw [foldlM_cons, hp₁]
    exact hp'

def Repeatable (s : RelTable) (records : List DataRecord) : Prop :=
  ∀ e ∈ records.filterMap (insertedEdge s.toRelSchema), e.live = false

theorem Redone.liveEdges (h : s.Redone p records)
    (hlast : ∀ (r : Nat) (e : Edge), s.edges[r]? = some e →
      (rewriteAll r e records).live = e.live ∧ (e.live → rewriteAll r e records = e)) :
    p.liveEdges.Perm s.liveEdges ↔ s.Repeatable records := by
  have htake : (p.edges.take s.edges.length).filter Edge.live = s.liveEdges := by
    refine filter_eq_of_slots fun r => ?_
    cases he : s.edges[r]? with
    | none =>
      rw [getElem?_take_eq_none (List.getElem?_eq_none_iff.mp he)]
    | some e =>
      obtain ⟨hlive, hsame⟩ := hlast r e he
      rw [getElem?_take_of_lt (lt_length_of_getElem? he), h.edges r e he]
      by_cases hl : e.live = true
      · rw [hsame hl]
      · have hdead : e.live = false := Bool.not_eq_true _ ▸ hl
        rw [filter_some_neg hdead, filter_some_neg (hlive.trans hdead)]
  have hsplit : p.liveEdges = s.liveEdges ++
      (records.filterMap (insertedEdge s.toRelSchema)).filter Edge.live := by
    rw [← htake, ← h.rest, ← filter_append, take_append_drop]
    rfl
  rw [hsplit]
  constructor
  · intro hperm
    have hlen := hperm.length_eq
    simpa [Repeatable] using hlen
  · intro hrep
    rw [filter_eq_nil_iff.mpr (by simpa [Repeatable] using hrep), append_nil]

theorem Wrote.replay_reload {t t' : RelTable} (h : Wrote tableId t records t') :
    ∃ p, records.foldlM RelTable.replay t'.reload = .ok p ∧
      (p.liveEdges.Perm t'.reload.liveEdges ↔ t'.reload.Repeatable records) := by
  have hnum : t'.reload.edges.length = t'.edges.length := by simp
  have hlog : ∀ rec ∈ records, t'.reload.Logged tableId rec := by
    intro rec hrec
    cases h.logged rec hrec with
    | insert src dst values hv htype hwindow hback =>
      exact .insert src dst values hv htype hwindow hback
    | update r c v hr hc hback => exact .update r c v (hnum ▸ hr) hc hback
    | delete r hr => exact .delete r (hnum ▸ hr)
  obtain ⟨p, hp, hredone⟩ := (Redone.self _).replayAll hlog
  refine ⟨p, hp, hredone.liveEdges fun r e he => ?_⟩
  rw [reload_edges, getElem?_map] at he
  obtain ⟨e', he', rfl⟩ := map_eq_some_iff.mp he
  obtain ⟨e₀, _, rfl⟩ := h.edge he'
  exact rewriteAll_mirrored r e₀ fun c v hv => h.mirrored_of_lastProp hv

end RelTable

namespace Table

def SameLive : Table → Table → Prop
  | .node p, .node s => ∀ r, p.liveAt r = s.liveAt r
  | .rel p, .rel s => p.liveEdges.Perm s.liveEdges
  | _, _ => False

variable [Rendering]

def Wrote (tableId : Nat) : Table → List DataRecord → Table → Prop
  | .node t, records, .node t' => NodeTable.Wrote tableId t records t'
  | .rel t, records, .rel t' => RelTable.Wrote tableId t records t'
  | _, _, _ => False

def Repeatable (t : Table) (records : List DataRecord) : Prop := match t with
  | .node t => t.Repeatable records
  | .rel t => t.Repeatable records

variable {t t' : Table} {tableId : Nat} {op : WriteOp} {w : Written Table} {records : List DataRecord}

theorem Wrote.nil (tableId : Nat) (t : Table) : t.Wrote tableId [] t := by
  cases t with
  | node t => exact NodeTable.Wrote.nil t
  | rel t => exact RelTable.Wrote.nil t

theorem Wrote.cons (hw : t.write tableId op = some w) (hrec : op.Recorded)
    (h : w.table.Wrote tableId records t') :
    t.Wrote tableId (w.record :: records) t' := by
  cases t with
  | node =>
    obtain ⟨w', hw', rfl⟩ := map_eq_some_iff.mp hw
    cases t' with
    | rel => cases h
    | node => exact NodeTable.Wrote.cons (NodeTable.writes_of_write hw') hrec h
  | rel =>
    obtain ⟨w', hw', rfl⟩ := map_eq_some_iff.mp hw
    cases t' with
    | node => cases h
    | rel => exact RelTable.Wrote.cons (RelTable.writes_of_write hw') hrec h

theorem replayAll_node (t : NodeTable) (records : List DataRecord) :
    records.foldlM Table.replay (.node t) = (records.foldlM NodeTable.replay t).map .node := by
  induction records generalizing t with
  | nil => rfl
  | cons rec records ih =>
    rw [foldlM_cons, foldlM_cons, replay]
    cases t.replay rec with
    | error => rfl
    | ok t₁ => exact ih t₁

theorem replayAll_rel (t : RelTable) (records : List DataRecord) :
    records.foldlM Table.replay (.rel t) = (records.foldlM RelTable.replay t).map .rel := by
  induction records generalizing t with
  | nil => rfl
  | cons rec records ih =>
    rw [foldlM_cons, foldlM_cons, replay]
    cases t.replay rec with
    | error => rfl
    | ok t₁ => exact ih t₁

theorem Wrote.replay_reload (h : t.Wrote tableId records t') :
    ∃ p, records.foldlM Table.replay t'.reload = .ok p ∧
      (p.SameLive t'.reload ↔ t'.reload.Repeatable records) := by
  cases t with
  | node =>
    cases t' with
    | rel => cases h
    | node =>
      obtain ⟨p, hp, hlive⟩ := NodeTable.Wrote.replay_reload h
      exact ⟨.node p, by rw [reload, replayAll_node, hp]; rfl, hlive⟩
  | rel =>
    cases t' with
    | node => cases h
    | rel =>
      obtain ⟨p, hp, hlive⟩ := RelTable.Wrote.replay_reload h
      exact ⟨.rel p, by rw [reload, replayAll_rel, hp]; rfl, hlive⟩

end Table

def recordsOf (tableId : Nat) (records : List DataRecord) : List DataRecord :=
  records.filter (·.tableId = tableId)

variable {rec : DataRecord} {i : Nat}

theorem recordsOf_cons_self (h : rec.tableId = i) (records : List DataRecord) :
    recordsOf i (rec :: records) = rec :: recordsOf i records := by
  simp [recordsOf, h]

theorem recordsOf_cons_ne (h : rec.tableId ≠ i) (records : List DataRecord) :
    recordsOf i (rec :: records) = recordsOf i records := by
  simp [recordsOf, h]

namespace TableCatalog

variable [Rendering] {cat : TableCatalog} {ws : List (Nat × WriteOp)} {j : Journal}
    {records : List DataRecord}

theorem wrote_of_writes (h : cat.writes ws = some j) (hrec : ∀ w ∈ ws, w.2.Recorded) (i : Nat) :
    Option.Rel (fun t t' => t.Wrote i (recordsOf i j.records) t') (cat.tables i)
      (j.catalog.tables i) := by
  induction ws generalizing cat j with
  | nil =>
    cases h
    cases cat.tables i with
    | none => exact .none
    | some t => exact .some (.nil i t)
  | cons w ws ih =>
    obtain ⟨w', hw', j', hj', rfl⟩ := writes_cons_eq_some.mp h
    obtain ⟨t, wt, ht, hwt, rfl⟩ := write_eq_some.mp hw'
    have hrest := ih hj' (forall_mem_cons.mp hrec).2
    have hid := (Table.write_tableId hwt).2
    by_cases hi : w.1 = i
    · subst hi
      simp only [set_tables_self] at hrest
      obtain ⟨t', ht', hwrote⟩ :=
        rel_some_left (R := fun t t' => Table.Wrote w.1 t (recordsOf w.1 j'.records) t') hrest
      rw [ht, ht', recordsOf_cons_self hid]
      exact .some (.cons hwt (hrec w mem_cons_self) hwrote)
    · simp only [set_tables_ne (Ne.symm hi)] at hrest
      rw [recordsOf_cons_ne (hid ▸ hi)]
      exact hrest

theorem replayAll_of_tables
    (h : ∀ i t, cat.tables i = some t → ∃ p, (recordsOf i records).foldlM Table.replay t = .ok p) :
    ∃ rep, cat.replayAll records = .ok rep ∧
      ∀ i, Option.Rel (fun t p => (recordsOf i records).foldlM Table.replay t = .ok p)
        (cat.tables i) (rep.tables i) := by
  induction records generalizing cat with
  | nil =>
    refine ⟨cat, rfl, fun i => ?_⟩
    cases cat.tables i with
    | none => exact .none
    | some => exact .some rfl
  | cons rec records ih =>
    cases ht : cat.tables rec.tableId with
    | none =>
      obtain ⟨rep, hrep, htables⟩ := ih fun i t hi => by
        have hne : rec.tableId ≠ i := by
          rintro rfl
          rw [ht] at hi
          cases hi
        rw [← recordsOf_cons_ne hne]
        exact h i t hi
      refine ⟨rep, ?_, fun i => ?_⟩
      · show (rec :: records).foldlM replay cat = .ok rep
        simp only [foldlM_cons, replay, ht]
        exact hrep
      · by_cases hi : rec.tableId = i
        · subst hi
          have := htables rec.tableId
          rw [ht] at this ⊢
          rw [rel_none_left this]
          exact .none
        · rw [recordsOf_cons_ne hi]
          exact htables i
    | some t =>
      obtain ⟨p, hp⟩ := h _ t ht
      rw [recordsOf_cons_self rfl, foldlM_cons] at hp
      obtain ⟨t₁, ht₁, hp⟩ := bind_eq_ok.mp hp
      obtain ⟨rep, hrep, htables⟩ := @ih (cat.set rec.tableId t₁) fun i t' hi => by
        by_cases hne : rec.tableId = i
        · subst hne
          simp only [set_tables_self, some.injEq] at hi
          subst hi
          exact ⟨p, hp⟩
        · simp only [set_tables_ne (Ne.symm hne)] at hi
          rw [← recordsOf_cons_ne hne]
          exact h i t' hi
      refine ⟨rep, ?_, fun i => ?_⟩
      · show (rec :: records).foldlM replay cat = .ok rep
        simp only [foldlM_cons, replay, ht, ht₁]
        exact hrep
      · have hi := htables i
        by_cases hne : rec.tableId = i
        · subst hne
          simp only [set_tables_self] at hi
          obtain ⟨p', hp', hfold⟩ := rel_some_left
            (R := fun t p => (recordsOf rec.tableId records).foldlM Table.replay t = .ok p) hi
          rw [ht, hp', recordsOf_cons_self rfl]
          refine .some ?_
          rw [foldlM_cons, ht₁]
          exact hfold
        · simp only [set_tables_ne (Ne.symm hne)] at hi
          rw [recordsOf_cons_ne hne]
          exact hi

def SameLive (cat cat' : TableCatalog) : Prop :=
  ∀ i, Option.Rel Table.SameLive (cat.tables i) (cat'.tables i)

/-- No table changes when the log is replayed on its new mirror. -/
def Repeatable (cat : TableCatalog) (records : List DataRecord) : Prop :=
  ∀ i t, cat.tables i = some t → t.Repeatable (recordsOf i records)

theorem replayAll_reload (h : cat.writes ws = some j) (hrec : ∀ w ∈ ws, w.2.Recorded) :
    ∃ rep, j.catalog.reload.replayAll j.records = .ok rep ∧
      (rep.SameLive j.catalog.reload ↔ j.catalog.reload.Repeatable j.records) := by
  have hwrote {i : Nat} {t' : Table} (ht' : j.catalog.reload.tables i = some t') :
      ∃ p, (recordsOf i j.records).foldlM Table.replay t' = .ok p ∧
        (p.SameLive t' ↔ t'.Repeatable (recordsOf i j.records)) := by
    obtain ⟨t₀, ht₀, rfl⟩ := map_eq_some_iff.mp ht'
    have hrel := wrote_of_writes h hrec i
    rw [ht₀] at hrel
    obtain ⟨t, _, hw⟩ :=
      rel_some_right (R := fun t t' => Table.Wrote i t (recordsOf i j.records) t') hrel
    exact hw.replay_reload
  obtain ⟨rep, hrep, htables⟩ := replayAll_of_tables fun i t ht => (hwrote ht).imp fun p hp => hp.1
  have htable {i : Nat} {t' : Table} (ht' : j.catalog.reload.tables i = some t') :
      ∃ p, rep.tables i = some p ∧ (p.SameLive t' ↔ t'.Repeatable (recordsOf i j.records)) := by
    obtain ⟨p, hp, hlive⟩ := hwrote ht'
    have hrel := htables i
    rw [ht'] at hrel
    obtain ⟨p', hp', hfold⟩ :=
      rel_some_left (R := fun t p => (recordsOf i j.records).foldlM Table.replay t = .ok p) hrel
    cases hp.symm.trans hfold
    exact ⟨p, hp', hlive⟩
  refine ⟨rep, hrep, ?_, ?_⟩
  · intro hsame i t' ht'
    obtain ⟨p, hp, hlive⟩ := htable ht'
    have hsame := hsame i
    rw [hp, ht'] at hsame
    cases hsame with
    | some hsame => exact hlive.mp hsame
  · intro hrepeat i
    cases ht' : j.catalog.reload.tables i with
    | none =>
      have hrel := htables i
      rw [ht'] at hrel
      rw [rel_none_left hrel]
      exact .none
    | some t' =>
      obtain ⟨p, hp, hlive⟩ := htable ht'
      rw [hp]
      exact .some (hlive.mpr (hrepeat i t' ht'))

end TableCatalog

namespace Db

variable [Rendering]

theorem writes_of_committed {cat₀ : TableCatalog} {db : Db} {txns : List Txn}
    (hcommit : ∀ txn ∈ txns, txn.commits = true) (hrun : run apply (atCheckpoint cat₀) txns = some db) :
    ∃ j, cat₀.writes (txns.flatMap Txn.writes) = some j ∧ j.catalog = db.mem ∧ j.records =
      db.log.flatMap WALRecord.data := by
  induction txns using List.reverseRecOn generalizing db with
  | nil =>
    cases hrun
    exact ⟨_, rfl, rfl, rfl⟩
  | append_singleton txns txn ih =>
    obtain ⟨db₁, hrun₁, hlast⟩ := run_append_eq_some.mp hrun
    obtain ⟨j, hj, hcat, hrec⟩ := ih (forall_mem_append.mp hcommit).1 hrun₁
    obtain ⟨db₂, happly, hend⟩ := run_cons_eq_some.mp hlast
    cases hend
    obtain ⟨j₁, hj₁, happly⟩ := bind_eq_some_iff.mp happly
    rw [if_pos (hcommit txn (by simp))] at happly
    cases happly
    have hboth := TableCatalog.writes_append hj (hcat ▸ hj₁)
    rw [← flatMap_singleton Txn.writes txn, ← flatMap_append] at hboth
    refine ⟨_, hboth, rfl, ?_⟩
    simp [hrec, flatMap_blob, WALRecord.data]

end Db

section Social

attribute [local instance] Rendering.blank

end Social

end Akar
