import Akar.Replay
import Akar.Wal

namespace Akar

open List Option TableCatalog

/-- How the tables in memory differ from what a replay rebuilds: for each table the first slot a
rollback left behind, and the keys gone from its index that the replayed rows still carry. -/
structure Drift where
  frontier : Nat → Option Nat
  lost : Nat → String → Prop

namespace TableCatalog

def pkAt (cat : TableCatalog) (tableId : Nat) (offset : UInt64) : Option Value :=
  (cat.getNodeTable tableId).bind fun t => (t.rows[offset.toNat]?).bind t.pkOf

structure EdgeView where
  src : Option Value
  dst : Option Value
  props : List Value

def view (cat : TableCatalog) (t : RelTable) (e : Edge) : EdgeView :=
  ⟨cat.pkAt t.srcTableId e.src, cat.pkAt t.dstTableId e.dst, e.props⟩

def SameContents (cat cat' : TableCatalog) : Prop :=
  ∀ i, (cat.getNodeTable i).map NodeTable.liveRows = (cat'.getNodeTable i).map NodeTable.liveRows ∧
    (cat.getRelTable i).map (fun t => t.liveEdges.map (cat.view t)) =
      (cat'.getRelTable i).map fun t => t.liveEdges.map (cat'.view t)

def Reaches (cat : TableCatalog) (d : Drift) (tableId : Nat) (offset : UInt64) : Prop :=
  ∃ t, cat.getNodeTable tableId = some t ∧ offset.toNat < (d.frontier tableId).getD t.numRows

def EndpointsReach (cat : TableCatalog) (d : Drift) : Prop :=
  ∀ i t, cat.getRelTable i = some t → ∀ e ∈ t.edges, e.live →
    cat.Reaches d t.srcTableId e.src ∧ cat.Reaches d t.dstTableId e.dst

structure Tracks (mem rep : TableCatalog) (d : Drift) : Prop where
  tables : ∀ i, Option.Rel (fun t t' => t.Tracks t' (d.frontier i) (d.lost i)) (mem.tables i)
    (rep.tables i)
  endpoints : mem.EndpointsReach d

variable {mem mem' rep : TableCatalog} {d d' : Drift} {i : Nat} {offset : UInt64}

theorem Tracks.table (h : mem.Tracks rep d) {t : Table} (ht : mem.tables i = some t) :
    ∃ t', rep.tables i = some t' ∧ t.Tracks t' (d.frontier i) (d.lost i) := by
  have hrel := h.tables i
  rw [ht] at hrel
  exact rel_some_left (R := fun t t' => Table.Tracks t t' (d.frontier i) (d.lost i)) hrel

theorem Tracks.pkAt_eq (h : mem.Tracks rep d) (hreach : mem.Reaches d i offset) :
    rep.pkAt i offset = mem.pkAt i offset := by
  obtain ⟨t, ht, hlt⟩ := hreach
  obtain ⟨t', hrep, htracks⟩ := h.table (getNodeTable_eq_some.mp ht)
  cases t' with
  | rel => cases htracks
  | node =>
    have hrow := htracks.rows.get hlt
    simp [pkAt, ht, getNodeTable_eq_some.mpr hrep, hrow, htracks.schema]

theorem Tracks.sameContents (h : mem.Tracks rep d) : mem.SameContents rep := by
  intro i
  cases hmem : mem.tables i with
  | none =>
    have hrep : rep.tables i = none := rel_none_left (hmem ▸ h.tables i)
    simp [getNodeTable, getRelTable, hmem, hrep]
  | some t =>
    obtain ⟨t', hrep, htracks⟩ := h.table hmem
    cases t with
    | node =>
      cases t' with
      | rel => cases htracks
      | node =>
        refine ⟨?_, by simp [getRelTable, hmem, hrep]⟩
        simp only [getNodeTable, hmem, hrep, map_some, NodeTable.liveRows, htracks.schema]
        rw [htracks.rows.filter]
    | rel t =>
      cases t' with
      | node => cases htracks
      | rel t' =>
        refine ⟨by simp [getNodeTable, hmem, hrep], ?_⟩
        have hedges : t'.liveEdges = t.liveEdges := htracks.edges.filter.symm
        simp only [getRelTable, hmem, hrep, map_some, hedges, some.injEq]
        apply map_congr_left
        intro e he
        obtain ⟨hmem', hlive⟩ := mem_filter.mp he
        obtain ⟨hsrc, hdst⟩ := h.endpoints i t (getRelTable_eq_some.mpr hmem) e hmem' hlive
        simp only [view, htracks.schema]
        rw [h.pkAt_eq hsrc, h.pkAt_eq hdst]

theorem Reaches.mono (hreach : mem.Reaches d i offset)
    (hmono : ∀ t, mem.getNodeTable i = some t →
      ∃ t', mem'.getNodeTable i = some t' ∧ (d.frontier i).getD t.numRows ≤
        (d'.frontier i).getD t'.numRows) :
    mem'.Reaches d' i offset := by
  obtain ⟨t, ht, hlt⟩ := hreach
  obtain ⟨t', ht', hle⟩ := hmono t ht
  exact ⟨t', ht', hlt.trans_le hle⟩

def slots (cat : TableCatalog) (tableId : Nat) : Nat := ((cat.tables tableId).map Table.slots).getD 0

def holds (cat : TableCatalog) (tableId : Nat) (key : String) : Prop :=
  ∃ t ∈ cat.tables tableId, t.holds key

def driftLeft (mem mem' : TableCatalog) (d : Drift) : Drift where
  frontier i := frontierAfter (d.frontier i) (mem.slots i) (mem'.slots i)
  lost i key := d.lost i key ∨ mem.holds i key ∧ ¬mem'.holds i key

theorem Tracks.leave {loss : Nat → Loss} (h : mem.Tracks rep d) (hrev : mem'.Reverted mem loss) :
    mem'.Tracks rep (mem.driftLeft mem' d) := by
  have hback {k : Nat} {t' : Table} (ht' : mem'.tables k = some t') :
      ∃ t, mem.tables k = some t ∧ t'.Reverted t (loss k) := by
    have hrel := hrev k
    rw [ht'] at hrel
    exact rel_some_left (R := fun s t => Table.Reverted s t (loss k)) hrel
  have hreach {k : Nat} {offset : UInt64} (hr : mem.Reaches d k offset) :
      mem'.Reaches (mem.driftLeft mem' d) k offset := by
    refine hr.mono fun t ht => ?_
    obtain ⟨t', ht', hr'⟩ := rel_some_right (R := fun s t => Table.Reverted s t (loss k))
      (getNodeTable_eq_some.mp ht ▸ hrev k)
    cases t' with
    | rel => cases hr'
    | node t' =>
      refine ⟨t', getNodeTable_eq_some.mpr ht', ?_⟩
      simp only [driftLeft, slots, ht', getNodeTable_eq_some.mp ht, map_some, getD_some, Table.slots]
      rw [frontierAfter_getD]
  constructor
  · intro k
    cases ht' : mem'.tables k with
    | none =>
      have hmem : mem.tables k = none := rel_none_left (ht' ▸ hrev k)
      have hrep : rep.tables k = none := rel_none_left (hmem ▸ h.tables k)
      rw [hrep]
      exact .none
    | some t' =>
      obtain ⟨t, ht, hr⟩ := hback ht'
      obtain ⟨t'', hrep, htracks⟩ := h.table ht
      rw [hrep]
      have := htracks.leave hr
      simp only [driftLeft, slots, holds, ht, ht', map_some, getD_some, mem_def, some.injEq,
        exists_eq_left']
      exact .some this
  · intro k r hr e he hlive
    obtain ⟨t, ht, hrev'⟩ := hback (getRelTable_eq_some.mp hr)
    cases t with
    | node => cases hrev'
    | rel t =>
      obtain ⟨dead, hd, hdead⟩ := hrev'.edges
      rw [hd, mem_append] at he
      rcases he with he | he
      · obtain ⟨h₁, h₂⟩ := h.endpoints k t (getRelTable_eq_some.mpr ht) e he hlive
        rw [hrev'.schema]
        exact ⟨hreach h₁, hreach h₂⟩
      · rw [hdead e he] at hlive
        cases hlive

variable [Rendering]

/-- A committed write that a replay of its record repeats: its values are read back from the record,
and on its own table, and for a new edge with endpoints that a replay finds at the same offsets. -/
def InStep (s : TableCatalog × Drift) (w : Nat × WriteOp) : Prop :=
  w.2.Recorded ∧ (∀ t ∈ s.1.tables w.1, t.InStep (s.2.frontier w.1) (s.2.lost w.1) w.2) ∧
    ∀ src dst values, w.2 = .insertRel src dst values →
      ∀ t ∈ s.1.getRelTable w.1, s.1.Reaches s.2 t.srcTableId src ∧ s.1.Reaches s.2 t.dstTableId dst

def driftAfter (cat : TableCatalog) (d : Drift) (w : Nat × WriteOp) : Drift := match cat.tables w.1 with
  | some t => { d with lost := Function.update d.lost w.1 (t.lostAfter (d.lost w.1) w.2) }
  | none => d

variable {op : WriteOp} {w : Written TableCatalog}

theorem Reaches.write {k : Nat} (hw : mem.write i op = some w)
    (hreach : mem.Reaches d k offset) : w.table.Reaches (mem.driftAfter d (i, op)) k offset := by
  obtain ⟨t, w', ht, hw', rfl⟩ := write_eq_some.mp hw
  refine hreach.mono fun t₀ ht₀ => ?_
  have hfrontier : (mem.driftAfter d (i, op)).frontier = d.frontier := by simp [driftAfter, ht]
  rw [hfrontier]
  by_cases hk : k = i
  · subst hk
    have htn := some.inj (ht.symm.trans (getNodeTable_eq_some.mp ht₀))
    subst htn
    obtain ⟨t', ht', hle⟩ := Table.write_node hw'
    refine ⟨t', getNodeTable_eq_some.mpr (by simp [set, ht']), ?_⟩
    cases d.frontier k with
    | none => exact hle
    | some g => exact Nat.le_refl g
  · exact ⟨t₀, getNodeTable_eq_some.mpr (by simpa [set, hk] using getNodeTable_eq_some.mp ht₀), le_rfl⟩

theorem Tracks.replay_write (h : mem.Tracks rep d)
    (hw : mem.write i op = some w) (hstep : InStep (mem, d) (i, op)) :
    ∃ rep', rep.replay w.record = .ok rep' ∧ w.table.Tracks rep' (mem.driftAfter d (i, op)) := by
  have hreach {k : Nat} {offset : UInt64} (hr : mem.Reaches d k offset) := Reaches.write hw hr
  obtain ⟨t, w', ht, hw', rfl⟩ := write_eq_some.mp hw
  obtain ⟨t', hrep, htracks⟩ := h.table ht
  obtain ⟨t'', hreplay, htracks'⟩ := htracks.replay_write hw' hstep.1 (hstep.2.1 t ht)
  refine ⟨rep.set i t'', ?_, ?_, ?_⟩
  · simp [replay, (Table.write_tableId hw').2, hrep, hreplay, Except.map]
  · intro k
    by_cases hk : k = i
    · subst hk
      simp only [set_tables_self, Function.update_self, driftAfter, ht]
      exact .some htracks'
    · simp only [set_tables_ne hk, Function.update_of_ne hk, driftAfter, ht]
      exact h.tables k
  · intro k r hr e he hlive
    have hr := getRelTable_eq_some.mp hr
    by_cases hk : k = i
    · subst hk
      simp only [set_tables_self, some.injEq] at hr
      cases t with
      | node =>
        obtain ⟨_, hn, _⟩ := Table.write_node hw'
        rw [hn] at hr
        cases hr
      | rel t =>
        obtain ⟨w₀, hw₀, rfl⟩ := map_eq_some_iff.mp hw'
        have hwrites := RelTable.writes_of_write hw₀
        have hschema : w₀.table.toRelSchema = t.toRelSchema := by cases hwrites <;> rfl
        cases hr
        rw [hschema]
        rcases hwrites.live_edge he hlive with ⟨e₀, he₀, hlive₀, hsrc, hdst⟩ | ⟨values, hop⟩
        · obtain ⟨h₁, h₂⟩ := h.endpoints k t (getRelTable_eq_some.mpr ht) e₀ he₀ hlive₀
          exact ⟨hreach (hsrc ▸ h₁), hreach (hdst ▸ h₂)⟩
        · obtain ⟨h₁, h₂⟩ := hstep.2.2 e.src e.dst values hop t (getRelTable_eq_some.mpr ht)
          exact ⟨hreach h₁, hreach h₂⟩
    · simp only [set_tables_ne hk] at hr
      obtain ⟨h₁, h₂⟩ := h.endpoints k r (getRelTable_eq_some.mpr hr) e he hlive
      exact ⟨hreach h₁, hreach h₂⟩

def driftStep (s : TableCatalog × Drift) (w : Nat × WriteOp) : Option (TableCatalog × Drift) :=
  (s.1.write w.1 w.2).map fun w' => (w'.table, s.1.driftAfter s.2 w)

theorem Tracks.replay_writes {ws : List (Nat × WriteOp)} {j : Journal} (h : mem.Tracks rep d)
    (hw : mem.writes ws = some j) (hstep : Meets driftStep InStep (mem, d) ws) :
    ∃ rep' d', run driftStep (mem, d) ws = some (j.catalog, d') ∧ rep.replayAll j.records = .ok rep' ∧
      j.catalog.Tracks rep' d' := by
  induction ws generalizing mem rep d j with
  | nil =>
    cases hw
    exact ⟨rep, d, rfl, rfl, h⟩
  | cons w ws ih =>
    obtain ⟨w', hw', j', hj', rfl⟩ := writes_cons_eq_some.mp hw
    have hdrift : driftStep (mem, d) w = some (w'.table, mem.driftAfter d w) := by simp [driftStep, hw']
    obtain ⟨rep₁, hrep₁, h₁⟩ := h.replay_write hw' hstep.1
    obtain ⟨rep', d', hrun, hrep', h'⟩ := ih h₁ hj' (hstep.2 _ hdrift)
    refine ⟨rep', d', run_cons_eq_some.mpr ⟨_, hdrift, hrun⟩, ?_, h'⟩
    show (w'.record :: j'.records).foldlM replay rep = .ok rep'
    rw [foldlM_cons, hrep₁]
    exact hrep'

def reload (cat : TableCatalog) : TableCatalog := ⟨fun i => (cat.tables i).map Table.reload⟩

def checkpointDrift (cat : TableCatalog) : Drift where
  frontier _ := none
  lost i key := cat.reload.holds i key ∧ ¬cat.holds i key

/-- Every cell is read back from its mirror. -/
def Mirrored (cat : TableCatalog) : Prop :=
  (∀ i t, cat.getNodeTable i = some t → ∀ row ∈ t.rows, ∀ v ∈ row, mirrored v = v) ∧
    ∀ i t, cat.getRelTable i = some t → ∀ e ∈ t.edges, ∀ v ∈ e.props, mirrored v = v

theorem map_mirrored {vs : List Value} (h : ∀ v ∈ vs, mirrored v = v) : vs.map mirrored = vs := by
  simpa using map_congr_left h

theorem tracks_reload (cat : TableCatalog) (hmirror : cat.Mirrored)
    (hends : cat.EndpointsReach cat.checkpointDrift) : cat.Tracks cat.reload cat.checkpointDrift := by
  refine ⟨fun i => ?_, hends⟩
  cases ht : cat.tables i with
  | none => simp only [reload, ht, map_none]; exact .none
  | some t =>
    cases t with
    | rel t =>
      have hedges : t.reload.edges = t.edges := by
        rw [RelTable.reload_edges]
        have hsame : ∀ e ∈ t.edges, e.mirrored = id e := fun e he =>
          Edge.ext rfl rfl (map_mirrored (hmirror.2 i t (getRelTable_eq_some.mpr ht) e he))
        rw [map_congr_left hsame, List.map_id]
      simp only [reload, ht, map_some, Table.reload]
      exact .some ⟨rfl, hedges ▸ aligned_refl _ _⟩
    | node t =>
      have hreload : cat.reload.tables i = some (.node t.reload) := by simp [reload, ht, Table.reload]
      rw [hreload]
      have hrows : t.reload.rows = t.rows := by
        rw [NodeTable.reload_rows]
        have hsame : ∀ row ∈ t.rows, row.map mirrored = id row := fun row hrow =>
          map_mirrored (hmirror.1 i t (getNodeTable_eq_some.mpr ht) row hrow)
        rw [map_congr_left hsame, List.map_id]
      refine .some ⟨rfl, hrows ▸ aligned_refl _ _, fun key hmem hlost => ?_⟩
      by_contra hne
      refine hlost ⟨⟨_, hreload, hne⟩, ?_⟩
      rintro ⟨t', ht', hholds⟩
      cases ht.symm.trans ht'
      exact hholds hmem

end TableCatalog

structure Txn where
  id : Nat
  writes : List (Nat × WriteOp)
  commits : Bool

/-- The database since the last checkpoint: the tables in memory and the log on disk. -/
structure Db where
  mem : TableCatalog
  log : List WALRecord
  drift : Drift

namespace Db

/-- An empty `LocalWAL` is not copied. -/
def blob (records : List DataRecord) : List WALRecord :=
  if records.isEmpty then [] else [.localWALData records]

theorem flatMap_blob (records : List DataRecord) : (blob records).flatMap WALRecord.data = records := by
  cases records <;> simp [blob, WALRecord.data]

variable [Rendering]

def atCheckpoint (cat : TableCatalog) : Db := ⟨cat, [], cat.checkpointDrift⟩

def apply (db : Db) (txn : Txn) : Option Db := (db.mem.writes txn.writes).bind fun j =>
    if txn.commits then
      some
        { mem := j.catalog
          log := db.log ++ blob j.records ++ [.commit txn.id]
          drift := ((run TableCatalog.driftStep (db.mem, db.drift) txn.writes).map Prod.snd).getD
            db.drift }
    else
      (j.catalog.rollbackTransaction j.undos).toOption.map fun cat =>
        { mem := cat
          log := db.log ++ [.rollback txn.id]
          drift := db.mem.driftLeft cat db.drift }

/-- The committed writes are in step with a replay, and the undo records of a transaction that rolls
back read back. -/
def InStep (db : Db) (txn : Txn) : Prop :=
  if txn.commits then Meets TableCatalog.driftStep TableCatalog.InStep (db.mem, db.drift) txn.writes
  else Meets TableCatalog.step Saved db.mem txn.writes

def Recoverable (cat₀ : TableCatalog) (db : Db) : Prop :=
  ∃ rep, cat₀.reload.replayWal db.log = .ok rep ∧ db.mem.Tracks rep db.drift

theorem Recoverable.apply {cat₀ : TableCatalog} {db db' : Db} {txn : Txn} (h : Recoverable cat₀ db)
    (hstep : InStep db txn) (ha : db.apply txn = some db') : Recoverable cat₀ db' := by
  obtain ⟨rep, hrep, htracks⟩ := h
  rw [replayWal_eq] at hrep
  obtain ⟨j, hj, ha⟩ := bind_eq_some_iff.mp ha
  split at ha
  next hcommit =>
    cases ha
    obtain ⟨rep', d', hrun, hrep', htracks'⟩ :=
      htracks.replay_writes hj (by simpa [InStep, hcommit] using hstep)
    refine ⟨rep', ?_, ?_⟩
    · rw [replayWal_eq, flatMap_append, flatMap_append, flatMap_blob, replayAll_append,
        replayAll_append, hrep]
      simp only [Except.bind, hrep']
      rfl
    · simp only [hrun, map_some, getD_some]
      exact htracks'
  next hrollback =>
    obtain ⟨cat', hroll, hrev⟩ :=
      rollbackTransaction_reverts hj (by simpa [InStep, hrollback] using hstep)
    rw [hroll] at ha
    cases ha
    refine ⟨rep, ?_, htracks.leave hrev⟩
    rw [replayWal_eq, flatMap_append, replayAll_append, hrep]
    rfl

end Db

section Social

attribute [local instance] Rendering.blank

theorem social_not_lost (key : String) : ¬social.checkpointDrift.lost 0 key := by
  rintro ⟨⟨t, ht, hholds⟩, _⟩
  cases ht
  exact hholds rfl

theorem social_endpoints : social.EndpointsReach social.checkpointDrift := by
  intro i t ht e he
  have ht := getRelTable_eq_some.mp ht
  simp only [social] at ht
  split at ht
  · cases ht
  · split at ht
    · cases ht; cases he
    · cases ht

theorem social_mirrored : social.Mirrored := by
  refine ⟨fun i t ht row hrow => ?_, fun i t ht e he => ?_⟩
  · have ht := getNodeTable_eq_some.mp ht
    simp only [social] at ht
    split at ht
    · cases ht; cases hrow
    · split at ht <;> cases ht
  · have ht := getRelTable_eq_some.mp ht
    simp only [social] at ht
    split at ht
    · cases ht
    · split at ht
      · cases ht; cases he
      · cases ht

end Social

end Akar
