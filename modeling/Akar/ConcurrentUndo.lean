import Akar.TableWrites
import Akar.UndoStore
import Akar.WriteConflict

namespace Akar

open List Option Function NodeTable

structure Cell where
  tableId : Nat
  rowId : Nat
  column : Nat
  deriving DecidableEq, Repr

def TableCatalog.cell (cat : TableCatalog) (c : Cell) : Option Value :=
  (cat.tables c.tableId).bind fun t => t.cell c.rowId c.column

def UndoRecord.cell (u : UndoRecord) : Cell := ⟨u.tableId, u.rowId, u.column⟩

def UndoRecord.saved [TextDecoding] (u : UndoRecord) : Cell × Option Value :=
  (u.cell, (deserializeValuesFromBytes u.oldData 1).head?)

def Session.standing : Session → Standing
  | ⟨_, .waiting _⟩ | ⟨_, .running⟩ | ⟨_, .refused⟩ | ⟨_, .failed⟩ => .live
  | ⟨txn, .publishing⟩ | ⟨txn, .prepared⟩ => .accepted (txn.commitTs.getD 0)
  | ⟨txn, .committed⟩ => .committed (txn.commitTs.getD 0)
  | ⟨_, .rolledBack⟩ => .undoing

def TxnSystem.standing (s : TxnSystem) (t : Nat) : Standing :=
  ((s.sessions t).map Session.standing).getD .live

namespace Action

def registers : Action → Bool
  | .recordWrite .. => true
  | _ => false

def commits : Action → Option Nat
  | .commitRead t | .commitEnd t | .finishCommit t => some t
  | _ => none

end Action

/-- The tables with their write transactions: the undo records each has left to apply, the rows its
statement wrote and has not registered, and all it ever wrote. -/
structure WriterSystem where
  sys : TxnSystem
  mem : TableCatalog
  undos : Nat → List UndoRecord
  unregistered : Nat → List (Nat × Nat)
  wrote : Nat → List (Cell × Value)

/-- A statement overwrites cells in place and registers the rows at its end. A rolled-back
transaction undoes its records one by one, last first; the table locks are taken for one at a
time. -/
inductive WriterStep where
  | manage (a : Action)
  | write (t : Nat) (cell : Cell) (value : Value)
  | register (t : Nat)
  | undo (t : Nat)

section Cells

variable {cat : TableCatalog} {c d : Cell} {v old : Value}

theorem RelTable.cell_setCell {t : RelTable} {r i r' i' : Nat} (hr : r < t.edges.length)
    (hi : i < t.columns.length) :
    ((t.setCell r i v).edges[r']?).bind (·.props[i']?) =
      if r' = r ∧ i' = i then some v else (t.edges[r']?).bind (·.props[i']?) := by
  have hedges : (t.setCell r i v).edges = t.edges.modify r fun e =>
      { e with props := e.props.set i v } := rfl
  rw [hedges, getElem?_modify]
  by_cases hr' : r' = r
  · subst hr'
    obtain ⟨e, he⟩ : ∃ e, t.edges[r']? = some e := ⟨_, getElem?_eq_getElem hr⟩
    have hw := edge_width he
    simp only [he, Option.map_eq_map, map_some, bind_some, ↓reduceIte, getElem?_set, true_and]
    by_cases hi' : i' = i
    · subst hi'
      simp [hw, hi]
    · simp [Ne.symm hi', hi']
  · cases he' : t.edges[r']? with
    | none => simp [hr']
    | some e' => simp [hr', Ne.symm hr']

variable {t : Table}

theorem TableCatalog.cell_set {t' : Table} (ht : cat.tables c.tableId = some t)
    (hset : ∀ r i, t'.cell r i = if r = c.rowId ∧ i = c.column then some v else t.cell r i) (d : Cell) :
    (cat.set c.tableId t').cell d = if d = c then some v else cat.cell d := by
  obtain ⟨tableId, rowId, column⟩ := c
  obtain ⟨tableId', rowId', column'⟩ := d
  unfold TableCatalog.cell TableCatalog.set
  by_cases htable : tableId' = tableId
  · subst htable
    have ht' : cat.tables tableId' = some t := ht
    simp [hset, ht', Cell.mk.injEq]
  · simp [Cell.mk.injEq, htable]

variable [Rendering]

theorem TableCatalog.cell_write {w : Written TableCatalog}
    (h : cat.write c.tableId (.updateCell c.rowId c.column v) = some w) :
    ∃ old, cat.cell c = some old ∧ w.undo = .update c.tableId c.rowId c.column (serializeValues [old]) ∧
      ∀ d, w.table.cell d = if d = c then some v else cat.cell d := by
  obtain ⟨t, w', ht, hw, rfl⟩ := write_eq_some.mp h
  cases t with
  | node t =>
    obtain ⟨w'', hw'', rfl⟩ := map_eq_some_iff.mp hw
    cases writes_of_write hw'' with
    | updateCell _ _ _ hc hr =>
      obtain ⟨row, hrow⟩ := exists_row hr
      have hwidth := row_length hrow
      have hold : t.getValue c.rowId c.column = some row[c.column] := by
        rw [getValue_of_row hrow]
        exact getElem?_eq_getElem (by omega)
      refine ⟨row[c.column], ?_, ?_, cell_set ht fun r i => getValue_setCell hr hc⟩
      · rw [TableCatalog.cell, ht]
        exact hold
      · show UndoRecord.update _ _ _ (t.cellUndo _ _) = _
        rw [cellUndo, hold]
        rfl
  | rel t =>
    obtain ⟨w'', hw'', rfl⟩ := map_eq_some_iff.mp hw
    cases RelTable.writes_of_write hw'' with
    | updateCell _ _ _ hset hc hr =>
      obtain ⟨e, he⟩ : ∃ e, t.edges[c.rowId]? = some e := ⟨_, getElem?_eq_getElem hr⟩
      have hwidth := RelTable.edge_width he
      have hold : e.props[c.column]? = some e.props[c.column] := getElem?_eq_getElem (by omega)
      refine ⟨e.props[c.column], ?_, ?_, cell_set ht fun r i => RelTable.cell_setCell hr hc⟩
      · rw [TableCatalog.cell, ht]
        show (t.edges[c.rowId]?).bind _ = _
        rw [he]
        exact hold
      · show UndoRecord.update _ _ _ (t.edgeCellUndo _ _) = _
        rw [RelTable.edgeCellUndo_of_edge he, hold]
        rfl

theorem TableCatalog.undo_of_table {u : UndoRecord} (ht : cat.tables u.tableId = some t) :
    cat.undo u = (t.undo u).map (cat.set u.tableId) := by
  unfold undo
  rw [ht]

theorem TableCatalog.cell_undo (h : (cat.cell c).isSome = true) (hback : ReadsBack [old]) :
    ∃ cat', cat.undo (.update c.tableId c.rowId c.column (serializeValues [old])) = .ok cat' ∧
      ∀ d, cat'.cell d = if d = c then some old else cat.cell d := by
  obtain ⟨v, hv⟩ := isSome_iff_exists.mp h
  obtain ⟨t, ht, hcell⟩ := bind_eq_some_iff.mp hv
  have hdata := hback.payload (n := 1) rfl
  cases t with
  | node t =>
    have hget : t.getValue c.rowId c.column = some v := hcell
    have hin : c.column < t.columns.length ∧ c.rowId < t.numRows := by
      obtain ⟨hnot, hget⟩ := ite_none_left_eq_some.mp hget
      omega
    refine ⟨cat.set c.tableId (.node (t.setCell c.rowId c.column old)), ?_, ?_⟩
    · have hundo : t.undo (.update c.tableId c.rowId c.column (serializeValues [old])) =
          .ok (t.setCell c.rowId c.column old) := by
        simp [NodeTable.undo, UndoRecord.update, hdata, updateCell_ok hin.1 hin.2, Except.mapError]
      have htable : (Table.node t).undo (.update c.tableId c.rowId c.column (serializeValues [old])) =
          (t.undo (.update c.tableId c.rowId c.column (serializeValues [old]))).map .node := rfl
      rw [undo_of_table ht, htable, hundo]
      rfl
    · exact cell_set ht fun r i => getValue_setCell hin.2 hin.1
  | rel t =>
    have hget : (t.edges[c.rowId]?).bind (·.props[c.column]?) = some v := hcell
    obtain ⟨e, he, hprop⟩ := bind_eq_some_iff.mp hget
    have hr : c.rowId < t.edges.length := (List.getElem?_eq_some_iff.mp he).1
    have hc : c.column < t.columns.length := by
      have hlt := (List.getElem?_eq_some_iff.mp hprop).1
      rw [RelTable.edge_width he] at hlt
      exact hlt
    refine ⟨cat.set c.tableId (.rel (t.setCell c.rowId c.column old)), ?_, ?_⟩
    · have hundo : t.undo (.update c.tableId c.rowId c.column (serializeValues [old])) =
          t.setCell c.rowId c.column old := by
        simp [RelTable.undo, UndoRecord.update, hdata, RelTable.updateCell_ok hc hr, Except.toOption]
      have htable : (Table.rel t).undo (.update c.tableId c.rowId c.column (serializeValues [old])) =
          .ok (.rel (t.undo (.update c.tableId c.rowId c.column (serializeValues [old])))) := rfl
      rw [undo_of_table ht, htable, hundo]
      rfl
    · exact cell_set ht fun r i => RelTable.cell_setCell hr hc

end Cells

namespace TxnSystem

variable {s s' : TxnSystem} {a : Action} {t : Nat}

theorem standing_of_session {ss : Session} (h : s.sessions t = some ss) : s.standing t =
    ss.standing := by
  rw [standing, h]
  rfl

theorem standing_nextId (hc : Coherent s) : s.standing s.tm.nextId = .live := by
  unfold standing
  cases hs : s.sessions s.tm.nextId with
  | none => rfl
  | some ss => exact absurd (hc.ids _ ss.txn ss.phase hs).2 (Nat.lt_irrefl _)

theorem standing_step (hc : Coherent s) (h : s.step a = some s') :
    ∃ t x, s'.standing = update s.standing t x ∧
      Standing.Move (s.standing t) s.tm.nextCommitTs x s'.tm.nextCommitTs ∧
      a.commits = if x.isCommitted then some t else none := by
  -- a call that only touches the manager's books moves the session of a live transaction to itself
  have hstay {tm : TransactionManager} {t : Nat} (ht : s.standing t = .live)
      (hn : tm.nextCommitTs = s.tm.nextCommitTs) :
      { s with tm := tm : TxnSystem }.standing = update s.standing t .live ∧
        Standing.Move (s.standing t) s.tm.nextCommitTs .live tm.nextCommitTs := by
    refine ⟨?_, ?_⟩
    · rw [← ht, update_eq_self]
      rfl
    · rw [ht, hn]
      exact .work _
  -- a call that rewrites the session of `t`
  have hput {t : Nat} {x : Standing} {tm : TransactionManager} {txn : Transaction} {phase : Phase}
      (hx : s.standing t = x)
      (hmove : Standing.Move x s.tm.nextCommitTs (Session.standing ⟨txn, phase⟩) tm.nextCommitTs)
      (hcommits : a.commits = if (Session.standing ⟨txn, phase⟩).isCommitted then some t else none) :
      ∃ u y, (s.put t tm txn phase).standing = update s.standing u y ∧
        Standing.Move (s.standing u) s.tm.nextCommitTs y (s.put t tm txn phase).tm.nextCommitTs ∧
        a.commits = if y.isCommitted then some u else none := by
    refine ⟨t, _, funext fun u => ?_, hx ▸ hmove, hcommits⟩
    by_cases hu : u = t
    · rw [hu, update_self, standing_of_session put_sessions_self]
    · rw [update_of_ne hu, standing, put_sessions_ne hu]
      rfl
  cases Step.of_step h with
  | beginRead | enterWrite => exact hput (standing_nextId hc) (.work _) rfl
  | @admitWrite t txn allow tm hs hw =>
    obtain ⟨_, rfl⟩ := TransactionManager.acquireWrite_eq_some.mp hw
    exact hput (standing_of_session hs) (.work _) rfl
  | @lockTable t txn tableId hs =>
    obtain ⟨locks, hl⟩ := s.tm.lockTable_locks_only t tableId
    rw [hl]
    obtain ⟨hsame, hmove⟩ := @hstay { s.tm with tableLocks := locks } t (standing_of_session hs) rfl
    exact ⟨t, .live, hsame, hmove, rfl⟩
  | @recordWrite t txn tableId rowId hs hw =>
    obtain ⟨entry, he⟩ := hc.lookup_of_running hs
    rw [TransactionManager.recordWrite_of_lookup he]
    obtain ⟨hsame, hmove⟩ := hstay (standing_of_session hs) rfl
    exact ⟨t, .live, hsame, hmove, rfl⟩
  | @commitRead t txn hs hr =>
    rw [TransactionManager.commit_readOnly hr]
    exact hput (standing_of_session hs) (.commitAtOnce _) rfl
  | commitRejected hs => exact hput (standing_of_session hs) (.rollBack _) rfl
  | commitAccepted hs | prepareAccepted hs => exact hput (standing_of_session hs) (.accept _) rfl
  | commitEnd hs | finishCommit hs => exact hput (standing_of_session hs) (.commit _ _) rfl
  | prepareRejected hs => exact hput (standing_of_session hs) (.work _) rfl
  | durableFail hs => exact hput (standing_of_session hs) (.fail _ _) rfl
  | @rollback t txn phase hs hw hr =>
    have hlive : s.standing t = .live := by
      rw [standing_of_session hs]
      cases phase <;> first | rfl | cases hr
    exact hput hlive (.rollBack _) rfl
  | setConcurrentWrites =>
    obtain ⟨hsame, hmove⟩ := hstay (standing_nextId hc) rfl
    exact ⟨_, .live, hsame, hmove, rfl⟩

end TxnSystem

namespace WriterSystem

def start (cat : TableCatalog) (concurrentWrites : Bool) : WriterSystem :=
  ⟨TxnSystem.new concurrentWrites, cat, fun _ => [], fun _ => [], fun _ => []⟩

def store [TextDecoding] (s : WriterSystem) : UndoStore Nat Cell (Option Value) where
  cells := s.mem.cell
  saved t := (s.undos t).map UndoRecord.saved
  wrote t := (s.wrote t).map fun p => (p.1, some p.2)
  standing := s.sys.standing
  clock := s.sys.tm.nextCommitTs

section

variable [Rendering]

def step (s : WriterSystem) : WriterStep → Option WriterSystem
  | .manage a =>
    -- registrations come from the statements, and nothing else is called before they are made
    if a.registers = false ∧ (actor s.sys a).all (fun t => s.unregistered t = []) then
      (s.sys.step a).map fun sys =>
        { s with sys := sys, undos := a.commits.elim s.undos fun t => update s.undos t [] }
    else none
  | .write t cell value =>
    match s.sys.sessions t with
    | some ⟨txn, .running⟩ =>
      if txn.transactionType = .write then
        (s.mem.write cell.tableId (.updateCell cell.rowId cell.column value)).map fun w =>
          { s with
            mem := w.table
            undos := update s.undos t (s.undos t ++ [w.undo])
            unregistered := update s.unregistered t (s.unregistered t ++
              [(cell.tableId, cell.rowId)])
            wrote := update s.wrote t (s.wrote t ++ [(cell, value)]) }
      else none
    | _ => none
  | .register t =>
    match s.unregistered t with
    | row :: rows =>
      (s.sys.step (.recordWrite t row.1 row.2)).map fun sys =>
        { s with sys := sys, unregistered := update s.unregistered t rows }
    | [] => none
  | .undo t =>
    match (s.undos t).getLast? with
    | some u =>
      if s.sys.standing t = .undoing then
        match s.mem.undo u with
        | .ok mem => some { s with mem := mem, undos := update s.undos t (s.undos t).dropLast }
        | .error _ => none
      else none
    | none => none

end

/-- A cell is overwritten only while no other transaction has an undo record for it left to apply or
to drop. -/
def Exclusive (s : WriterSystem) : WriterStep → Prop
  | .write t cell _ => ∀ u < s.sys.tm.nextId, u ≠ t → cell ∉ (s.undos u).map UndoRecord.cell
  | _ => True

instance (s : WriterSystem) : (a : WriterStep) → Decidable (s.Exclusive a)
  | .write t cell _ =>
    inferInstanceAs
    (Decidable (∀ u < s.sys.tm.nextId, u ≠ t → cell ∉ (s.undos u).map UndoRecord.cell))
  | .manage _ | .register _ | .undo _ => inferInstanceAs (Decidable True)

/-- Besides, the value a write overwrites is read back from its undo record. -/
def Undoable [TextDecoding] (s : WriterSystem) : WriterStep → Prop
  | .write t cell value => s.Exclusive (.write t cell value) ∧ ∀ old ∈ s.mem.cell cell, ReadsBack [old]
  | _ => True

/-- The check of `Undoable` by the values' encoding. -/
def Encodable [TextDecoding] (s : WriterSystem) : WriterStep → Bool
  | .write _ cell _ => (s.mem.cell cell).all codable
  | _ => true

theorem undoable_of_encodable [TextDecoding] {s : WriterSystem} {a : WriterStep} (hown : s.Exclusive a)
    (h : s.Encodable a = true) : s.Undoable a := by
  cases a with
  | write t cell value =>
    refine ⟨hown, fun old hold => .of_codable ?_⟩
    rw [Encodable, hold] at h
    exact forall_mem_singleton.mpr h
  | manage | register | undo => trivial

def Ended (s : WriterSystem) : Prop :=
  ∀ t, ∀ ss ∈ s.sys.sessions t, ss.phase = .committed ∨ ss.phase = .rolledBack ∧ s.undos t = []

/-- The cell holds what the last of its committed writers in commit order wrote there last, or what
it held in `cat` when none of them committed. -/
def HoldsCommitted [TextDecoding] (s : WriterSystem) (cat : TableCatalog) (cell : Cell) : Prop :=
  s.store.CommittedValue cat.cell cell (s.mem.cell cell)

structure Tidy [TextDecoding] (cat : TableCatalog) (s : WriterSystem) : Prop where
  coherent : TxnSystem.Coherent s.sys
  known : ∀ t, s.undos t ≠ [] → ∃ ss, s.sys.sessions t = some ss
  plain : ∀ t, ∀ u ∈ s.undos t, ∃ cell old,
    u = .update cell.tableId cell.rowId cell.column (serializeValues [old]) ∧ ReadsBack [old] ∧
      (s.mem.cell cell).isSome = true
  sound : ∃ base, s.store.Sound cat.cell base

variable {cat : TableCatalog} {s s' : WriterSystem} {t u : Nat} {cell : Cell} {value : Value}

section Bytes

variable [TextDecoding]

theorem holds_iff : s.store.Holds t cell ↔ cell ∈ (s.undos t).map UndoRecord.cell := by
  unfold UndoStore.Holds store
  rw [List.map_map]
  rfl

omit [TextDecoding] in
theorem map_update {α β : Type} (f : α → β) (g : Nat → List α) (t : Nat) (as : List α) :
    (fun u => (update g t as u).map f) = update (fun u => (g u).map f) t (as.map f) :=
  comp_update (List.map f) g t as

variable {sys : TxnSystem} {a : Action}

theorem store_manage {x : Standing}
    (hstanding : sys.standing = update s.sys.standing t x)
    (hcommits : a.commits = if x.isCommitted then some t else none) :
    store { s with sys := sys, undos := a.commits.elim s.undos fun t => update s.undos t [] } =
      s.store.move t x sys.tm.nextCommitTs := by
  unfold store UndoStore.move
  rw [hstanding, hcommits]
  cases hx : x.isCommitted with
  | false => rfl
  | true =>
    simp only [↓reduceIte, elim_some, map_update]
    rfl

theorem Tidy.manage (h : Tidy cat s) (hstep : s.sys.step a = some sys) :
    Tidy cat { s with sys := sys, undos := a.commits.elim s.undos fun t => update s.undos t [] } := by
  obtain ⟨t, x, hstanding, hmove, hcommits⟩ := TxnSystem.standing_step h.coherent hstep
  have hfewer (u : Nat) : a.commits.elim s.undos (fun t => update s.undos t []) u = s.undos u ∨
      a.commits.elim s.undos (fun t => update s.undos t []) u = [] := by
    cases a.commits with
    | none => exact .inl rfl
    | some v =>
      show update s.undos v [] u = _ ∨ update s.undos v [] u = _
      rw [update_apply]
      split
      · exact .inr rfl
      · exact .inl rfl
  refine ⟨h.coherent.step hstep, fun u hu => ?_, fun u r hr => ?_, ?_⟩
  · rcases hfewer u with heq | heq
    · obtain ⟨ss, hss⟩ := h.known u (heq ▸ hu)
      obtain ⟨ss', hss', -⟩ := (later_of_step h.coherent hstep).kept u ss hss
      exact ⟨ss', hss'⟩
    · exact absurd heq hu
  · have hmem : r ∈ s.undos u := by
      rcases hfewer u with heq | heq
      · exact heq ▸ hr
      · have hr' : r ∈ ([] : List UndoRecord) := heq ▸ hr
        cases hr'
    exact h.plain u r hmem
  · obtain ⟨base, hbase⟩ := h.sound
    rw [store_manage hstanding hcommits]
    exact hbase.move hmove

end Bytes

section Runs

variable [Rendering]

theorem Tidy.write (h : Tidy cat s) {txn : Transaction} (hs : s.sys.sessions t = some ⟨txn, .running⟩)
    (hown : s.Undoable (.write t cell value)) {w : Written TableCatalog}
    (hw : s.mem.write cell.tableId (.updateCell cell.rowId cell.column value) = some w) :
    Tidy cat { s with
      mem := w.table
      undos := update s.undos t (s.undos t ++ [w.undo])
      unregistered := update s.unregistered t (s.unregistered t ++ [(cell.tableId, cell.rowId)])
      wrote := update s.wrote t (s.wrote t ++ [(cell, value)]) } := by
  obtain ⟨old, hold, hundo, hcells⟩ := TableCatalog.cell_write hw
  have hsome {c : Cell} (hc : (s.mem.cell c).isSome = true) : (w.table.cell c).isSome = true := by
    rw [hcells]
    split
    next => rfl
    next => exact hc
  refine ⟨h.coherent, fun u hu => ?_, fun u r hr => ?_, ?_⟩
  · by_cases hut : u = t
    · exact ⟨_, hut ▸ hs⟩
    · dsimp only at hu
      rw [update_of_ne hut] at hu
      exact h.known u hu
  · dsimp only at hr ⊢
    rw [update_apply] at hr
    split at hr
    next hut =>
      subst hut
      rw [mem_append, mem_singleton] at hr
      rcases hr with hr | hr
      · obtain ⟨c, o, hc, hb, hin⟩ := h.plain u r hr
        exact ⟨c, o, hc, hb, hsome hin⟩
      · exact ⟨cell, old, hr.trans hundo, hown.2 old hold, hsome (by rw [hold]; rfl)⟩
    · obtain ⟨c, o, hc, hb, hin⟩ := h.plain u r hr
      exact ⟨c, o, hc, hb, hsome hin⟩
  · obtain ⟨base, hbase⟩ := h.sound
    refine ⟨base, ?_⟩
    have hholds : ∀ u, s.store.Holds u cell → u = t := by
      intro u hu
      have hmem := holds_iff.mp hu
      obtain ⟨ss, hss⟩ := h.known u (by rintro hnil; rw [hnil] at hmem; cases hmem)
      have hlt := (h.coherent.ids u ss.txn ss.phase hss).2
      by_contra hne
      exact hown.1 u hlt hne hmem
    have hstore := hbase.write (TxnSystem.standing_of_session hs) hholds (some value)
    refine Eq.mp (congrArg (fun st => UndoStore.Sound st cat.cell base) ?_) hstore
    unfold UndoStore.write store
    have hmem : update s.mem.cell cell (some value) = w.table.cell := by
      funext d
      rw [hcells, update_apply]
    have hread : (deserializeValuesFromBytes (serializeValues [old]) 1).head? = some old := by
      rw [(hown.2 old hold).payload (n := 1) rfl, head?_cons]
    simp only [map_update, map_append, hundo, hmem, hold, map_cons, map_nil, UndoRecord.saved,
      UndoRecord.update, hread]
    rfl

theorem Tidy.undo (h : Tidy cat s) {r : UndoRecord} {mem : TableCatalog}
    (hundoing : s.sys.standing t = .undoing)
    (hlast : (s.undos t).getLast? = some r) (hmem : s.mem.undo r = .ok mem) :
    Tidy cat { s with mem := mem, undos := update s.undos t (s.undos t).dropLast } := by
  have hsplit : s.undos t = (s.undos t).dropLast ++ [r] := (dropLast_append_getLast? r hlast).symm
  have hmemr : r ∈ s.undos t := by
    rw [hsplit]
    exact mem_append_right _ mem_cons_self
  obtain ⟨c, old, hr, hback, hin⟩ := h.plain t r hmemr
  obtain ⟨mem', hmem', hcells⟩ := TableCatalog.cell_undo hin hback
  rw [hr, hmem'] at hmem
  cases hmem
  have hsome {d : Cell} (hd : (s.mem.cell d).isSome = true) : (mem.cell d).isSome = true := by
    rw [hcells]
    split
    next => rfl
    next => exact hd
  refine ⟨h.coherent, fun u hu => ?_, fun u q hq => ?_, ?_⟩
  · by_cases hut : u = t
    · exact h.known u (hut ▸ ne_nil_of_mem hmemr)
    · dsimp only at hu
      rw [update_of_ne hut] at hu
      exact h.known u hu
  · dsimp only at hq ⊢
    have hq' : q ∈ s.undos u := by
      rw [update_apply] at hq
      split at hq
      next hut =>
        subst hut
        exact mem_of_mem_dropLast hq
      · exact hq
    obtain ⟨d, o, hd, hb, hin'⟩ := h.plain u q hq'
    exact ⟨d, o, hd, hb, hsome hin'⟩
  · obtain ⟨base, hbase⟩ := h.sound
    refine ⟨base, ?_⟩
    have hkept : s.store.saved t = (s.undos t).dropLast.map UndoRecord.saved ++ [(c, some old)] := by
      show (s.undos t).map UndoRecord.saved = _
      have hread : (deserializeValuesFromBytes (serializeValues [old]) 1).head? = some old := by
        rw [hback.payload (n := 1) rfl, head?_cons]
      rw [hsplit, map_append, dropLast_concat, hr]
      simp [UndoRecord.saved, UndoRecord.update, UndoRecord.cell, hread]
    have hstore := hbase.putBack hundoing hkept
    refine Eq.mp (congrArg (fun st => UndoStore.Sound st cat.cell base) ?_) hstore
    unfold UndoStore.putBack store
    have hcell : update s.mem.cell c (some old) = mem.cell := by
      funext d
      rw [hcells, update_apply]
    simp only [map_update, hcell]

theorem Tidy.step (h : Tidy cat s) {a : WriterStep} (hok : s.Undoable a) (hstep : s.step a = some s') :
    Tidy cat s' := by
  cases a with
  | manage =>
    obtain ⟨_, hstep⟩ := ite_none_right_eq_some.mp hstep
    obtain ⟨sys, hsys, rfl⟩ := map_eq_some_iff.mp hstep
    exact h.manage hsys
  | write =>
    simp only [WriterSystem.step] at hstep
    split at hstep
    next txn hs =>
      split at hstep
      next =>
        obtain ⟨w, hw, rfl⟩ := map_eq_some_iff.mp hstep
        exact h.write hs hok hw
      next => cases hstep
    next => cases hstep
  | register =>
    simp only [WriterSystem.step] at hstep
    split at hstep
    next row rows hrows =>
      obtain ⟨sys, hsys, rfl⟩ := map_eq_some_iff.mp hstep
      -- a registration leaves the records alone
      have hsame := h.manage hsys
      exact ⟨hsame.coherent, hsame.known, hsame.plain, hsame.sound⟩
    next => cases hstep
  | undo =>
    simp only [WriterSystem.step] at hstep
    split at hstep
    next r hlast =>
      obtain ⟨hundoing, hstep⟩ := ite_none_right_eq_some.mp hstep
      split at hstep
      next mem hmem =>
        cases hstep
        exact h.undo hundoing hlast hmem
      next => cases hstep
    next => cases hstep

/-- For transactions that keep out of each other's cells while they last, over values that read
back: once all have ended, every cell holds the value of its last writer in commit order, or its
first value. -/
theorem undo_spares_winner {concurrentWrites : Bool} {as : List WriterStep}
    (h : run step (start cat concurrentWrites) as = some s)
    (hm : Meets step Undoable (start cat concurrentWrites) as) (hend : s.Ended) (cell : Cell) :
    s.HoldsCommitted cat cell := by
  have htidy : Tidy cat s := run_keeps (fun _ _ _ hs hok hst => hs.step hok hst) h hm
    ⟨TxnSystem.new_coherent _, fun t h => absurd rfl h, nofun, cat.cell,
      UndoStore.sound_of_idle (fun _ => rfl) (fun _ => rfl) fun _ => rfl⟩
  obtain ⟨base, hbase⟩ := htidy.sound
  refine hbase.settled (fun t => ?_) cell
  by_contra hne
  have hundos : s.undos t ≠ [] := fun hnil => hne (congrArg (List.map UndoRecord.saved) hnil)
  obtain ⟨ss, hss⟩ := htidy.known t hundos
  rcases hend t ss hss with hphase | ⟨-, hnil⟩
  · obtain ⟨txn, phase⟩ := ss
    cases hphase
    exact hne (hbase.done t _ (TxnSystem.standing_of_session hss))
  · exact hundos hnil

end Runs

section Social

attribute [local instance] Rendering.blank

def twoWriters : List WriterStep :=
  [.manage .enterWrite, .manage (.admitWrite 1), .manage .enterWrite, .manage (.admitWrite 2)]

def apart : List WriterStep := twoWriters ++
    [.write 1 ⟨0, 0, 1⟩ (.uint64 31), .write 2 ⟨0, 1, 1⟩ (.uint64 41), .register 1, .register 2,
      .manage (.prepareCommit 1), .manage (.rollback 2), .undo 2, .manage (.finishCommit 1)]

/-- Both write the same cell; the first to commit is refused and undoes its write under the other's
feet. -/
def clash : List WriterStep := twoWriters ++
    [.write 1 ⟨0, 0, 1⟩ (.uint64 31), .register 1, .write 2 ⟨0, 0, 1⟩ (.uint64 32), .register 2,
      .manage (.prepareCommit 1), .manage (.rollback 1), .undo 1, .manage (.prepareCommit 2),
        .manage (.finishCommit 2)]

def people : TableCatalog := socialWith [newPerson "ann" 30, newPerson "bob" 40]

theorem undo_spares_winner_apart :
    ∃ s, run step (start people true) apart = some s ∧
      Meets step Undoable (start people true) apart ∧ s.Ended ∧
      ∀ cell, s.HoldsCommitted people cell := by
  have hrun : run step (start people true) apart = some _ := rfl
  have hcheck : Meets step (fun s a => s.Exclusive a ∧ s.Encodable a = true) (start people true)
      apart :=
    meets_of_check rfl
  have hm : Meets step Undoable (start people true) apart := hcheck.strengthen (fun _ => True)
    (fun _ _ _ _ hok _ => ⟨trivial, undoable_of_encodable hok.1 hok.2⟩) hrun trivial
  have hend : ∀ s, run step (start people true) apart = some s → s.Ended := by
    intro s hs t ss hss
    cases hrun.symm.trans hs
    rcases t with _ | _ | _ | t
    · cases hss
    · cases hss
      exact .inl rfl
    · cases hss
      exact .inr ⟨rfl, rfl⟩
    · cases hss
  exact ⟨_, hrun, hm, hend _ hrun, fun cell => undo_spares_winner hrun hm (hend _ hrun) cell⟩

/-- The committed writer wrote 32, and the cell holds what was there before either of them. -/
theorem loser_undo_clobbers_winner :
    ∃ s, run step (start people true) clash = some s ∧ s.Ended ∧ Committed s.sys 2 ∧
      s.wrote 2 = [(⟨0, 0, 1⟩, .uint64 32)] ∧ s.mem.cell ⟨0, 0, 1⟩ = some (.uint64 30) ∧
      ¬s.HoldsCommitted people ⟨0, 0, 1⟩ := by
  have hrun : run step (start people true) clash = some _ := rfl
  refine ⟨_, hrun, ?_, ⟨_, rfl, rfl⟩, rfl, rfl, ?_⟩
  · intro t ss hss
    rcases t with _ | _ | _ | t
    · cases hss
    · cases hss
      exact .inr ⟨rfl, rfl⟩
    · cases hss
      exact .inl rfl
    · cases hss
  · intro hholds
    rcases hholds with ⟨t, ts, hlast, hv⟩ | ⟨hnone, -⟩
    · have hcommitted := hlast.committed
      rcases t with _ | _ | _ | t
      · cases hcommitted
      · cases hcommitted
      · cases hv
      · cases hcommitted
    · exact hnone 2 1 rfl mem_cons_self

end Social

end WriterSystem

end Akar
