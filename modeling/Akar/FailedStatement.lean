import Akar.Rollback

namespace Akar

open List Option

inductive Filing where
  | own
  | under (tableId : Nat)
  | lost

structure FiledWrite where
  tableId : Nat
  op : WriteOp
  filing : Filing

/-- `create` and `merge` are the inline arms of `handle_ddl`, which record in the transaction as
they go; the operators of `planned` record in the processor's sink, all but the edges of a `DETACH
DELETE`. -/
inductive SubStatement where
  | create (writes : List (Nat × WriteOp))
  | merge (tableId : Nat) (writes : List (Nat × WriteOp))
  | planned (writes : List ((Nat × WriteOp) × Bool))

namespace SubStatement

/-- `execute_query_inner` moves the sink's records into the transaction after the processor has
returned without an error, and not before. -/
def filed (completed : Bool) : SubStatement → List FiledWrite
  | create ws => ws.map fun w => ⟨w.1, w.2, .own⟩
  | merge tableId ws => ws.map fun w =>
      match w.2 with
      | .insertRel .. => ⟨w.1, w.2, .own⟩
      -- nodes are recorded under the table of the first pattern, whichever table they are in
      | _ => ⟨w.1, w.2, .under tableId⟩
  | planned ws => ws.map fun w => ⟨w.1.1, w.1.2, if completed && w.2 then .own else .lost⟩

def Recorded (completed : Bool) (s : SubStatement) : Prop :=
  ∀ w ∈ s.filed completed, w.filing = .own ∨ w.filing = .under w.tableId

end SubStatement

/-- A write statement that fails. A `FOREACH` has completed sub-statements before it; a failing `ON
MATCH SET` of a `MERGE` leaves the record of an update it did not make. -/
structure FailedStatement where
  completed : List SubStatement
  failing : SubStatement
  stray : Option UndoRecord

namespace FailedStatement

def filed (s : FailedStatement) : List FiledWrite :=
  s.completed.flatMap (·.filed true) ++ s.failing.filed false

def writes (s : FailedStatement) : List (Nat × WriteOp) := s.filed.map fun w => (w.tableId, w.op)

def Recorded (s : FailedStatement) : Prop :=
  s.stray = none ∧ (∀ p ∈ s.completed, p.Recorded true) ∧ s.failing.Recorded false

end FailedStatement

namespace TableCatalog

variable [Rendering] {cat cat' : TableCatalog} {us : List UndoRecord} {s : FailedStatement}

def perform (cat : TableCatalog) : List FiledWrite → Option (TableCatalog × List UndoRecord)
  | [] => some (cat, [])
  | w :: ws =>
    (cat.write w.tableId w.op).bind fun r =>
      (perform r.table ws).map fun (cat', us) =>
        match w.filing with
        | .own => (cat', r.undo :: us)
        | .under tableId => (cat', { r.undo with tableId := tableId } :: us)
        | .lost => (cat', us)

/-- The tables once `rollback_write_txn` is through: the error of a failed rollback is only
logged. -/
def afterError (cat : TableCatalog) (us : List UndoRecord) (stray : Option UndoRecord) : TableCatalog :=
  cat.undoAll (us ++ stray.toList).reverse

theorem undoAll_of_foldlM {rs : List UndoRecord} (h : rs.foldlM undo cat = .ok cat') :
    cat.undoAll rs = cat' := by
  induction rs generalizing cat with
  | nil => cases h; rfl
  | cons r rs ih =>
    rw [foldlM_cons] at h
    obtain ⟨cat₁, hr, h⟩ := bind_eq_ok.mp h
    rw [undoAll, hr]
    exact ih h

theorem writes_of_perform {ws : List FiledWrite}
    (hown : ∀ w ∈ ws, w.filing = .own ∨ w.filing = .under w.tableId)
    (h : cat.perform ws = some (cat', us)) :
    ∃ records, cat.writes (ws.map fun w => (w.tableId, w.op)) = some ⟨cat', us, records⟩ := by
  induction ws generalizing cat cat' us with
  | nil => cases h; exact ⟨[], rfl⟩
  | cons w ws ih =>
    simp only [perform, bind_eq_some_iff, map_eq_some_iff] at h
    obtain ⟨r, hr, ⟨cat₁, us₁⟩, hrest, hfile⟩ := h
    obtain ⟨records, hj⟩ := ih (forall_mem_cons.mp hown).2 hrest
    have htable : r.undo.tableId = w.tableId := by
      obtain ⟨t, r', ht, hr', rfl⟩ := write_eq_some.mp hr
      exact (Table.write_tableId hr').1
    have hboth : (cat₁, r.undo :: us₁) = (cat', us) := by
      rcases hown w (mem_cons_self ..) with hf | hf
      · rw [hf] at hfile
        exact hfile
      · rw [hf, ← htable] at hfile
        exact hfile
    obtain ⟨rfl, rfl⟩ := Prod.mk.inj hboth
    exact ⟨r.record :: records, writes_cons_eq_some.mpr ⟨r, hr, _, hj, rfl⟩⟩

end TableCatalog

section Social

attribute [local instance] Rendering.blank

open TableCatalog

def failedCreate : FailedStatement := ⟨[], .create [newPerson "bob" 40, newKnows 0 1 2020], none⟩

end Social

end Akar
