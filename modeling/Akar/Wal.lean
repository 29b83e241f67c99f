import Akar.Tables

namespace Akar

/-- The log records that commits, rollbacks and checkpoints write. The blob of a transaction's
`LocalWAL` is kept decoded. -/
inductive WALRecord where
  | localWALData (records : List DataRecord)
  | commit (transactionId : Nat)
  | rollback (transactionId : Nat)
  | checkpoint

def WALRecord.data : WALRecord → List DataRecord
  | .localWALData records => records
  | .commit _ | .rollback _ | .checkpoint => []

namespace TableCatalog

variable [Rendering]

def replayAll (cat : TableCatalog) (records : List DataRecord) : Except String TableCatalog :=
  records.foldlM replay cat

def replayRecord (cat : TableCatalog) (r : WALRecord) : Except String TableCatalog := match r with
  | .localWALData records => cat.replayAll records
  | .commit _ | .rollback _ | .checkpoint => .ok cat

def replayWal (cat : TableCatalog) (log : List WALRecord) : Except String TableCatalog :=
  log.foldlM replayRecord cat

theorem replayAll_append (cat : TableCatalog) (rs rs' : List DataRecord) :
    cat.replayAll (rs ++ rs') = (cat.replayAll rs).bind fun cat' => cat'.replayAll rs' :=
  List.foldlM_append ..

theorem replayWal_eq (cat : TableCatalog) (log : List WALRecord) :
    cat.replayWal log = cat.replayAll (log.flatMap WALRecord.data) := by
  induction log generalizing cat with
  | nil => rfl
  | cons r log ih =>
    rw [List.flatMap_cons, replayAll_append]
    have hcons : cat.replayWal (r :: log) = (cat.replayRecord r).bind fun cat' => cat'.replayWal log :=
      List.foldlM_cons ..
    have hr : cat.replayRecord r = cat.replayAll r.data := by cases r <;> rfl
    rw [hcons, hr]
    exact congrArg _ (funext ih)

end TableCatalog

end Akar
