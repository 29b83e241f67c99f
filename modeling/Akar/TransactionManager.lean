import Akar.Value
import Mathlib.Data.List.AList

namespace Akar

inductive TransactionType where
  | readOnly
  | write
  deriving DecidableEq, Repr

inductive TransactionStatus where
  | active
  | committed
  | rolledBack
  deriving DecidableEq, Repr

inductive UndoType where
  | update
  | insert
  | delete
  deriving DecidableEq, Repr

structure UndoRecord where
  tableId : Nat
  rowId : Nat
  column : Nat
  oldData : List UInt8
  undoType : UndoType

namespace UndoRecord

def update (tableId rowId column : Nat) (oldData : List UInt8) : UndoRecord :=
  ⟨tableId, rowId, column, oldData, .update⟩

def insert (tableId rowId : Nat) : UndoRecord := ⟨tableId, rowId, 0, [], .insert⟩

def delete (tableId rowId : Nat) (oldRowData : List UInt8) : UndoRecord :=
  ⟨tableId, rowId, 0, oldRowData, .delete⟩

end UndoRecord

inductive TransactionError where
  | writeConflict (tableId rowId conflictingTxn : Nat)
  | tableLocked (tableId ownerTxn : Nat)
  deriving DecidableEq, Repr

structure Transaction where
  transactionId : Nat
  transactionType : TransactionType
  commitTs : Option Nat
  status : TransactionStatus
  undoRecords : List UndoRecord
  snapshotTs : Option Nat
  writtenRows : List (Nat × Nat)

def Transaction.new (transactionId : Nat) (transactionType : TransactionType) : Transaction :=
  ⟨transactionId, transactionType, none, .active, [], none, []⟩

/-- The state behind lifecycle and concurrency. Only the number of active transactions wraps, as the
source's `AtomicU32` does; the `u64` counters are unbounded, and `counters_le_of_run` says how far a
run takes them. -/
structure TransactionManager where
  nextId : Nat
  nextCommitTs : Nat
  activeTransactions : AList fun _ : Nat => Transaction
  commitHistory : Nat → Option Nat
  activeTxnCount : Nat
  tableLocks : Nat → Option Nat
  concurrentWrites : Bool
  activeWriteCount : Nat
  activeWrites : Nat × Nat → List Nat

namespace TransactionManager

def new (concurrentWrites : Bool) : TransactionManager :=
  { nextId := 1, nextCommitTs := 1, activeTransactions := ∅, commitHistory := fun _ => none,
    activeTxnCount := 0, tableLocks := fun _ => none, concurrentWrites, activeWriteCount := 0,
    activeWrites := fun _ => [] }

@[simps]
def register (tm : TransactionManager) (txn : Transaction) : TransactionManager := { tm with
    activeTransactions := tm.activeTransactions.insert txn.transactionId txn
    activeTxnCount := (tm.activeTxnCount + 1) % 2 ^ 32 }

/-- The map entry may already be gone; the counter is decremented all the same. -/
@[simps]
def deregister (tm : TransactionManager) (txnId : Nat) : TransactionManager := { tm with
    activeTransactions := tm.activeTransactions.erase txnId
    activeTxnCount := (tm.activeTxnCount + (2 ^ 32 - 1)) % 2 ^ 32 }

@[simps]
def assignCommitTs (tm : TransactionManager) : Nat × TransactionManager :=
  (tm.nextCommitTs, { tm with nextCommitTs := tm.nextCommitTs + 1 })

@[simps]
def pushCommitHistory (tm : TransactionManager) (txnId commitTs : Nat) : TransactionManager :=
  { tm with commitHistory := Function.update tm.commitHistory txnId (some commitTs) }

def isVisible (tm : TransactionManager) (txnId snapshotTs : Nat) : Bool :=
  (tm.commitHistory txnId).any (· ≤ snapshotTs)

/-- `acquire_write` after its load of the mode flag; `none` while the caller waits. The count is a
`u32`. -/
def acquireWrite (tm : TransactionManager) (allowConcurrent : Bool) : Option TransactionManager :=
  if allowConcurrent then some { tm with activeWriteCount := (tm.activeWriteCount + 1) % 2 ^ 32 }
  else if 0 < tm.activeWriteCount then none
  else some { tm with activeWriteCount := 1 }

theorem acquireWrite_eq_some {tm tm' : TransactionManager} {allow : Bool} :
    tm.acquireWrite allow = some tm' ↔
      (allow = true ∨ tm.activeWriteCount = 0) ∧
        { tm with activeWriteCount := (tm.activeWriteCount + 1) % 2 ^ 32 } = tm' := by
  unfold acquireWrite
  cases allow with
  | true => simp
  | false =>
    by_cases h : tm.activeWriteCount = 0
    · simp [h]
    · simp [h, Nat.pos_of_ne_zero h]

@[simps]
def releaseWrite (tm : TransactionManager) : TransactionManager :=
  { tm with activeWriteCount := if 0 < tm.activeWriteCount then tm.activeWriteCount - 1 else tm.activeWriteCount }

def lockTable (tm : TransactionManager) (txnId tableId : Nat) :
    Except TransactionError TransactionManager :=
  match tm.tableLocks tableId with
  | some owner =>
    if owner ≠ txnId then .error (.tableLocked tableId owner)
    else .ok { tm with tableLocks := Function.update tm.tableLocks tableId (some txnId) }
  | none => .ok { tm with tableLocks := Function.update tm.tableLocks tableId (some txnId) }

theorem lockTable_locks_only (tm : TransactionManager) (txnId tableId : Nat) :
    ∃ locks, (tm.lockTable txnId tableId).toOption.getD tm = { tm with tableLocks := locks } := by
  unfold lockTable
  split
  · split
    · exact ⟨_, rfl⟩
    · exact ⟨_, rfl⟩
  · exact ⟨_, rfl⟩

@[simps]
def releaseLocks (tm : TransactionManager) (txnId : Nat) : TransactionManager :=
  { tm with tableLocks := fun tableId => (tm.tableLocks tableId).filter (· ≠ txnId) }

@[simps]
def registerWrite (tm : TransactionManager) (tableId rowId txnId : Nat) : TransactionManager :=
  { tm with
    activeWrites := Function.update tm.activeWrites (tableId, rowId)
      ((tm.activeWrites (tableId, rowId)).insert txnId) }

@[simps]
def clearTxnWrites (tm : TransactionManager) (txnId : Nat) : TransactionManager :=
  { tm with activeWrites := fun row => (tm.activeWrites row).filter (· ≠ txnId) }

def conflictIn (tm : TransactionManager) (committingTxn : Nat) : List (Nat × Nat) →
    Option TransactionError
  | [] => none
  | row :: rows =>
    match (tm.activeWrites row).find? (· ≠ committingTxn) with
    | some writer => some (.writeConflict row.1 row.2 writer)
    | none => conflictIn tm committingTxn rows

@[simps]
def setConcurrentWrites (tm : TransactionManager) (enabled : Bool) : TransactionManager :=
  { tm with concurrentWrites := enabled }

/-- The part of both begin functions before any waiting: a fresh id and the snapshot timestamp. -/
@[simps!]
def openTxn (tm : TransactionManager) (type : TransactionType) : Transaction × TransactionManager :=
  ({ Transaction.new tm.nextId type with snapshotTs := some tm.nextCommitTs },
    { tm with nextId := tm.nextId + 1 })

@[simps!]
def beginRead (tm : TransactionManager) : Transaction × TransactionManager :=
  ((tm.openTxn .readOnly).1, (tm.openTxn .readOnly).2.register (tm.openTxn .readOnly).1)

@[simp] theorem beginRead_activeTransactions {tm : TransactionManager} :
    tm.beginRead.2.activeTransactions = tm.activeTransactions.insert tm.nextId tm.beginRead.1 := rfl

def recordWrite (tm : TransactionManager) (txnId tableId rowId : Nat) : TransactionManager :=
  match tm.activeTransactions.lookup txnId with
  | some txn =>
    { tm.registerWrite tableId rowId txnId with
      activeTransactions := tm.activeTransactions.insert txnId
        { txn with writtenRows := txn.writtenRows ++ [(tableId, rowId)] } }
  | none => tm.registerWrite tableId rowId txnId

variable {tm : TransactionManager} {txn : Transaction}

theorem recordWrite_of_lookup {txnId tableId rowId : Nat}
    (h : tm.activeTransactions.lookup txnId = some txn) :
    tm.recordWrite txnId tableId rowId = { tm.registerWrite tableId rowId txnId with
        activeTransactions := tm.activeTransactions.insert txnId
          { txn with writtenRows := txn.writtenRows ++ [(tableId, rowId)] } } := by
  simp only [recordWrite, h]

/-- The write set comes from the map entry, so an unregistered transaction always passes. -/
def validateWriteSet (tm : TransactionManager) (txnId : Nat) : Option TransactionError :=
  match tm.activeTransactions.lookup txnId with
  | some txn => if txn.writtenRows = [] then none else tm.conflictIn txnId txn.writtenRows
  | none => none

/-- The four releases that end a write transaction after it has left the active map. -/
@[simps!]
def releaseWriter (tm : TransactionManager) (txnId : Nat) : TransactionManager :=
  ((tm.releaseLocks txnId).clearTxnWrites txnId).releaseWrite

/-- `commit` of a write transaction up to the assignment of its timestamp, the point after which
another caller can get in before the commit is published. -/
def commitStart (tm : TransactionManager) (txn : Transaction) :
    Except TransactionError Nat × Transaction × TransactionManager :=
  match tm.validateWriteSet txn.transactionId with
  | some e =>
    (.error e, { txn with status := .rolledBack }, (tm.deregister txn.transactionId).releaseWriter
      txn.transactionId)
  | none =>
    let (ts, tm) := tm.assignCommitTs
    (.ok ts, { txn with status := .committed, commitTs := some ts }, tm)

@[simps!]
def commitEnd (tm : TransactionManager) (txnId commitTs : Nat) : TransactionManager :=
  ((tm.pushCommitHistory txnId commitTs).deregister txnId).releaseWriter txnId

@[simp] theorem commitEnd_activeTransactions {tm : TransactionManager} {txnId commitTs : Nat} :
    (tm.commitEnd txnId commitTs).activeTransactions = tm.activeTransactions.erase txnId := rfl

def commit (tm : TransactionManager) (txn : Transaction) :
    Except TransactionError Nat × Transaction × TransactionManager :=
  match txn.transactionType with
  | .readOnly =>
    let (ts, tm) := tm.assignCommitTs
    (.ok ts, { txn with status := .committed, commitTs := some ts },
      (tm.deregister txn.transactionId).releaseLocks txn.transactionId)
  | .write =>
    match tm.commitStart txn with
    | (.error e, txn, tm) => (.error e, txn, tm)
    | (.ok ts, txn, tm) => (.ok ts, txn, tm.commitEnd txn.transactionId ts)

theorem commit_readOnly (hr : txn.transactionType = .readOnly) :
    tm.commit txn = (.ok tm.nextCommitTs,
      { txn with status := .committed, commitTs := some tm.nextCommitTs },
      (tm.assignCommitTs.2.deregister txn.transactionId).releaseLocks txn.transactionId) := by
  cases txn
  cases hr
  rfl

def prepareCommit (tm : TransactionManager) (txn : Transaction) :
    Except TransactionError Nat × Transaction × TransactionManager :=
  match txn.transactionType with
  | .readOnly =>
    let (ts, tm) := tm.assignCommitTs
    (.ok ts, { txn with status := .committed, commitTs := some ts },
      (tm.deregister txn.transactionId).releaseLocks txn.transactionId)
  | .write =>
    match tm.validateWriteSet txn.transactionId with
    | some e =>
      (.error e, { txn with status := .rolledBack },
        (tm.deregister txn.transactionId).releaseWriter txn.transactionId)
    | none =>
      let (ts, tm) := tm.assignCommitTs
      (.ok ts, { txn with status := .committed, commitTs := some ts }, tm.deregister txn.transactionId)

@[simps!]
def finishCommit (tm : TransactionManager) (txn : Transaction) : TransactionManager :=
  (tm.pushCommitHistory txn.transactionId (txn.commitTs.getD 0)).releaseWriter txn.transactionId

def rollback (tm : TransactionManager) (txn : Transaction) :
    List UndoRecord × Transaction × TransactionManager :=
  (txn.undoRecords, { txn with status := .rolledBack },
    (tm.deregister txn.transactionId).releaseWriter txn.transactionId)

/-- The polling loop of `stop_new_txns_and_wait_until_all_leave`: `load i` is the counter as its
`i`-th test reads it, `polls` the number of waits before the timeout. -/
def waitUntilAllLeave (load : Nat → Nat) : Nat → Nat → Bool
  | 0, i => load i = 0
  | polls + 1, i => if load i = 0 then true else waitUntilAllLeave load polls (i + 1)

end TransactionManager

end Akar
