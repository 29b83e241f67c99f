import Akar.Runs
import Akar.Wal

namespace Akar

/-- A log record with the transaction it belongs to. The blob of a `LocalWAL` does not name it
itself. -/
inductive LogEntry where
  | blob (txn : Nat) (records : List DataRecord)
  | commit (txn : Nat)
  | rollback (txn : Nat)
  | checkpoint

def LogEntry.record : LogEntry → WALRecord
  | .blob _ records => .localWALData records
  | .commit txn => .commit txn
  | .rollback txn => .rollback txn
  | .checkpoint => .checkpoint

/-- How `flush_to_disk` ends when there is something to write. A failed sync may or may not leave
the bytes on the disk. -/
inductive FlushOutcome where
  | ok
  | openFails
  | writeFails (written : Nat)
  | syncFails (kept : Bool)

/-- The `WAL` and its file; `none` is a record that was written only in part. -/
structure WalBuffer where
  records : List LogEntry
  flushedCount : Nat
  file : List (Option LogEntry)

namespace WalBuffer

def new : WalBuffer := ⟨[], 0, []⟩

def append (w : WalBuffer) (e : LogEntry) : WalBuffer := { w with records := w.records ++ [e] }

def writeRawBuffer (w : WalBuffer) (txn : Nat) (records : List DataRecord) : WalBuffer :=
  if records.isEmpty then w else w.append (.blob txn records)

def unflushed (w : WalBuffer) : List LogEntry := w.records.drop w.flushedCount

/-- `flush_to_disk`, with what it returns. The count moves on before the sync, and not at all after
a failed write, whose records the next flush writes again. -/
def flushToDisk (w : WalBuffer) (outcome : FlushOutcome) : Bool × WalBuffer :=
  if w.records.length ≤ w.flushedCount then (true, w)
  else
    match outcome with
    | .ok => (true, { w with file := w.file ++ w.unflushed.map some, flushedCount := w.records.length })
    | .openFails => (false, w)
    | .writeFails written =>
      (false, { w with file := w.file ++ (w.unflushed.take written).map some ++ [none] })
    | .syncFails true =>
      (false, { w with file := w.file ++ w.unflushed.map some, flushedCount := w.records.length })
    | .syncFails false => (false, { w with flushedCount := w.records.length })

def clear (_ : WalBuffer) : WalBuffer := ⟨[], 0, []⟩

/-- `load_from_disk`: a torn record ends what can be read. -/
def loadFromDisk (file : List (Option LogEntry)) : List LogEntry :=
  (file.takeWhile Option.isSome).reduceOption

/-- `checkpoint`, as far as the log goes: flush it, flush the pages, clear it and start it anew. -/
def checkpoint (w : WalBuffer) (flush : FlushOutcome) (pagesOk : Bool) (flush' : FlushOutcome) :
    WalBuffer :=
  let (flushed, w) := if w.records.isEmpty then (true, w) else w.flushToDisk flush
  if flushed && pagesOk then ((w.clear.append .checkpoint).flushToDisk flush').2 else w

end WalBuffer

/-- How far a write transaction has come: `copied` its `LocalWAL`, `appended` its `Commit` record,
`durable` after the flush; `failed` is an error yet to be rolled back. -/
inductive CommitPhase where
  | idle
  | active
  | copied
  | appended
  | durable
  | committed
  | failed
  | rolledBack
  deriving DecidableEq

structure LogSystem where
  groupCommit : Bool
  wal : WalBuffer
  phase : Nat → CommitPhase
  localWal : Nat → List DataRecord

/-- What happens under one hold of the log's lock, or inside one transaction alone. -/
inductive LogStep where
  | beginWriteTxn (txn : Nat)
  | appendLocalWal (txn : Nat) (record : DataRecord)
  | copyLocalWal (txn : Nat)
  | commitInline (txn : Nat) (flush : FlushOutcome)
  | appendCommit (txn : Nat)
  | leaderFlush (batch : List Nat) (flush : FlushOutcome)
  | applyToTables (txn : Nat) (ok : Bool)
  | rollback (txn : Nat) (flush : FlushOutcome)
  | checkpoint (flush : FlushOutcome) (pagesOk : Bool) (flush' : FlushOutcome)

namespace LogSystem

def fresh (groupCommit : Bool) : LogSystem := ⟨groupCommit, .new, fun _ => .idle, fun _ => []⟩

def enter (s : LogSystem) (txn : Nat) (phase : CommitPhase) : LogSystem :=
  { s with phase := Function.update s.phase txn phase }

def setPhases (phase : Nat → CommitPhase) (batch : List Nat) (p : CommitPhase) (txn : Nat) :
    CommitPhase :=
  if txn ∈ batch then p else phase txn

def step (s : LogSystem) : LogStep → Option LogSystem
  | .beginWriteTxn txn => if s.phase txn = .idle then some (s.enter txn .active) else none
  | .appendLocalWal txn record =>
    if s.phase txn = .active then
      some { s with localWal := Function.update s.localWal txn (s.localWal txn ++ [record]) }
    else none
  | .copyLocalWal txn =>
    if s.phase txn = .active then
      some { s.enter txn .copied with wal := s.wal.writeRawBuffer txn (s.localWal txn) }
    else none
  | .commitInline txn flush =>
    if s.groupCommit = false ∧ s.phase txn = .copied then
      let (ok, wal) := (s.wal.append (.commit txn)).flushToDisk flush
      some { s.enter txn (if ok then .durable else .failed) with wal := wal }
    else none
  | .appendCommit txn =>
    if s.groupCommit = true ∧ s.phase txn = .copied then
      some { s.enter txn .appended with wal := s.wal.append (.commit txn) }
    else none
  | .leaderFlush batch flush =>
    if ∀ txn ∈ batch, s.phase txn = .appended then
      let (ok, wal) := s.wal.flushToDisk flush
      some { s with wal := wal, phase := setPhases s.phase batch (if ok then .durable else .failed) }
    else none
  | .applyToTables txn ok =>
    if s.phase txn = .durable then some (s.enter txn (if ok then .committed else .failed)) else none
  | .rollback txn flush =>
    if s.phase txn = .active ∨ s.phase txn = .failed then
      some { s.enter txn .rolledBack with wal := ((s.wal.append (.rollback txn)).flushToDisk flush).2 }
    else none
  | .checkpoint flush pagesOk flush' => some { s with wal := s.wal.checkpoint flush pagesOk flush' }

def durable (s : LogSystem) : List LogEntry := WalBuffer.loadFromDisk s.wal.file

end LogSystem

def dataOf (txn : Nat) (log : List LogEntry) : List DataRecord := log.flatMap fun
    | .blob owner records => if owner = txn then records else []
    | _ => []

def marksOf (txn : Nat) (log : List LogEntry) : List Bool := log.filterMap fun
    | .commit owner => if owner = txn then some true else none
    | .rollback owner => if owner = txn then some false else none
    | _ => none

/-- There is a `Commit` record, and no `Rollback` record after it. -/
def committedIn (log : List LogEntry) (txn : Nat) : Bool := (marksOf txn log).getLast? = some true

def LogEntry.ofCommitted (log : List LogEntry) : LogEntry → Bool
  | .blob txn _ => committedIn log txn
  | _ => false

end Akar
