import Akar.CommitLog
import Akar.Slots

namespace Akar

open List Function WalBuffer

section Log

variable {txn owner : Nat} {log log' : List LogEntry} {records : List DataRecord}

@[simp] theorem dataOf_append : dataOf txn (log ++ log') = dataOf txn log ++ dataOf txn log' :=
  flatMap_append

@[simp] theorem marksOf_append : marksOf txn (log ++ log') = marksOf txn log ++ marksOf txn log' :=
  filterMap_append

@[simp] theorem dataOf_blob : dataOf txn [.blob owner records] = if owner =
    txn then records else [] := by
  simp [dataOf]

@[simp] theorem marksOf_blob : marksOf txn [.blob owner records] = [] := rfl

@[simp] theorem dataOf_commit : dataOf txn [.commit owner] = [] := rfl

@[simp] theorem marksOf_commit : marksOf txn [.commit owner] = if owner = txn then [true] else [] := by
  by_cases h : owner = txn <;> simp [marksOf, h]

@[simp] theorem dataOf_rollback : dataOf txn [.rollback owner] = [] := rfl

@[simp] theorem marksOf_rollback : marksOf txn [.rollback owner] = if owner =
    txn then [false] else [] := by
  by_cases h : owner = txn <;> simp [marksOf, h]

theorem marksOf_take (n : Nat) (h : marksOf txn log = []) : marksOf txn (log.take n) = [] := by
  have hsplit := congrArg (marksOf txn) (take_append_drop n log)
  rw [marksOf_append, h] at hsplit
  exact (append_eq_nil_iff.mp hsplit).1

theorem dataOf_take (n : Nat) (h : dataOf txn log = []) : dataOf txn (log.take n) = [] := by
  have hsplit := congrArg (dataOf txn) (take_append_drop n log)
  rw [dataOf_append, h] at hsplit
  exact (append_eq_nil_iff.mp hsplit).1

theorem dataOf_eq_nil_of_mem (h : dataOf txn log = []) (hmem : LogEntry.blob txn records ∈ log) :
    records = [] := by
  rw [dataOf, flatMap_eq_nil_iff] at h
  simpa using h _ hmem

end Log

namespace LogSystem

/-- A transaction's share of the log is either nothing, or all its records with a `Commit`, or a
`Rollback` alone. -/
def Settled (records : List DataRecord) (txn : Nat) (log : List LogEntry) : Prop :=
  dataOf txn log = [] ∧ (marksOf txn log = [] ∨ marksOf txn log = [false]) ∨
    dataOf txn log = records ∧ marksOf txn log = [true]

def Filed (records : List DataRecord) (txn : Nat) (log : List LogEntry) : CommitPhase → Prop
  | .idle | .active => dataOf txn log = [] ∧ marksOf txn log = []
  | .copied => dataOf txn log = records ∧ marksOf txn log = []
  | .appended | .durable | .committed =>
    dataOf txn log = [] ∧ marksOf txn log = [] ∨ dataOf txn log = records ∧ marksOf txn log = [true]
  | .failed => False
  | .rolledBack => dataOf txn log = [] ∧ (marksOf txn log = [] ∨ marksOf txn log = [false])

structure Orderly (s : LogSystem) : Prop where
  file : s.wal.file = (s.wal.records.take s.wal.flushedCount).map some
  flushed_le : s.wal.flushedCount ≤ s.wal.records.length
  flushed : ∀ txn, Settled (s.localWal txn) txn (s.wal.records.take s.wal.flushedCount)
  filed : ∀ txn, Filed (s.localWal txn) txn s.wal.records (s.phase txn)

/-- No transaction has its records in the log without its `Commit`. -/
def NoneCopied (s : LogSystem) : Prop := ∀ txn, s.phase txn ≠ .copied

/-- A commit's flush succeeds and the tables take what it made durable; no flush comes between the
copy of a transaction's records and its `Commit`; other flushes may fail if they write nothing. -/
def Clean (s : LogSystem) : LogStep → Prop
  | .commitInline txn flush => flush = .ok ∧ ∀ other, s.phase other = .copied → other = txn
  | .leaderFlush _ flush => flush = .ok ∧ s.NoneCopied
  | .applyToTables _ ok => ok = true
  | .rollback _ flush => flush = .openFails ∨ flush = .ok ∧ s.NoneCopied
  | .checkpoint flush _ flush' =>
    (flush = .openFails ∨ flush = .ok ∧ s.NoneCopied) ∧ (flush' = .openFails ∨ flush' = .ok)
  | _ => True

variable {records : List DataRecord} {log : List LogEntry} {phase : CommitPhase}

theorem Filed.settled {txn : Nat} (h : Filed records txn log phase) (hcopied : phase ≠ .copied) :
    Settled records txn log := by
  cases phase with
  | idle | active => exact .inl ⟨h.1, .inl h.2⟩
  | copied => exact absurd rfl hcopied
  | appended | durable | committed => exact h.imp_left fun h => ⟨h.1, .inl h.2⟩
  | failed => exact h.elim
  | rolledBack => exact .inl h

theorem flushToDisk_openFails (w : WalBuffer) : (w.flushToDisk .openFails).2 = w := by
  unfold flushToDisk
  split <;> rfl

theorem flushToDisk_ok {w : WalBuffer} (hfile : w.file = (w.records.take w.flushedCount).map some)
    (hle : w.flushedCount ≤ w.records.length) :
    w.flushToDisk .ok = (true, ⟨w.records, w.records.length, w.records.map some⟩) := by
  unfold flushToDisk
  split
  next h =>
    have heq := Nat.le_antisymm hle h
    obtain ⟨records, flushedCount, file⟩ := w
    simp_all
  next =>
    simp [unflushed, hfile]

variable {s s' : LogSystem} {txn : Nat}

theorem Orderly.of_flushed (hwal : s.wal = ⟨log, log.length, log.map some⟩)
    (hfiled : ∀ txn, Filed (s.localWal txn) txn log (s.phase txn)) (hnone : s.NoneCopied) :
      s.Orderly where
  file := by simp [hwal]
  flushed_le := by simp [hwal]
  flushed := fun txn => by
    simp only [hwal, take_length]
    exact (hfiled txn).settled (hnone txn)
  filed := fun txn => by
    simp only [hwal]
    exact hfiled txn

theorem Orderly.of_appended (added : List LogEntry) (h : s.Orderly)
    (hwal : s'.wal = { s.wal with records := s.wal.records ++ added })
    (hlocal : ∀ txn, Settled (s.localWal txn) txn (s.wal.records.take s.wal.flushedCount) →
      Settled (s'.localWal txn) txn (s.wal.records.take s.wal.flushedCount))
    (hfiled : ∀ txn, Filed (s'.localWal txn) txn (s.wal.records ++ added) (s'.phase txn)) :
      s'.Orderly where
  file := by
    simp only [hwal]
    rw [take_append_of_le_length h.flushed_le]
    exact h.file
  flushed_le := by
    simp only [hwal, length_append]
    exact Nat.le_add_right_of_le h.flushed_le
  flushed := fun txn => by
    simp only [hwal]
    rw [take_append_of_le_length h.flushed_le]
    exact hlocal txn (h.flushed txn)
  filed := fun txn => by
    simp only [hwal]
    exact hfiled txn

theorem Orderly.flushToDisk_append (h : s.Orderly) (e : LogEntry) :
    (s.wal.append e).flushToDisk .ok =
      (true, ⟨s.wal.records ++ [e], (s.wal.records ++ [e]).length,
        (s.wal.records ++ [e]).map some⟩) := by
  apply flushToDisk_ok
  · show s.wal.file = ((s.wal.records ++ [e]).take s.wal.flushedCount).map some
    rw [take_append_of_le_length h.flushed_le]
    exact h.file
  · show s.wal.flushedCount ≤ (s.wal.records ++ [e]).length
    rw [length_append]
    exact Nat.le_add_right_of_le h.flushed_le

theorem Filed.append {added : List LogEntry} (h : Filed records txn log phase)
    (hdata : dataOf txn added = [])
    (hmarks : marksOf txn added = []) : Filed records txn (log ++ added) phase := by
  cases phase <;> simp only [Filed, dataOf_append, marksOf_append, hdata, hmarks,
    append_nil] at h ⊢ <;> exact h

theorem filed_of_entry {e : LogEntry} (h : s.Orderly)
    (hother : ∀ other, other ≠ txn → dataOf other [e] = [] ∧ marksOf other [e] = [])
    (hown : Filed (s.localWal txn) txn (s.wal.records ++ [e]) phase) (other : Nat) :
    Filed (s.localWal other) other (s.wal.records ++ [e]) (update s.phase txn phase other) := by
  rw [update_apply]
  split
  next ho =>
    subst ho
    exact hown
  next ho =>
    exact (h.filed other).append (hother other ho).1 (hother other ho).2

theorem filed_enter (h : s.Orderly) (hown : Filed (s.localWal txn) txn s.wal.records phase)
    (other : Nat) :
    Filed (s.localWal other) other s.wal.records (update s.phase txn phase other) := by
  rw [update_apply]
  split
  next ho =>
    subst ho
    exact hown
  · exact h.filed other

theorem fresh_orderly (groupCommit : Bool) : (fresh groupCommit).Orderly :=
  .of_flushed rfl (fun _ => ⟨rfl, rfl⟩) fun _ => nofun

theorem Orderly.beginWriteTxn (h : s.Orderly) (hs : s.step (.beginWriteTxn txn) = some s') :
    s'.Orderly := by
  obtain ⟨hidle, rfl⟩ := Option.ite_some_none_eq_some.mp hs
  have hfiled := h.filed txn
  rw [hidle] at hfiled
  exact ⟨h.file, h.flushed_le, h.flushed, filed_enter h hfiled⟩

theorem Orderly.appendLocalWal {record : DataRecord} (h : s.Orderly)
    (hs : s.step (.appendLocalWal txn record) = some s') : s'.Orderly := by
  obtain ⟨hactive, rfl⟩ := Option.ite_some_none_eq_some.mp hs
  have hnone := h.filed txn
  rw [hactive] at hnone
  refine h.of_appended [] (by simp) (fun other hother => ?_) (fun other => ?_)
  · by_cases ho : other = txn
    · subst ho
      exact .inl ⟨dataOf_take _ hnone.1, .inl (marksOf_take _ hnone.2)⟩
    · simpa [update_of_ne ho] using hother
  · rw [append_nil]
    by_cases ho : other = txn
    · subst ho
      rw [hactive]
      exact hnone
    · simpa [update_of_ne ho] using h.filed other

theorem Orderly.copyLocalWal (h : s.Orderly) (hs : s.step (.copyLocalWal txn) = some s') :
    s'.Orderly := by
  obtain ⟨hactive, rfl⟩ := Option.ite_some_none_eq_some.mp hs
  have hnone := h.filed txn
  rw [hactive] at hnone
  by_cases hempty : s.localWal txn = []
  · refine h.of_appended [] (by simp [writeRawBuffer, hempty]) (fun _ hother => hother) ?_
    rw [append_nil]
    exact filed_enter h ⟨hnone.1.trans hempty.symm, hnone.2⟩
  · refine h.of_appended [.blob txn (s.localWal txn)] (by simp [writeRawBuffer, hempty]; rfl)
      (fun _ hother => hother) ?_
    refine filed_of_entry h (fun other ho => ⟨by simp [Ne.symm ho], rfl⟩) ⟨?_, ?_⟩
    · simp [hnone.1]
    · simp [hnone.2]

theorem filed_commit (h : s.Orderly) (hcopied : s.phase txn = .copied)
    (hphase : phase = .appended ∨ phase = .durable) (other : Nat) :
    Filed (s.localWal other) other (s.wal.records ++ [.commit txn])
      (update s.phase txn phase other) := by
  have hown := h.filed txn
  rw [hcopied] at hown
  refine filed_of_entry h (fun other ho => ⟨rfl, by simp [Ne.symm ho]⟩) ?_ other
  have hall : dataOf txn (s.wal.records ++ [.commit txn]) = s.localWal txn ∧
      marksOf txn (s.wal.records ++ [.commit txn]) = [true] := by
    simp [hown.1, hown.2]
  rcases hphase with rfl | rfl <;> exact .inr hall

variable {flush : FlushOutcome}

theorem Orderly.commitInline (h : s.Orderly) (hclean : s.Clean (.commitInline txn flush))
    (hs : s.step (.commitInline txn flush) = some s') : s'.Orderly := by
  obtain ⟨rfl, honly⟩ := hclean
  simp only [step] at hs
  split at hs
  next hcopied =>
    rw [h.flushToDisk_append] at hs
    cases hs
    refine .of_flushed rfl (filed_commit h hcopied.2 (.inr rfl)) fun other hother => ?_
    by_cases ho : other = txn
    · subst ho
      simp [enter] at hother
    · exact ho (honly other (by simpa [enter, update_of_ne ho] using hother))
  next => cases hs

theorem Orderly.appendCommit (h : s.Orderly) (hs : s.step (.appendCommit txn) = some s') :
    s'.Orderly := by
  obtain ⟨hcopied, rfl⟩ := Option.ite_some_none_eq_some.mp hs
  exact h.of_appended [.commit txn] rfl (fun _ hother => hother) (filed_commit h hcopied.2 (.inl rfl))

theorem Orderly.leaderFlush {batch : List Nat} (h : s.Orderly)
    (hclean : s.Clean (.leaderFlush batch flush))
    (hs : s.step (.leaderFlush batch flush) = some s') : s'.Orderly := by
  obtain ⟨rfl, hnone⟩ := hclean
  simp only [step] at hs
  obtain ⟨happended, hs⟩ := Option.ite_none_right_eq_some.mp hs
  rw [flushToDisk_ok h.file h.flushed_le] at hs
  cases hs
  refine .of_flushed rfl (fun txn => ?_) fun txn htxn => ?_
  · by_cases hb : txn ∈ batch
    · have hfiled := h.filed txn
      rw [happended txn hb] at hfiled
      simp only [setPhases, hb, ↓reduceIte]
      exact hfiled
    · simpa [setPhases, hb] using h.filed txn
  · by_cases hb : txn ∈ batch
    · simp [setPhases, hb] at htxn
    · exact hnone txn (by simpa [setPhases, hb] using htxn)

theorem Orderly.applyToTables {ok : Bool} (h : s.Orderly) (hclean : s.Clean (.applyToTables txn ok))
    (hs : s.step (.applyToTables txn ok) = some s') : s'.Orderly := by
  cases hclean
  obtain ⟨hdurable, rfl⟩ := Option.ite_some_none_eq_some.mp hs
  have hfiled := h.filed txn
  rw [hdurable] at hfiled
  exact ⟨h.file, h.flushed_le, h.flushed, filed_enter h hfiled⟩

theorem Orderly.rollback (h : s.Orderly) (hclean : s.Clean (.rollback txn flush))
    (hs : s.step (.rollback txn flush) = some s') : s'.Orderly := by
  obtain ⟨hphase, rfl⟩ := Option.ite_some_none_eq_some.mp hs
  have hown := h.filed txn
  have hnone : dataOf txn s.wal.records = [] ∧ marksOf txn s.wal.records = [] := by
    rcases hphase with hp | hp
    · rw [hp] at hown
      exact hown
    · rw [hp] at hown
      exact hown.elim
  have hrolled : Filed (s.localWal txn) txn (s.wal.records ++ [.rollback txn]) .rolledBack :=
    ⟨by simp [hnone.1], .inr (by simp [hnone.2])⟩
  have hfiled := filed_of_entry h (fun other ho => ⟨rfl, by simp [Ne.symm ho]⟩) hrolled
  rcases hclean with rfl | ⟨rfl, hno⟩
  · refine h.of_appended [.rollback txn] ?_ (fun _ hother => hother) hfiled
    simp only [flushToDisk_openFails]
    rfl
  · refine .of_flushed ?_ hfiled fun other hother => ?_
    · simp only [h.flushToDisk_append]
    · by_cases ho : other = txn
      · subst ho
        simp [enter] at hother
      · exact hno other (by simpa [enter, update_of_ne ho] using hother)

theorem Filed.cleared (h : Filed records txn log phase) (hcopied : phase = .copied → records = []) :
    Filed records txn [.checkpoint] phase := by
  cases phase with
  | idle | active => exact ⟨rfl, rfl⟩
  | copied => exact ⟨(hcopied rfl).symm, rfl⟩
  | appended | durable | committed => exact .inl ⟨rfl, rfl⟩
  | failed => exact h
  | rolledBack => exact ⟨rfl, .inl rfl⟩

theorem Orderly.cleared (h : s.Orderly) (hcopied : ∀ txn, s.phase txn = .copied → s.localWal txn = [])
    (hflush : flush = .openFails ∨ flush = .ok) :
    { s with wal := ((s.wal.clear.append .checkpoint).flushToDisk flush).2 }.Orderly := by
  have hfiled (txn : Nat) : Filed (s.localWal txn) txn [.checkpoint] (s.phase txn) :=
    (h.filed txn).cleared (hcopied txn)
  have hnothing (n txn : Nat) : Settled (s.localWal txn) txn ([LogEntry.checkpoint].take n) :=
    .inl ⟨dataOf_take n rfl, .inl (marksOf_take n rfl)⟩
  rcases hflush with rfl | rfl
  · exact ⟨rfl, Nat.zero_le _, hnothing 0, hfiled⟩
  · exact ⟨rfl, le_rfl, hnothing 1, hfiled⟩

theorem Orderly.checkpoint {flush' : FlushOutcome} {pagesOk : Bool} (h : s.Orderly)
    (hclean : s.Clean (.checkpoint flush pagesOk flush'))
    (hs : s.step (.checkpoint flush pagesOk flush') = some s') :
    s'.Orderly := by
  obtain ⟨hflush, hflush'⟩ := hclean
  cases hs
  simp only [checkpoint]
  by_cases hempty : s.wal.records.isEmpty = true
  · have hrecords := List.isEmpty_iff.mp hempty
    simp only [hempty, ↓reduceIte, Bool.true_and]
    cases pagesOk with
    | false => exact h
    | true =>
      refine h.cleared (fun txn hcopied => ?_) hflush'
      have hown := h.filed txn
      rw [hcopied, hrecords] at hown
      exact hown.1.symm
  · simp only [hempty]
    rcases hflush with rfl | ⟨rfl, hnone⟩
    · by_cases hnew : s.wal.records.length ≤ s.wal.flushedCount
      · have hno : s.wal.flushToDisk .openFails = (true, s.wal) := by simp [flushToDisk, hnew]
        simp only [Bool.false_eq_true, ↓reduceIte, hno, Bool.true_and]
        cases pagesOk with
        | false => exact h
        | true =>
          refine h.cleared (fun txn hcopied => ?_) hflush'
          have hown := h.filed txn
          have hsettled := h.flushed txn
          rw [hcopied] at hown
          rw [take_of_length_le hnew] at hsettled
          rcases hsettled with ⟨hdata, _⟩ | ⟨_, hmarks⟩
          · exact hown.1.symm.trans hdata
          · rw [hown.2] at hmarks
            cases hmarks
      · have hno : s.wal.flushToDisk .openFails = (false, s.wal) := by simp [flushToDisk, hnew]
        simp only [Bool.false_eq_true, ↓reduceIte, hno, Bool.false_and]
        exact h
    · simp only [Bool.false_eq_true, ↓reduceIte, flushToDisk_ok h.file h.flushed_le, Bool.true_and]
      cases pagesOk with
      | false => exact .of_flushed rfl h.filed hnone
      | true => exact h.cleared (fun txn hcopied => absurd hcopied (hnone txn)) hflush'

theorem Orderly.step {a : LogStep} (h : s.Orderly) (hclean : s.Clean a) (hs : s.step a = some s') :
    s'.Orderly := by
  cases a with
  | beginWriteTxn => exact h.beginWriteTxn hs
  | appendLocalWal => exact h.appendLocalWal hs
  | copyLocalWal => exact h.copyLocalWal hs
  | commitInline => exact h.commitInline hclean hs
  | appendCommit => exact h.appendCommit hs
  | leaderFlush => exact h.leaderFlush hclean hs
  | applyToTables => exact h.applyToTables hclean hs
  | rollback => exact h.rollback hclean hs
  | checkpoint => exact h.checkpoint hclean hs

theorem Orderly.durable_eq (h : s.Orderly) : s.durable = s.wal.records.take s.wal.flushedCount := by
  have hread (log : List LogEntry) : (log.map some).takeWhile Option.isSome = log.map some := by
    induction log with
    | nil => rfl
    | cons e log ih => simp [ih]
  rw [durable, h.file, loadFromDisk, hread]
  show ((s.wal.records.take s.wal.flushedCount).map some).filterMap id = _
  rw [filterMap_map]
  exact filterMap_some ..

theorem Settled.of_committed (h : Settled records txn log) (hcommit : committedIn log txn = true) :
    dataOf txn log = records := by
  rcases h with ⟨_, hmarks | hmarks⟩ | ⟨hdata, _⟩
  · simp [committedIn, hmarks] at hcommit
  · simp [committedIn, hmarks] at hcommit
  · exact hdata

theorem Settled.of_not_committed (h : Settled records txn log) (hcommit : committedIn log txn = false) :
    dataOf txn log = [] := by
  rcases h with ⟨hdata, _⟩ | ⟨_, hmarks⟩
  · exact hdata
  · simp [committedIn, hmarks] at hcommit

end LogSystem

section Social

attribute [local instance] Rendering.blank

end Social

end Akar
