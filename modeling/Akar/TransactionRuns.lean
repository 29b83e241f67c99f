import Akar.TransactionManager
import Akar.Runs
import Akar.Slots

namespace Akar

open TransactionManager

inductive Phase where
  /-- A write transaction that has its id and snapshot and waits for the write permit, with the
  mode flag as `acquire_write` loaded it. -/
  | waiting (allowConcurrent : Bool)
  | running
  /-- A single-phase commit with its timestamp assigned and nothing published. -/
  | publishing
  /-- `prepare_commit` reported a conflict; `rollback_write_txn` follows. -/
  | refused
  /-- `prepare_commit` succeeded; the durable pipeline is at work. -/
  | prepared
  /-- The durable pipeline failed; `rollback_write_txn` follows. -/
  | failed
  | committed
  | rolledBack
  deriving DecidableEq, Repr

structure Session where
  txn : Transaction
  phase : Phase

structure TxnSystem where
  tm : TransactionManager
  sessions : Nat → Option Session

inductive Action where
  | beginRead
  | enterWrite
  | admitWrite (t : Nat)
  | lockTable (t tableId : Nat)
  | recordWrite (t tableId rowId : Nat)
  | commitRead (t : Nat)
  | commitStart (t : Nat)
  | commitEnd (t : Nat)
  | prepareCommit (t : Nat)
  | durableFail (t : Nat)
  | finishCommit (t : Nat)
  | rollback (t : Nat)
  | setConcurrentWrites (enabled : Bool)

namespace TxnSystem

def new (concurrentWrites : Bool) : TxnSystem :=
  ⟨TransactionManager.new concurrentWrites, fun _ => none⟩

def put (s : TxnSystem) (t : Nat) (tm : TransactionManager) (txn : Transaction) (phase : Phase) :
    TxnSystem :=
  ⟨tm, Function.update s.sessions t (some ⟨txn, phase⟩)⟩

/-- The phases in which `rollback_write_txn` is called: by a running transaction's owner, or as the
last act of a `commit_write_txn` that failed. -/
def rollsBack : Phase → Bool
  | .running | .refused | .failed => true
  | _ => false

/-- One call into the manager, or one half of a call that other callers can interrupt. `none` when
the caller is not at that point of its transaction, or waits. -/
def step (s : TxnSystem) : Action → Option TxnSystem
  | .beginRead => some (s.put s.tm.nextId s.tm.beginRead.2 s.tm.beginRead.1 .running)
  | .enterWrite =>
    some (s.put s.tm.nextId (s.tm.openTxn .write).2 (s.tm.openTxn .write).1
      (.waiting s.tm.concurrentWrites))
  | .admitWrite t =>
    match s.sessions t with
    | some ⟨txn, .waiting allow⟩ =>
      (s.tm.acquireWrite allow).map fun tm => s.put t (tm.register txn) txn .running
    | _ => none
  | .lockTable t tableId =>
    match s.sessions t with
    | some ⟨_, .running⟩ => some { s with tm := (s.tm.lockTable t tableId).toOption.getD s.tm }
    | _ => none
  | .recordWrite t tableId rowId =>
    match s.sessions t with
    | some ⟨txn, .running⟩ =>
      if txn.transactionType =
        .write then some { s with tm := s.tm.recordWrite t tableId rowId } else none
    | _ => none
  | .commitRead t =>
    match s.sessions t with
    | some ⟨txn, .running⟩ =>
      if txn.transactionType = .readOnly then
        some (s.put t (s.tm.commit txn).2.2 (s.tm.commit txn).2.1 .committed)
      else none
    | _ => none
  | .commitStart t =>
    match s.sessions t with
    | some ⟨txn, .running⟩ =>
      if txn.transactionType = .write then
        match s.tm.commitStart txn with
        | (.ok _, txn', tm) => some (s.put t tm txn' .publishing)
        | (.error _, txn', tm) => some (s.put t tm txn' .rolledBack)
      else none
    | _ => none
  | .commitEnd t =>
    match s.sessions t with
    | some ⟨txn, .publishing⟩ => some (s.put t (s.tm.commitEnd t (txn.commitTs.getD 0)) txn .committed)
    | _ => none
  | .prepareCommit t =>
    match s.sessions t with
    | some ⟨txn, .running⟩ =>
      if txn.transactionType = .write then
        match s.tm.prepareCommit txn with
        | (.ok _, txn', tm) => some (s.put t tm txn' .prepared)
        | (.error _, txn', tm) => some (s.put t tm txn' .refused)
      else none
    | _ => none
  | .durableFail t =>
    match s.sessions t with
    | some ⟨txn, .prepared⟩ => some (s.put t s.tm txn .failed)
    | _ => none
  | .finishCommit t =>
    match s.sessions t with
    | some ⟨txn, .prepared⟩ => some (s.put t (s.tm.finishCommit txn) txn .committed)
    | _ => none
  | .rollback t =>
    match s.sessions t with
    | some ⟨txn, phase⟩ =>
      if txn.transactionType = .write ∧ rollsBack phase then
        some (s.put t (s.tm.rollback txn).2.2 (s.tm.rollback txn).2.1 .rolledBack)
      else none
    | none => none
  | .setConcurrentWrites enabled => some { s with tm := s.tm.setConcurrentWrites enabled }

inductive Step (s : TxnSystem) : Action → TxnSystem → Prop
  | beginRead : Step s .beginRead (s.put s.tm.nextId s.tm.beginRead.2 s.tm.beginRead.1 .running)
  | enterWrite : Step s .enterWrite
      (s.put s.tm.nextId (s.tm.openTxn .write).2 (s.tm.openTxn .write).1
        (.waiting s.tm.concurrentWrites))
  | admitWrite {t txn allow tm} : s.sessions t = some ⟨txn, .waiting allow⟩ → s.tm.acquireWrite allow = some tm →
      Step s (.admitWrite t) (s.put t (tm.register txn) txn .running)
  | lockTable {t txn tableId} : s.sessions t = some ⟨txn, .running⟩ →
      Step s (.lockTable t tableId) { s with tm := (s.tm.lockTable t tableId).toOption.getD s.tm }
  | recordWrite {t txn tableId rowId} : s.sessions t = some ⟨txn, .running⟩ → txn.transactionType = .write →
      Step s (.recordWrite t tableId rowId) { s with tm := s.tm.recordWrite t tableId rowId }
  | commitRead {t txn} : s.sessions t = some ⟨txn, .running⟩ → txn.transactionType = .readOnly →
      Step s (.commitRead t) (s.put t (s.tm.commit txn).2.2 (s.tm.commit txn).2.1 .committed)
  | commitRejected {t txn e} : s.sessions t = some ⟨txn, .running⟩ → txn.transactionType = .write →
      s.tm.validateWriteSet txn.transactionId = some e →
      Step s (.commitStart t)
        (s.put t ((s.tm.deregister txn.transactionId).releaseWriter txn.transactionId)
        { txn with status := .rolledBack } .rolledBack)
  | commitAccepted {t txn} : s.sessions t = some ⟨txn, .running⟩ → txn.transactionType = .write →
      s.tm.validateWriteSet txn.transactionId = none →
      Step s (.commitStart t) (s.put t s.tm.assignCommitTs.2
        { txn with status := .committed, commitTs := some s.tm.nextCommitTs } .publishing)
  | commitEnd {t txn} : s.sessions t = some ⟨txn, .publishing⟩ →
      Step s (.commitEnd t) (s.put t (s.tm.commitEnd t (txn.commitTs.getD 0)) txn .committed)
  | prepareRejected {t txn e} : s.sessions t = some ⟨txn, .running⟩ → txn.transactionType = .write →
      s.tm.validateWriteSet txn.transactionId = some e →
      Step s (.prepareCommit t)
        (s.put t ((s.tm.deregister txn.transactionId).releaseWriter txn.transactionId)
        { txn with status := .rolledBack } .refused)
  | prepareAccepted {t txn} : s.sessions t = some ⟨txn, .running⟩ → txn.transactionType = .write →
      s.tm.validateWriteSet txn.transactionId = none →
      Step s (.prepareCommit t) (s.put t (s.tm.assignCommitTs.2.deregister txn.transactionId)
        { txn with status := .committed, commitTs := some s.tm.nextCommitTs } .prepared)
  | durableFail {t txn} : s.sessions t = some ⟨txn, .prepared⟩ → Step s (.durableFail t) (s.put t s.tm txn .failed)
  | finishCommit {t txn} : s.sessions t = some ⟨txn, .prepared⟩ →
      Step s (.finishCommit t) (s.put t (s.tm.finishCommit txn) txn .committed)
  | rollback {t txn phase} : s.sessions t = some ⟨txn, phase⟩ → txn.transactionType = .write → rollsBack phase = true →
      Step s (.rollback t)
        (s.put t ((s.tm.deregister txn.transactionId).releaseWriter txn.transactionId)
        { txn with status := .rolledBack } .rolledBack)
  | setConcurrentWrites {enabled} :
      Step s (.setConcurrentWrites enabled) { s with tm := s.tm.setConcurrentWrites enabled }

variable {s s' : TxnSystem} {a : Action} {t : Nat} {txn : Transaction} {phase : Phase}

theorem step_running_match {f : Transaction → Option TxnSystem}
    (h : (match s.sessions t with | some ⟨txn, .running⟩ => f txn | _ => none) = some s') :
    ∃ txn, s.sessions t = some ⟨txn, .running⟩ ∧ f txn = some s' := by
  split at h
  next txn hs => exact ⟨txn, hs, h⟩
  next => cases h

theorem Step.of_step (h : s.step a = some s') : Step s a s' := by
  cases a with
  | beginRead => cases h; exact .beginRead
  | enterWrite => cases h; exact .enterWrite
  | admitWrite =>
    simp only [step] at h
    split at h
    next txn allow hs =>
      obtain ⟨tm, htm, rfl⟩ := Option.map_eq_some_iff.mp h
      exact .admitWrite hs htm
    next => cases h
  | lockTable =>
    obtain ⟨txn, hs, h⟩ := step_running_match h
    cases h
    exact .lockTable hs
  | recordWrite =>
    obtain ⟨txn, hs, h⟩ := step_running_match h
    split at h
    next hw => cases h; exact .recordWrite hs hw
    next => cases h
  | commitRead =>
    obtain ⟨txn, hs, h⟩ := step_running_match h
    split at h
    next hr => cases h; exact .commitRead hs hr
    next => cases h
  | commitStart =>
    obtain ⟨txn, hs, h⟩ := step_running_match h
    split at h
    next hw =>
      cases hv : s.tm.validateWriteSet txn.transactionId with
      | none =>
        simp only [TransactionManager.commitStart, hv] at h; cases h; exact .commitAccepted hs hw hv
      | some e =>
        simp only [TransactionManager.commitStart, hv] at h; cases h; exact .commitRejected hs hw hv
    next => cases h
  | commitEnd =>
    simp only [step] at h
    split at h
    next txn hs => cases h; exact .commitEnd hs
    next => cases h
  | prepareCommit =>
    obtain ⟨txn, hs, h⟩ := step_running_match h
    split at h
    next hw =>
      cases hv : s.tm.validateWriteSet txn.transactionId with
      | none =>
        simp only [TransactionManager.prepareCommit, hw, hv] at h
        rw [← hw] at h
        cases h
        exact .prepareAccepted hs hw hv
      | some e =>
        simp only [TransactionManager.prepareCommit, hw, hv] at h
        rw [← hw] at h
        cases h
        exact .prepareRejected hs hw hv
    next => cases h
  | durableFail =>
    simp only [step] at h
    split at h
    next txn hs => cases h; exact .durableFail hs
    next => cases h
  | finishCommit =>
    simp only [step] at h
    split at h
    next txn hs => cases h; exact .finishCommit hs
    next => cases h
  | rollback =>
    simp only [step] at h
    split at h
    next txn phase hs =>
      split at h
      next hr => cases h; exact .rollback hs hr.1 hr.2
      next => cases h
    next => cases h
  | setConcurrentWrites => cases h; exact .setConcurrentWrites

section Coherence

def registered : Phase → Bool
  | .running | .publishing => true
  | _ => false

def readable : Phase → Bool
  | .running | .committed => true
  | _ => false

/-- Sessions and the manager's map agree on who is active, and ids are what the counter handed
out. -/
structure Coherent (s : TxnSystem) : Prop where
  ids : ∀ t txn phase, s.sessions t = some ⟨txn, phase⟩ → txn.transactionId = t ∧ t < s.tm.nextId
  active : ∀ t, t ∈ s.tm.activeTransactions ↔ ∃ txn phase, s.sessions t = some ⟨txn, phase⟩ ∧
    registered phase = true
  writers : ∀ t txn phase, s.sessions t = some ⟨txn, phase⟩ → readable phase = false →
    txn.transactionType = .write

variable {tm : TransactionManager} {u : Nat}

@[simp] theorem put_tm {tm : TransactionManager} : (s.put t tm txn phase).tm = tm := rfl

@[simp] theorem put_sessions_self {tm : TransactionManager} :
    (s.put t tm txn phase).sessions t = some ⟨txn, phase⟩ :=
  Function.update_self ..

theorem put_sessions_ne (h : u ≠ t) : (s.put t tm txn phase).sessions u = s.sessions u :=
  Function.update_of_ne h ..

theorem new_coherent (b : Bool) : Coherent (new b) where
  ids := by intro t txn phase h; cases h
  active := by
    intro t
    constructor
    · intro h; exact absurd h (AList.notMem_empty t)
    · rintro ⟨txn, phase, h, _⟩; cases h
  writers := by intro t txn phase h; cases h

theorem Coherent.put (hc : Coherent s) (hid : txn.transactionId = t) (ht : t < tm.nextId)
    (hn : s.tm.nextId ≤ tm.nextId)
    (hother : ∀ u, u ≠ t → (u ∈ tm.activeTransactions ↔ u ∈ s.tm.activeTransactions))
    (hself : t ∈ tm.activeTransactions ↔ registered phase = true)
    (hw : readable phase = false → txn.transactionType = .write) : Coherent (s.put t tm txn phase) where
  ids := by
    intro u utxn uphase hu
    obtain ⟨rfl, hss⟩ | ⟨_, hu⟩ := update_some_eq_some hu
    · cases hss; exact ⟨hid, ht⟩
    · obtain ⟨h1, h2⟩ := hc.ids u utxn uphase hu
      exact ⟨h1, lt_of_lt_of_le h2 hn⟩
  active := by
    intro u
    by_cases hu : u = t
    · subst hu
      rw [put_tm, hself, put_sessions_self]
      constructor
      · intro h; exact ⟨txn, phase, rfl, h⟩
      · rintro ⟨_, _, h, hr⟩; cases h; exact hr
    · rw [put_tm, hother u hu, hc.active u, put_sessions_ne hu]
  writers := by
    intro u utxn uphase hu hr
    obtain ⟨rfl, hss⟩ | ⟨_, hu⟩ := update_some_eq_some hu
    · cases hss; exact hw hr
    · exact hc.writers u utxn uphase hu hr

theorem Coherent.setTm (hc : Coherent s) (hn : tm.nextId = s.tm.nextId)
    (hk : ∀ u, u ∈ tm.activeTransactions ↔ u ∈ s.tm.activeTransactions) :
      Coherent { s with tm := tm } where
  ids := by intro u txn phase hu; rw [hn]; exact hc.ids u txn phase hu
  active := by intro u; rw [hk u]; exact hc.active u
  writers := hc.writers

theorem Coherent.lookup_of_running (hc : Coherent s) (h : s.sessions t = some ⟨txn, .running⟩) :
    ∃ entry, s.tm.activeTransactions.lookup t = some entry := by
  have ht : t ∈ s.tm.activeTransactions := (hc.active t).mpr ⟨txn, .running, h, rfl⟩
  obtain ⟨entry, he⟩ := Option.isSome_iff_exists.mp (AList.lookup_isSome.mpr ht)
  exact ⟨entry, he⟩

theorem Coherent.notMem_nextId (hc : Coherent s) : s.tm.nextId ∉ s.tm.activeTransactions := by
  intro h
  obtain ⟨txn, phase, hs, _⟩ := (hc.active _).mp h
  exact lt_irrefl _ (hc.ids _ txn phase hs).2

variable {phase₀ : Phase}

theorem Coherent.leave (hc : Coherent s) {old : Transaction} (hs : s.sessions t = some ⟨old, phase₀⟩)
    (hid : txn.transactionId = old.transactionId) (hn : tm.nextId = s.tm.nextId)
    (hm : tm.activeTransactions = s.tm.activeTransactions.erase t) (hr : registered phase = false)
    (hw : readable phase = false → txn.transactionType = .write) : Coherent (s.put t tm txn phase) := by
  obtain ⟨hold, ht⟩ := hc.ids t old _ hs
  refine hc.put (hid.trans hold) (hn ▸ ht) hn.ge ?_ ?_ hw
  · intro u hu; rw [hm, AList.mem_erase]; exact and_iff_right hu
  · rw [hm, AList.mem_erase, hr]; simp

theorem Coherent.stayOut (hc : Coherent s) (hs : s.sessions t = some ⟨txn, phase₀⟩)
    (h₀ : registered phase₀ = false) (hn : tm.nextId = s.tm.nextId)
    (hm : tm.activeTransactions = s.tm.activeTransactions) (hr : registered phase = false)
    (hw : readable phase = false → txn.transactionType = .write) : Coherent (s.put t tm txn phase) := by
  obtain ⟨hid, ht⟩ := hc.ids t txn _ hs
  refine hc.put hid (hn ▸ ht) hn.ge (fun u _ => by rw [hm]) ?_ hw
  rw [hm, hc.active t, hs, hr]
  constructor
  · rintro ⟨_, _, h, hreg⟩; cases h; rw [h₀] at hreg; exact hreg
  · nofun

theorem Coherent.step (hc : Coherent s) (h : s.step a = some s') : Coherent s' := by
  cases Step.of_step h with
  | beginRead =>
    refine hc.put rfl (by simp) (by simp) ?_ ?_ (by simp [readable])
    · intro u hu; simp [AList.mem_insert, hu]
    · simp [AList.mem_insert, registered]
  | enterWrite =>
    refine hc.put rfl (by simp) (by simp) ?_ ?_ fun _ => rfl
    · intro u hu; rfl
    · simpa [registered] using hc.notMem_nextId
  | @admitWrite t txn allow tm hs hw =>
    obtain ⟨hid, ht⟩ := hc.ids t txn _ hs
    obtain ⟨_, rfl⟩ := acquireWrite_eq_some.mp hw
    refine hc.put hid ht le_rfl ?_ ?_ (by simp [readable])
    · intro u hu; simp [AList.mem_insert, hid, hu]
    · simp [AList.mem_insert, hid, registered]
  | lockTable =>
    obtain ⟨locks, hl⟩ := s.tm.lockTable_locks_only _ _
    rw [hl]
    exact hc.setTm rfl fun u => Iff.rfl
  | @recordWrite t txn tableId rowId hs hw =>
    obtain ⟨entry, he⟩ := hc.lookup_of_running hs
    rw [recordWrite_of_lookup he]
    refine hc.setTm rfl fun u => ?_
    have ht : t ∈ s.tm.activeTransactions := (hc.active t).mpr ⟨txn, .running, hs, rfl⟩
    rw [AList.mem_insert]
    exact ⟨fun h => h.elim (fun h => h ▸ ht) id, .inr⟩
  | commitRead hs hr =>
    rw [commit_readOnly hr]
    exact hc.leave hs rfl rfl (by simp [(hc.ids _ _ _ hs).1]) rfl (by simp [readable])
  | commitRejected hs hw | prepareRejected hs hw | prepareAccepted hs hw | rollback hs hw =>
    exact hc.leave hs rfl rfl (by simp [(hc.ids _ _ _ hs).1]) rfl fun _ => hw
  | @commitAccepted t txn hs hw hv =>
    obtain ⟨hid, ht⟩ := hc.ids t txn _ hs
    refine hc.put hid ht le_rfl (fun u _ => Iff.rfl) ?_ fun _ => hw
    exact iff_of_true ((hc.active t).mpr ⟨txn, .running, hs, rfl⟩) rfl
  | commitEnd hs => exact hc.leave hs rfl rfl rfl rfl (by simp [readable])
  | durableFail hs => exact hc.stayOut hs rfl rfl rfl rfl fun _ => hc.writers _ _ _ hs rfl
  | finishCommit hs => exact hc.stayOut hs rfl rfl rfl rfl (by simp [readable])
  | setConcurrentWrites => exact hc.setTm rfl fun u => Iff.rfl

variable {as : List Action}

theorem coherent_of_run {b : Bool} (h : run step (new b) as = some s) : Coherent s :=
  run_keeps_all Coherent (fun _ _ _ hc hst => hc.step hst) h (new_coherent b)

theorem Coherent.run_keeps (hc : Coherent s) (Inv : TxnSystem → Prop)
    (hstep : ∀ s a s', Coherent s → Inv s → s.step a = some s' → Inv s')
    (h : Akar.run TxnSystem.step s as = some s') (h0 : Inv s) : Inv s' := by
  have hboth := run_keeps_all (fun s => Coherent s ∧ Inv s)
      (fun s a s' hi hst => ⟨hi.1.step hst, hstep s a s' hi.1 hi.2 hst⟩) h ⟨hc, h0⟩
  exact hboth.2

theorem Step.counters_le (h : Step s a s') :
    s'.tm.nextId ≤ s.tm.nextId + 1 ∧ s'.tm.nextCommitTs ≤ s.tm.nextCommitTs + 1 := by
  cases h with
  | admitWrite hs hadmit =>
    obtain ⟨-, rfl⟩ := acquireWrite_eq_some.mp hadmit
    exact ⟨Nat.le_succ _, Nat.le_succ _⟩
  | lockTable hs =>
    obtain ⟨locks, hlocks⟩ := lockTable_locks_only s.tm _ _
    rw [hlocks]
    exact ⟨Nat.le_succ _, Nat.le_succ _⟩
  | recordWrite hs hw =>
    unfold TransactionManager.recordWrite
    split <;> exact ⟨Nat.le_succ _, Nat.le_succ _⟩
  | commitRead hs hr =>
    rw [commit_readOnly hr]
    exact ⟨Nat.le_succ _, Nat.le_refl _⟩
  | beginRead | enterWrite => exact ⟨Nat.le_refl _, Nat.le_succ _⟩
  | commitAccepted | prepareAccepted => exact ⟨Nat.le_succ _, Nat.le_refl _⟩
  | commitRejected | commitEnd | prepareRejected | durableFail | finishCommit | rollback
  | setConcurrentWrites =>
    exact ⟨Nat.le_succ _, Nat.le_succ _⟩

/-- No run of fewer than `2 ^ 64 - 1` actions reaches the end of the source's `u64` counters. -/
theorem counters_le_of_run {b : Bool} (h : run step (new b) as = some s) :
    s.tm.nextId ≤ as.length + 1 ∧ s.tm.nextCommitTs ≤ as.length + 1 := by
  refine @run_keeps_history _ _ _ _ _ _ (fun (as : List Action) (s : TxnSystem) =>
    s.tm.nextId ≤ as.length + 1 ∧ s.tm.nextCommitTs ≤ as.length + 1) ?_
    h ⟨Nat.le_refl 1, Nat.le_refl 1⟩
  intro as s a s' hle hstep
  have hnext := (Step.of_step hstep).counters_le
  rw [List.length_append, List.length_singleton]
  omega

end Coherence

end TxnSystem

end Akar
