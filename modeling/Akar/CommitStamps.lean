import Akar.SnapshotVisibility

namespace Akar

open TxnSystem Function TransactionManager

variable {s s' : TxnSystem} {a : Action} {t w ts : Nat} {txn : Transaction} {phase : Phase}
    {tm : TransactionManager}

def stampOf (s : TxnSystem) (t : Nat) : Option Nat := (s.sessions t).bind (·.txn.commitTs)

theorem stampOf_eq {ss : Session} (h : s.sessions t = some ss) : stampOf s t = ss.txn.commitTs := by
  rw [stampOf, h]
  rfl

theorem stampOf_put : stampOf (s.put t tm txn phase) = update (stampOf s) t txn.commitTs := by
  funext u
  by_cases hu : u = t
  · rw [hu, update_self]
    exact stampOf_eq put_sessions_self
  · rw [update_of_ne hu, stampOf, put_sessions_ne hu]
    rfl

theorem stampOf_put_same (h : stampOf s t = txn.commitTs) : stampOf (s.put t tm txn phase) =
    stampOf s := by
  rw [stampOf_put, ← h, update_eq_self]

/-- Assigned timestamps are below the counter, and no two transactions have the same. -/
def StampsUnique (s : TxnSystem) : Prop :=
  ∀ t ts, stampOf s t = some ts → ts < s.tm.nextCommitTs ∧ ∀ u, stampOf s u = some ts → u = t

/-- A step assigns no timestamp, or the next one to one transaction. -/
theorem stampOf_step (hc : Coherent s) (h : s.step a = some s') :
    stampOf s' = stampOf s ∧ s'.tm.nextCommitTs = s.tm.nextCommitTs ∨
      ∃ t, stampOf s' = update (stampOf s) t (some s.tm.nextCommitTs) ∧ s'.tm.nextCommitTs =
        s.tm.nextCommitTs + 1 := by
  have hfresh : stampOf s s.tm.nextId = none := by rw [stampOf, hc.fresh]; rfl
  cases Step.of_step h with
  | beginRead | enterWrite => exact .inl ⟨stampOf_put_same hfresh, rfl⟩
  | admitWrite hs hw =>
    obtain ⟨_, rfl⟩ := acquireWrite_eq_some.mp hw
    exact .inl ⟨stampOf_put_same (stampOf_eq hs), rfl⟩
  | lockTable =>
    obtain ⟨locks, hl⟩ := s.tm.lockTable_locks_only _ _
    rw [hl]
    exact .inl ⟨rfl, rfl⟩
  | recordWrite hs =>
    obtain ⟨entry, he⟩ := hc.lookup_of_running hs
    rw [recordWrite_of_lookup he]
    exact .inl ⟨rfl, rfl⟩
  | commitRead hs hr =>
    rw [commit_readOnly hr]
    exact .inr ⟨_, stampOf_put, rfl⟩
  | commitAccepted | prepareAccepted => exact .inr ⟨_, stampOf_put, rfl⟩
  | commitRejected hs | commitEnd hs | prepareRejected hs | durableFail hs | finishCommit hs
  | rollback hs =>
    exact .inl ⟨stampOf_put_same (stampOf_eq hs), rfl⟩
  | setConcurrentWrites => exact .inl ⟨rfl, rfl⟩

theorem StampsUnique.step (hi : StampsUnique s) (hc : Coherent s) (h : s.step a = some s') :
    StampsUnique s' := by
  unfold StampsUnique
  obtain ⟨hsame, hnext⟩ | ⟨t, hset, hnext⟩ := stampOf_step hc h
  · rw [hsame, hnext]
    exact hi
  · rw [hset, hnext]
    intro u ts hu
    rcases update_some_eq_some hu with ⟨rfl, rfl⟩ | ⟨_, hu⟩
    · refine ⟨Nat.lt_succ_self _, fun v hv => ?_⟩
      rcases update_some_eq_some hv with ⟨rfl, _⟩ | ⟨_, hv⟩
      · rfl
      · exact absurd (hi v _ hv).1 (lt_irrefl _)
    · obtain ⟨hlt, honly⟩ := hi u ts hu
      refine ⟨Nat.lt_succ_of_lt hlt, fun v hv => ?_⟩
      rcases update_some_eq_some hv with ⟨rfl, rfl⟩ | ⟨_, hv⟩
      · exact absurd hlt (lt_irrefl _)
      · exact honly v hv

/-- No two transactions of a run are committed under one timestamp. -/
theorem commit_timestamps_unique {b : Bool} {as : List Action} (h : run step (new b) as = some s) :
    StampsUnique s :=
  (new_coherent b).run_keeps StampsUnique (fun _ _ _ hc hi hst => hi.step hc hst) h fun t ts h =>
    by cases h

theorem commit_timestamps_unique_two : ∃ s,
    run step (new true) [.enterWrite, .admitWrite 1, .beginRead, .commitStart 1, .commitRead 2] =
    some s ∧ stampOf s 1 = some 1 ∧ StampsUnique s :=
  ⟨_, rfl, rfl, @commit_timestamps_unique _ true [.enterWrite, .admitWrite 1, .beginRead,
    .commitStart 1, .commitRead 2] rfl⟩

/-- Published commits are of committed transactions, with timestamps below the counter. -/
structure Published (s : TxnSystem) : Prop where
  stamps : StampsUnique s
  next : 0 < s.tm.nextCommitTs
  history : ∀ w ts, s.tm.commitHistory w = some ts →
    ts < s.tm.nextCommitTs ∧ ∃ ss, s.sessions w = some ss ∧ ss.phase = .committed

theorem history_step (hc : Coherent s) (h : s.step a = some s') (hw : s'.tm.commitHistory w = some ts) :
    s.tm.commitHistory w = some ts ∨
      ts = (stampOf s w).getD 0 ∧ ∃ ss, s'.sessions w = some ss ∧ ss.phase = .committed := by
  cases Step.of_step h with
  | admitWrite hs hadmit =>
    obtain ⟨_, rfl⟩ := acquireWrite_eq_some.mp hadmit
    exact .inl hw
  | lockTable =>
    obtain ⟨locks, hl⟩ := s.tm.lockTable_locks_only _ _
    rw [hl] at hw
    exact .inl hw
  | recordWrite hs =>
    obtain ⟨entry, he⟩ := hc.lookup_of_running hs
    rw [recordWrite_of_lookup he] at hw
    exact .inl hw
  | commitRead hs hr =>
    rw [commit_readOnly hr] at hw
    exact .inl hw
  | commitEnd hs | finishCommit hs =>
    simp only [put_tm, commitEnd_commitHistory, finishCommit_commitHistory, (hc.ids _ _ _ hs).1] at hw
    rcases update_some_eq_some hw with ⟨rfl, rfl⟩ | ⟨_, hw⟩
    · exact .inr ⟨by rw [stampOf_eq hs], _, put_sessions_self, rfl⟩
    · exact .inl hw
  | beginRead | enterWrite | commitRejected | commitAccepted | prepareRejected | prepareAccepted
  | durableFail |
    rollback | setConcurrentWrites => exact .inl hw

theorem Published.step (hp : Published s) (hc : Coherent s) (h : s.step a = some s') :
    Published s' := by
  have hle : s.tm.nextCommitTs ≤ s'.tm.nextCommitTs := by
    rcases stampOf_step hc h with ⟨_, hn⟩ | ⟨_, _, hn⟩ <;> omega
  refine ⟨hp.stamps.step hc h, hp.next.trans_le hle, fun w ts hw => ?_⟩
  rcases history_step hc h hw with hold | ⟨rfl, hss⟩
  · obtain ⟨hts, ss, hss, hphase⟩ := hp.history w ts hold
    exact ⟨hts.trans_le hle, ss, ((later_of_step hc h).published w ss hss hphase).1, hphase⟩
  · refine ⟨lt_of_lt_of_le ?_ hle, hss⟩
    cases hst : stampOf s w with
    | none => exact hp.next
    | some ts => exact (hp.stamps w ts hst).1

/-- A transaction that begins once a commit is published sees it, then and for ever. -/
theorem published_seen_by_later_begins {b : Bool} {pre post : List Action} {beg : Action}
    {sR : TxnSystem}
    (hbeg : beg = .beginRead ∨ beg = .enterWrite) (hR : run step (new b) pre = some sR)
    (hw : sR.tm.commitHistory w = some ts) (h : run step (new b) (pre ++ beg :: post) = some s) :
    ∃ snapshot, (s.sessions sR.tm.nextId).bind (·.txn.snapshotTs) = some snapshot ∧
      s.tm.isVisible w snapshot = true := by
  have hp : Published sR :=
    (new_coherent b).run_keeps Published (fun _ _ _ hc hp hst => hp.step hc hst) hR
    ⟨fun _ _ h => (by cases h), Nat.one_pos, fun _ _ h => (by cases h)⟩
  obtain ⟨hts, ssW, hssW, hphase⟩ := hp.history w ts hw
  have hc := coherent_of_run hR
  obtain ⟨s₁, hs₁, hrest⟩ := run_append_eq_some.mp h
  rw [hR] at hs₁
  cases hs₁
  obtain ⟨s₂, hstep, hpost⟩ := run_cons_eq_some.mp hrest
  obtain ⟨ss, hss, hsnap⟩ := snapshot_of_begin hbeg hstep
  obtain ⟨ss', hss', hon⟩ := (later_of_run (hc.step hstep) hpost).kept _ ss hss
  have hhist := ((later_of_run hc hrest).published w ssW hssW hphase).2
  refine ⟨sR.tm.nextCommitTs, ?_, ?_⟩
  · rw [hss', Option.bind_some, hon.snapshot, hsnap]
  · simp [isVisible, hhist, hw, hts.le]

theorem published_seen_by_later_begins_reader : ∃ s snapshot,
    run step (new true) ([.enterWrite, .admitWrite 1, .commitStart 1, .commitEnd 1] ++
      .beginRead :: []) = some s ∧
      (s.sessions 2).bind (·.txn.snapshotTs) = some snapshot ∧ s.tm.isVisible 1 snapshot = true := by
  obtain ⟨snapshot, hseen⟩ := @published_seen_by_later_begins _ 1 1 true
    [.enterWrite, .admitWrite 1, .commitStart 1, .commitEnd 1] [] .beginRead _ (.inl rfl) rfl rfl rfl
  exact ⟨_, snapshot, rfl, hseen⟩

end Akar
