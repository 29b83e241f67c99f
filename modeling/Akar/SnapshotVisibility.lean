import Akar.TransactionRuns

namespace Akar

open TxnSystem Function TransactionManager

section SnapshotVisibility

variable {s s' u : TxnSystem} {a : Action} {t w : Nat} {txn : Transaction} {phase : Phase}

def stamped : Phase → Bool
  | .waiting _ | .running => false
  | _ => true

def doomed : Phase → Bool
  | .refused | .failed | .rolledBack => true
  | _ => false

/-- One session's progress: its snapshot is fixed, a decided commit timestamp too, and a lost commit
stays lost. -/
structure Session.Onward (ss ss' : Session) : Prop where
  snapshot : ss'.txn.snapshotTs = ss.txn.snapshotTs
  stamped : stamped ss.phase = true → stamped ss'.phase = true ∧ ss'.txn.commitTs = ss.txn.commitTs
  doomed : doomed ss.phase = true → doomed ss'.phase = true

theorem Session.Onward.refl (ss : Session) : ss.Onward ss := ⟨rfl, fun h => ⟨h, rfl⟩, id⟩

theorem Session.Onward.trans {ss₁ ss₂ ss₃ : Session} (h₁ : ss₁.Onward ss₂) (h₂ : ss₂.Onward ss₃) :
    ss₁.Onward ss₃ where
  snapshot := h₂.snapshot.trans h₁.snapshot
  stamped := fun hst =>
    ⟨(h₂.stamped (h₁.stamped hst).1).1, (h₂.stamped (h₁.stamped hst).1).2.trans (h₁.stamped hst).2⟩
  doomed := fun hd => h₂.doomed (h₁.doomed hd)

/-- What no later step takes back in any session, and that published commits stay as they are. -/
structure Later (s s' : TxnSystem) : Prop where
  kept : ∀ t ss, s.sessions t = some ss → ∃ ss', s'.sessions t = some ss' ∧ ss.Onward ss'
  published : ∀ t ss, s.sessions t = some ss → ss.phase = .committed →
    s'.sessions t = some ss ∧ s'.tm.commitHistory t = s.tm.commitHistory t

theorem Later.refl (s : TxnSystem) : Later s s :=
  ⟨fun _ ss hs => ⟨ss, hs, .refl ss⟩, fun _ _ hs _ => ⟨hs, rfl⟩⟩

theorem Later.trans (h₁ : Later s s') (h₂ : Later s' u) : Later s u where
  kept := by
    intro t ss hs
    obtain ⟨ss₁, hs₁, ho₁⟩ := h₁.kept t ss hs
    obtain ⟨ss₂, hs₂, ho₂⟩ := h₂.kept t ss₁ hs₁
    exact ⟨ss₂, hs₂, ho₁.trans ho₂⟩
  published := by
    intro t ss hs hp
    obtain ⟨hs₁, hh₁⟩ := h₁.published t ss hs hp
    obtain ⟨hs₂, hh₂⟩ := h₂.published t ss hs₁ hp
    exact ⟨hs₂, hh₂.trans hh₁⟩

variable {tm : TransactionManager}

theorem Later.put (hh : ∀ v, v ≠ t → tm.commitHistory v = s.tm.commitHistory v)
    (hself : ∀ ss, s.sessions t = some ss → ss.phase ≠ .committed ∧ ss.Onward ⟨txn, phase⟩) :
    Later s (s.put t tm txn phase) where
  kept := by
    intro v ss hs
    by_cases hv : v = t
    · subst hv
      exact ⟨_, put_sessions_self, (hself ss hs).2⟩
    · exact ⟨ss, by rw [put_sessions_ne hv, hs], .refl ss⟩
  published := by
    intro v ss hs hp
    by_cases hv : v = t
    · subst hv; exact absurd hp (hself ss hs).1
    · exact ⟨by rw [put_sessions_ne hv, hs], hh v hv⟩

theorem Later.setTm (hh : tm.commitHistory = s.tm.commitHistory) : Later s { s with tm := tm } :=
  ⟨fun _ ss hs => ⟨ss, hs, .refl ss⟩, fun t _ hs _ => ⟨hs, congrFun hh t⟩⟩

theorem TxnSystem.Coherent.fresh (hc : Coherent s) : s.sessions s.tm.nextId = none := by
  cases h : s.sessions s.tm.nextId with
  | none => rfl
  | some ss => exact absurd (hc.ids _ ss.txn ss.phase h).2 (lt_irrefl _)

theorem later_of_step (hc : Coherent s) (h : s.step a = some s') : Later s s' := by
  -- the acting session `hs` is the one a `put` replaces
  have hold {t : Nat} {old : Session} (hs : s.sessions t = some old) {P : Session → Prop} (hp : P old) :
      ∀ ss, s.sessions t = some ss → P ss := by
    intro ss h'
    rw [hs] at h'
    cases h'
    exact hp
  cases Step.of_step h with
  | beginRead | enterWrite =>
    exact Later.put (fun _ _ => rfl) fun ss hs => by rw [hc.fresh] at hs; cases hs
  | admitWrite hs hw =>
    obtain ⟨_, rfl⟩ := acquireWrite_eq_some.mp hw
    exact Later.put (fun _ _ => rfl) (hold hs ⟨nofun, rfl, nofun, nofun⟩)
  | lockTable =>
    obtain ⟨locks, hl⟩ := s.tm.lockTable_locks_only _ _
    rw [hl]
    exact Later.setTm rfl
  | recordWrite hs =>
    obtain ⟨entry, he⟩ := hc.lookup_of_running hs
    rw [recordWrite_of_lookup he]
    exact Later.setTm rfl
  | commitRead hs hr =>
    rw [commit_readOnly hr]
    exact Later.put (fun _ _ => rfl) (hold hs ⟨nofun, rfl, nofun, nofun⟩)
  | commitRejected hs | commitAccepted hs | prepareRejected hs | prepareAccepted hs =>
    exact Later.put (fun _ _ => rfl) (hold hs ⟨nofun, rfl, nofun, nofun⟩)
  | commitEnd hs =>
    refine Later.put (fun v hv => ?_) (hold hs ⟨nofun, rfl, fun _ => ⟨rfl, rfl⟩, nofun⟩)
    rw [commitEnd_commitHistory, update_of_ne hv]
  | durableFail hs =>
    exact Later.put (fun _ _ => rfl) (hold hs ⟨nofun, rfl, fun _ => ⟨rfl, rfl⟩, nofun⟩)
  | @finishCommit t txn hs =>
    refine Later.put (fun v hv => ?_) (hold hs ⟨nofun, rfl, fun _ => ⟨rfl, rfl⟩, nofun⟩)
    rw [finishCommit_commitHistory, (hc.ids t txn _ hs).1, update_of_ne hv]
  | @rollback t txn phase hs hw hr =>
    refine Later.put (fun _ _ => rfl) (hold hs ⟨?_, rfl, fun _ => ⟨rfl, rfl⟩, fun _ => rfl⟩)
    rintro rfl
    cases hr
  | setConcurrentWrites => exact Later.setTm rfl

theorem later_of_run {as : List Action} (hc : Coherent s) (h : run step s as = some s') : Later s s' :=
  run_relates Later.refl (fun _ _ _ => Later.trans)
    (fun _ _ _ hc hst => ⟨Coherent.step hc hst, later_of_step hc hst⟩) h hc

theorem decided_of_step (ha : a = .prepareCommit w ∨ a = .commitStart w) (h : s.step a = some s') :
    (∃ txn, s.sessions w = some ⟨txn, .running⟩) ∧ ∃ ss, s'.sessions w = some ss ∧
      (doomed ss.phase = true ∨ stamped ss.phase = true ∧ ss.txn.commitTs =
        some s.tm.nextCommitTs) := by
  rcases ha with rfl | rfl
  · cases Step.of_step h with
    | prepareRejected hs => exact ⟨⟨_, hs⟩, _, put_sessions_self, .inl rfl⟩
    | prepareAccepted hs => exact ⟨⟨_, hs⟩, _, put_sessions_self, .inr ⟨rfl, rfl⟩⟩
  · cases Step.of_step h with
    | commitRejected hs => exact ⟨⟨_, hs⟩, _, put_sessions_self, .inl rfl⟩
    | commitAccepted hs => exact ⟨⟨_, hs⟩, _, put_sessions_self, .inr ⟨rfl, rfl⟩⟩

theorem published_of_step (hc : Coherent s) (ha : a = .finishCommit w ∨ a = .commitEnd w)
    (h : s.step a = some s') :
    ∃ ss, s.sessions w = some ss ∧ doomed ss.phase = false ∧ (∃ ss', s'.sessions w = some ss' ∧
      ss'.phase = .committed) ∧ s'.tm.commitHistory w = some (ss.txn.commitTs.getD 0) := by
  rcases ha with rfl | rfl
  · cases Step.of_step h with
    | @finishCommit _ txn hs =>
      refine ⟨_, hs, rfl, ⟨_, put_sessions_self, rfl⟩, ?_⟩
      rw [put_tm, finishCommit_commitHistory, (hc.ids w txn _ hs).1, update_self]
  · cases Step.of_step h with
    | commitEnd hs =>
      refine ⟨_, hs, rfl, ⟨_, put_sessions_self, rfl⟩, ?_⟩
      rw [put_tm, commitEnd_commitHistory, update_self]

theorem snapshot_of_begin (ha : a = .beginRead ∨ a = .enterWrite) (h : s.step a = some s') :
    ∃ ss, s'.sessions s.tm.nextId = some ss ∧ ss.txn.snapshotTs = some s.tm.nextCommitTs := by
  rcases ha with rfl | rfl
  · cases Step.of_step h with
    | beginRead => exact ⟨_, put_sessions_self, rfl⟩
  · cases Step.of_step h with
    | enterWrite => exact ⟨_, put_sessions_self, rfl⟩

theorem published_ts_of_run {b : Bool} {preP postP preF postF : List Action} {asg fin : Action}
    {sP s : TxnSystem}
    (hasg : asg = .prepareCommit w ∨ asg = .commitStart w)
    (hfin : fin = .finishCommit w ∨ fin = .commitEnd w)
    (hP : run step (new b) preP = some sP) (hsplit : preP ++ asg :: postP = preF ++ fin :: postF)
    (h : run step (new b) (preF ++ fin :: postF) = some s) :
    s.tm.commitHistory w = some sP.tm.nextCommitTs := by
  obtain ⟨sF, sF', hF, hfinStep, hlater⟩ := run_split h
  have hcF := coherent_of_run hF
  obtain ⟨ss, hss, hnd, ⟨ss', hss', hcommitted⟩, hhist⟩ := published_of_step hcF hfin hfinStep
  have hkeep := ((later_of_run (hcF.step hfinStep) hlater).published w ss' hss' hcommitted).2
  have hne : asg ≠ fin := by rcases hasg with rfl | rfl <;> rcases hfin with rfl | rfl <;> nofun
  rw [hkeep, hhist]
  obtain ⟨mid, hpre, hrest⟩ | ⟨mid, hpre, hrest⟩ := List.append_eq_append_iff.mp hsplit
  · -- the decision precedes the publication
    cases mid with
    | nil => exact absurd (List.cons.inj hrest).1 hne
    | cons =>
      obtain ⟨rfl, _⟩ := List.cons.inj hrest
      obtain ⟨_, sP', hP', hstep, hmid⟩ := run_split (hpre ▸ hF)
      rw [hP] at hP'
      cases hP'
      obtain ⟨_, ssP, hssP, hdec⟩ := decided_of_step hasg hstep
      have hc' := (coherent_of_run hP).step hstep
      obtain ⟨ssF, hssF, hon⟩ := (later_of_run hc' hmid).kept w ssP hssP
      rw [hss] at hssF
      cases hssF
      obtain hd | ⟨hst, hts⟩ := hdec
      · rw [hon.doomed hd] at hnd; cases hnd
      · rw [(hon.stamped hst).2, hts]; rfl
  · -- a decision after the publication would start from a committed transaction
    cases mid with
    | nil => exact absurd (List.cons.inj hrest).1.symm hne
    | cons =>
      obtain ⟨rfl, _⟩ := List.cons.inj hrest
      obtain ⟨_, sF'', hF', hstep, hmid⟩ := run_split (hpre ▸ hP)
      rw [hF] at hF'
      cases hF'
      rw [hfinStep] at hstep
      cases hstep
      have hw := ((later_of_run (hcF.step hfinStep) hmid).published w ss' hss' hcommitted).1
      obtain ⟨_, hdecStep⟩ : ∃ s', sP.step asg = some s' := by
        obtain ⟨t, t', ht, ht', _⟩ :=
          run_split (hsplit ▸ h : run step (new b) (preP ++ asg :: postP) = some s)
        rw [hP] at ht
        cases ht
        exact ⟨t', ht'⟩
      obtain ⟨⟨txn, hrun⟩, _⟩ := decided_of_step hasg hdecStep
      rw [hrun] at hw
      cases hw
      cases hcommitted

/-- `W` publishes after `R` has begun. From then on `W` is invisible at `R`'s snapshot exactly when
the counter had moved past the value `R` read by the time `W` was given its timestamp. -/
theorem invisible_after_begin_iff {b : Bool} {preR mid post preP postP : List Action}
    {beg asg fin : Action} {sR sP s : TxnSystem} (hbeg : beg = .beginRead ∨ beg = .enterWrite)
    (hasg : asg = .prepareCommit w ∨ asg = .commitStart w)
    (hfin : fin = .finishCommit w ∨ fin = .commitEnd w)
    (hR : run step (new b) preR = some sR) (hP : run step (new b) preP = some sP)
    (hsplit : preP ++ asg :: postP = preR ++ beg :: mid ++ fin :: post)
    (h : run step (new b) (preR ++ beg :: mid ++ fin :: post) = some s) :
    ∃ ts, (s.sessions sR.tm.nextId).bind (·.txn.snapshotTs) = some ts ∧
      (s.tm.isVisible w ts = false ↔ sR.tm.nextCommitTs < sP.tm.nextCommitTs) := by
  have hhist := published_ts_of_run hasg hfin hP hsplit h
  rw [List.append_assoc] at h
  obtain ⟨_, sR', hR', hstep, hrest⟩ := run_split h
  rw [hR] at hR'
  cases hR'
  obtain ⟨ss, hss, hsnap⟩ := snapshot_of_begin hbeg hstep
  obtain ⟨ss', hss', hon⟩ := (later_of_run ((coherent_of_run hR).step hstep) hrest).kept _ ss hss
  refine ⟨sR.tm.nextCommitTs, ?_, by simp [TransactionManager.isVisible, hhist]⟩
  rw [hss', Option.bind_some, hon.snapshot, hsnap]

theorem invisible_behind_other_commit :
    ∃ s ts, run step (new true) ([.enterWrite, .admitWrite 1, .enterWrite, .admitWrite 2] ++
      .beginRead ::
        [.commitStart 1, .commitEnd 1, .prepareCommit 2] ++ .finishCommit 2 :: []) = some s ∧
      (s.sessions 3).bind (·.txn.snapshotTs) = some ts ∧ s.tm.isVisible 2 ts = false := by
  obtain ⟨ts, hts, hiff⟩ := @invisible_after_begin_iff 2 true
    [.enterWrite, .admitWrite 1, .enterWrite, .admitWrite 2] [.commitStart 1, .commitEnd 1,
      .prepareCommit 2] []
    [.enterWrite, .admitWrite 1, .enterWrite, .admitWrite 2, .beginRead, .commitStart 1, .commitEnd 1]
    [.finishCommit 2] _ _ _ _ _ _ (.inl rfl) (.inl rfl) (.inl rfl) rfl rfl rfl rfl
  exact ⟨_, ts, rfl, hts, hiff.mpr (by decide)⟩

/-- The first commit after a begin gets exactly the timestamp the begin read, and is visible to
it. -/
theorem visible_first_commit_after_begin :
    ∃ s, run step (new true) [.enterWrite, .admitWrite 1, .beginRead, .commitStart 1,
      .commitEnd 1] = some s ∧
      (s.sessions 2).bind (·.txn.snapshotTs) = some 1 ∧ s.tm.isVisible 1 1 = true :=
  ⟨_, rfl, rfl, by decide⟩

end SnapshotVisibility

end Akar
