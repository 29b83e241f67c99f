import Akar.SnapshotVisibility

namespace Akar

open TxnSystem List TransactionManager AList

section WriteConflict

variable {s s' : TxnSystem} {a : Action} {t u : Nat} {row : Nat × Nat}

def actor (s : TxnSystem) : Action → Option Nat
  | .beginRead | .enterWrite => some s.tm.nextId
  | .admitWrite t | .lockTable t _ | .recordWrite t _ _ | .commitRead t | .commitStart t | .commitEnd t
  | .prepareCommit t | .durableFail t | .finishCommit t | .rollback t => some t
  | .setConcurrentWrites _ => none

/-- The part of the state that is a transaction's own: its session, its entry in the active map and
its registrations with the row tracker. -/
structure SameFor (t : Nat) (s s' : TxnSystem) : Prop where
  session : s'.sessions t = s.sessions t
  entry : s'.tm.activeTransactions.lookup t = s.tm.activeTransactions.lookup t
  writes : ∀ row, t ∈ s'.tm.activeWrites row ↔ t ∈ s.tm.activeWrites row

variable {tm : TransactionManager}

theorem SameFor.put {txn : Transaction} {phase : Phase} (hu : t ≠ u)
    (he : tm.activeTransactions.lookup t = s.tm.activeTransactions.lookup t)
    (hw : ∀ row, t ∈ tm.activeWrites row ↔ t ∈ s.tm.activeWrites row) :
      SameFor t s (s.put u tm txn phase) :=
  ⟨put_sessions_ne hu, he, hw⟩

theorem mem_clearTxnWrites (hu : t ≠ u) : t ∈ (tm.clearTxnWrites u).activeWrites row ↔
    t ∈ tm.activeWrites row := by
  simp [hu]

variable {tableId rowId : Nat}

theorem mem_registerWrite :
    t ∈ (tm.registerWrite tableId rowId u).activeWrites row ↔
      t ∈ tm.activeWrites row ∨ t = u ∧ row = (tableId, rowId) := by
  by_cases h : row = (tableId, rowId)
  · subst h
    simp [or_comm]
  · simp [h]

theorem sameFor_of_step (hc : Coherent s) (h : s.step a = some s') (ht : actor s a ≠ some t) :
    SameFor t s s' := by
  have hne {v : Nat} (hv : actor s a = some v) : t ≠ v := fun heq => ht (heq ▸ hv)
  have hid {v : Nat} {txn : Transaction} {phase : Phase} (hs : s.sessions v = some ⟨txn, phase⟩)
      (hv : actor s a = some v) : t ≠ txn.transactionId := fun heq =>
        hne hv (heq.trans (hc.ids v txn phase hs).1)
  cases Step.of_step h with
  | beginRead => exact .put (hne rfl) (lookup_insert_ne (hne rfl)) fun _ => Iff.rfl
  | enterWrite | commitAccepted | durableFail => exact .put (hne rfl) rfl fun _ => Iff.rfl
  | admitWrite hs hw =>
    obtain ⟨_, rfl⟩ := acquireWrite_eq_some.mp hw
    exact .put (hne rfl) (lookup_insert_ne (hid hs rfl)) fun _ => Iff.rfl
  | lockTable =>
    obtain ⟨locks, hl⟩ := s.tm.lockTable_locks_only _ _
    rw [hl]
    exact ⟨rfl, rfl, fun _ => Iff.rfl⟩
  | recordWrite hs =>
    obtain ⟨entry, he⟩ := hc.lookup_of_running hs
    rw [recordWrite_of_lookup he]
    refine ⟨rfl, lookup_insert_ne (hne rfl), fun row => ?_⟩
    exact mem_registerWrite.trans (by simp [hne rfl])
  | commitRead hs hr =>
    rw [commit_readOnly hr]
    exact .put (hne rfl) (lookup_erase_ne (hid hs rfl)) fun _ => Iff.rfl
  | commitRejected hs | prepareRejected hs | rollback hs =>
    exact .put (hne rfl) (lookup_erase_ne (hid hs rfl)) fun _ => mem_clearTxnWrites (hid hs rfl)
  | commitEnd => exact .put (hne rfl) (lookup_erase_ne (hne rfl)) fun _ => mem_clearTxnWrites (hne rfl)
  | prepareAccepted hs => exact .put (hne rfl) (lookup_erase_ne (hid hs rfl)) fun _ => Iff.rfl
  | finishCommit hs => exact .put (hne rfl) rfl fun _ => mem_clearTxnWrites (hid hs rfl)
  | setConcurrentWrites => exact ⟨rfl, rfl, fun _ => Iff.rfl⟩

structure Writing (s : TxnSystem) (t : Nat) (row : Nat × Nat) : Prop where
  session : ∃ txn, s.sessions t = some ⟨txn, .running⟩ ∧ txn.transactionType = .write
  entry : ∃ e, s.tm.activeTransactions.lookup t = some e ∧ row ∈ e.writtenRows
  tracked : t ∈ s.tm.activeWrites row

def accepted : Phase → Bool
  | .publishing | .prepared => true
  | _ => false

structure Accepted (s : TxnSystem) (t : Nat) (row : Nat × Nat) : Prop where
  session : ∃ ss, s.sessions t = some ss ∧ accepted ss.phase = true
  tracked : t ∈ s.tm.activeWrites row

def Doomed (s : TxnSystem) (t : Nat) : Prop := ∃ ss, s.sessions t = some ss ∧ doomed ss.phase = true

def Committed (s : TxnSystem) (t : Nat) : Prop := ∃ ss, s.sessions t = some ss ∧ ss.phase = .committed

theorem Doomed.later (hd : Doomed s t) (hl : Later s s') : Doomed s' t := by
  obtain ⟨ss, hs, hdoomed⟩ := hd
  obtain ⟨ss', hs', hon⟩ := hl.kept t ss hs
  exact ⟨ss', hs', hon.doomed hdoomed⟩

theorem Committed.later (hd : Committed s t) (hl : Later s s') : Committed s' t := by
  obtain ⟨ss, hs, hcom⟩ := hd
  exact ⟨ss, (hl.published t ss hs hcom).1, hcom⟩

theorem Writing.not_committed (hw : Writing s t row) : ¬Committed s t := by
  rintro ⟨ss, hs, hcom⟩
  obtain ⟨txn, hrun, _⟩ := hw.session
  rw [hrun] at hs
  cases hs
  cases hcom

theorem Doomed.not_committed (hd : Doomed s t) : ¬Committed s t := by
  rintro ⟨ss, hs, hcom⟩
  obtain ⟨ss', hs', hdoomed⟩ := hd
  rw [hs] at hs'
  cases hs'
  rw [hcom] at hdoomed
  cases hdoomed

theorem Writing.sameFor (hw : Writing s t row) (h : SameFor t s s') : Writing s' t row where
  session := h.session ▸ hw.session
  entry := h.entry ▸ hw.entry
  tracked := (h.writes row).mpr hw.tracked

theorem Accepted.sameFor (ha : Accepted s t row) (h : SameFor t s s') : Accepted s' t row where
  session := h.session ▸ ha.session
  tracked := (h.writes row).mpr ha.tracked

theorem conflictIn_ne_none {rows : List (Nat × Nat)} (hrow : row ∈ rows) (hu : u ∈ tm.activeWrites row)
    (hne : u ≠ t) : tm.conflictIn t rows ≠ none := by
  induction rows with
  | nil => cases hrow
  | cons r rows ih =>
    rw [TransactionManager.conflictIn]
    split
    next => exact Option.some_ne_none _
    next hnone =>
      rcases mem_cons.mp hrow with rfl | hrow
      · have := find?_eq_none.mp hnone u hu
        simp [hne] at this
      · exact ih hrow

theorem Writing.validate_ne_none (hw : Writing s t row) (hu : u ∈ s.tm.activeWrites row) (hne : u ≠ t) :
    s.tm.validateWriteSet t ≠ none := by
  obtain ⟨e, he, hrow⟩ := hw.entry
  rw [TransactionManager.validateWriteSet, he]
  have hnil := ne_nil_of_mem hrow
  simp only [hnil, if_false]
  exact conflictIn_ne_none hrow hu hne

theorem Writing.own_step (hc : Coherent s) (hw : Writing s t row) (h : s.step a = some s')
    (ha : actor s a = some t) :
    Writing s' t row ∨ Doomed s' t ∨ s.tm.validateWriteSet t = none ∧ Accepted s' t row := by
  obtain ⟨txn, hrun, hwrite⟩ := hw.session
  obtain ⟨e, he, hrow⟩ := hw.entry
  have hid := (hc.ids t txn _ hrun).1
  cases Step.of_step h with
  | beginRead | enterWrite => cases ha; rw [hc.fresh] at hrun; cases hrun
  | admitWrite hs | commitEnd hs | durableFail hs | finishCommit hs =>
    cases ha; rw [hrun] at hs; cases hs
  | lockTable =>
    obtain ⟨locks, hl⟩ := s.tm.lockTable_locks_only _ _
    rw [hl]
    exact .inl ⟨hw.session, hw.entry, hw.tracked⟩
  | recordWrite =>
    cases ha
    rw [recordWrite_of_lookup he]
    refine .inl ⟨hw.session, ⟨_, lookup_insert _, mem_append_left _ hrow⟩, ?_⟩
    exact mem_registerWrite.mpr (.inl hw.tracked)
  | commitRead hs hr => cases ha; rw [hrun] at hs; cases hs; rw [hwrite] at hr; cases hr
  | commitRejected hs | prepareRejected hs | rollback hs =>
    cases ha; exact .inr (.inl ⟨_, put_sessions_self, rfl⟩)
  | commitAccepted hs _ hv | prepareAccepted hs _ hv =>
    cases ha
    rw [hrun] at hs
    cases hs
    exact .inr (.inr ⟨hid ▸ hv, ⟨_, put_sessions_self, rfl⟩, hw.tracked⟩)
  | setConcurrentWrites => cases ha

theorem Writing.step (hc : Coherent s) (hw : Writing s t row) (h : s.step a = some s') :
    Writing s' t row ∨ Doomed s' t ∨ actor s a = some t ∧ s.tm.validateWriteSet t = none ∧
      Accepted s' t row := by
  by_cases ha : actor s a = some t
  · rcases hw.own_step hc h ha with h | h | h
    · exact .inl h
    · exact .inr (.inl h)
    · exact .inr (.inr ⟨ha, h⟩)
  · exact .inl (hw.sameFor (sameFor_of_step hc h ha))

theorem Accepted.step (hc : Coherent s) (hacc : Accepted s t row) (h : s.step a = some s') :
    Accepted s' t row ∨ Doomed s' t ∨ Committed s' t := by
  by_cases ha : actor s a = some t
  · obtain ⟨ss, hss, hph⟩ := hacc.session
    cases Step.of_step h with
    | beginRead | enterWrite => cases ha; rw [hc.fresh] at hss; cases hss
    | admitWrite hs | lockTable hs | recordWrite hs | commitRead hs | commitRejected hs
    | commitAccepted hs
    | prepareRejected hs | prepareAccepted hs => cases ha; rw [hss] at hs; cases hs; cases hph
    | commitEnd hs | finishCommit hs => cases ha; exact .inr (.inr ⟨_, put_sessions_self, rfl⟩)
    | durableFail hs | rollback hs => cases ha; exact .inr (.inl ⟨_, put_sessions_self, rfl⟩)
    | setConcurrentWrites => cases ha
  · exact .inl (hacc.sameFor (sameFor_of_step hc h ha))

/-- Everything that can have become of a transaction that once registered a write to `row`. -/
def Marked (s : TxnSystem) (t : Nat) (row : Nat × Nat) : Prop :=
  Writing s t row ∨ Accepted s t row ∨ Doomed s t ∨ Committed s t

theorem Marked.step (hc : Coherent s) (hm : Marked s t row) (h : s.step a = some s') :
    Marked s' t row := by
  have hl := later_of_step hc h
  rcases hm with hw | hacc | hd | hcom
  · rcases hw.step hc h with hw | hd | ⟨_, _, hacc⟩
    · exact .inl hw
    · exact .inr (.inr (.inl hd))
    · exact .inr (.inl hacc)
  · rcases hacc.step hc h with hacc | hd | hcom
    · exact .inr (.inl hacc)
    · exact .inr (.inr (.inl hd))
    · exact .inr (.inr (.inr hcom))
  · exact .inr (.inr (.inl (hd.later hl)))
  · exact .inr (.inr (.inr (hcom.later hl)))

theorem writing_of_recordWrite (hc : Coherent s) (h : s.step (.recordWrite t tableId rowId) = some s') :
    Writing s' t (tableId, rowId) := by
  cases Step.of_step h with
  | @recordWrite _ txn _ _ hs hw =>
    obtain ⟨e, he⟩ := hc.lookup_of_running hs
    rw [recordWrite_of_lookup he]
    exact ⟨⟨txn, hs, hw⟩, ⟨_, lookup_insert _, by simp⟩, mem_registerWrite.mpr (.inr ⟨rfl, rfl⟩)⟩

def Contending (s : TxnSystem) (t u : Nat) (row : Nat × Nat) : Prop :=
  Writing s t row ∧ Writing s u row ∨ Doomed s t ∨ Doomed s u

theorem Contending.not_both_committed (h : Contending s t u row) :
    ¬(Committed s t ∧ Committed s u) := by
  rintro ⟨ht, hu⟩
  rcases h with ⟨hw, _⟩ | hd | hd
  · exact hw.not_committed ht
  · exact hd.not_committed ht
  · exact hd.not_committed hu

theorem Contending.step (hc : Coherent s) (hne : t ≠ u) (hk : Contending s t u row)
    (h : s.step a = some s') : Contending s' t u row := by
  have hl := later_of_step hc h
  rcases hk with ⟨hwt, hwu⟩ | hd | hd
  · rcases hwt.step hc h with ht | ht | ⟨_, hv, _⟩
    · rcases hwu.step hc h with hu | hu | ⟨_, hv, _⟩
      · exact .inl ⟨ht, hu⟩
      · exact .inr (.inr hu)
      · exact absurd hv (hwu.validate_ne_none hwt.tracked hne)
    · exact .inr (.inl ht)
    · exact absurd hv (hwt.validate_ne_none hwu.tracked hne.symm)
  · exact .inr (.inl (hd.later hl))
  · exact .inr (.inr (hd.later hl))

/-- No write is registered on a row while another transaction registered on it is past its
validation. -/
def NoLateWrite (s : TxnSystem) : Action → Prop
  | .recordWrite t tableId rowId => ∀ u ∈ s.tm.activeWrites (tableId, rowId), u ≠ t →
      (s.sessions u).any (accepted ·.phase) = false
  | _ => True

instance : DecidablePred (NoLateWrite s)
  | .recordWrite t tableId rowId =>
    inferInstanceAs (Decidable (∀ u ∈ s.tm.activeWrites (tableId, rowId), u ≠ t →
      (s.sessions u).any (accepted ·.phase) = false))
  | .beginRead | .enterWrite | .admitWrite _ | .lockTable .. | .commitRead _ | .commitStart _
  | .commitEnd _
  | .prepareCommit _ | .durableFail _ | .finishCommit _ | .rollback _ | .setConcurrentWrites _ =>
    .isTrue trivial

theorem not_both_committed_of_order {b : Bool} {pre mid post : List Action} {sU : TxnSystem}
    (hne : t ≠ u)
    (h : run step (new b) (pre ++ .recordWrite t tableId rowId :: mid ++
      .recordWrite u tableId rowId :: post) = some s)
    (hU : run step (new b) (pre ++ .recordWrite t tableId rowId :: mid) = some sU)
    (hlate : NoLateWrite sU (.recordWrite u tableId rowId)) (hopen : ¬Committed sU t) :
    ¬(Committed s t ∧ Committed s u) := by
  obtain ⟨sT, sT', hT, hstepT, hmid⟩ := run_split hU
  obtain ⟨_, sU', hU', hstepU, hpost⟩ := run_split h
  rw [hU] at hU'
  cases hU'
  have hcT := (coherent_of_run hT).step hstepT
  have hcU := coherent_of_run hU
  have hmark :=
    hcT.run_keeps (Marked · t (tableId, rowId)) (fun _ _ _ hc hmark hst => hmark.step hc hst) hmid
      (.inl (writing_of_recordWrite (coherent_of_run hT) hstepT))
  have hother : actor sU (.recordWrite u tableId rowId) ≠ some t :=
    fun he => hne (Option.some.inj he).symm
  have hk : Contending sU' t u (tableId, rowId) := by
    rcases hmark with hw | hacc | hd | hcom
    · exact .inl ⟨hw.sameFor (sameFor_of_step hcU hstepU hother), writing_of_recordWrite hcU hstepU⟩
    · obtain ⟨ss, hss, hph⟩ := hacc.session
      have hno := hlate t hacc.tracked hne
      rw [hss] at hno
      exact absurd hph (by simpa using hno)
    · exact .inr (.inl (hd.later (later_of_step hcU hstepU)))
    · exact absurd hcom hopen
  have hend : Contending s t u (tableId, rowId) :=
    (hcU.step hstepU).run_keeps (Contending · t u (tableId, rowId)) (fun _ _ _ hc hk hst =>
      hk.step hc hne hst)
      hpost hk
  exact hend.not_both_committed

/-- In a run without late writes no two transactions that registered a write to the same row, each
before the other had committed, are both committed. -/
theorem no_lost_update {b : Bool} {as pre₁ post₁ pre₂ post₂ : List Action} {t₁ t₂ tableId rowId : Nat}
    {s₁ s₂ s : TxnSystem} (h : run step (new b) as = some s) (hm : Meets step NoLateWrite (new b) as)
    (hne : t₁ ≠ t₂) (h₁ : as = pre₁ ++ .recordWrite t₁ tableId rowId :: post₁)
    (h₂ : as = pre₂ ++ .recordWrite t₂ tableId rowId :: post₂)
    (hs₁ : run step (new b) pre₁ = some s₁) (hs₂ : run step (new b) pre₂ = some s₂)
    (hopen₂ : ¬Committed s₁ t₂) (hopen₁ : ¬Committed s₂ t₁) : ¬(Committed s t₁ ∧ Committed s t₂) := by
  have hlate := (meets_iff_forall_step h).mp hm
  have hboth := h₁.symm.trans h₂
  obtain ⟨mid, hpre, hrest⟩ | ⟨mid, hpre, hrest⟩ := append_eq_append_iff.mp hboth
  · cases mid with
    | nil => exact absurd (Action.recordWrite.inj (cons.inj hrest).1).1 hne
    | cons =>
      obtain ⟨rfl, rfl⟩ := cons.inj hrest
      subst hpre
      exact not_both_committed_of_order hne (h₂ ▸ h) hs₂ (hlate _ _ _ _ h₂ hs₂) hopen₁
  · cases mid with
    | nil => exact absurd (Action.recordWrite.inj (cons.inj hrest).1).1.symm hne
    | cons =>
      obtain ⟨rfl, rfl⟩ := cons.inj hrest
      subst hpre
      rw [and_comm]
      exact not_both_committed_of_order hne.symm (h₁ ▸ h) hs₁ (hlate _ _ _ _ h₁ hs₁) hopen₂

theorem no_lost_update_two_writers :
    ∃ s, run step (new true) [.enterWrite, .admitWrite 1, .enterWrite, .admitWrite 2,
      .recordWrite 1 0 0,
        .recordWrite 2 0 0, .prepareCommit 1, .rollback 1, .prepareCommit 2, .finishCommit 2] = some s ∧
      Committed s 2 ∧ ¬(Committed s 1 ∧ Committed s 2) := by
  refine ⟨_, rfl, ⟨_, rfl, rfl⟩, ?_⟩
  refine @no_lost_update true _ [.enterWrite, .admitWrite 1, .enterWrite, .admitWrite 2]
    [.recordWrite 2 0 0, .prepareCommit 1, .rollback 1, .prepareCommit 2, .finishCommit 2]
    [.enterWrite, .admitWrite 1, .enterWrite, .admitWrite 2, .recordWrite 1 0 0]
    [.prepareCommit 1, .rollback 1, .prepareCommit 2, .finishCommit 2] 1 2 0 0 _ _ _ rfl
    (meets_of_check (by decide)) (by decide)
    rfl rfl rfl rfl ?_ ?_
  · rintro ⟨ss, hs, hcom⟩; cases hs; cases hcom
  · rintro ⟨ss, hs, hcom⟩; cases hs; cases hcom

/-- The second writer registers while the first is between its two commit phases: both commit. -/
theorem lost_update_between_phases :
    ∃ s, run step (new true) [.enterWrite, .admitWrite 1, .enterWrite, .admitWrite 2,
      .recordWrite 1 0 0,
        .prepareCommit 1, .recordWrite 2 0 0, .finishCommit 1, .prepareCommit 2, .finishCommit 2] =
          some s ∧
      Committed s 1 ∧ Committed s 2 :=
  ⟨_, rfl, ⟨_, rfl, rfl⟩, ⟨_, rfl, rfl⟩⟩

end WriteConflict

end Akar
