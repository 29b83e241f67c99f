import Akar.TransactionRuns

namespace Akar

open TxnSystem List TransactionManager

namespace TransactionManager

def numActive (tm : TransactionManager) : Nat := tm.activeTransactions.keys.length

variable {m : AList fun _ : Nat => Transaction} {t : Nat}

theorem numActive_insert {txn : Transaction} (h : t ∉ m) : (m.insert t txn).keys.length =
    m.keys.length + 1 := by
  rw [AList.keys_insert, erase_of_not_mem (AList.mem_keys.not.mp h), length_cons]

theorem numActive_erase (h : t ∈ m) : (m.erase t).keys.length + 1 = m.keys.length := by
  rw [AList.keys_erase, length_erase_add_one (AList.mem_keys.mp h)]

theorem waitUntilAllLeave_of_zero {load : Nat → Nat} {polls i j : Nat} (hj : j ≤ polls)
    (h : load (i + j) = 0) : waitUntilAllLeave load polls i = true := by
  induction polls generalizing i j with
  | zero =>
    obtain rfl := Nat.le_zero.mp hj
    simpa [waitUntilAllLeave] using h
  | succ polls ih =>
    simp only [waitUntilAllLeave]
    split
    next => rfl
    next hi =>
      cases j with
      | zero => exact absurd h hi
      | succ => exact ih (Nat.le_of_succ_le_succ hj) (by rw [← h]; congr 1; omega)

end TransactionManager

section ActiveCount

variable {s s' : TxnSystem} {a : Action}

/-- The counter stays right across `a`: a begin finds room below the counter's width, and a rollback
finds its transaction still in the active map. -/
def Accounted (s : TxnSystem) : Action → Prop
  | .beginRead | .admitWrite _ => s.tm.numActive + 1 < 2 ^ 32
  | .rollback t => t ∈ s.tm.activeTransactions
  | _ => True

def Balanced (s : TxnSystem) : Prop := s.tm.activeTxnCount = s.tm.numActive

inductive CountMove (s : TxnSystem) (a : Action) (s' : TxnSystem) : Prop
  | enters (hok : Accounted s a ↔ s.tm.numActive + 1 < 2 ^ 32)
      (hc : s'.tm.activeTxnCount = (s.tm.activeTxnCount + 1) % 2 ^ 32)
      (hn : s'.tm.numActive = s.tm.numActive + 1)
  | leaves {t : Nat} (hok : Accounted s a ↔ t ∈ s.tm.activeTransactions)
      (hc : s'.tm.activeTxnCount = (s.tm.activeTxnCount + (2 ^ 32 - 1)) % 2 ^ 32)
      (hm : s'.tm.activeTransactions = s.tm.activeTransactions.erase t)
  | stays (hok : Accounted s a) (hc : s'.tm.activeTxnCount = s.tm.activeTxnCount)
      (hn : s'.tm.numActive = s.tm.numActive)

theorem countMove_of_step (hc : Coherent s) (h : s.step a = some s') : CountMove s a s' := by
  have hin {t : Nat} {txn : Transaction} {phase : Phase} (hs : s.sessions t = some ⟨txn, phase⟩)
      (hr : registered phase = true) : t ∈ s.tm.activeTransactions :=
        (hc.active t).mpr ⟨txn, phase, hs, hr⟩
  cases Step.of_step h with
  | beginRead =>
    exact .enters Iff.rfl rfl (numActive_insert hc.notMem_nextId)
  | enterWrite | commitAccepted | durableFail | finishCommit | setConcurrentWrites =>
    exact .stays trivial rfl rfl
  | @admitWrite t txn allow tm hs hw =>
    obtain ⟨_, rfl⟩ := acquireWrite_eq_some.mp hw
    refine .enters Iff.rfl rfl (numActive_insert ?_)
    rw [(hc.ids _ _ _ hs).1]
    intro hm
    obtain ⟨_, _, h', hr⟩ := (hc.active t).mp hm
    rw [hs] at h'
    cases h'
    cases hr
  | lockTable =>
    obtain ⟨locks, hl⟩ := s.tm.lockTable_locks_only _ _
    rw [hl]
    exact .stays trivial rfl rfl
  | @recordWrite t txn tableId rowId hs hw =>
    obtain ⟨entry, he⟩ := hc.lookup_of_running hs
    rw [recordWrite_of_lookup he]
    refine .stays trivial rfl ?_
    show (AList.insert _ _ _).keys.length = _
    rw [AList.keys_insert, length_cons, length_erase_add_one (AList.mem_keys.mp (hin hs rfl))]
    rfl
  | commitRead hs hr =>
    rw [commit_readOnly hr]
    exact .leaves (iff_of_true trivial (hin hs rfl)) rfl (by simp [(hc.ids _ _ _ hs).1])
  | commitRejected hs | prepareRejected hs | prepareAccepted hs =>
    exact .leaves (iff_of_true trivial (hin hs rfl)) rfl (by simp [(hc.ids _ _ _ hs).1])
  | commitEnd hs => exact .leaves (iff_of_true trivial (hin hs rfl)) rfl rfl
  | rollback hs => exact .leaves Iff.rfl rfl (by simp [(hc.ids _ _ _ hs).1])

theorem CountMove.balanced_iff (hm : CountMove s a s') (hlt : s.tm.activeTxnCount < 2 ^ 32)
    (hb : Balanced s) : Balanced s' ↔ Accounted s a := by
  unfold Balanced at *
  cases hm with
  | enters hok hc hn => rw [hok, hc, hn]; omega
  | stays hok hc hn => rw [hc, hn]; exact iff_of_true hb hok
  | @leaves t hok hc hm =>
    rw [hok, hc, TransactionManager.numActive, hm]
    by_cases ht : t ∈ s.tm.activeTransactions
    · have := numActive_erase ht
      rw [TransactionManager.numActive] at hb
      exact iff_of_true (by omega) ht
    · rw [AList.keys_erase, erase_of_not_mem (AList.mem_keys.not.mp ht), ← TransactionManager.numActive]
      exact iff_of_false (by omega) ht

theorem CountMove.count_lt (hm : CountMove s a s') (hlt : s.tm.activeTxnCount < 2 ^ 32) :
    s'.tm.activeTxnCount < 2 ^ 32 := by
  cases hm with
  | enters _ hc | leaves _ hc => rw [hc]; exact Nat.mod_lt _ (by decide)
  | stays _ hc => rw [hc]; exact hlt

instance : DecidablePred (Accounted s) := fun a => by
  cases a <;> unfold Accounted <;> infer_instance

/-- The counter is the number of active transactions all along a run, and a drain after the last one
returns, exactly when no begin overfills it and every rollback is of an active transaction. -/
theorem activeTxnCount_exact_iff_accounted {b : Bool} {as : List Action} {s : TxnSystem}
    (h : run step (new b) as = some s) :
    (∀ pre post t, as = pre ++ post → run step (new b) pre = some t → t.tm.activeTxnCount =
      t.tm.numActive ∧
      ((∀ u txn phase, t.sessions u = some ⟨txn, phase⟩ → phase = .committed ∨ phase = .rolledBack) →
        ∀ load polls i j, j ≤ polls → load (i + j) = t.tm.activeTxnCount →
          TransactionManager.waitUntilAllLeave load polls i = true)) ↔
    Meets step Accounted (new b) as := by
  have hexact :=
    meets_iff_holds_throughout (fun s => Coherent s ∧ s.tm.activeTxnCount < 2 ^ 32) Balanced
    (fun s a t hi hst => ⟨hi.1.step hst, (countMove_of_step hi.1 hst).count_lt hi.2⟩)
    (fun s a t hi hb hst => (countMove_of_step hi.1 hst).balanced_iff hi.2 hb) h
    ⟨new_coherent b, Nat.two_pow_pos 32⟩ rfl
  rw [← hexact]
  constructor
  · intro hall pre post t hsplit ht
    exact (hall pre post t hsplit ht).1
  · intro hall pre post t hsplit ht
    have hb := hall pre post t hsplit ht
    refine ⟨hb, fun hended load polls i j hj hload => ?_⟩
    refine waitUntilAllLeave_of_zero hj ?_
    rw [hload, hb]
    refine length_eq_zero_iff.mpr (eq_nil_iff_forall_not_mem.mpr fun u hu => ?_)
    obtain ⟨txn, phase, hs, hr⟩ := ((coherent_of_run ht).active u).mp (AList.mem_keys.mpr hu)
    rcases hended u txn phase hs with rfl | rfl <;> cases hr

theorem activeTxnCount_exact_after_commit :
    ∃ s, run step (new true) [.enterWrite, .admitWrite 1, .prepareCommit 1, .finishCommit 1] = some s ∧
      s.tm.activeTxnCount = s.tm.numActive := by
  have hm : Meets step Accounted (new true) [.enterWrite, .admitWrite 1, .prepareCommit 1,
      .finishCommit 1] :=
    meets_of_check (by decide)
  exact ⟨_, rfl, ((activeTxnCount_exact_iff_accounted rfl).mpr hm _ [] _ (append_nil _).symm rfl).1⟩

/-- Two writers of one row: the loser's rollback after its conflict takes the winner's count with
it, and the winner's own departure wraps the counter. -/
theorem activeTxnCount_wraps_after_conflict :
    ∃ as s, run step (new true) as = some s ∧ s.tm.numActive = 0 ∧ s.tm.activeTxnCount = 2 ^ 32 - 1 :=
  ⟨[.enterWrite, .admitWrite 1, .enterWrite, .admitWrite 2, .recordWrite 1 0 0, .recordWrite 2 0 0,
    .prepareCommit 1, .rollback 1, .prepareCommit 2, .finishCommit 2], _, rfl, by decide, by decide⟩

end ActiveCount

end Akar
