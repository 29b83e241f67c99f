import Akar.ActiveCount
import Mathlib.Data.Finset.Card

namespace Akar

open TxnSystem Finset

/-- Between `acquire_write` and the `release_write` that ends the transaction. A refused commit has
already released. -/
def Session.holdsPermit (ss : Session) : Bool := ss.txn.transactionType = .write &&
    match ss.phase with
    | .running | .publishing | .prepared | .failed => true
    | _ => false

def TxnSystem.holders (s : TxnSystem) : Finset Nat :=
  (Finset.range s.tm.nextId).filter fun t => (s.sessions t).any Session.holdsPermit

section WritePermit

variable {s s' : TxnSystem} {a : Action} {t : Nat} {txn : Transaction} {phase : Phase}

theorem mem_holders (hc : Coherent s) : t ∈ s.holders ↔ ∃ ss, s.sessions t = some ss ∧
    ss.holdsPermit = true := by
  rw [holders, mem_filter, mem_range, Option.any_eq_true]
  constructor
  · rintro ⟨_, h⟩; exact h
  · rintro ⟨⟨txn, phase⟩, hs, hh⟩
    exact ⟨(hc.ids t txn phase hs).2, _, hs, hh⟩

/-- A rollback without a permit finds none held, a writer that loaded the flag as concurrent is not
admitted beside a holder once the flag is off, and the permits fit their counter. -/
def Permitted (s : TxnSystem) : Action → Prop
  | .rollback t => t ∈ s.holders ∨ s.holders = ∅
  | .admitWrite t => s.holders.card + 1 < 2 ^ 32 ∧
      ((s.sessions t).any (·.phase = .waiting true) = true → s.tm.concurrentWrites = true ∨
        s.holders = ∅)
  | _ => True

/-- The part of `Permitted` that keeps the counter exact. -/
def TxnSystem.Counted (s : TxnSystem) : Action → Prop
  | .rollback t => t ∈ s.holders ∨ s.holders = ∅
  | .admitWrite _ => s.holders.card + 1 < 2 ^ 32
  | _ => True

inductive PermitMove (s : TxnSystem) (a : Action) (s' : TxnSystem) : Prop
  | grants {t : Nat} (ht : t ∉ s.holders) (hok : a = .admitWrite t)
      (hc : s'.tm.activeWriteCount = (s.tm.activeWriteCount + 1) % 2 ^ 32) (hh : s'.holders =
        insert t s.holders)
  | releases {t : Nat} (hok : a = .rollback t ∨ t ∈ s.holders ∧ s.Counted a)
      (hc : s'.tm.activeWriteCount = s.tm.activeWriteCount - 1) (hh : s'.holders = s.holders.erase t)
  | stays (hok : s.Counted a) (hc : s'.tm.activeWriteCount = s.tm.activeWriteCount)
      (hh : s'.holders = s.holders)

variable {tm : TransactionManager}

theorem mem_holders_put {u : Nat} (hc : Coherent s) (hc' : Coherent (s.put t tm txn phase))
    (hu : u ≠ t) :
    u ∈ (s.put t tm txn phase).holders ↔ u ∈ s.holders := by
  rw [mem_holders hc', mem_holders hc, put_sessions_ne hu]

theorem self_mem_holders_put (hc' : Coherent (s.put t tm txn phase)) :
    t ∈ (s.put t tm txn phase).holders ↔ (⟨txn, phase⟩ : Session).holdsPermit = true := by
  rw [mem_holders hc', put_sessions_self]
  simp

theorem holders_put_insert (hc : Coherent s) (hc' : Coherent (s.put t tm txn phase))
    (hh : (⟨txn, phase⟩ : Session).holdsPermit = true) : (s.put t tm txn phase).holders =
      insert t s.holders := by
  ext u
  by_cases hu : u = t
  · subst hu; simp [self_mem_holders_put hc', hh]
  · rw [mem_holders_put hc hc' hu]; simp [hu]

theorem holders_put_erase (hc : Coherent s) (hc' : Coherent (s.put t tm txn phase))
    (hh : (⟨txn, phase⟩ : Session).holdsPermit = false) : (s.put t tm txn phase).holders =
      s.holders.erase t := by
  ext u
  by_cases hu : u = t
  · subst hu; simp [self_mem_holders_put hc', hh]
  · rw [mem_holders_put hc hc' hu]; simp [hu]

theorem releaseWriter_count (tm : TransactionManager) (txnId : Nat) :
    (tm.releaseWriter txnId).activeWriteCount = tm.activeWriteCount - 1 := by
  show (if 0 < tm.activeWriteCount then tm.activeWriteCount - 1 else tm.activeWriteCount) = _
  split
  next => rfl
  next h => omega

theorem holder_of_session (hc : Coherent s) (hs : s.sessions t = some ⟨txn, phase⟩)
    (hh : (⟨txn, phase⟩ : Session).holdsPermit = true) : t ∈ s.holders :=
  (mem_holders hc).mpr ⟨_, hs, hh⟩

theorem not_holder_of_session (hc : Coherent s) (hs : s.sessions t = some ⟨txn, phase⟩)
    (hh : (⟨txn, phase⟩ : Session).holdsPermit = false) : t ∉ s.holders := by
  intro hm
  obtain ⟨ss, hss, h⟩ := (mem_holders hc).mp hm
  rw [hs] at hss
  cases hss
  rw [hh] at h
  cases h

theorem permitMove_of_step (hc : Coherent s) (h : s.step a = some s') : PermitMove s a s' := by
  have hc' := hc.step h
  cases Step.of_step h with
  | beginRead | enterWrite =>
    refine .stays trivial rfl ?_
    rw [holders_put_erase hc hc' rfl, erase_eq_of_notMem]
    simp [holders]
  | @admitWrite t txn allow tm hs hw =>
    obtain ⟨_, rfl⟩ := TransactionManager.acquireWrite_eq_some.mp hw
    have hwr := hc.writers t txn _ hs rfl
    exact .grants (not_holder_of_session hc hs (by simp [Session.holdsPermit])) rfl rfl
      (holders_put_insert hc hc' (by simp [Session.holdsPermit, hwr]))
  | lockTable =>
    obtain ⟨locks, hl⟩ := s.tm.lockTable_locks_only _ _
    rw [hl]
    exact .stays trivial rfl rfl
  | recordWrite hs =>
    obtain ⟨entry, he⟩ := hc.lookup_of_running hs
    rw [TransactionManager.recordWrite_of_lookup he]
    exact .stays trivial rfl rfl
  | @commitRead t txn hs hr =>
    refine .stays trivial ?_ ?_
    · rw [TransactionManager.commit_readOnly hr]; rfl
    · rw [holders_put_erase hc hc' (by simp [Session.holdsPermit]), erase_eq_of_notMem]
      exact not_holder_of_session hc hs (by simp [Session.holdsPermit, hr])
  | commitRejected hs hw | prepareRejected hs hw =>
    exact .releases (.inr ⟨holder_of_session hc hs (by simp [Session.holdsPermit, hw]), trivial⟩)
      (releaseWriter_count _ _) (holders_put_erase hc hc' (by simp [Session.holdsPermit]))
  | commitAccepted hs hw | prepareAccepted hs hw =>
    refine .stays trivial rfl ?_
    rw [holders_put_insert hc hc' (by simp [Session.holdsPermit, hw])]
    exact insert_eq_of_mem (holder_of_session hc hs (by simp [Session.holdsPermit, hw]))
  | commitEnd hs | finishCommit hs =>
    have hw := hc.writers _ _ _ hs rfl
    exact .releases (.inr ⟨holder_of_session hc hs (by simp [Session.holdsPermit, hw]), trivial⟩)
      (releaseWriter_count _ _) (holders_put_erase hc hc' (by simp [Session.holdsPermit]))
  | durableFail hs =>
    have hw := hc.writers _ _ _ hs rfl
    refine .stays trivial rfl ?_
    rw [holders_put_insert hc hc' (by simp [Session.holdsPermit, hw])]
    exact insert_eq_of_mem (holder_of_session hc hs (by simp [Session.holdsPermit, hw]))
  | rollback =>
    exact .releases (.inl rfl)
      (releaseWriter_count _ _) (holders_put_erase hc hc' (by simp [Session.holdsPermit]))
  | setConcurrentWrites => exact .stays trivial rfl rfl

theorem PermitMove.count_iff (hm : PermitMove s a s') (hb : s.tm.activeWriteCount = s.holders.card) :
    s'.tm.activeWriteCount = s'.holders.card ↔ s.Counted a := by
  cases hm with
  | @grants t ht hok hc hh =>
    rw [hc, hh, hb, card_insert_of_notMem ht, hok]
    show _ ↔ s.holders.card + 1 < 2 ^ 32
    omega
  | stays hok hc hh =>
    rw [hc, hh]
    exact iff_of_true hb hok
  | @releases t hok hc hh =>
    rw [hc, hh, hb]
    by_cases ht : t ∈ s.holders
    · rw [card_erase_of_mem ht]
      refine iff_of_true rfl ?_
      rcases hok with rfl | ⟨_, hok⟩
      · exact .inl ht
      · exact hok
    · obtain rfl := hok.resolve_right fun h => ht h.1
      rw [erase_eq_of_notMem ht]
      constructor
      · intro hcard
        exact .inr (card_eq_zero.mp (by omega))
      · intro hall
        rw [hall.resolve_left ht]
        rfl

theorem admitted_alone (hb : s.tm.activeWriteCount = s.holders.card) (hok : Permitted s (.admitWrite t))
    (h : s.step (.admitWrite t) = some s') (hoff : s.tm.concurrentWrites = false) : s.holders = ∅ := by
  cases Step.of_step h with
  | @admitWrite _ txn allow tm hs hw =>
    obtain ⟨hallow | hzero, _⟩ := TransactionManager.acquireWrite_eq_some.mp hw
    · subst hallow
      obtain h | h := hok.2 (by rw [hs]; rfl)
      · rw [hoff] at h; cases h
      · exact h
    · exact card_eq_zero.mp (hb ▸ hzero)

instance : DecidablePred (Permitted s)
  | .rollback t => inferInstanceAs (Decidable (t ∈ s.holders ∨ s.holders = ∅))
  | .admitWrite t =>
    inferInstanceAs
    (Decidable (s.holders.card + 1 < 2 ^ 32 ∧ ((s.sessions t).any (·.phase = .waiting true) = true →
      s.tm.concurrentWrites = true ∨ s.holders = ∅)))
  | .beginRead | .enterWrite | .lockTable .. | .recordWrite .. | .commitRead _ | .commitStart _
  | .commitEnd _
  | .prepareCommit _ | .durableFail _ | .finishCommit _ | .setConcurrentWrites _ => .isTrue trivial

/-- The counter is the number of permits held all along a run, and with concurrent writes off no
writer is admitted beside a holder, exactly when every step is `Permitted`. -/
theorem writePermits_exact_iff_permitted {b : Bool} {as : List Action} {s : TxnSystem}
    (h : run step (new b) as = some s) :
    ((∀ pre post t, as = pre ++ post → run step (new b) pre = some t → t.tm.activeWriteCount =
      t.holders.card) ∧
      ∀ pre u post t, as = pre ++ .admitWrite u :: post → run step (new b) pre = some t →
        t.tm.concurrentWrites = false → t.holders = ∅) ↔
    Meets step Permitted (new b) as := by
  have hexact := meets_iff_holds_throughout Coherent (fun s => s.tm.activeWriteCount = s.holders.card)
    (fun s a t hc hst => hc.step hst) (fun s a t hc hb hst =>
      (permitMove_of_step hc hst).count_iff hb) h
    (new_coherent b) (by simp [holders, new, TransactionManager.new])
  rw [hexact, meets_iff_forall_step h, meets_iff_forall_step h]
  constructor
  · rintro ⟨hcount, hentry⟩ pre a post t hsplit ht
    have hcount := hcount pre a post t hsplit ht
    cases a with
    | admitWrite u =>
      refine ⟨hcount, fun _ => ?_⟩
      cases hoff : t.tm.concurrentWrites with
      | true => exact .inl rfl
      | false => exact .inr (hentry pre u post t hsplit ht hoff)
    | _ => exact hcount
  · intro hall
    have hcount : ∀ pre a post t, as = pre ++ a :: post → run step (new b) pre = some t →
        t.Counted a := by
      intro pre a post t hsplit ht
      have hok := hall pre a post t hsplit ht
      cases a with
      | admitWrite => exact hok.1
      | _ => exact hok
    refine ⟨hcount, fun pre u post t hsplit ht hoff => ?_⟩
    have hb := hexact.mpr ((meets_iff_forall_step h).mpr hcount) pre _ t hsplit ht
    obtain ⟨v, hv, hrest⟩ := run_append_eq_some.mp (hsplit ▸ h)
    rw [ht] at hv
    cases hv
    obtain ⟨w, hw, _⟩ := run_cons_eq_some.mp hrest
    exact admitted_alone hb (hall pre _ post t hsplit ht) hw hoff

theorem writePermits_exact_after_commit :
    ∃ s, run step (new false) [.enterWrite, .admitWrite 1, .prepareCommit 1, .finishCommit 1] = some s ∧
      s.tm.activeWriteCount = s.holders.card := by
  have hm : Meets step Permitted (new false) [.enterWrite, .admitWrite 1, .prepareCommit 1,
      .finishCommit 1] :=
    meets_of_check (by decide)
  exact ⟨_, rfl, ((writePermits_exact_iff_permitted rfl).mpr hm).1 _ [] _ (List.append_nil _).symm rfl⟩

/-- The loser of a conflict releases twice and gives the winner's permit away: after a switch to
single-writer mode a third transaction is admitted. -/
theorem writePermits_shared_after_conflict :
    ∃ as s, run step (new true) as = some s ∧ s.tm.concurrentWrites = false ∧
    s.tm.activeWriteCount = 1 ∧ s.holders = {2, 3} :=
  ⟨[.enterWrite, .admitWrite 1, .enterWrite, .admitWrite 2, .recordWrite 1 0 0, .recordWrite 2 0 0,
    .prepareCommit 1, .rollback 1, .setConcurrentWrites false, .enterWrite, .admitWrite 3], _, rfl,
    by decide, by decide, by decide⟩

end WritePermit

end Akar
