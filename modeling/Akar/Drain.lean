import Akar.ActiveCount

namespace Akar

open Function TransactionManager

/-- How far a `begin_read` or `begin_write` has come: past the gate, with its id and snapshot (and
the mode flag as `acquire_write` loaded it), or with the write permit. -/
inductive Entry where
  | gated (type : TransactionType)
  | opened (txn : Transaction) (allowConcurrent : Bool)
  | acquired (txn : Transaction)

def Entry.txn : Entry → Option Transaction
  | .gated _ => none
  | .opened txn _ | .acquired txn => some txn

/-- Where a caller of `stop_new_txns_and_wait_until_all_leave` is: at the loop condition with the
mutex, in the condition wait without it, or, the call having returned true, at its checkpoint
work. -/
inductive DrainPhase where
  | idle
  | polling
  | waiting
  | working
  deriving DecidableEq

/-- The manager with the begin calls on their way in, the gate mutex and the drains. -/
structure DrainSystem where
  sys : TxnSystem
  entries : Nat → Option Entry
  gate : Option Nat
  drains : Nat → DrainPhase

inductive DrainAction where
  | passGate (caller : Nat) (type : TransactionType)
  | openTxn (caller : Nat)
  | acquire (caller : Nat)
  | register (caller : Nat)
  | act (a : Action)
  | drainEnter (d : Nat)
  | drainPoll (d : Nat)
  | drainWake (d : Nat)
  | drainTimeout (d : Nat)
  | finishWork (d : Nat)

def Action.begins : Action → Bool
  | .beginRead | .enterWrite | .admitWrite _ => true
  | _ => false

namespace DrainSystem

def new (concurrentWrites : Bool) : DrainSystem :=
  ⟨TxnSystem.new concurrentWrites, fun _ => none, none, fun _ => .idle⟩

def setEntry (s : DrainSystem) (caller : Nat) (entry : Option Entry) : DrainSystem :=
  { s with entries := update s.entries caller entry }

def setTm (s : DrainSystem) (tm : TransactionManager) : DrainSystem :=
  { s with sys := { s.sys with tm := tm } }

def setDrain (s : DrainSystem) (d : Nat) (phase : DrainPhase) (gate : Option Nat) : DrainSystem :=
  { s with drains := update s.drains d phase, gate := gate }

def registerTxn (s : DrainSystem) (caller : Nat) (txn : Transaction) : DrainSystem :=
  { s.setEntry caller none with sys := s.sys.put txn.transactionId (s.sys.tm.register txn) txn .running }

/-- The gate is passed only while nobody holds the mutex; a drain holds it except in the condition
wait and after its return. -/
def step (s : DrainSystem) : DrainAction → Option DrainSystem
  | .passGate caller type =>
    match s.entries caller, s.gate with
    | none, none => some (s.setEntry caller (some (.gated type)))
    | _, _ => none
  | .openTxn caller =>
    match s.entries caller with
    | some (.gated type) =>
      some ((s.setTm (s.sys.tm.openTxn type).2).setEntry caller
        (some (.opened (s.sys.tm.openTxn type).1 s.sys.tm.concurrentWrites)))
    | _ => none
  | .acquire caller =>
    match s.entries caller with
    | some (.opened txn allow) =>
      if txn.transactionType = .write then
        (s.sys.tm.acquireWrite allow).map fun tm => (s.setTm tm).setEntry caller (some (.acquired txn))
      else none
    | _ => none
  | .register caller =>
    match s.entries caller with
    | some (.opened txn _) =>
      if txn.transactionType = .readOnly then some (s.registerTxn caller txn) else none
    | some (.acquired txn) => some (s.registerTxn caller txn)
    | _ => none
  | .act a => if a.begins then none else (s.sys.step a).map fun sys => { s with sys := sys }
  | .drainEnter d =>
    match s.drains d, s.gate with
    | .idle, none => some (s.setDrain d .polling (some d))
    | _, _ => none
  | .drainPoll d =>
    match s.drains d with
    | .polling => some (s.setDrain d (if s.sys.tm.activeTxnCount = 0 then .working else .waiting) none)
    | _ => none
  | .drainWake d =>
    match s.drains d, s.gate with
    | .waiting, none => some (s.setDrain d .polling (some d))
    | _, _ => none
  | .drainTimeout d =>
    match s.drains d with
    | .polling => if s.sys.tm.activeTxnCount = 0 then none else some (s.setDrain d .idle none)
    | _ => none
  | .finishWork d =>
    match s.drains d with
    | .working => some (s.setDrain d .idle s.gate)
    | _ => none

/-- No begin passes the gate while some drain's caller is at work, none is on its way in when a
drain reads zero, and the counter stays right. -/
def Sealed (s : DrainSystem) : DrainAction → Prop
  | .passGate _ _ => ∀ d, s.drains d ≠ .working
  | .register _ => s.sys.tm.numActive + 1 < 2 ^ 32
  | .act a => Accounted s.sys a
  | .drainPoll _ => s.sys.tm.activeTxnCount = 0 → ∀ caller, s.entries caller = none
  | _ => True

end DrainSystem

namespace TxnSystem

variable {s s' : TxnSystem} {a : Action}

theorem Coherent.begun_step (hc : Coherent s) (hbegun : a.begins = false) (h : s.step a = some s') :
    s'.tm.nextId = s.tm.nextId ∧ (∀ u, s.sessions u = none → s'.sessions u = none) ∧
      ∀ u, u ∈ s'.tm.activeTransactions → u ∈ s.tm.activeTransactions := by
  have hkeep {t : Nat} {ss : Session} {tm : TransactionManager} {txn : Transaction} {phase : Phase}
      (hs : s.sessions t = some ss) (u : Nat) (hu : s.sessions u = none) :
        (s.put t tm txn phase).sessions u = none := by
    have hne : u ≠ t := by
      rintro rfl
      rw [hs] at hu
      cases hu
    rw [put_sessions_ne hne]
    exact hu
  have herase {t u : Nat} (hu : u ∈ s.tm.activeTransactions.erase t) : u ∈ s.tm.activeTransactions :=
    (AList.mem_erase.mp hu).2
  cases Step.of_step h with
  | beginRead | enterWrite | admitWrite => cases hbegun
  | lockTable =>
    obtain ⟨locks, hl⟩ := s.tm.lockTable_locks_only _ _
    rw [hl]
    exact ⟨rfl, fun u hu => hu, fun u hu => hu⟩
  | @recordWrite t txn tableId rowId hs hw =>
    obtain ⟨entry, he⟩ := hc.lookup_of_running hs
    rw [recordWrite_of_lookup he]
    refine ⟨rfl, fun u hu => hu, fun u hu => ?_⟩
    rcases (AList.mem_insert _).mp hu with rfl | hold
    · exact (hc.active u).mpr ⟨txn, .running, hs, rfl⟩
    · exact hold
  | commitRead hs hr =>
    rw [commit_readOnly hr]
    exact ⟨rfl, hkeep hs, fun u hu => herase hu⟩
  | commitRejected hs | commitEnd hs | prepareRejected hs | prepareAccepted hs | rollback hs =>
    exact ⟨rfl, hkeep hs, fun u hu => herase hu⟩
  | commitAccepted hs | durableFail hs | finishCommit hs => exact ⟨rfl, hkeep hs, fun u hu => hu⟩
  | setConcurrentWrites => exact ⟨rfl, fun u hu => hu, fun u hu => hu⟩

end TxnSystem

namespace DrainSystem

open TxnSystem

/-- The begin calls on their way in hold ids of their own, the counter is right, and a drain's
caller at work is alone. -/
structure Guarded (s : DrainSystem) : Prop where
  coherent : Coherent s.sys
  fresh : ∀ c txn, (s.entries c).bind Entry.txn = some txn →
    txn.transactionId < s.sys.tm.nextId ∧ s.sys.sessions txn.transactionId = none
  distinct : ∀ c c' txn txn', (s.entries c).bind Entry.txn = some txn →
    (s.entries c').bind Entry.txn = some txn' →
    c ≠ c' → txn.transactionId ≠ txn'.transactionId
  balanced : Balanced s.sys
  bounded : s.sys.tm.activeTxnCount < 2 ^ 32
  alone : ∀ d, s.drains d = .working → (∀ t, t ∉ s.sys.tm.activeTransactions) ∧ ∀ c, s.entries c = none

variable {s s' : DrainSystem} {a : DrainAction}

theorem new_guarded (b : Bool) : (new b).Guarded where
  coherent := new_coherent b
  fresh := by
    nofun
  distinct := by
    nofun
  balanced := rfl
  bounded := Nat.two_pow_pos 32
  alone := by
    nofun

variable {c : Nat} {txn : Transaction}

theorem setEntry_txn {c' : Nat} {entry : Option Entry}
    (h : ((s.setEntry c entry).entries c').bind Entry.txn = some txn) :
    c' = c ∧ entry.bind Entry.txn = some txn ∨ c' ≠ c ∧ (s.entries c').bind Entry.txn = some txn := by
  simp only [setEntry] at h
  rw [update_apply] at h
  split at h
  next hc =>
    subst hc
    exact .inl ⟨rfl, h⟩
  next hc =>
    exact .inr ⟨hc, h⟩

variable {entry : Entry}

theorem Guarded.not_working (h : s.Guarded) (hc : s.entries c = some entry) (d : Nat) :
    s.drains d ≠ .working := by
  intro hd
  have hnone := (h.alone d hd).2 c
  rw [hc] at hnone
  cases hnone

variable {type : TransactionType}

theorem Guarded.passGate (h : s.Guarded) (hsealed : s.Sealed (.passGate c type)) :
    (s.setEntry c (some (.gated type))).Guarded where
  coherent := h.coherent
  fresh := by
    intro c' txn htxn
    rcases setEntry_txn htxn with ⟨_, hnone⟩ | ⟨_, hold⟩
    · cases hnone
    · exact h.fresh c' txn hold
  distinct := by
    intro c₁ c₂ txn₁ txn₂ h₁ h₂ hne
    rcases setEntry_txn h₁ with ⟨_, hnone⟩ | ⟨_, hold₁⟩
    · cases hnone
    · rcases setEntry_txn h₂ with ⟨_, hnone⟩ | ⟨_, hold₂⟩
      · cases hnone
      · exact h.distinct c₁ c₂ txn₁ txn₂ hold₁ hold₂ hne
  balanced := h.balanced
  bounded := h.bounded
  alone := by
    intro d hd
    exact absurd hd (hsealed d)

variable {allow : Bool}

theorem Guarded.openTxn (h : s.Guarded)
    (hc : s.entries c = some (.gated type)) :
    ((s.setTm (s.sys.tm.openTxn type).2).setEntry c
      (some (.opened (s.sys.tm.openTxn type).1 allow))).Guarded := by
  have hnew : s.sys.sessions s.sys.tm.nextId = none := by
    cases hs : s.sys.sessions s.sys.tm.nextId with
    | none => rfl
    | some ss => exact absurd (h.coherent.ids _ ss.txn ss.phase hs).2 (Nat.lt_irrefl _)
  constructor
  case coherent =>
    refine ⟨fun t txn phase hs => ?_, h.coherent.active, h.coherent.writers⟩
    obtain ⟨hid, hlt⟩ := h.coherent.ids t txn phase hs
    exact ⟨hid, Nat.lt_succ_of_lt hlt⟩
  case fresh =>
    intro c' txn htxn
    rcases setEntry_txn htxn with ⟨_, heq⟩ | ⟨_, hold⟩
    · cases heq
      exact ⟨Nat.lt_succ_self _, hnew⟩
    · obtain ⟨hlt, hnone⟩ := h.fresh c' txn hold
      exact ⟨Nat.lt_succ_of_lt hlt, hnone⟩
  case distinct =>
    intro c₁ c₂ txn₁ txn₂ h₁ h₂ hne
    rcases setEntry_txn h₁ with ⟨rfl, heq₁⟩ | ⟨_, hold₁⟩
    · cases heq₁
      rcases setEntry_txn h₂ with ⟨rfl, _⟩ | ⟨_, hold₂⟩
      · exact absurd rfl hne
      · exact (h.fresh c₂ txn₂ hold₂).1.ne.symm
    · rcases setEntry_txn h₂ with ⟨_, heq₂⟩ | ⟨_, hold₂⟩
      · cases heq₂
        exact (h.fresh c₁ txn₁ hold₁).1.ne
      · exact h.distinct c₁ c₂ txn₁ txn₂ hold₁ hold₂ hne
  case balanced => exact h.balanced
  case bounded => exact h.bounded
  case alone =>
    intro d hd
    exact absurd hd (h.not_working hc d)

theorem Guarded.acquire {tm : TransactionManager} (h : s.Guarded)
    (hc : s.entries c = some (.opened txn allow)) (htm : s.sys.tm.acquireWrite allow = some tm) :
    ((s.setTm tm).setEntry c (some (.acquired txn))).Guarded := by
  obtain ⟨_, rfl⟩ := acquireWrite_eq_some.mp htm
  have hown : (s.entries c).bind Entry.txn = some txn := by
    rw [hc]
    rfl
  have hsame {c' : Nat} {txn' : Transaction}
      (h' : ((s.setEntry c (some (.acquired txn))).entries c').bind Entry.txn = some txn') :
      (s.entries c').bind Entry.txn = some txn' := by
    rcases setEntry_txn h' with ⟨rfl, heq⟩ | ⟨_, hold⟩
    · cases heq
      exact hown
    · exact hold
  constructor
  case coherent => exact h.coherent.setTm rfl fun u => Iff.rfl
  case fresh =>
    intro c' txn' htxn
    exact h.fresh c' txn' (hsame htxn)
  case distinct =>
    intro c₁ c₂ txn₁ txn₂ h₁ h₂ hne
    exact h.distinct c₁ c₂ txn₁ txn₂ (hsame h₁) (hsame h₂) hne
  case balanced => exact h.balanced
  case bounded => exact h.bounded
  case alone =>
    intro d hd
    exact absurd hd (h.not_working hc d)

theorem Guarded.registerTxn (h : s.Guarded) (hc : s.entries c = some entry)
    (htxn : entry.txn = some txn) (hroom : s.sys.tm.numActive + 1 < 2 ^ 32) :
      (s.registerTxn c txn).Guarded := by
  have hown : (s.entries c).bind Entry.txn = some txn := by
    rw [hc]
    exact htxn
  obtain ⟨hlt, hnone⟩ := h.fresh c txn hown
  have hout : txn.transactionId ∉ s.sys.tm.activeTransactions := by
    intro hin
    obtain ⟨_, _, hs, _⟩ := (h.coherent.active _).mp hin
    rw [hnone] at hs
    cases hs
  have hnum : (s.sys.tm.register txn).numActive = s.sys.tm.numActive + 1 := numActive_insert hout
  have hcount : (s.sys.tm.register txn).activeTxnCount = s.sys.tm.numActive + 1 := by
    have hb := h.balanced
    rw [register_activeTxnCount, hb, Nat.mod_eq_of_lt hroom]
  have hothers {c' : Nat} {txn' : Transaction}
      (h' : ((s.setEntry c none).entries c').bind Entry.txn = some txn') :
      c' ≠ c ∧ (s.entries c').bind Entry.txn = some txn' := by
    rcases setEntry_txn h' with ⟨_, heq⟩ | hold
    · cases heq
    · exact hold
  constructor
  case coherent =>
    refine h.coherent.put rfl hlt le_rfl ?_ ?_ (by simp [readable])
    · intro u hu
      simp [AList.mem_insert, hu]
    · simp [AList.mem_insert, registered]
  case fresh =>
    intro c' txn' h'
    obtain ⟨hne, hold⟩ := hothers h'
    obtain ⟨hlt', hnone'⟩ := h.fresh c' txn' hold
    have hid := h.distinct c' c txn' txn hold hown hne
    refine ⟨hlt', ?_⟩
    show (s.sys.put _ _ _ _).sessions _ = none
    rw [put_sessions_ne hid]
    exact hnone'
  case distinct =>
    intro c₁ c₂ txn₁ txn₂ h₁ h₂ hne
    exact h.distinct c₁ c₂ txn₁ txn₂ (hothers h₁).2 (hothers h₂).2 hne
  case balanced => exact hcount.trans hnum.symm
  case bounded => exact (Nat.le_of_eq hcount).trans_lt hroom
  case alone =>
    intro d hd
    exact absurd hd (h.not_working hc d)

theorem Guarded.act {a : Action} {sys : TxnSystem} (h : s.Guarded) (hbegun : a.begins = false)
    (hok : Accounted s.sys a) (hs : s.sys.step a = some sys) : { s with sys := sys }.Guarded := by
  obtain ⟨hid, hnone, hactive⟩ := h.coherent.begun_step hbegun hs
  have hmove := countMove_of_step h.coherent hs
  constructor
  case coherent => exact h.coherent.step hs
  case fresh =>
    intro c txn htxn
    obtain ⟨hlt, hn⟩ := h.fresh c txn htxn
    exact ⟨Nat.lt_of_lt_of_eq hlt hid.symm, hnone _ hn⟩
  case distinct => exact h.distinct
  case balanced => exact (hmove.balanced_iff h.bounded h.balanced).mpr hok
  case bounded => exact hmove.count_lt h.bounded
  case alone =>
    intro d hd
    obtain ⟨hout, hentries⟩ := h.alone d hd
    exact ⟨fun t ht => hout t (hactive t ht), hentries⟩

theorem Guarded.setDrain {d : Nat} {phase : DrainPhase} {gate : Option Nat} (h : s.Guarded)
    (halone : phase = .working → (∀ t, t ∉ s.sys.tm.activeTransactions) ∧ ∀ c, s.entries c = none) :
    (s.setDrain d phase gate).Guarded where
  coherent := h.coherent
  fresh := h.fresh
  distinct := h.distinct
  balanced := h.balanced
  bounded := h.bounded
  alone := by
    intro d' hd'
    simp only [DrainSystem.setDrain] at hd'
    rw [update_apply] at hd'
    split at hd'
    next hd =>
      subst hd
      exact halone hd'
    next hd =>
      exact h.alone d' hd'

theorem Guarded.none_active (h : s.Guarded) (hzero : s.sys.tm.activeTxnCount = 0) (t : Nat) :
    t ∉ s.sys.tm.activeTransactions := by
  have hb := h.balanced
  have hkeys := List.length_eq_zero_iff.mp (hb.symm.trans hzero)
  intro ht
  have hmem := AList.mem_keys.mp ht
  rw [hkeys] at hmem
  exact List.not_mem_nil hmem

theorem Guarded.step (h : s.Guarded) (hsealed : s.Sealed a) (hs : s.step a = some s') : s'.Guarded := by
  cases a with
  | passGate =>
    simp only [DrainSystem.step] at hs
    split at hs
    next =>
      cases hs
      exact h.passGate hsealed
    next => cases hs
  | openTxn =>
    simp only [DrainSystem.step] at hs
    split at hs
    next type hc =>
      cases hs
      exact h.openTxn hc
    next => cases hs
  | acquire =>
    simp only [DrainSystem.step] at hs
    split at hs
    next txn allow hc =>
      split at hs
      next =>
        obtain ⟨tm, htm, rfl⟩ := Option.map_eq_some_iff.mp hs
        exact h.acquire hc htm
      next => cases hs
    next => cases hs
  | register =>
    simp only [DrainSystem.step] at hs
    split at hs
    next txn allow hc =>
      obtain ⟨_, rfl⟩ := Option.ite_some_none_eq_some.mp hs
      exact h.registerTxn hc rfl hsealed
    next txn hc =>
      cases hs
      exact h.registerTxn hc rfl hsealed
    next => cases hs
  | act =>
    obtain ⟨hbegun, hs⟩ := Option.ite_none_left_eq_some.mp hs
    obtain ⟨sys, hsys, rfl⟩ := Option.map_eq_some_iff.mp hs
    exact h.act (Bool.not_eq_true _ ▸ hbegun) hsealed hsys
  | drainEnter d | drainWake d | finishWork d =>
    simp only [DrainSystem.step] at hs
    split at hs
    next =>
      cases hs
      exact h.setDrain nofun
    next => cases hs
  | drainPoll =>
    simp only [DrainSystem.step] at hs
    split at hs
    next =>
      cases hs
      refine h.setDrain fun hworking => ?_
      have hzero : s.sys.tm.activeTxnCount = 0 := by
        by_contra hpos
        rw [if_neg hpos] at hworking
        cases hworking
      exact ⟨h.none_active hzero, hsealed hzero⟩
    next => cases hs
  | drainTimeout =>
    simp only [DrainSystem.step] at hs
    split at hs
    next =>
      split at hs
      next => cases hs
      next =>
        cases hs
        exact h.setDrain nofun
    next => cases hs

/-- From the return of a drain with true to the end of its caller's work no transaction is active,
nor is one on its way in. -/
theorem drain_excludes {b : Bool} {as : List DrainAction}
    (hrun : run DrainSystem.step (new b) as = some s)
    (hsealed : Meets DrainSystem.step Sealed (new b) as) {d : Nat} (hd : s.drains d = .working) :
    (∀ t, t ∉ s.sys.tm.activeTransactions) ∧ ∀ c, s.entries c = none := by
  have hguarded := run_keeps (fun _ _ _ h hok hs => h.step hok hs) hrun hsealed (new_guarded b)
  exact hguarded.alone d hd

theorem drain_excludes_reader :
    ∃ s, run DrainSystem.step (new true) [.passGate 0 .readOnly, .openTxn 0, .register 0,
      .drainEnter 0, .drainPoll 0,
        .act (.commitRead 1), .drainWake 0, .drainPoll 0] = some s ∧ s.drains 0 = .working ∧
      (∀ t, t ∉ s.sys.tm.activeTransactions) ∧ ∀ c, s.entries c = none := by
  have hrun : run DrainSystem.step (new true) [.passGate 0 .readOnly, .openTxn 0, .register 0,
    .drainEnter 0, .drainPoll 0, .act (.commitRead 1), .drainWake 0, .drainPoll 0] = some _ := rfl
  refine ⟨_, hrun, rfl, drain_excludes (d := 0) hrun ?_ rfl⟩
  refine ⟨nofun, fun s₁ h₁ => ?_⟩
  cases h₁
  refine ⟨trivial, fun s₂ h₂ => ?_⟩
  cases h₂
  refine ⟨show 0 + 1 < 2 ^ 32 by decide, fun s₃ h₃ => ?_⟩
  cases h₃
  refine ⟨trivial, fun s₄ h₄ => ?_⟩
  cases h₄
  refine ⟨nofun, fun s₅ h₅ => ?_⟩
  cases h₅
  refine ⟨trivial, fun s₆ h₆ => ?_⟩
  cases h₆
  refine ⟨trivial, fun s₇ h₇ => ?_⟩
  cases h₇
  refine ⟨fun _ c => ?_, fun _ _ => trivial⟩
  cases c <;> rfl

/-- The mutex is free again when the drain has returned: a reader that begins then is active during
the checkpoint work. -/
theorem drain_admits_reader :
    ∃ s, run DrainSystem.step (new true) [.drainEnter 0, .drainPoll 0, .passGate 0 .readOnly,
      .openTxn 0,
        .register 0] = some s ∧ s.drains 0 = .working ∧ 1 ∈ s.sys.tm.activeTransactions :=
  ⟨_, rfl, rfl, by decide⟩

end DrainSystem

end Akar
