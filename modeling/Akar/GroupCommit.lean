import Akar.Runs

namespace Akar

open Function

structure GroupCommitConfig where
  drainTimeout : Nat
  leaderTimeout : Nat

structure GroupCommitResult where
  lsn : Nat
  durableBatchLsn : Nat
  groupSize : Nat
  deriving DecidableEq, Repr

structure GroupCommitStats where
  batches : Nat
  commits : Nat
  totalGroupEntries : Nat

structure FlushError where
  kind : Nat
  text : String
  deriving DecidableEq, Repr

abbrev Outcome := Except FlushError GroupCommitResult

structure PendingCommit where
  lsn : Nat
  slot : Nat
  deriving DecidableEq, Repr

structure GroupFlush where
  durableBatchLsn : Nat
  groupSize : Nat
  ioResult : Except FlushError Unit

def GroupFlush.of (batch : List PendingCommit) (ioResult : Except FlushError Unit) : GroupFlush :=
  ⟨((batch.map PendingCommit.lsn).max?).getD 0, batch.length, ioResult⟩

def GroupFlush.outcome (g : GroupFlush) (entry : PendingCommit) : Outcome := match g.ioResult with
  | .ok () => .ok ⟨entry.lsn, g.durableBatchLsn, g.groupSize⟩
  | .error e => .error ⟨e.kind, "group fsync failed: " ++ e.text⟩

/-- Where `run_leader` is: before a round of the drain loop, past it, in `flush_to_disk`, before the
delivery to `entry`, or at its end with the leader lock still held. -/
inductive LeaderStage where
  | draining (batch : List PendingCommit) (deadline : Nat)
  | drained (batch : List PendingCommit)
  | flushing (batch : List PendingCommit)
  | delivering (entry : PendingCommit) (rest : List PendingCommit) (group : GroupFlush)
  | leaving

/-- Where a call of `flush` is: before the push, before a `try_lock` (the first, or one of the wait
loop), leading (with its deadline if any), before its deadline is set, or in the wait loop. -/
inductive CallPhase where
  | idle
  | numbered (lsn : Nat)
  | proposing
  | leading (stage : LeaderStage) (deadline : Option Nat)
  | settling
  | waiting (deadline : Nat)
  | claiming (deadline : Nat)
  | returned (outcome : Outcome)

/-- The committer with its calls. A call is made once; a thread that flushes again makes another
call. -/
structure GroupCommit where
  clock : Nat
  nextLsn : Nat
  queue : List PendingCommit
  leaderLock : Option Nat
  stats : GroupCommitStats
  phase : Nat → CallPhase
  slots : Nat → Option Outcome

inductive GroupCommitAction where
  | tick
  | number (c : Nat)
  | enqueue (c : Nat)
  | tryLead (c : Nat)
  | settle (c : Nat)
  | drain (c : Nat)
  | startFlush (c : Nat)
  | endFlush (c : Nat) (ioResult : Except FlushError Unit)
  | deliver (c : Nat) (slot : Nat)
  | release (c : Nat)
  | check (c : Nat)

def GroupCommitAction.actor : GroupCommitAction → Option Nat
  | tick => none
  | number c | enqueue c | tryLead c | settle c | drain c | startFlush c | endFlush c _
  | deliver c _ | release c
  | check c => some c

def LeaderStage.afterDrain (batch : List PendingCommit) (deadline clock : Nat) : LeaderStage :=
  if batch = [] then .leaving else if deadline ≤ clock then .drained batch else .draining batch deadline

def LeaderStage.nextDelivery (rest : List PendingCommit) (group : GroupFlush) : LeaderStage :=
  match rest with
  | [] => .leaving
  | entry :: rest => .delivering entry rest group

namespace GroupCommit

def new : GroupCommit := ⟨0, 0, [], none, ⟨0, 0, 0⟩, fun _ => .idle, fun _ => none⟩

def setPhase (s : GroupCommit) (c : Nat) (p : CallPhase) : GroupCommit :=
  { s with phase := update s.phase c p }

def recordGroup (s : GroupCommit) (size : Nat) : GroupCommit :=
  { s with stats := ⟨s.stats.batches + 1, s.stats.commits + size, s.stats.totalGroupEntries + size⟩ }

variable (cfg : GroupCommitConfig)

def lead (s : GroupCommit) (c : Nat) (deadline : Option Nat) : GroupCommit :=
  { s with leaderLock := some c }.setPhase c (.leading (.draining [] (s.clock + cfg.drainTimeout))
    deadline)

def step (s : GroupCommit) : GroupCommitAction → Option GroupCommit
  | .tick => some { s with clock := s.clock + 1 }
  | .number c =>
    match s.phase c with
    | .idle => some ({ s with nextLsn := s.nextLsn + 1 }.setPhase c (.numbered (s.nextLsn + 1)))
    | _ => none
  | .enqueue c =>
    match s.phase c with
    | .numbered lsn =>
      some ({ s with queue := s.queue ++ [PendingCommit.mk lsn c] }.setPhase c .proposing)
    | _ => none
  | .tryLead c =>
    match s.phase c, s.leaderLock with
    | .proposing, none => some (s.lead cfg c none)
    | .proposing, some _ => some (s.setPhase c .settling)
    | .claiming deadline, none => some (s.lead cfg c (some deadline))
    | .claiming deadline, some _ => some (s.setPhase c (.waiting deadline))
    | _, _ => none
  | .settle c =>
    match s.phase c with
    | .settling => some (s.setPhase c (.waiting (s.clock + cfg.leaderTimeout)))
    | _ => none
  | .drain c =>
    match s.phase c with
    | .leading (.draining batch deadline) d =>
      some ({ s with queue := [] }.setPhase c
        (.leading (.afterDrain (batch ++ s.queue) deadline s.clock) d))
    | _ => none
  | .startFlush c =>
    match s.phase c with
    | .leading (.drained batch) d => some (s.setPhase c (.leading (.flushing batch) d))
    | _ => none
  | .endFlush c ioResult =>
    match s.phase c with
    | .leading (.flushing batch) d =>
      some ((s.recordGroup batch.length).setPhase c
        (.leading (.nextDelivery batch (.of batch ioResult)) d))
    | _ => none
  | .deliver c slot =>
    match s.phase c with
    | .leading (.delivering entry rest group) d =>
      if entry.slot = slot then
        some ({ s with slots := update s.slots slot (some (group.outcome entry)) }.setPhase c
          (.leading (.nextDelivery rest group) d))
      else none
    | _ => none
  | .release c =>
    match s.phase c with
    | .leading .leaving d =>
      -- the first time the deadline is yet to be set
      some ({ s with leaderLock := none }.setPhase c (d.elim .settling .waiting))
    | _ => none
  | .check c =>
    match s.phase c, s.slots c with
    | .waiting _, some outcome =>
      some ({ s with slots := update s.slots c none }.setPhase c (.returned outcome))
    | .waiting deadline, none =>
      some (s.setPhase c (if deadline ≤ s.clock then .claiming deadline else .waiting deadline))
    | _, _ => none

inductive Step (s : GroupCommit) : GroupCommitAction → GroupCommit → Prop
  | tick : Step s .tick { s with clock := s.clock + 1 }
  | number {c : Nat} (h : s.phase c = .idle) :
    Step s (.number c) ({ s with nextLsn := s.nextLsn + 1 }.setPhase c (.numbered (s.nextLsn + 1)))
  | enqueue {c lsn : Nat} (h : s.phase c = .numbered lsn) :
    Step s (.enqueue c) ({ s with queue := s.queue ++ [PendingCommit.mk lsn c] }.setPhase c .proposing)
  | lead {c : Nat} {d : Option Nat} (h : s.phase c = .proposing ∧ d = none ∨ ∃ t, s.phase c = .claiming t ∧ d = some t)
    (hlock : s.leaderLock = none) : Step s (.tryLead c) (s.lead cfg c d)
  | settleLater {c l : Nat} (h : s.phase c = .proposing) (hlock : s.leaderLock = some l) :
    Step s (.tryLead c) (s.setPhase c .settling)
  | waitOn {c l deadline : Nat} (h : s.phase c = .claiming deadline) (hlock : s.leaderLock = some l) :
    Step s (.tryLead c) (s.setPhase c (.waiting deadline))
  | settle {c : Nat} (h : s.phase c = .settling) :
    Step s (.settle c) (s.setPhase c (.waiting (s.clock + cfg.leaderTimeout)))
  | drain {c deadline : Nat} {batch : List PendingCommit} {d : Option Nat}
    (h : s.phase c = .leading (.draining batch deadline) d) :
    Step s (.drain c)
      ({ s with queue := [] }.setPhase c (.leading (.afterDrain (batch ++ s.queue) deadline s.clock) d))
  | startFlush {c : Nat} {batch : List PendingCommit} {d : Option Nat} (h : s.phase c = .leading (.drained batch) d) :
    Step s (.startFlush c) (s.setPhase c (.leading (.flushing batch) d))
  | endFlush {c : Nat} {batch : List PendingCommit} {d : Option Nat} (ioResult : Except FlushError Unit)
    (h : s.phase c = .leading (.flushing batch) d) :
    Step s (.endFlush c ioResult)
      ((s.recordGroup batch.length).setPhase c (.leading (.nextDelivery batch (.of batch ioResult)) d))
  | deliver {c : Nat} {entry : PendingCommit} {rest : List PendingCommit} {group : GroupFlush} {d : Option Nat}
    (h : s.phase c = .leading (.delivering entry rest group) d) :
    Step s (.deliver c entry.slot)
      ({ s with slots := update s.slots entry.slot (some (group.outcome entry)) }.setPhase c
        (.leading (.nextDelivery rest group) d))
  | release {c : Nat} {d : Option Nat} (h : s.phase c = .leading .leaving d) :
    Step s (.release c) ({ s with leaderLock := none }.setPhase c (d.elim .settling .waiting))
  | take {c deadline : Nat} {outcome : Outcome} (h : s.phase c = .waiting deadline) (hslot : s.slots c = some outcome) :
    Step s (.check c) ({ s with slots := update s.slots c none }.setPhase c
      (.returned outcome))
  | claim {c deadline : Nat} (h : s.phase c = .waiting deadline) (hslot : s.slots c = none) (hlate : deadline ≤ s.clock) :
    Step s (.check c) (s.setPhase c (.claiming deadline))
  | wait {c deadline : Nat} (h : s.phase c = .waiting deadline) (hslot : s.slots c = none) (hearly : s.clock < deadline) :
    Step s (.check c) (s.setPhase c (.waiting deadline))

variable {cfg}

theorem step_cases {s t : GroupCommit} {a : GroupCommitAction} (h : s.step cfg a = some t) :
    Step cfg s a t := by
  cases a with
  | tick =>
    cases h
    exact .tick
  | number =>
    simp only [step] at h
    split at h
    next hp => cases h; exact .number hp
    next => cases h
  | enqueue =>
    simp only [step] at h
    split at h
    next hp => cases h; exact .enqueue hp
    next => cases h
  | tryLead =>
    simp only [step] at h
    split at h
    next hp hl => cases h; exact .lead (.inl ⟨hp, rfl⟩) hl
    next hp hl => cases h; exact .settleLater hp hl
    next hp hl => cases h; exact .lead (.inr ⟨_, hp, rfl⟩) hl
    next hp hl => cases h; exact .waitOn hp hl
    next => cases h
  | settle =>
    simp only [step] at h
    split at h
    next hp => cases h; exact .settle hp
    next => cases h
  | drain =>
    simp only [step] at h
    split at h
    next hp => cases h; exact .drain hp
    next => cases h
  | startFlush =>
    simp only [step] at h
    split at h
    next hp => cases h; exact .startFlush hp
    next => cases h
  | endFlush c ioResult =>
    simp only [step] at h
    split at h
    next hp => cases h; exact .endFlush ioResult hp
    next => cases h
  | deliver =>
    simp only [step] at h
    split at h
    next hp =>
      split at h
      next hs => subst hs; cases h; exact .deliver hp
      next => cases h
    next => cases h
  | release =>
    simp only [step] at h
    split at h
    next hp => cases h; exact .release hp
    next => cases h
  | check =>
    simp only [step] at h
    split at h
    next hp hs => cases h; exact .take hp hs
    next deadline hp hs =>
      split at h
      next hlate =>
        cases h
        exact .claim hp hs hlate
      next hlate =>
        cases h
        exact .wait hp hs (Nat.lt_of_not_le hlate)
    next => cases h

end GroupCommit

end Akar
