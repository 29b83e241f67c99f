import Akar.GroupCommitSafety
import Akar.Traces

namespace Akar

open List LeaderStage Bool

def CallPhase.trying : CallPhase → Bool
  | proposing | claiming _ => true
  | _ => false

def CallPhase.underway : CallPhase → Bool
  | idle | returned _ => false
  | _ => true

/-- An endless run of the committer in which no call under way is left out for ever and time goes
on. -/
structure FairTrace (cfg : GroupCommitConfig) extends Trace (GroupCommit.step cfg) .new where
  fair : ∀ n c, ((state n).phase c).underway = true → ∃ m, n ≤ m ∧ (act m).actor = some c
  time : ∀ k, ∃ n, k ≤ (state n).clock

namespace LeaderStage

def isDraining : LeaderStage → Bool
  | draining .. => true
  | _ => false

def rank : LeaderStage → Nat
  | draining .. | leaving => 0
  | drained batch => batch.length + 3
  | flushing batch => batch.length + 2
  | delivering _ rest _ => rest.length + 1

theorem isDraining_nextDelivery (rest : List PendingCommit) (group : GroupFlush) :
    (nextDelivery rest group).isDraining = false := by
  cases rest <;> rfl

theorem rank_nextDelivery_le (rest : List PendingCommit) (group : GroupFlush) :
    (nextDelivery rest group).rank ≤ rest.length := by
  cases rest with
  | nil => exact Nat.le_refl 0
  | cons => exact Nat.le_refl _

end LeaderStage

variable {cfg : GroupCommitConfig} {e : PendingCommit}

namespace GroupCommit

variable {s t : GroupCommit} {a : GroupCommitAction} {c : Nat}

theorem clock_mono (h : s.step cfg a = some t) : s.clock ≤ t.clock := by
  cases step_cases h with
  | tick => exact Nat.le_succ _
  | _ => exact Nat.le_refl _

variable {dl : Option Nat}

theorem past_step {stage : LeaderStage} (h : s.step cfg a = some t) (ha : a.actor = some c)
    (hp : s.phase c = .leading stage dl) (hpast : stage.isDraining = false) :
    (stage = .leaving ∧ t.phase c = dl.elim .settling .waiting) ∨
      ∃ stage', t.phase c = .leading stage' dl ∧ stage'.isDraining = false ∧ stage'.rank < stage.rank ∧
        ∀ e ∈ stage.entries, e ∈ stage'.entries ∨ (t.slots e.slot).isSome = true := by
  cases step_cases h with
  | tick => cases ha
  | number hp' | enqueue hp' | settleLater hp' | waitOn hp' | settle hp' | take hp' | claim hp'
  | wait hp' =>
    cases ha
    rw [hp] at hp'
    cases hp'
  | lead hp' =>
    cases ha
    rw [hp] at hp'
    obtain ⟨hp', -⟩ | ⟨deadline, hp', -⟩ := hp'
    · cases hp'
    · cases hp'
  | drain hp' =>
    cases ha
    rw [hp] at hp'
    cases hp'
    cases hpast
  | startFlush hp' =>
    cases ha
    rw [hp] at hp'
    cases hp'
    exact .inr ⟨_, setPhase_phase_self .., rfl, Nat.lt_succ_self _, fun e he => .inl he⟩
  | @endFlush c batch dl ioResult hp' =>
    cases ha
    rw [hp] at hp'
    cases hp'
    have hrank := rank_nextDelivery_le batch (.of batch ioResult)
    refine .inr ⟨_, setPhase_phase_self .., isDraining_nextDelivery .., ?_, fun e he => .inl ?_⟩
    · exact Nat.lt_of_le_of_lt hrank (Nat.lt_add_of_pos_right (by decide))
    · rw [entries_nextDelivery]
      exact he
  | @deliver c entry rest group dl hp' =>
    cases ha
    rw [hp] at hp'
    cases hp'
    have hrank := rank_nextDelivery_le rest group
    refine .inr ⟨_, setPhase_phase_self .., isDraining_nextDelivery .., Nat.lt_succ_of_le hrank, ?_⟩
    intro e he
    rcases mem_cons.mp he with rfl | he
    · right
      rw [setPhase_slots]
      dsimp only
      rw [Function.update_self]
      rfl
    · left
      rw [entries_nextDelivery]
      exact he
  | release hp' =>
    cases ha
    rw [hp] at hp'
    cases hp'
    exact .inl ⟨rfl, setPhase_phase_self ..⟩

variable {deadline : Nat}

theorem draining_step {batch : List PendingCommit} (h : s.step cfg a = some t)
    (ha : a.actor = some c) (hp : s.phase c = .leading (.draining batch deadline) dl) :
    a = .drain c ∧ t.queue = [] ∧ t.phase c =
      .leading (.afterDrain (batch ++ s.queue) deadline s.clock) dl := by
  cases step_cases h with
  | tick => cases ha
  | drain hp' =>
    cases ha
    rw [hp] at hp'
    cases hp'
    exact ⟨rfl, rfl, setPhase_phase_self ..⟩
  | lead hp' =>
    cases ha
    rw [hp] at hp'
    obtain ⟨hp', -⟩ | ⟨_, hp', -⟩ := hp'
    · cases hp'
    · cases hp'
  | number hp' | enqueue hp' | settleLater hp' | waitOn hp' | settle hp' | startFlush hp'
  | endFlush _ hp'
  | deliver hp' | release hp' | take hp' | claim hp' | wait hp' =>
    cases ha
    rw [hp] at hp'
    cases hp'

section

variable (h : s.step cfg a = some t)
include h

theorem trying_step (ha : a.actor = some c) (hp : (s.phase c).trying = true) :
    (s.leaderLock = none ∧ ∃ deadline dl, t.phase c = .leading (.draining [] deadline) dl) ∨
      (s.leaderLock ≠ none ∧ (t.phase c = .settling ∨ ∃ deadline, t.phase c = .waiting deadline)) := by
  cases step_cases h with
  | tick => cases ha
  | lead _ hlock =>
    cases ha
    exact .inl ⟨hlock, _, _, setPhase_phase_self ..⟩
  | settleLater _ hlock =>
    cases ha
    exact .inr ⟨by rw [hlock]; nofun, .inl (setPhase_phase_self ..)⟩
  | waitOn _ hlock =>
    cases ha
    exact .inr ⟨by rw [hlock]; nofun, .inr ⟨_, setPhase_phase_self ..⟩⟩
  | number hp' | enqueue hp' | settle hp' | drain hp' | startFlush hp' | endFlush _ hp'
  | deliver hp' | release hp'
  | take hp' | claim hp' | wait hp' =>
    cases ha
    rw [hp'] at hp
    cases hp

theorem settling_step (ha : a.actor = some c) (hp : s.phase c = .settling) :
    ∃ deadline, t.phase c = .waiting deadline := by
  cases step_cases h with
  | tick => cases ha
  | settle =>
    cases ha
    exact ⟨_, setPhase_phase_self ..⟩
  | lead hp' =>
    cases ha
    rw [hp] at hp'
    obtain ⟨hp', -⟩ | ⟨_, hp', -⟩ := hp'
    · cases hp'
    · cases hp'
  | number hp' | enqueue hp' | settleLater hp' | waitOn hp' | drain hp' | startFlush hp'
  | endFlush _ hp'
  | deliver hp' | release hp' | take hp' | claim hp' | wait hp' =>
    cases ha
    rw [hp] at hp'
    cases hp'

theorem waiting_step (ha : a.actor = some c) (hp : s.phase c = .waiting deadline) :
    (∃ outcome, s.slots c = some outcome ∧ t.phase c = .returned outcome) ∨
      (s.slots c = none ∧ deadline ≤ s.clock ∧ t.phase c = .claiming deadline) ∨
      (s.slots c = none ∧ s.clock < deadline ∧ t.phase c = .waiting deadline) := by
  cases step_cases h with
  | tick => cases ha
  | take hp' hslot =>
    cases ha
    exact .inl ⟨_, hslot, setPhase_phase_self ..⟩
  | claim hp' hslot hlate =>
    cases ha
    rw [hp] at hp'
    cases hp'
    exact .inr (.inl ⟨hslot, hlate, setPhase_phase_self ..⟩)
  | wait hp' hslot hearly =>
    cases ha
    rw [hp] at hp'
    cases hp'
    exact .inr (.inr ⟨hslot, hearly, setPhase_phase_self ..⟩)
  | lead hp' =>
    cases ha
    rw [hp] at hp'
    obtain ⟨hp', -⟩ | ⟨_, hp', -⟩ := hp'
    · cases hp'
    · cases hp'
  | number hp' | enqueue hp' | settleLater hp' | waitOn hp' | settle hp' | drain hp'
  | startFlush hp' | endFlush _ hp'
  | deliver hp' | release hp' =>
    cases ha
    rw [hp] at hp'
    cases hp'

theorem leaderLock_step : t.leaderLock = s.leaderLock ∨ t.leaderLock = none ∨
    ∃ c deadline dl, t.phase c = .leading (.draining [] deadline) dl := by
  cases step_cases h with
  | release => exact .inr (.inl rfl)
  | lead => exact .inr (.inr ⟨_, _, _, setPhase_phase_self ..⟩)
  | _ => exact .inl rfl

theorem queue_step (ha : ∀ c, a ≠ .drain c) (he : e ∈ s.queue) : e ∈ t.queue := by
  cases step_cases h with
  | drain => exact absurd rfl (ha _)
  | enqueue => exact mem_append_left _ he
  | _ => exact he

end

theorem drain_takes (h : s.step cfg (.drain c) = some t) :
    ∃ stage dl, t.phase c = .leading stage dl ∧ ∀ e ∈ s.queue, e ∈ stage.entries := by
  cases step_cases h with
  | drain =>
    refine ⟨_, _, setPhase_phase_self .., fun e he => ?_⟩
    rw [entries_afterDrain]
    exact mem_append_right _ he

theorem exists_leader_of_held (h : e ∈ s.held) : ∃ l stage dl, s.phase l = .leading stage dl ∧
    e ∈ stage.entries := by
  cases hlock : s.leaderLock with
  | none =>
    rw [held_of_no_lock hlock] at h
    cases h
  | some l =>
    rw [held_of_lock hlock] at h
    cases hp : s.phase l with
    | leading stage dl =>
      rw [hp] at h
      exact ⟨l, stage, dl, hp, h⟩
    | _ =>
      rw [hp] at h
      cases h

theorem Sound.no_answer (hs : Sound s) (he : e ∈ s.queue) :
    (s.phase e.slot).submitted = true ∧ s.answers e.slot = 0 := by
  have hplaced := hs.placed e.slot
  have hpos : 0 < s.queue.countP (·.slot = e.slot) := countP_pos_iff.mpr ⟨e, he, by simp⟩
  have hle : (s.phase e.slot).submitted.toNat ≤ 1 := toNat_le _
  rw [places] at hplaced
  refine ⟨?_, by rw [answers]; omega⟩
  cases hsub : (s.phase e.slot).submitted with
  | true => rfl
  | false =>
    rw [hsub, toNat_false] at hplaced
    omega

end GroupCommit

namespace FairTrace

open GroupCommit

variable (tr : FairTrace cfg) {n c : Nat}

theorem sound (n : Nat) : Sound (tr.state n) := tr.invariant sound_new (fun _ _ _ => Sound.step) n

variable {m : Nat}

theorem clock_le {n : Nat} (h : n ≤ m) : (tr.state n).clock ≤ (tr.state m).clock :=
  tr.persists (R := fun s => (tr.state n).clock ≤ s.clock) h (Nat.le_refl _)
    fun j _ hj => Nat.le_trans hj (clock_mono (tr.next j))

theorem exists_late (n k : Nat) : ∃ m, n ≤ m ∧ k ≤ (tr.state m).clock := by
  obtain ⟨m, hm⟩ := tr.time k
  exact ⟨max n m, Nat.le_max_left .., Nat.le_trans hm (tr.clock_le (Nat.le_max_right ..))⟩

variable {p : CallPhase}

theorem eventually_of_phase {Q : GroupCommit → Prop} (hp : (tr.state n).phase c = p)
    (hunder : p.underway = true)
    (hact : ∀ k, n ≤ k → (tr.state k).phase c = p → (tr.act k).actor = some c → Q (tr.state (k + 1))) :
    ∃ m, n ≤ m ∧ Q (tr.state m) := by
  refine tr.eventually_of_act (R := fun s => s.phase c = p) hp (tr.fair n c (hp ▸ hunder)) ?_ hact
  intro k _ hk ha
  exact .inl ((phase_frame (tr.next k) ha).trans hk)

variable {stage : LeaderStage} {dl : Option Nat}

theorem past_ends (hp : (tr.state n).phase c = .leading stage dl) (hpast : stage.isDraining = false) :
    ∃ m, n ≤ m ∧ (tr.state m).phase c = dl.elim .settling .waiting := by
  refine tr.eventually_of_rank (Q := fun s => s.phase c = dl.elim .settling .waiting)
    (R := fun r s => ∃ stage, s.phase c = .leading stage dl ∧ stage.isDraining = false ∧
      stage.rank = r) ?_
    ⟨stage, hp, hpast, rfl⟩
  rintro r n ⟨stage, hp, hpast, rfl⟩
  refine tr.eventually_of_phase (Q := fun s => s.phase c = dl.elim .settling .waiting ∨ ∃ r' <
    stage.rank, ∃ stage,
    s.phase c = .leading stage dl ∧ stage.isDraining = false ∧ stage.rank = r') hp rfl fun k _ hk
      ha => ?_
  obtain ⟨-, hend⟩ | ⟨stage', hp', hpast', hlt, -⟩ := past_step (tr.next k) ha hk hpast
  · exact .inl hend
  · exact .inr ⟨stage'.rank, hlt, stage', hp', hpast', rfl⟩

theorem past_answers {e : PendingCommit} (hp : (tr.state n).phase c = .leading stage dl)
    (hpast : stage.isDraining = false) (he : e ∈ stage.entries) :
    ∃ m, n ≤ m ∧ ((tr.state m).slots e.slot).isSome = true := by
  refine tr.eventually_of_rank (Q := fun s => (s.slots e.slot).isSome = true)
    (R := fun r s => ∃ stage, s.phase c = .leading stage dl ∧ stage.isDraining = false ∧
      e ∈ stage.entries ∧
      stage.rank = r) ?_ ⟨stage, hp, hpast, he, rfl⟩
  rintro r n ⟨stage, hp, hpast, he, rfl⟩
  refine tr.eventually_of_phase (Q := fun s => (s.slots e.slot).isSome = true ∨ ∃ r' < stage.rank,
    ∃ stage,
    s.phase c = .leading stage dl ∧ stage.isDraining = false ∧ e ∈ stage.entries ∧ stage.rank = r')
      hp rfl
    fun k _ hk ha => ?_
  obtain ⟨hleaving, -⟩ | ⟨stage', hp', hpast', hlt, hentries⟩ := past_step (tr.next k) ha hk hpast
  · rw [hleaving] at he
    cases he
  · rcases hentries e he with he' | hslot
    · exact .inr ⟨stage'.rank, hlt, stage', hp', hpast', he', rfl⟩
    · exact .inl hslot

variable {deadline : Nat}

theorem draining_ends {batch : List PendingCommit}
    (hp : (tr.state n).phase c = .leading (.draining batch deadline) dl) :
    ∃ m, n ≤ m ∧ ∃ stage, (tr.state m).phase c = .leading stage dl ∧ stage.isDraining = false ∧
      ∀ e ∈ batch, e ∈ stage.entries := by
  by_contra hnever
  have hround : ∀ k batch', n ≤ k → (∀ e ∈ batch, e ∈ batch') →
      (tr.state k).phase c = .leading (.draining batch' deadline) dl → (tr.act k).actor = some c →
      (tr.state k).clock < deadline ∧
        (tr.state (k + 1)).phase c = .leading (.draining (batch' ++ (tr.state k).queue) deadline)
          dl := by
    intro k batch' hk hsub hphase ha
    obtain ⟨-, -, hnext⟩ := draining_step (tr.next k) ha hphase
    have hentries : ∀ e ∈ batch, e ∈ batch' ++ (tr.state k).queue :=
      fun e he => mem_append_left _ (hsub e he)
    unfold LeaderStage.afterDrain at hnext
    split at hnext
    next hnil =>
      refine absurd ⟨k + 1, by omega, .leaving, hnext, rfl, fun e he => ?_⟩ hnever
      have hmem := hentries e he
      rw [hnil] at hmem
      cases hmem
    next =>
      split at hnext
      next => exact absurd ⟨k + 1, by omega, _, hnext, rfl, hentries⟩ hnever
      next hearly => exact ⟨Nat.lt_of_not_le hearly, hnext⟩
  have hlasts : ∀ m, n ≤ m → ∃ batch', (tr.state m).phase c = .leading (.draining batch' deadline) dl ∧
      ∀ e ∈ batch, e ∈ batch' := by
    intro m hm
    refine tr.persists (R := fun s => ∃ batch', s.phase c = .leading (.draining batch' deadline) dl ∧
      ∀ e ∈ batch, e ∈ batch') hm ⟨batch, hp, fun _ he => he⟩ ?_
    rintro k hk ⟨batch', hphase, hsub⟩
    by_cases ha : (tr.act k).actor = some c
    · obtain ⟨-, hnext⟩ := hround k batch' hk hsub hphase ha
      exact ⟨_, hnext, fun e he => mem_append_left _ (hsub e he)⟩
    · exact ⟨batch', (phase_frame (tr.next k) ha).trans hphase, hsub⟩
  obtain ⟨k, hk, hlate⟩ := tr.exists_late n deadline
  obtain ⟨batch₁, hphase₁, -⟩ := hlasts k hk
  obtain ⟨j, hj, ha⟩ := tr.fair k c (by rw [hphase₁]; rfl)
  obtain ⟨batch₂, hphase₂, hsub₂⟩ := hlasts j (by omega)
  have hearly := (hround j batch₂ (by omega) hsub₂ hphase₂ ha).1
  have hmono := tr.clock_le hj
  omega

theorem leading_ends (hp : (tr.state n).phase c = .leading stage dl) :
    ∃ m, n ≤ m ∧ (tr.state m).phase c = dl.elim .settling .waiting := by
  cases hstage : stage.isDraining with
  | false => exact tr.past_ends hp hstage
  | true =>
    cases stage with
    | draining =>
      obtain ⟨m, hm, stage, hp, hpast, -⟩ := tr.draining_ends hp
      obtain ⟨m', hm', hend⟩ := tr.past_ends hp hpast
      exact ⟨m', by omega, hend⟩
    | _ => cases hstage

theorem held_answered {e : PendingCommit} (hp : (tr.state n).phase c = .leading stage dl)
    (he : e ∈ stage.entries) :
    ∃ m, n ≤ m ∧ ((tr.state m).slots e.slot).isSome = true := by
  cases hstage : stage.isDraining with
  | false => exact tr.past_answers hp hstage he
  | true =>
    cases stage with
    | draining =>
      obtain ⟨m, hm, stage, hp, hpast, hentries⟩ := tr.draining_ends hp
      obtain ⟨m', hm', hslot⟩ := tr.past_answers hp hpast (hentries e he)
      exact ⟨m', by omega, hslot⟩
    | _ => cases hstage

theorem answers_le {n : Nat} (h : n ≤ m) (c : Nat) : (tr.state n).answers c ≤
    (tr.state m).answers c := by
  refine tr.persists (R := fun s => (tr.state n).answers c ≤ s.answers c) h (Nat.le_refl _) fun j _
    hj => ?_
  have hstep := answers_step (tr.sound j) (tr.next j) c
  omega

section

variable (h : 0 < (tr.state n).answers c)
include h

theorem waiting_returns (hp : (tr.state n).phase c = .waiting deadline) : ∃ m, n ≤ m ∧
    ((tr.state m).phase c).isReturned = true := by
  refine tr.eventually_of_phase (Q := fun s => (s.phase c).isReturned = true) hp rfl fun k hk hp
    ha => ?_
  have hanswers := Nat.lt_of_lt_of_le h (tr.answers_le hk c)
  obtain ⟨outcome, -, hnext⟩ | ⟨hslot, -⟩ | ⟨hslot, -⟩ := waiting_step (tr.next k) ha hp
  · rw [hnext]
    rfl
  · rw [answers, hslot, hp] at hanswers
    cases hanswers
  · rw [answers, hslot, hp] at hanswers
    cases hanswers

theorem settled_returns (hp : (tr.state n).phase c = .settling ∨ ∃ deadline, (tr.state n).phase c =
    .waiting deadline) :
    ∃ m, n ≤ m ∧ ((tr.state m).phase c).isReturned = true := by
  obtain hp | ⟨deadline, hp⟩ := hp
  · obtain ⟨m, hm, deadline, hp⟩ := tr.eventually_of_phase (Q := fun s => ∃ deadline, s.phase c =
      .waiting deadline) hp
      rfl fun k _ hp ha => settling_step (tr.next k) ha hp
    obtain ⟨m', hm', hret⟩ := tr.waiting_returns (Nat.lt_of_lt_of_le h (tr.answers_le hm c)) hp
    exact ⟨m', by omega, hret⟩
  · exact tr.waiting_returns h hp

theorem leading_returns (hp : (tr.state n).phase c = .leading stage dl) :
    ∃ m, n ≤ m ∧ ((tr.state m).phase c).isReturned = true := by
  obtain ⟨m, hm, hend⟩ := tr.leading_ends hp
  have hphase : (tr.state m).phase c = .settling ∨ ∃ deadline, (tr.state m).phase c =
      .waiting deadline := by
    cases dl with
    | none => exact .inl hend
    | some deadline => exact .inr ⟨deadline, hend⟩
  obtain ⟨m', hm', hret⟩ := tr.settled_returns (Nat.lt_of_lt_of_le h (tr.answers_le hm c)) hphase
  exact ⟨m', by omega, hret⟩

theorem trying_returns (hp : (tr.state n).phase c = p) (htry : p.trying = true)
    (hunder : p.underway = true) :
    ∃ m, n ≤ m ∧ ((tr.state m).phase c).isReturned = true := by
  obtain ⟨m, hm, hnext⟩ :=
    tr.eventually_of_phase (Q := fun s => (∃ stage dl, s.phase c = .leading stage dl) ∨
      (s.phase c = .settling ∨ ∃ deadline, s.phase c = .waiting deadline)) hp hunder fun k _ hp ha => by
    obtain ⟨-, deadline, dl, hnext⟩ | ⟨-, hnext⟩ := trying_step (tr.next k) ha (hp ▸ htry)
    · exact .inl ⟨_, _, hnext⟩
    · exact .inr hnext
  have hanswers := Nat.lt_of_lt_of_le h (tr.answers_le hm c)
  obtain ⟨stage, dl, hp⟩ | hp := hnext
  · obtain ⟨m', hm', hret⟩ := tr.leading_returns hanswers hp
    exact ⟨m', by omega, hret⟩
  · obtain ⟨m', hm', hret⟩ := tr.settled_returns hanswers hp
    exact ⟨m', by omega, hret⟩

theorem answered_returns : ∃ m, n ≤ m ∧ ((tr.state m).phase c).isReturned = true := by
  have hplaced := (tr.sound n).placed c
  cases hp : (tr.state n).phase c with
  | idle | numbered _ =>
    rw [places, hp] at hplaced
    rw [answers, hp] at h
    simp only [CallPhase.submitted, CallPhase.isReturned, toNat_false] at hplaced h
    omega
  | proposing | claiming _ => exact tr.trying_returns h hp rfl rfl
  | leading stage dl => exact tr.leading_returns h hp
  | settling => exact tr.settled_returns h (.inl hp)
  | waiting deadline => exact tr.waiting_returns h hp
  | returned outcome => exact ⟨n, Nat.le_refl n, by rw [hp]; rfl⟩

end

def Stuck (n : Nat) (e : PendingCommit) : Prop := ∀ k, n ≤ k → e ∈ (tr.state k).queue

variable {tr}

section

variable (h : tr.Stuck n e)
include h

theorem Stuck.mono (hm : n ≤ m) : tr.Stuck m e := fun k hk => h k (by omega)

theorem Stuck.no_draining (l : Nat) (batch : List PendingCommit) (deadline : Nat) (dl : Option Nat) :
    (tr.state n).phase l ≠ .leading (.draining batch deadline) dl := by
  intro hp
  obtain ⟨-, -, hfalse⟩ := tr.eventually_of_phase (Q := fun _ => False) hp rfl fun k hk hp ha => by
    obtain ⟨-, hqueue, -⟩ := draining_step (tr.next k) ha hp
    have hmem := h (k + 1) (by omega)
    rw [hqueue] at hmem
    cases hmem
  exact hfalse

theorem Stuck.lock_free : ∃ m, n ≤ m ∧ ∀ k, m ≤ k → (tr.state k).leaderLock = none := by
  have hstep : ∀ k, n ≤ k → (tr.state (k + 1)).leaderLock = (tr.state k).leaderLock ∨
      (tr.state (k + 1)).leaderLock = none := by
    intro k hk
    obtain hsame | hfree | ⟨l, deadline, dl, hp⟩ := leaderLock_step (tr.next k)
    · exact .inl hsame
    · exact .inr hfree
    · exact ((h.mono (m := k + 1) (by omega)).no_draining _ _ _ _ hp).elim
  have hfree : ∀ m, n ≤ m → (tr.state m).leaderLock = none → ∀ k, m ≤ k → (tr.state k).leaderLock =
      none := by
    intro m hm hfree k hk
    refine tr.persists (R := fun s => s.leaderLock = none) hk hfree fun j hj hnone => ?_
    rcases hstep j (by omega) with hsame | hnone'
    · exact hsame.trans hnone
    · exact hnone'
  cases hlock : (tr.state n).leaderLock with
  | none => exact ⟨n, Nat.le_refl n, hfree n (Nat.le_refl n) hlock⟩
  | some l =>
    have hleads := ((tr.sound n).lock l).mpr hlock
    cases hp : (tr.state n).phase l with
    | leading stage dl =>
      obtain ⟨m, hm, hend⟩ := tr.leading_ends hp
      refine ⟨m, hm, hfree m hm ?_⟩
      have hkept : (tr.state m).leaderLock = some l ∨ (tr.state m).leaderLock = none := by
        refine tr.persists (R := fun s => s.leaderLock = some l ∨ s.leaderLock = none) hm
          (.inl hlock) ?_
        intro j hj hor
        rcases hstep j hj with hsame | hnone
        · rw [hsame]
          exact hor
        · exact .inr hnone
      rcases hkept with hl | hnone
      · have hleads' := ((tr.sound m).lock l).mpr hl
        rw [hend] at hleads'
        cases dl <;> cases hleads'
      · exact hnone
    | _ =>
      rw [hp] at hleads
      cases hleads

theorem Stuck.not_trying (hfree : ∀ k, n ≤ k → (tr.state k).leaderLock = none)
    (hp : (tr.state n).phase e.slot = p) (hunder : p.underway = true) : p.trying = false := by
  cases htry : p.trying with
  | false => rfl
  | true =>
    obtain ⟨-, -, hfalse⟩ := tr.eventually_of_phase (Q := fun _ => False) hp hunder fun k hk hp ha => by
      obtain ⟨-, deadline, dl, hnext⟩ | ⟨hlock, -⟩ := trying_step (tr.next k) ha (hp ▸ htry)
      · exact (h.mono (by omega)).no_draining _ _ _ _ hnext
      · exact hlock (hfree k hk)
    exact hfalse.elim

theorem Stuck.slot_empty {k : Nat} (hk : n ≤ k) : (tr.state k).slots e.slot = none := by
  have hnone := ((tr.sound k).no_answer (h k hk)).2
  cases hslot : (tr.state k).slots e.slot with
  | none => rfl
  | some outcome =>
    rw [answers, hslot, Option.isSome_some, toNat_true] at hnone
    omega

theorem Stuck.not_waiting (hfree : ∀ k, n ≤ k → (tr.state k).leaderLock = none) (deadline : Nat) :
    (tr.state n).phase e.slot ≠ .waiting deadline := by
  intro hp
  have hround : ∀ k, n ≤ k → (tr.state k).phase e.slot = .waiting deadline → (tr.act k).actor =
      some e.slot →
      (tr.state k).clock < deadline ∧ (tr.state (k + 1)).phase e.slot = .waiting deadline := by
    intro k hk hp ha
    obtain ⟨outcome, hslot, -⟩ | ⟨-, -, hnext⟩ | ⟨-, hearly, hnext⟩ := waiting_step (tr.next k) ha hp
    · rw [h.slot_empty hk] at hslot
      cases hslot
    · have hnot := (h.mono (by omega)).not_trying (fun j hj => hfree j (by omega)) hnext rfl
      cases hnot
    · exact ⟨hearly, hnext⟩
  have hlasts : ∀ m, n ≤ m → (tr.state m).phase e.slot = .waiting deadline := by
    intro m hm
    refine tr.persists (R := fun s => s.phase e.slot = .waiting deadline) hm hp fun k hk hp => ?_
    by_cases ha : (tr.act k).actor = some e.slot
    · exact (hround k hk hp ha).2
    · exact (phase_frame (tr.next k) ha).trans hp
  obtain ⟨k, hk, hlate⟩ := tr.exists_late n deadline
  obtain ⟨j, hj, ha⟩ := tr.fair k e.slot (by rw [hlasts k hk]; rfl)
  have hearly := (hround j (by omega) (hlasts j (by omega)) ha).1
  have hmono := tr.clock_le hj
  omega

end

theorem not_stuck (n : Nat) (e : PendingCommit) : ¬tr.Stuck n e := by
  intro h
  obtain ⟨m, hm, hfree⟩ := h.lock_free
  have hm' := h.mono hm
  obtain ⟨hsub, hnone⟩ := (tr.sound m).no_answer (hm' m (Nat.le_refl m))
  cases hp : (tr.state m).phase e.slot with
  | idle | numbered _ =>
    rw [hp] at hsub
    cases hsub
  | proposing | claiming _ => cases hm'.not_trying hfree hp rfl
  | leading stage dl =>
    have hlock := (tr.sound m).lock_of_leading hp
    rw [hfree m (Nat.le_refl m)] at hlock
    cases hlock
  | settling =>
    obtain ⟨k, hk, deadline, hwait⟩ := tr.eventually_of_phase
      (Q := fun s => ∃ deadline, s.phase e.slot = .waiting deadline) hp rfl
      fun k _ hp ha => settling_step (tr.next k) ha hp
    exact (hm'.mono hk).not_waiting (fun j hj => hfree j (by omega)) deadline hwait
  | waiting deadline => exact hm'.not_waiting hfree deadline hp
  | returned outcome =>
    rw [answers, hp] at hnone
    cases hnone

theorem queued_answered (he : e ∈ (tr.state n).queue) : ∃ m, n ≤ m ∧
    ((tr.state m).slots e.slot).isSome = true := by
  have hdrained : ∃ m, n ≤ m ∧ ∃ l stage dl, (tr.state m).phase l = .leading stage dl ∧
      e ∈ stage.entries := by
    by_contra hnever
    refine not_stuck n e (show tr.Stuck n e from fun k hk => ?_)
    refine tr.persists (R := fun s => e ∈ s.queue) hk he fun j hj he => ?_
    refine queue_step (tr.next j) (fun l hl => ?_) he
    obtain ⟨stage, dl, hp, hentries⟩ := drain_takes (hl ▸ tr.next j)
    exact hnever ⟨j + 1, by omega, l, stage, dl, hp, hentries e he⟩
  obtain ⟨m, hm, l, stage, dl, hp, he⟩ := hdrained
  obtain ⟨m', hm', hslot⟩ := tr.held_answered hp he
  exact ⟨m', by omega, hslot⟩

variable (tr)

theorem submitted_returns (h : ((tr.state n).phase c).submitted = true) :
    ∃ m, n ≤ m ∧ ((tr.state m).phase c).isReturned = true := by
  have hplaced := (tr.sound n).placed c
  rw [h, places, toNat_true] at hplaced
  have hslot : ∀ m, n ≤ m → ((tr.state m).slots c).isSome = true →
      ∃ m, n ≤ m ∧ ((tr.state m).phase c).isReturned = true := by
    intro m hm hsome
    have hpos : 0 < (tr.state m).answers c := by
      rw [answers, hsome, toNat_true]
      omega
    obtain ⟨m', hm', hret⟩ := tr.answered_returns hpos
    exact ⟨m', by omega, hret⟩
  by_cases hqueue : ∃ e ∈ (tr.state n).queue, e.slot = c
  · obtain ⟨e, he, rfl⟩ := hqueue
    obtain ⟨m, hm, hsome⟩ := queued_answered he
    exact hslot m hm hsome
  by_cases hheld : ∃ e ∈ (tr.state n).held, e.slot = c
  · obtain ⟨e, he, rfl⟩ := hheld
    obtain ⟨l, stage, dl, hp, he⟩ := exists_leader_of_held he
    obtain ⟨m, hm, hsome⟩ := tr.held_answered hp he
    exact hslot m hm hsome
  · have hzero : ∀ l : List PendingCommit, (¬∃ e ∈ l, e.slot = c) → l.countP (·.slot = c) = 0 := by
      intro l hl
      exact countP_eq_zero.mpr fun e he heq => hl ⟨e, he, by simpa using heq⟩
    rw [hzero _ hqueue, hzero _ hheld] at hplaced
    have hpos : 0 < (tr.state n).answers c := by rw [answers]; omega
    exact tr.answered_returns hpos

end FairTrace

namespace GroupCommit

variable {s : GroupCommit} {as : List GroupCommitAction}

theorem Recorded.answers_le_one (hr : Recorded as s) (c : Nat) : s.answers c ≤ 1 := by
  have hplaced := hr.sound.placed c
  have hle : (s.phase c).submitted.toNat ≤ 1 := toNat_le _
  rw [places] at hplaced
  rw [answers]
  omega

theorem Recorded.delivers_eq_one (hr : Recorded as s) {c : Nat} (hc : (s.phase c).isReturned = true) :
    as.countP (·.delivers c) = 1 := by
  have hle := hr.answers_le_one c
  rw [hr.delivered c]
  rw [answers, hc, toNat_true] at hle ⊢
  omega

end GroupCommit

/-- At most one call leads, none gets a second outcome, `Ok` is for a request queued before its
flush started, and in a fair run every call with a queued request returns. -/
theorem groupCommit_correct (cfg : GroupCommitConfig) :
    (∀ as s, run (GroupCommit.step cfg) .new as = some s →
      (∀ c d, (s.phase c).isLeading = true → (s.phase d).isLeading = true → c = d) ∧
      (∀ c, as.countP (·.delivers c) ≤ 1) ∧
      ∀ c r, s.phase c = .returned (.ok r) → Covered as c) ∧
    ∀ (tr : FairTrace cfg) (n c : Nat), ((tr.state n).phase c).submitted = true →
      ∃ m, n ≤ m ∧ ((tr.state m).phase c).isReturned = true ∧
        ((List.range m).map tr.act).countP (·.delivers c) = 1 := by
  refine ⟨fun as s h => ?_, fun tr n c hsub => ?_⟩
  · have hr := GroupCommit.recorded_run h
    refine ⟨fun c d hc hd => ?_, fun c => hr.delivered c ▸ hr.answers_le_one c, hr.returned⟩
    have hlock := ((hr.sound.lock c).mp hc).symm.trans ((hr.sound.lock d).mp hd)
    exact Option.some.inj hlock
  · obtain ⟨m, hm, hret⟩ := tr.submitted_returns hsub
    exact ⟨m, hm, hret, (GroupCommit.recorded_run (tr.run_acts m)).delivers_eq_one hret⟩

def soloAct (n : Nat) : GroupCommitAction :=
  [.number 0, .enqueue 0, .tryLead 0, .drain 0, .startFlush 0, .endFlush 0 (.ok ()), .deliver 0 0,
    .release 0, .settle 0, .check 0].getD n .tick

def soloState : Nat → GroupCommit
  | 0 => .new
  | n + 1 => ((soloState n).step ⟨0, 0⟩ (soloAct n)).getD (soloState n)

theorem soloState_next (n : Nat) : (soloState n).step ⟨0, 0⟩ (soloAct n) =
    some (soloState (n + 1)) := match n with
  | 0 | 1 | 2 | 3 | 4 | 5 | 6 | 7 | 8 | 9 => rfl
  | _ + 10 => rfl

theorem soloState_late (n : Nat) : (soloState (n + 10)).clock = n ∧
    ((soloState (n + 10)).phase 0).isReturned = true := by
  induction n with
  | zero => exact ⟨rfl, rfl⟩
  | succ n ih => exact ⟨congrArg (· + 1) ih.1, ih.2⟩

theorem soloAct_actor (n : Nat) : (soloAct n).actor = some 0 ∨ (soloAct n).actor = none := match n with
  | 0 | 1 | 2 | 3 | 4 | 5 | 6 | 7 | 8 | 9 => .inl rfl
  | _ + 10 => .inr rfl

theorem soloState_idle (n : Nat) {c : Nat} (hc : c ≠ 0) : (soloState n).phase c = .idle := by
  induction n with
  | zero => rfl
  | succ n ih =>
    refine (GroupCommit.phase_frame (soloState_next n) ?_).trans ih
    rcases soloAct_actor n with h | h <;> rw [h]
    · exact fun heq => hc (Option.some.inj heq).symm
    · nofun

def soloTrace : FairTrace ⟨0, 0⟩ where
  state := soloState
  act := soloAct
  start := rfl
  next := soloState_next
  fair n c hc := by
    by_cases hzero : c = 0
    · rcases Nat.lt_or_ge n 10 with hn | hn
      · exact ⟨9, by omega, hzero ▸ rfl⟩
      · obtain ⟨k, rfl⟩ := Nat.exists_eq_add_of_le' hn
        have hret := (soloState_late k).2
        rw [hzero] at hc
        cases hp : (soloState (k + 10)).phase 0 with
        | returned outcome =>
          rw [hp] at hc
          cases hc
        | _ =>
          rw [hp] at hret
          cases hret
    · rw [soloState_idle n hzero] at hc
      cases hc
  time k := ⟨k + 10, Nat.le_of_eq (soloState_late k).1.symm⟩

theorem groupCommit_correct_solo : ∃ m, 2 ≤ m ∧ ((soloTrace.state m).phase 0).isReturned = true ∧
    ((List.range m).map soloTrace.act).countP (·.delivers 0) = 1 :=
  (groupCommit_correct ⟨0, 0⟩).2 soloTrace 2 0 rfl

end Akar
