import Akar.GroupCommit

namespace Akar

open List Function LeaderStage

namespace CallPhase

def isLeading : CallPhase → Bool
  | leading .. => true
  | _ => false

def submitted : CallPhase → Bool
  | idle | numbered _ => false
  | _ => true

def isReturned : CallPhase → Bool
  | returned _ => true
  | _ => false

end CallPhase

def LeaderStage.entries : LeaderStage → List PendingCommit
  | draining batch _ | drained batch | flushing batch => batch
  | delivering entry rest _ => entry :: rest
  | leaving => []

@[simp] theorem entries_afterDrain (batch : List PendingCommit) (deadline clock : Nat) :
    (afterDrain batch deadline clock).entries = batch := by
  unfold afterDrain
  split
  next h => exact h.symm
  next => split <;> rfl

@[simp] theorem entries_nextDelivery (rest : List PendingCommit) (group : GroupFlush) :
    (nextDelivery rest group).entries = rest := by
  cases rest <;> rfl

@[simp] theorem afterDrain_ne_flushing (batch batch' : List PendingCommit) (deadline clock : Nat) :
    afterDrain batch deadline clock ≠ .flushing batch' := by
  unfold afterDrain
  split
  · nofun
  · split <;> nofun

@[simp] theorem afterDrain_ne_delivering (batch rest : List PendingCommit) (deadline clock : Nat)
    (entry : PendingCommit) (group : GroupFlush) :
    afterDrain batch deadline clock ≠ .delivering entry rest group := by
  unfold afterDrain
  split
  · nofun
  · split <;> nofun

@[simp] theorem nextDelivery_ne_flushing (rest batch : List PendingCommit) (group : GroupFlush) :
    nextDelivery rest group ≠ .flushing batch := by
  cases rest <;> nofun

@[simp] theorem nextDelivery_eq_delivering {batch rest : List PendingCommit} {entry : PendingCommit}
    {group group' : GroupFlush} :
    nextDelivery batch group = .delivering entry rest group' ↔ batch = entry :: rest ∧ group =
      group' := by
  cases batch <;> simp [nextDelivery, and_assoc]

@[simp] theorem CallPhase.elim_ne_leading (dl : Option Nat) (stage : LeaderStage) (dl' : Option Nat) :
    dl.elim CallPhase.settling CallPhase.waiting ≠ .leading stage dl' := by
  cases dl <;> nofun

@[simp] theorem CallPhase.elim_ne_returned (dl : Option Nat) (outcome : Outcome) :
    dl.elim CallPhase.settling CallPhase.waiting ≠ .returned outcome := by
  cases dl <;> nofun

def CallPhase.entries : CallPhase → List PendingCommit
  | leading stage _ => stage.entries
  | _ => []

def GroupCommitAction.delivers (c : Nat) : GroupCommitAction → Bool
  | deliver _ slot => decide (slot = c)
  | _ => false

/-- A `flush_to_disk` that started after the call's request was queued has returned `Ok`. -/
def Covered (as : List GroupCommitAction) (c : Nat) : Prop :=
  ∃ l pre mid post, as = pre ++ .startFlush l :: (mid ++ .endFlush l (.ok ()) :: post) ∧
    .enqueue c ∈ pre ∧ ∀ a ∈ mid, a.actor ≠ some l

theorem Covered.append {as : List GroupCommitAction} {c : Nat} (h : Covered as c)
    (bs : List GroupCommitAction) :
    Covered (as ++ bs) c := by
  obtain ⟨l, pre, mid, post, rfl, hpre, hmid⟩ := h
  exact ⟨l, pre, mid, post ++ bs, by simp, hpre, hmid⟩

namespace GroupCommit

variable {cfg : GroupCommitConfig} {s t : GroupCommit} {a : GroupCommitAction} {c d : Nat}

@[simp] theorem setPhase_phase_self (s : GroupCommit) (c : Nat) (p : CallPhase) :
    (s.setPhase c p).phase c = p :=
  update_self ..

theorem setPhase_phase_of_ne (s : GroupCommit) (p : CallPhase) (h : d ≠ c) :
    (s.setPhase c p).phase d = s.phase d :=
  update_of_ne h ..

@[simp] theorem setPhase_queue (s : GroupCommit) (c : Nat) (p : CallPhase) :
    (s.setPhase c p).queue = s.queue := rfl

@[simp] theorem setPhase_slots (s : GroupCommit) (c : Nat) (p : CallPhase) :
    (s.setPhase c p).slots = s.slots := rfl

@[simp] theorem setPhase_leaderLock (s : GroupCommit) (c : Nat) (p : CallPhase) :
    (s.setPhase c p).leaderLock = s.leaderLock := rfl

theorem phase_frame (h : s.step cfg a = some t) (hd : a.actor ≠ some d) : t.phase d = s.phase d := by
  have hne : ∀ c, some c ≠ some d → d ≠ c := fun c hc hdc => hc (hdc ▸ rfl)
  cases step_cases h with
  | tick => rfl
  | _ => exact setPhase_phase_of_ne _ _ (hne _ hd)

def held (s : GroupCommit) : List PendingCommit := match s.leaderLock with
  | none => []
  | some c => (s.phase c).entries

theorem held_of_lock (h : s.leaderLock = some c) : s.held = (s.phase c).entries := by
  rw [held, h]

theorem held_of_no_lock (h : s.leaderLock = none) : s.held = [] := by
  rw [held, h]

theorem held_setPhase (h : s.leaderLock ≠ some c) (p : CallPhase) : (s.setPhase c p).held = s.held := by
  cases hl : s.leaderLock with
  | none =>
    have hl' : (s.setPhase c p).leaderLock = none := hl
    rw [held_of_no_lock hl, held_of_no_lock hl']
  | some l =>
    have hne : l ≠ c := fun heq => h (heq ▸ hl)
    have hl' : (s.setPhase c p).leaderLock = some l := hl
    rw [held_of_lock hl, held_of_lock hl', setPhase_phase_of_ne _ _ hne]

def places (s : GroupCommit) (c : Nat) : Nat :=
  s.queue.countP (·.slot = c) + s.held.countP (·.slot = c) + (s.slots c).isSome.toNat +
    (s.phase c).isReturned.toNat

structure Sound (s : GroupCommit) : Prop where
  lock : ∀ c, (s.phase c).isLeading = true ↔ s.leaderLock = some c
  placed : ∀ c, s.places c = (s.phase c).submitted.toNat

theorem sound_new : Sound new := by
  refine ⟨fun c => iff_of_false nofun nofun, fun c => rfl⟩

variable {dl : Option Nat}

theorem Sound.lock_of_leading (hs : Sound s) {stage : LeaderStage} (h : s.phase c = .leading stage dl) :
    s.leaderLock = some c := by
  rw [← hs.lock, h]
  rfl

theorem Sound.lock_ne (hs : Sound s) (h : (s.phase c).isLeading = false) : s.leaderLock ≠ some c := by
  rw [Ne, ← hs.lock, h]
  nofun

theorem Sound.follow {s' : GroupCommit} (hs : Sound s) {p : CallPhase}
    (hc : (s.phase c).isLeading = false)
    (hp : p.isLeading = false) (hphase : s'.phase = s.phase) (hlock : s'.leaderLock = s.leaderLock)
    (hother : ∀ x, x ≠ c → s'.queue.countP (·.slot = x) = s.queue.countP (·.slot = x) ∧
      s'.slots x = s.slots x)
    (hself : s'.queue.countP (·.slot = c) + s.held.countP (·.slot = c) + (s'.slots c).isSome.toNat +
      p.isReturned.toNat = p.submitted.toNat) : Sound (s'.setPhase c p) := by
  have hne := hs.lock_ne hc
  have hheld : (s'.setPhase c p).held = s.held := by
    rw [held_setPhase (hlock ▸ hne)]
    simp only [held, hphase, hlock]
  constructor
  · intro x
    rw [setPhase_leaderLock, hlock]
    by_cases hx : x = c
    · rw [hx, setPhase_phase_self, hp]
      exact iff_of_false nofun hne
    · rw [setPhase_phase_of_ne _ _ hx, hphase]
      exact hs.lock x
  · intro x
    rw [places, hheld, setPhase_queue, setPhase_slots]
    by_cases hx : x = c
    · rw [hx, setPhase_phase_self]
      exact hself
    · obtain ⟨hqueue, hslot⟩ := hother x hx
      rw [setPhase_phase_of_ne _ _ hx, hphase, hqueue, hslot]
      exact hs.placed x

theorem Sound.setPhase (hs : Sound s) {p : CallPhase} (hc : (s.phase c).isLeading = false)
    (hp : p.isLeading = false)
    (hsub : p.submitted = (s.phase c).submitted) (hret : p.isReturned = (s.phase c).isReturned) :
    Sound (s.setPhase c p) :=
  hs.follow hc hp rfl rfl (fun _ _ => ⟨rfl, rfl⟩) (by rw [hsub, hret]; exact hs.placed c)

theorem Sound.stage (hs : Sound s) {stage stage' : LeaderStage} (h : s.phase c = .leading stage dl)
    (hphase : t.phase = update s.phase c (.leading stage' dl))
    (hlock : t.leaderLock = s.leaderLock)
    (hcount : ∀ x, t.queue.countP (·.slot = x) + stage'.entries.countP (·.slot = x) +
      (t.slots x).isSome.toNat =
      s.queue.countP (·.slot = x) + stage.entries.countP (·.slot = x) + (s.slots x).isSome.toNat) :
        Sound t := by
  have hl := hs.lock_of_leading h
  have hheld : s.held = stage.entries := by rw [held_of_lock hl, h]; rfl
  have hself : t.phase c = .leading stage' dl := by rw [hphase, update_self]
  have hheld' : t.held = stage'.entries := by rw [held_of_lock (hlock.trans hl), hself]; rfl
  constructor
  · intro x
    rw [hlock, ← hs.lock x]
    by_cases hx : x = c
    · rw [hx, hself, h]
      exact Iff.rfl
    · rw [hphase, update_of_ne hx]
  · intro x
    have hplaced := hs.placed x
    have hx := hcount x
    unfold places at hplaced ⊢
    rw [hheld] at hplaced
    rw [hheld', hx]
    by_cases hxc : x = c
    · rw [hxc] at hplaced ⊢
      rw [h] at hplaced
      rw [hself]
      exact hplaced
    · rw [hphase, update_of_ne hxc]
      exact hplaced

theorem Sound.enqueue (hs : Sound s) {lsn : Nat} (h : s.phase c = .numbered lsn) :
    Sound ({ s with queue := s.queue ++ [PendingCommit.mk lsn c] }.setPhase c .proposing) := by
  have hplaced := hs.placed c
  rw [places, h] at hplaced
  refine hs.follow (by rw [h]; rfl) rfl rfl rfl (fun x hx => ⟨?_, rfl⟩) ?_
  · rw [countP_append, countP_singleton, if_neg (by simpa using Ne.symm hx)]
    rfl
  · rw [countP_append, countP_singleton, if_pos (by simp)]
    simp only [CallPhase.submitted, CallPhase.isReturned, Bool.toNat_false,
      Bool.toNat_true] at hplaced ⊢
    omega

variable {outcome : Outcome}

theorem Sound.take (hs : Sound s) {deadline : Nat} (h : s.phase c = .waiting deadline)
    (hslot : s.slots c = some outcome) :
    Sound ({ s with slots := update s.slots c none }.setPhase c (.returned outcome)) := by
  have hplaced := hs.placed c
  rw [places, h, hslot] at hplaced
  refine hs.follow (by rw [h]; rfl) rfl rfl rfl (fun x hx => ⟨rfl, update_of_ne hx ..⟩) ?_
  dsimp only
  rw [update_self]
  exact hplaced

theorem Sound.lead (hs : Sound s) (hc : (s.phase c).submitted = true)
    (hret : (s.phase c).isReturned = false)
    (hlock : s.leaderLock = none) : Sound (s.lead cfg c dl) := by
  have hheld : (s.lead cfg c dl).held = [] := by
    rw [held_of_lock (c := c) rfl, GroupCommit.lead, setPhase_phase_self]
    rfl
  constructor
  · intro x
    by_cases hx : x = c
    · rw [hx, GroupCommit.lead, setPhase_phase_self]
      exact iff_of_true rfl rfl
    · have hnone : ¬(s.phase x).isLeading = true := by
        rw [hs.lock, hlock]
        nofun
      rw [GroupCommit.lead, setPhase_phase_of_ne _ _ hx]
      exact iff_of_false hnone fun heq => hx (Option.some.inj heq).symm
  · intro x
    have hplaced := hs.placed x
    rw [places, held_of_no_lock hlock] at hplaced
    rw [places, hheld]
    by_cases hx : x = c
    · rw [hx, hc, hret] at hplaced
      rw [hx, GroupCommit.lead, setPhase_phase_self]
      exact hplaced
    · rw [GroupCommit.lead, setPhase_phase_of_ne _ _ hx]
      exact hplaced

theorem Sound.release (hs : Sound s) (h : s.phase c = .leading .leaving dl) :
    Sound ({ s with leaderLock := none }.setPhase c (dl.elim .settling .waiting)) := by
  have hl := hs.lock_of_leading h
  have hheld : s.held = [] := by rw [held_of_lock hl, h]; rfl
  have hnext : (dl.elim CallPhase.settling CallPhase.waiting).isLeading = false ∧
      (dl.elim CallPhase.settling CallPhase.waiting).submitted = true ∧
      (dl.elim CallPhase.settling CallPhase.waiting).isReturned = false := by
    cases dl <;> exact ⟨rfl, rfl, rfl⟩
  constructor
  · intro x
    refine iff_of_false ?_ nofun
    by_cases hx : x = c
    · rw [hx, setPhase_phase_self, hnext.1]
      nofun
    · rw [setPhase_phase_of_ne _ _ hx, hs.lock, hl]
      exact fun heq => hx (Option.some.inj heq).symm
  · intro x
    have hplaced := hs.placed x
    rw [places, hheld] at hplaced
    rw [places, held_of_no_lock rfl]
    by_cases hx : x = c
    · rw [hx, h] at hplaced
      rw [hx, setPhase_phase_self, hnext.2.1, hnext.2.2]
      exact hplaced
    · rw [setPhase_phase_of_ne _ _ hx]
      exact hplaced

variable {entry : PendingCommit} {rest : List PendingCommit} {group : GroupFlush}

theorem Sound.slot_empty (hs : Sound s) (h : s.phase c = .leading (.delivering entry rest group) dl) :
    s.slots entry.slot = none := by
  have hheld : s.held = entry :: rest := by rw [held_of_lock (hs.lock_of_leading h), h]; rfl
  have hplaced := hs.placed entry.slot
  have hle : (s.phase entry.slot).submitted.toNat ≤ 1 := Bool.toNat_le _
  rw [places, hheld, countP_cons, if_pos (by simp)] at hplaced
  cases hslot : s.slots entry.slot with
  | none => rfl
  | some outcome =>
    rw [hslot, Option.isSome_some, Bool.toNat_true] at hplaced
    omega

theorem Sound.deliver (hs : Sound s) (h : s.phase c = .leading (.delivering entry rest group) dl) :
    Sound ({ s with slots := update s.slots entry.slot (some (group.outcome entry)) }.setPhase c
      (.leading (.nextDelivery rest group) dl)) := by
  refine hs.stage h rfl rfl fun x => ?_
  rw [entries_nextDelivery, LeaderStage.entries, countP_cons, setPhase_queue, setPhase_slots]
  dsimp only
  by_cases hx : x = entry.slot
  · rw [hx, hs.slot_empty h, if_pos (by simp), update_self]
    rfl
  · rw [if_neg (by simpa using Ne.symm hx), update_of_ne hx, Nat.add_zero]

theorem Sound.step (hs : Sound s) (h : s.step cfg a = some t) : Sound t := by
  cases step_cases h with
  | tick => exact ⟨hs.lock, hs.placed⟩
  | number hp =>
    have hs' : Sound { s with nextLsn := s.nextLsn + 1 } := ⟨hs.lock, hs.placed⟩
    exact hs'.setPhase (by rw [hp]; rfl) rfl (by rw [hp]; rfl) (by rw [hp]; rfl)
  | enqueue hp => exact hs.enqueue hp
  | lead hp hlock =>
    obtain ⟨hp, -⟩ | ⟨deadline, hp, -⟩ := hp
    · exact hs.lead (by rw [hp]; rfl) (by rw [hp]; rfl) hlock
    · exact hs.lead (by rw [hp]; rfl) (by rw [hp]; rfl) hlock
  | settleLater hp | waitOn hp | settle hp | claim hp | wait hp =>
    exact hs.setPhase (congrArg _ hp) rfl (congrArg CallPhase.submitted hp).symm
      (congrArg CallPhase.isReturned hp).symm
  | drain hp =>
    refine hs.stage hp rfl rfl fun x => ?_
    rw [entries_afterDrain, countP_append, setPhase_queue, setPhase_slots, LeaderStage.entries]
    dsimp only
    rw [countP_nil]
    omega
  | startFlush hp => exact hs.stage hp rfl rfl fun x => rfl
  | endFlush ioResult hp =>
    refine hs.stage hp rfl rfl fun x => ?_
    rw [entries_nextDelivery]
    rfl
  | deliver hp => exact hs.deliver hp
  | release hp => exact hs.release hp
  | take hp hslot => exact hs.take hp hslot

theorem flushing_inv {batch : List PendingCommit} (h : s.step cfg a = some t) (ha : a.actor = some c)
    (ht : t.phase c = .leading (.flushing batch) dl) :
    a = .startFlush c ∧ s.phase c = .leading (.drained batch) dl := by
  cases step_cases h with
  | tick => cases ha
  | startFlush hp =>
    cases ha
    rw [setPhase_phase_self] at ht
    cases ht
    exact ⟨rfl, hp⟩
  | _ =>
    cases ha
    simp [GroupCommit.lead] at ht

section

variable (h : s.step cfg a = some t)
include h

theorem delivering_inv (ha : a.actor = some c)
    (ht : t.phase c = .leading (.delivering entry rest group) dl) :
    (∃ ioResult, a = .endFlush c ioResult ∧ s.phase c = .leading (.flushing (entry :: rest)) dl ∧
      group = .of (entry :: rest) ioResult) ∨
    ∃ entry', s.phase c = .leading (.delivering entry' (entry :: rest) group) dl := by
  cases step_cases h with
  | tick => cases ha
  | endFlush ioResult hp =>
    cases ha
    simp at ht
    obtain ⟨⟨rfl, rfl⟩, rfl⟩ := ht
    exact .inl ⟨ioResult, rfl, hp, rfl⟩
  | deliver hp =>
    cases ha
    simp at ht
    obtain ⟨⟨rfl, rfl⟩, rfl⟩ := ht
    exact .inr ⟨_, hp⟩
  | _ =>
    cases ha
    simp [GroupCommit.lead] at ht

theorem returned_inv (ha : a.actor = some c) (ht : t.phase c = .returned outcome) : s.slots c =
    some outcome := by
  cases step_cases h with
  | tick => cases ha
  | take hp hslot =>
    cases ha
    rw [setPhase_phase_self] at ht
    cases ht
    exact hslot
  | _ =>
    cases ha
    simp [GroupCommit.lead] at ht

theorem slots_inv (ht : t.slots c = some outcome) :
    s.slots c = some outcome ∨ ∃ l entry rest group dl, s.phase l =
      .leading (.delivering entry rest group) dl ∧
      entry.slot = c ∧ group.outcome entry = outcome := by
  cases step_cases h with
  | @deliver l entry rest group dl hp =>
    by_cases hc : c = entry.slot
    · rw [hc, setPhase_slots] at ht
      dsimp only at ht
      rw [update_self] at ht
      exact .inr ⟨l, entry, rest, group, dl, hp, hc.symm, Option.some.inj ht⟩
    · rw [setPhase_slots] at ht
      dsimp only at ht
      rw [update_of_ne hc] at ht
      exact .inl ht
  | @take l _ _ hp hslot =>
    by_cases hc : c = l
    · rw [hc, setPhase_slots] at ht
      dsimp only at ht
      rw [update_self] at ht
      cases ht
    · rw [setPhase_slots] at ht
      dsimp only at ht
      rw [update_of_ne hc] at ht
      exact .inl ht
  | _ => exact .inl ht

theorem submitted_inv (ht : (t.phase c).submitted = true) : (s.phase c).submitted = true ∨ a =
    .enqueue c := by
  by_cases ha : a.actor = some c
  · cases step_cases h with
    | tick => cases ha
    | number =>
      cases ha
      rw [setPhase_phase_self] at ht
      cases ht
    | enqueue =>
      cases ha
      exact .inr rfl
    | lead hp =>
      cases ha
      obtain ⟨hp, -⟩ | ⟨deadline, hp, -⟩ := hp
      · exact .inl (congrArg _ hp)
      · exact .inl (congrArg _ hp)
    | settleLater hp | waitOn hp | settle hp | drain hp | startFlush hp | endFlush _ hp
    | deliver hp | release hp
    | take hp | claim hp | wait hp =>
      cases ha
      exact .inl (congrArg _ hp)
  · rw [phase_frame h ha] at ht
    exact .inl ht

end

def answers (s : GroupCommit) (c : Nat) : Nat := (s.slots c).isSome.toNat + (s.phase c).isReturned.toNat

theorem answers_step (hs : Sound s) (h : s.step cfg a = some t) (c : Nat) :
    t.answers c = s.answers c + (a.delivers c).toNat := by
  have hkeep : ∀ {s' : GroupCommit} {l : Nat} {p : CallPhase}, s'.phase = s.phase → s'.slots = s.slots →
      p.isReturned = (s.phase l).isReturned → (s'.setPhase l p).answers c = s.answers c := by
    intro s' l p hphase hslots hp
    rw [answers, answers, setPhase_slots, hslots]
    by_cases hc : c = l
    · rw [hc, setPhase_phase_self, hp]
    · rw [setPhase_phase_of_ne _ _ hc, hphase]
  cases step_cases h with
  | tick => rfl
  | lead hp =>
    obtain ⟨hp, -⟩ | ⟨deadline, hp, -⟩ := hp
    · exact hkeep rfl rfl (congrArg CallPhase.isReturned hp).symm
    · exact hkeep rfl rfl (congrArg CallPhase.isReturned hp).symm
  | number hp | enqueue hp | settleLater hp | waitOn hp | settle hp | drain hp | startFlush hp
  | endFlush _ hp
  | claim hp | wait hp =>
    exact hkeep rfl rfl (congrArg CallPhase.isReturned hp).symm
  | @release l dl hp =>
    refine hkeep rfl rfl ?_
    rw [hp]
    cases dl <;> rfl
  | @take l _ _ hp hslot =>
    rw [answers, answers, setPhase_slots]
    dsimp only
    by_cases hc : c = l
    · rw [hc, setPhase_phase_self, update_self, hslot, hp]
      rfl
    · rw [setPhase_phase_of_ne _ _ hc, update_of_ne hc]
      rfl
  | @deliver l entry rest group dl hp =>
    have hret : ∀ p : LeaderStage, ((s.setPhase l (.leading p dl)).phase c).isReturned =
        (s.phase c).isReturned := by
      intro p
      by_cases hc : c = l
      · rw [hc, setPhase_phase_self, hp]
        rfl
      · rw [setPhase_phase_of_ne _ _ hc]
    have hslots : ((update s.slots entry.slot (some (group.outcome entry)) c).isSome).toNat =
        (s.slots c).isSome.toNat + (decide (entry.slot = c)).toNat := by
      by_cases hc : c = entry.slot
      · rw [hc, update_self, hs.slot_empty hp, decide_eq_true rfl]
        rfl
      · rw [update_of_ne hc, decide_eq_false (Ne.symm hc)]
        rfl
    have hanswers : (s.slots c).isSome.toNat + (decide (entry.slot = c)).toNat +
        (s.phase c).isReturned.toNat =
        s.answers c + (decide (entry.slot = c)).toNat := Nat.add_right_comm ..
    rw [← hslots, ← hret (.nextDelivery rest group)] at hanswers
    exact hanswers

structure Recorded (as : List GroupCommitAction) (s : GroupCommit) : Prop where
  sound : Sound s
  submitted : ∀ c, (s.phase c).submitted = true → .enqueue c ∈ as
  flushing : ∀ c batch dl, s.phase c = .leading (.flushing batch) dl → ∃ pre mid,
    as = pre ++ .startFlush c :: mid ∧ (∀ a ∈ mid, a.actor ≠ some c) ∧ ∀ e ∈ batch,
      .enqueue e.slot ∈ pre
  delivering : ∀ c entry rest group dl, s.phase c = .leading (.delivering entry rest group) dl →
    group.ioResult = .ok () → ∀ e ∈ entry :: rest, Covered as e.slot
  filled : ∀ c r, s.slots c = some (.ok r) → Covered as c
  returned : ∀ c r, s.phase c = .returned (.ok r) → Covered as c
  delivered : ∀ c, as.countP (·.delivers c) = s.answers c

theorem recorded_new : Recorded [] new := by
  refine ⟨sound_new, nofun, nofun, nofun, nofun, nofun, fun c => rfl⟩

variable {as : List GroupCommitAction}

theorem Recorded.enqueued (hr : Recorded as s) {e : PendingCommit} (he : e ∈ s.held) :
    .enqueue e.slot ∈ as := by
  have hplaced := hr.sound.placed e.slot
  have hpos : 0 < s.held.countP (·.slot = e.slot) := countP_pos_iff.mpr ⟨e, he, by simp⟩
  refine hr.submitted e.slot ?_
  cases hsub : (s.phase e.slot).submitted with
  | true => rfl
  | false =>
    rw [places, hsub, Bool.toNat_false] at hplaced
    omega

theorem Recorded.step (hr : Recorded as s) (h : s.step cfg a = some t) : Recorded (as ++ [a]) t := by
  refine ⟨hr.sound.step h, ?_, ?_, ?_, ?_, ?_, ?_⟩
  · intro c hc
    obtain hsub | rfl := submitted_inv h hc
    · exact mem_append_left _ (hr.submitted c hsub)
    · exact mem_append_right _ (mem_singleton.mpr rfl)
  · intro c batch dl hc
    by_cases ha : a.actor = some c
    · obtain ⟨rfl, hp⟩ := flushing_inv h ha hc
      have hheld : s.held = batch := by rw [held_of_lock (hr.sound.lock_of_leading hp), hp]; rfl
      exact ⟨as, [], rfl, nofun, fun e he => hr.enqueued (hheld ▸ he)⟩
    · rw [phase_frame h ha] at hc
      obtain ⟨pre, mid, rfl, hmid, hbatch⟩ := hr.flushing c batch dl hc
      exact ⟨pre, mid ++ [a],
        by simp, forall_mem_append.mpr ⟨hmid, forall_mem_singleton.mpr ha⟩, hbatch⟩
  · intro c entry rest group dl hc hok e he
    by_cases ha : a.actor = some c
    · obtain ⟨ioResult, rfl, hp, rfl⟩ | ⟨entry', hp⟩ := delivering_inv h ha hc
      · obtain ⟨pre, mid, rfl, hmid, hbatch⟩ := hr.flushing c _ dl hp
        have hres : ioResult = .ok () := hok
        exact ⟨c, pre, mid, [], by rw [hres]; simp, hbatch e he, hmid⟩
      · exact (hr.delivering c entry' (entry :: rest) group dl hp hok e (mem_cons_of_mem _ he)).append _
    · rw [phase_frame h ha] at hc
      exact (hr.delivering c entry rest group dl hc hok e he).append _
  · intro c r hc
    obtain hslot | ⟨l, entry, rest, group, dl, hp, rfl, hout⟩ := slots_inv h hc
    · exact (hr.filled c r hslot).append _
    · refine (hr.delivering l entry rest group dl hp ?_ entry mem_cons_self).append _
      unfold GroupFlush.outcome at hout
      split at hout
      next heq => exact heq
      next => cases hout
  · intro c r hc
    by_cases ha : a.actor = some c
    · exact (hr.filled c r (returned_inv h ha hc)).append _
    · rw [phase_frame h ha] at hc
      exact (hr.returned c r hc).append _
  · intro c
    rw [countP_append, hr.delivered c, answers_step hr.sound h c, countP_singleton]
    cases a.delivers c <;> rfl

theorem recorded_run (h : run (GroupCommit.step cfg) new as = some s) : Recorded as s :=
  run_keeps_history (fun _ _ _ _ => Recorded.step) h recorded_new

end GroupCommit

end Akar
