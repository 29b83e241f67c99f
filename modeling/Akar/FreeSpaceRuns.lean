import Akar.FreeSpace
import Akar.Runs

namespace Akar

open List Function

structure FreeSpaceLedger where
  fsm : FreeSpaceManager
  freed : List PageRange
  taken : List PageRange

inductive FreeSpaceCall where
  | addFreePages (entry : PageRange)
  | popFreePages (numPages : Nat)
  | addUncheckpointedFreePages (entry : PageRange)
  | finalizeCheckpoint
  | rollbackCheckpoint

namespace FreeSpaceLedger

open FreeSpaceManager

def new : FreeSpaceLedger := ⟨.new, [], []⟩

def step (l : FreeSpaceLedger) : FreeSpaceCall → Option FreeSpaceLedger
  | .addFreePages entry =>
    (l.fsm.addFreePages entry).map fun fsm => { l with fsm := fsm, freed := entry :: l.freed }
  | .popFreePages numPages =>
    (l.fsm.popFreePages numPages).map fun (fsm, result) =>
      { l with fsm := fsm, taken := result.toList ++ l.taken }
  | .addUncheckpointedFreePages entry => some { l with fsm := l.fsm.addUncheckpointedFreePages entry }
  | .finalizeCheckpoint =>
    l.fsm.finalizeCheckpoint.map fun fsm =>
      { l with fsm := fsm, freed := l.fsm.uncheckpointed ++ l.freed }
  | .rollbackCheckpoint => some { l with fsm := l.fsm.rollbackCheckpoint }

def Fresh (fsm : FreeSpaceManager) (entries : List PageRange) : Prop :=
  (∀ r ∈ entries, r.Proper) ∧ (entries ++ fsm.ranges).Pairwise PageRange.Apart

/-- What is added to the free lists is not free yet. -/
def Careful (l : FreeSpaceLedger) : FreeSpaceCall → Prop
  | .addFreePages entry => entry.Proper ∧ ∀ r ∈ l.fsm.ranges, entry.Apart r
  | .finalizeCheckpoint => Fresh l.fsm l.fsm.uncheckpointed
  | .popFreePages _ | .addUncheckpointedFreePages _ | .rollbackCheckpoint => True

def holders (ranges : List PageRange) (page : Nat) : Nat := ranges.countP fun r => r.Holds page

/-- The free ranges have no page in common, each of them is on the level of its size, and they are
counted. -/
structure Filed (fsm : FreeSpaceManager) : Prop where
  proper : ∀ r ∈ fsm.ranges, r.Proper
  apart : fsm.ranges.Pairwise PageRange.Apart
  levels : ∀ level, ∀ r ∈ fsm.freeLists level, 2 ^ level ≤ r.numPages ∧ r.numPages < 2 ^ (level + 1)
  sorted : ∀ level, (fsm.freeLists level).Pairwise PageRange.before
  counted : fsm.numEntries = fsm.ranges.length

structure Sound (l : FreeSpaceLedger) : Prop where
  filed : Filed l.fsm
  conserved : ∀ page, holders l.freed page = holders l.fsm.ranges page + holders l.taken page

/-- A request is answered exactly when one free range is long enough, and then with the front of
such a range. -/
structure PopsExactly (fsm : FreeSpaceManager) : Prop where
  answered : ∀ n, 0 < n → ((∃ rest r, fsm.popFreePages n = some (rest, some r)) ↔ ∃ r ∈ fsm.ranges,
    n ≤ r.numPages)
  front : ∀ n rest r, fsm.popFreePages n = some (rest, some r) →
    r.numPages = n ∧ ∃ q ∈ fsm.ranges, q.startPageIdx = r.startPageIdx ∧ n ≤ q.numPages

section Steps

variable {l l' : FreeSpaceLedger} {fsm fsm' : FreeSpaceManager} {entry r q : PageRange} {level n : Nat}

theorem apart_symm {r q : PageRange} (h : r.Apart q) : q.Apart r := h.symm

theorem not_apart_self (h : r.Proper) : ¬r.Apart r := by
  unfold PageRange.Apart
  have hpos := h.1
  omega

theorem ranges_new : FreeSpaceManager.new.ranges = [] := by
  unfold FreeSpaceManager.ranges
  rw [flatMap_eq_nil_iff]
  intro level _
  rfl

theorem filed_new : Filed .new where
  proper := by simp [ranges_new]
  apart := by simp [ranges_new]
  levels := by simp [FreeSpaceManager.new]
  sorted := by simp [FreeSpaceManager.new]
  counted := by
    rfl

variable {rs : List PageRange} {page : Nat}

theorem holders_cons :
    holders (r :: rs) page = (if r.Holds page then 1 else 0) + holders rs page := by
  unfold holders
  rw [countP_cons, Nat.add_comm]
  simp

variable {qs : List PageRange}

theorem holders_append : holders (rs ++ qs) page = holders rs page + holders qs page := countP_append

theorem holders_perm (h : rs.Perm qs) : holders rs page = holders qs page := h.countP_eq _

theorem holders_cut (h : n ≤ entry.numPages) :
    (if entry.Holds page then 1 else 0) =
      (if (⟨entry.startPageIdx + n, entry.numPages - n⟩ : PageRange).Holds page then 1 else 0) +
        if (⟨entry.startPageIdx, n⟩ : PageRange).Holds page then 1 else 0 := by
  by_cases hfront : page < entry.startPageIdx + n
  · have hback : ¬(⟨entry.startPageIdx + n, entry.numPages - n⟩ : PageRange).Holds page := fun h => by
      have hle : entry.startPageIdx + n ≤ page := h.1
      omega
    rw [if_neg hback, Nat.zero_add]
    refine if_congr ?_ rfl rfl
    show entry.startPageIdx ≤ page ∧ page < entry.startPageIdx + entry.numPages ↔
      entry.startPageIdx ≤ page ∧ page < entry.startPageIdx + n
    omega
  · have hback : ¬(⟨entry.startPageIdx, n⟩ : PageRange).Holds page := fun h => hfront h.2
    rw [if_neg hback, Nat.add_zero]
    refine if_congr ?_ rfl rfl
    show entry.startPageIdx ≤ page ∧ page < entry.startPageIdx + entry.numPages ↔
      entry.startPageIdx + n ≤ page ∧ page < entry.startPageIdx + n + (entry.numPages - n)
    omega

instance : Std.Total PageRange.before where
  total r q := by
    unfold PageRange.before
    omega

instance : IsTrans PageRange PageRange.before where
  trans r q p h h' := by
    unfold PageRange.before at *
    omega

theorem Filed.of_lists (h : Filed fsm) (hlists : fsm'.freeLists = fsm.freeLists)
    (hcount : fsm'.numEntries = fsm.numEntries) :
    Filed fsm' := by
  have hranges : fsm'.ranges = fsm.ranges := congrArg (List.flatMap · _) hlists
  constructor
  · rw [hranges]
    exact h.proper
  · rw [hranges]
    exact h.apart
  · rw [hlists]
    exact h.levels
  · rw [hlists]
    exact h.sorted
  · rw [hcount, hranges]
    exact h.counted

theorem getLevel_bounds (h : 0 < n) : 2 ^ getLevel n ≤ n ∧ n < 2 ^ (getLevel n + 1) :=
  ⟨Nat.log2_self_le (Nat.ne_of_gt h), Nat.lt_log2_self⟩

theorem Filed.add (h : Filed fsm) (hentry : entry.Proper) (hapart : ∀ r ∈ fsm.ranges, entry.Apart r)
    (hadd : fsm.addFreePages entry = some fsm') : Filed fsm' := by
  obtain ⟨hperm, hcount, -, hlists⟩ := addFreePages_eq_some hadd
  constructor
  · intro r hr
    rcases mem_cons.mp (hperm.mem_iff.mp hr) with rfl | hr
    · exact hentry
    · exact h.proper r hr
  · rw [hperm.pairwise_iff apart_symm, pairwise_cons]
    exact ⟨hapart, h.apart⟩
  · intro level r hr
    rw [hlists] at hr
    rw [update_apply] at hr
    split at hr
    next hlevel =>
      subst hlevel
      rw [mem_orderedInsert] at hr
      rcases hr with rfl | hr
      · exact getLevel_bounds hentry.1
      · exact h.levels _ r hr
    · exact h.levels level r hr
  · intro level
    rw [hlists]
    rw [update_apply]
    split
    · exact (h.sorted _).orderedInsert ..
    · exact h.sorted level
  · rw [hcount, h.counted, hperm.length_eq, length_cons]

theorem Filed.remove (h : Filed fsm) (hlevel : level < numLevels)
    (hentry : entry ∈ fsm.freeLists level) :
    Filed (fsm.removeEntry level entry) ∧ ∀ r ∈ (fsm.removeEntry level entry).ranges,
      entry.Apart r := by
  have hperm := removeEntry_perm hlevel hentry
  have hapart := (hperm.pairwise_iff apart_symm).mp h.apart
  rw [pairwise_cons] at hapart
  have hsub : ∀ k, ((fsm.removeEntry level entry).freeLists k).Sublist (fsm.freeLists k) := by
    intro k
    show (update fsm.freeLists level _ k).Sublist _
    rw [update_apply]
    split
    next hk =>
      subst hk
      exact erase_sublist
    · rfl
  refine ⟨?_, hapart.1⟩
  constructor
  · intro r hr
    exact h.proper r (hperm.mem_iff.mpr (mem_cons_of_mem _ hr))
  · exact hapart.2
  · intro k r hr
    exact h.levels k r ((hsub k).mem hr)
  · intro k
    exact (h.sorted k).sublist (hsub k)
  · show fsm.numEntries - 1 = _
    have hlen := hperm.length_eq
    rw [length_cons] at hlen
    rw [h.counted]
    omega

theorem not_mem_of_apart (hentry : entry.Proper) (hapart : ∀ r ∈ fsm.ranges, entry.Apart r) :
    entry ∉ fsm.ranges :=
  fun hmem => not_apart_self hentry (hapart entry hmem)

theorem Filed.pop (h : Filed fsm) (hn : 0 < n) :
    (∃ entry rest, entry ∈ fsm.ranges ∧ n ≤ entry.numPages ∧
      fsm.popFreePages n = some (rest, some ⟨entry.startPageIdx, n⟩) ∧ Filed rest ∧
    rest.uncheckpointed = fsm.uncheckpointed ∧ ∀ page, holders fsm.ranges page =
        holders rest.ranges page + if (⟨entry.startPageIdx, n⟩ : PageRange).Holds page then 1 else 0) ∨
    (fsm.popFreePages n = some (fsm, none) ∧ ∀ r ∈ fsm.ranges, r.numPages < n) := by
  unfold popFreePages
  rw [if_neg (Nat.ne_of_gt hn)]
  split
  next hnone =>
    refine .inr ⟨rfl, fun r hr => ?_⟩
    obtain ⟨level, hlevel, hr'⟩ := mem_ranges.mp hr
    -- a range on a lower level than the request's is too short
    by_cases hle : getLevel n ≤ level
    · exact search_eq_none hnone (mem_range'_1.mpr ⟨hle, by omega⟩) hr'
    · have hshort := (h.levels level r hr').2
      have hlong := (getLevel_bounds hn).1
      have hpow : 2 ^ (level + 1) ≤ 2 ^ getLevel n := Nat.pow_le_pow_right (by decide) (by omega)
      omega
  next level entry hsome =>
    obtain ⟨hlevel, hentry, hlong⟩ := search_eq_some hsome
    have hlt : level < numLevels := by
      have hrange := mem_range'_1.mp hlevel
      omega
    have hmem := mem_ranges.mpr ⟨level, hlt, hentry⟩
    have hproper := h.proper entry hmem
    have hperm := removeEntry_perm hlt hentry
    obtain ⟨hfiled, hapart⟩ := h.remove hlt hentry
    refine .inl ⟨entry, ?_⟩
    unfold splitPageRange
    by_cases hsplit : n < entry.numPages
    · obtain ⟨hpos, hsize, hend⟩ := hproper
      have hmod : (entry.startPageIdx + n) % 2 ^ 64 = entry.startPageIdx + n :=
        Nat.mod_eq_of_lt (by omega)
      have hrest : (⟨entry.startPageIdx + n, entry.numPages - n⟩ : PageRange).Proper :=
        ⟨show 0 < entry.numPages - n by omega, show entry.numPages - n < 2 ^ 64 by omega,
          show entry.startPageIdx + n + (entry.numPages - n) ≤ 2 ^ 64 by omega⟩
      have hrestApart : ∀ r ∈ (fsm.removeEntry level entry).ranges,
          (⟨entry.startPageIdx + n, entry.numPages - n⟩ : PageRange).Apart r := by
        intro r hr
        have hr := hapart r hr
        unfold PageRange.Apart at hr ⊢
        dsimp only
        omega
      obtain ⟨rest, hadd⟩ := addFreePages_isSome hrest (not_mem_of_apart hrest hrestApart)
      rw [if_pos hsplit, hmod, hadd]
      obtain ⟨hrestPerm, -, hpending, -⟩ := addFreePages_eq_some hadd
      refine ⟨rest, hmem, hlong, rfl, hfiled.add hrest hrestApart hadd, hpending, fun page => ?_⟩
      rw [holders_perm hperm, holders_perm hrestPerm, holders_cons, holders_cons, holders_cut hlong]
      omega
    · have hwhole : entry.numPages = n := by omega
      have hresult : (⟨entry.startPageIdx, n⟩ : PageRange) = entry := by rw [← hwhole]
      rw [if_neg hsplit, hresult]
      refine ⟨_, hmem, hlong, rfl, hfiled, rfl, fun page => ?_⟩
      rw [holders_perm hperm, holders_cons, Nat.add_comm]

theorem Filed.popsExactly (h : Filed fsm) : PopsExactly fsm where
  answered n hn := by
    rcases h.pop hn with ⟨entry, rest, hmem, hlong, hpop, -⟩ | ⟨hpop, hshort⟩
    · exact ⟨fun _ => ⟨entry, hmem, hlong⟩, fun _ => ⟨rest, _, hpop⟩⟩
    · constructor
      · rintro ⟨rest, r, hr⟩
        rw [hpop] at hr
        cases hr
      · rintro ⟨r, hr, hlong⟩
        have hlt := hshort r hr
        omega
  front n rest r hpop := by
    by_cases hn : 0 < n
    · rcases h.pop hn with ⟨entry, rest', hmem, hlong, hpop', -⟩ | ⟨hpop', -⟩
      · rw [hpop] at hpop'
        cases hpop'
        exact ⟨rfl, entry, hmem, rfl, hlong⟩
      · rw [hpop] at hpop'
        cases hpop'
    · obtain rfl : n = 0 := by omega
      cases hpop

theorem Filed.addAll {entries : List PageRange} (h : Filed fsm) (hfresh : Fresh fsm entries) :
    ∃ fsm', fsm.addAll entries = some fsm' ∧ Filed fsm' ∧ fsm'.ranges.Perm (entries ++ fsm.ranges) := by
  induction entries generalizing fsm with
  | nil => exact ⟨fsm, rfl, h, .refl _⟩
  | cons entry entries ih =>
    obtain ⟨hproper, hapart⟩ := hfresh
    rw [forall_mem_cons] at hproper
    rw [cons_append, pairwise_cons] at hapart
    have hentry : ∀ r ∈ fsm.ranges, entry.Apart r := (forall_mem_append.mp hapart.1).2
    obtain ⟨next, hnext⟩ := addFreePages_isSome hproper.1 (not_mem_of_apart hproper.1 hentry)
    obtain ⟨hperm, -⟩ := addFreePages_eq_some hnext
    have hmoved : (entries ++ next.ranges).Perm (entry :: (entries ++ fsm.ranges)) :=
      (hperm.append_left entries).trans perm_middle
    have hfresh' : Fresh next entries := by
      refine ⟨hproper.2, ?_⟩
      rw [hmoved.pairwise_iff apart_symm, pairwise_cons]
      exact hapart
    obtain ⟨last, hlast, hfiled, hranges⟩ := ih (h.add hproper.1 hentry hnext) hfresh'
    refine ⟨last, ?_, hfiled, hranges.trans hmoved⟩
    show (fsm.addFreePages entry).bind _ = _
    rw [hnext]
    exact hlast

theorem sound_new : new.Sound := ⟨filed_new, fun page => by simp [new, holders, ranges_new]⟩

theorem Sound.step {c : FreeSpaceCall} (h : l.Sound) (hc : l.Careful c) : ∃ l', l.step c =
    some l' ∧ l'.Sound := by
  cases c with
  | addFreePages entry =>
    obtain ⟨fsm, hfsm⟩ := addFreePages_isSome hc.1 (not_mem_of_apart hc.1 hc.2)
    obtain ⟨hperm, -⟩ := addFreePages_eq_some hfsm
    refine ⟨⟨fsm, entry :: l.freed, l.taken⟩, ?_, h.filed.add hc.1 hc.2 hfsm, fun page => ?_⟩
    · show (l.fsm.addFreePages entry).map _ = _
      rw [hfsm]
      rfl
    · have hbefore := h.conserved page
      dsimp only
      rw [holders_perm hperm, holders_cons, holders_cons]
      omega
  | popFreePages n =>
    have hstep : l.step (.popFreePages n) =
        (l.fsm.popFreePages n).map fun p => ⟨p.1, l.freed, p.2.toList ++ l.taken⟩ := rfl
    rw [hstep]
    by_cases hn : 0 < n
    · rcases h.filed.pop hn with ⟨entry, rest, -, -, hpop, hfiled, -, hholders⟩ | ⟨hpop, -⟩
      · rw [hpop]
        refine ⟨_, rfl, hfiled, fun page => ?_⟩
        have hbefore := h.conserved page
        rw [hholders page] at hbefore
        show holders l.freed page =
          holders rest.ranges page + holders (⟨entry.startPageIdx, n⟩ :: l.taken) page
        rw [holders_cons]
        omega
      · rw [hpop]
        exact ⟨l, rfl, h⟩
    · obtain rfl : n = 0 := by omega
      exact ⟨l, rfl, h⟩
  | addUncheckpointedFreePages | rollbackCheckpoint =>
    exact ⟨_, rfl, h.filed.of_lists rfl rfl, h.conserved⟩
  | finalizeCheckpoint =>
    have hcleared : Filed l.fsm.rollbackCheckpoint := h.filed.of_lists rfl rfl
    obtain ⟨fsm, hfsm, hfiled, hperm⟩ := hcleared.addAll hc
    refine ⟨⟨fsm, l.fsm.uncheckpointed ++ l.freed, l.taken⟩, ?_, hfiled, fun page => ?_⟩
    · show (l.fsm.rollbackCheckpoint.addAll l.fsm.uncheckpointed).map _ = _
      rw [hfsm]
      rfl
    · have hbefore := h.conserved page
      have hranges : l.fsm.rollbackCheckpoint.ranges = l.fsm.ranges := rfl
      dsimp only
      rw [holders_perm hperm, holders_append, holders_append, hranges]
      omega

theorem Sound.run {calls : List FreeSpaceCall} (h : l.Sound)
    (hm : Meets FreeSpaceLedger.step Careful l calls) :
    ∃ l', run FreeSpaceLedger.step l calls = some l' ∧ l'.Sound := by
  induction calls generalizing l with
  | nil => exact ⟨l, rfl, h⟩
  | cons c calls ih =>
    obtain ⟨next, hnext, hsound⟩ := h.step hm.1
    obtain ⟨last, hlast, hend⟩ := ih hsound (hm.2 next hnext)
    exact ⟨last, run_cons_eq_some.mpr ⟨next, hnext, hlast⟩, hend⟩

/-- In every run of careful calls no assertion fails, the books are kept, and requests are answered
exactly. -/
theorem free_space_kept (calls : List FreeSpaceCall) (hm : Meets step Careful new calls) :
    ∃ l, run step new calls = some l ∧ l.Sound ∧ PopsExactly l.fsm := by
  obtain ⟨l, hl, hsound⟩ := sound_new.run hm
  exact ⟨l, hl, hsound, hsound.filed.popsExactly⟩

end Steps

instance (l : FreeSpaceLedger) : (c : FreeSpaceCall) → Decidable (l.Careful c)
  | .addFreePages entry =>
    inferInstanceAs (Decidable (entry.Proper ∧ ∀ r ∈ l.fsm.ranges, entry.Apart r))
  | .finalizeCheckpoint =>
    inferInstanceAs (Decidable ((∀ r ∈ l.fsm.uncheckpointed, r.Proper) ∧
      (l.fsm.uncheckpointed ++ l.fsm.ranges).Pairwise PageRange.Apart))
  | .popFreePages _ | .addUncheckpointedFreePages _ | .rollbackCheckpoint => .isTrue trivial

def freeSpaceSession : List FreeSpaceCall :=
  [.addFreePages ⟨0, 10⟩, .addUncheckpointedFreePages ⟨10, 5⟩, .popFreePages 3, .finalizeCheckpoint]

theorem free_space_kept_session :
    ∃ l, run step new freeSpaceSession = some l ∧ l.Sound ∧ PopsExactly l.fsm :=
  free_space_kept freeSpaceSession (meets_of_check (by decide +kernel))

/-- Ranges that wait for a checkpoint are not compared with the free ones, and a request for no page
is never answered. -/
theorem checkpoint_overlaps :
    (∃ l, run step new [.addFreePages ⟨0, 10⟩, .addUncheckpointedFreePages ⟨5, 10⟩,
      .finalizeCheckpoint] = some l ∧
      ¬l.fsm.ranges.Pairwise PageRange.Apart) ∧
    ∃ l, run step new [.addFreePages ⟨0, 10⟩] = some l ∧ ⟨0, 10⟩ ∈ l.fsm.ranges ∧
      l.fsm.popFreePages 0 = some (l.fsm, none) := by
  refine ⟨⟨_, rfl, by decide +kernel⟩, ⟨_, rfl, by decide +kernel, rfl⟩⟩

end FreeSpaceLedger

end Akar
