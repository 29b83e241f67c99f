import Akar.Runs
import Akar.Catalog

namespace Akar

open List

structure Sequence extends SequenceEntry where
  usageCount : Nat
  currVal : Int

namespace Sequence

/-- The 64-bit value that an operation leaves in a release build. -/
def wrap (x : Int) : Int := x.bmod 18446744073709551616

def new (entry : SequenceEntry) : Sequence := ⟨entry, 0, entry.startValue⟩

def advance (s : Sequence) (delta : Int) : Int :=
  let v := s.currVal + delta
  -- `checked_add`
  if wrap v = v then
    if s.maxValue < v then if s.cycle then s.minValue else v
    else if v < s.minValue then if s.cycle then s.maxValue else v
    else v
  else if s.cycle then if 0 < delta then s.minValue else s.maxValue
  else s.currVal

def nextKVal (s : Sequence) (count : Nat) : Int × Sequence :=
  (s.currVal, { s with
    usageCount := (s.usageCount + count) % 18446744073709551616
    currVal := s.advance (wrap (s.increment * wrap count)) })

def step (s : Sequence) (count : Nat) : Option Sequence := some (s.nextKVal count).2

def handedOut : Sequence → List Nat → List Int
  | _, [] => []
  | s, k :: ks => (s.nextKVal k).1 :: handedOut (s.nextKVal k).2 ks

abbrev InRange (s : Sequence) (v : Int) : Prop := s.minValue ≤ v ∧ v ≤ s.maxValue

/-- Where `k` steps are to lead: to the opposite bound when they would leave the range. -/
def onward (s : Sequence) (v : Int) (k : Nat) : Int :=
  if s.InRange (v + s.increment * k) then v + s.increment * k
  else if 0 < s.increment then s.minValue else s.maxValue

structure Valid (s : Sequence) : Prop where
  range : s.InRange s.currVal
  lower : -9223372036854775808 ≤ s.minValue
  upper : s.maxValue < 9223372036854775808
  moves : s.increment ≠ 0

/-- No product or count overflows, and a sequence that does not cycle has the values left. -/
abbrev Careful (s : Sequence) (k : Nat) : Prop :=
  0 < k ∧ s.usageCount + k < 18446744073709551616 ∧ wrap k = k ∧ wrap (s.increment * k) =
    s.increment * k ∧
    (s.cycle = false → s.InRange (s.currVal + s.increment * k))

variable {s : Sequence} {k : Nat} {ks : List Nat}

theorem wrap_eq {x : Int} (hl : -9223372036854775808 ≤ x) (hu : x < 9223372036854775808) : wrap x = x :=
  Int.bmod_eq_of_le (by omega) (by omega)

theorem Valid.sign (h : s.Valid) (hk : s.Careful k) :
    0 < s.increment ∧ 0 < s.increment * k ∨ s.increment < 0 ∧ s.increment * k < 0 := by
  have hcount := Int.natCast_pos.mpr hk.1
  rcases Int.lt_or_gt_of_ne h.moves with hneg | hpos
  · exact .inr ⟨hneg, Int.mul_neg_of_neg_of_pos hneg hcount⟩
  · exact .inl ⟨hpos, Int.mul_pos hpos hcount⟩

theorem nextKVal_currVal (h : s.Valid) (hk : s.Careful k) : (s.nextKVal k).2.currVal =
    s.onward s.currVal k := by
  obtain ⟨hrange, hl, hu, -⟩ := id h
  have hsign := h.sign hk
  obtain ⟨-, -, hcount, hproduct, hleft⟩ := hk
  show s.advance _ = _
  rw [hcount, hproduct, advance, onward]
  generalize s.increment * k = d at *
  by_cases hin : s.InRange (s.currVal + d)
  · rw [if_pos hin, if_pos (wrap_eq (by omega) (by omega)), if_neg (by omega), if_neg (by omega)]
  · have hcycle : s.cycle = true := by
      cases hc : s.cycle with
      | false => exact absurd (hleft hc) hin
      | true => rfl
    simp only [hcycle, if_true, if_neg hin]
    split_ifs <;> omega

theorem Valid.next (h : s.Valid) (hk : s.Careful k) : (s.nextKVal k).2.Valid := by
  refine ⟨?_, h.lower, h.upper, h.moves⟩
  have hrange := h.range
  show s.InRange (s.nextKVal k).2.currVal
  rw [nextKVal_currVal h hk, onward]
  split_ifs <;> omega

theorem beyond (h : s.Valid) (hc : s.cycle = false) (hok : Meets step Careful s ks) :
    ∀ v ∈ handedOut s ks, 0 < s.increment ∧ s.currVal ≤ v ∨ s.increment < 0 ∧ v ≤ s.currVal := by
  induction ks generalizing s with
  | nil => simp [handedOut]
  | cons k ks ih =>
    obtain ⟨hk, hrest⟩ := hok
    have hcurr := nextKVal_currVal h hk
    rw [onward, if_pos (hk.2.2.2.2 hc)] at hcurr
    have hsign := h.sign hk
    intro v hv
    rcases mem_cons.mp hv with rfl | hv
    · show 0 < s.increment ∧ s.currVal ≤ s.currVal ∨ s.increment < 0 ∧ s.currVal ≤ s.currVal
      omega
    · have hlater := ih (h.next hk) hc (hrest _ rfl) v hv
      rw [hcurr] at hlater
      change 0 < s.increment ∧ _ ∨ s.increment < 0 ∧ _ at hlater
      omega

/-- Careful calls hand out the values they are to, within the range and, unless the sequence cycles,
each once. -/
theorem handedOut_spec (s : Sequence) (ks : List Nat) (h : s.Valid) (hok : Meets step Careful s ks) :
    handedOut s ks = (ks.scanl s.onward s.currVal).take ks.length ∧
    (∀ v ∈ handedOut s ks, s.InRange v) ∧ (s.cycle = false → (handedOut s ks).Nodup) := by
  induction ks generalizing s with
  | nil => simp [handedOut]
  | cons k ks ih =>
    obtain ⟨hk, hrest⟩ := hok
    obtain ⟨hvalues, hrange, hnodup⟩ := ih _ (h.next hk) (hrest _ rfl)
    have hcurr := nextKVal_currVal h hk
    refine ⟨?_, ?_, fun hc => ?_⟩
    · rw [handedOut, hvalues, hcurr, scanl_cons, length_cons, take_succ_cons]
      rfl
    · exact forall_mem_cons.mpr ⟨h.range, hrange⟩
    · refine nodup_cons.mpr ⟨fun hmem => ?_, hnodup hc⟩
      have hbeyond := beyond (h.next hk) hc (hrest _ rfl) _ hmem
      rw [onward, if_pos (hk.2.2.2.2 hc)] at hcurr
      rw [hcurr] at hbeyond
      change 0 < s.increment ∧ _ ≤ s.currVal ∨ s.increment < 0 ∧ s.currVal ≤ _ at hbeyond
      have hsign := h.sign hk
      omega

def oneToThree (startValue increment : Int) (cycle : Bool) : Sequence :=
  new ⟨0, "ids", startValue, increment, 1, 3, cycle⟩

theorem handedOut_spec_cycle : handedOut (oneToThree 1 2 true) [1, 1, 1] = [1, 3, 1] ∧
    (∀ v ∈ handedOut (oneToThree 1 2 true) [1, 1, 1], (oneToThree 1 2 true).InRange v) ∧
    handedOut (oneToThree 3 (-1) false) [1, 1] = [3, 2] ∧
      (handedOut (oneToThree 3 (-1) false) [1, 1]).Nodup :=
  ⟨by decide, (handedOut_spec _ [1, 1, 1] ⟨by decide, by decide, by decide, by decide⟩
    (meets_of_check (by decide))).2.1, by decide,
    (handedOut_spec _ [1, 1] ⟨by decide, by decide, by decide, by decide⟩
      (meets_of_check (by decide))).2.2 rfl⟩

/-- A sequence up to 3 that does not cycle hands out 4, and the same value again for no steps. -/
theorem handedOut_leaves_range :
    handedOut (oneToThree 3 1 false) [1, 1] = [3, 4] ∧ handedOut (oneToThree 3 1 false) [0, 0] =
    [3, 3] := by
  decide

end Sequence

end Akar
