import Akar.Runs

namespace Akar

/-!
Endless runs of a partial step function whose actions belong to processes, and the rules by which a process that is
bound to act brings something about.
-/

structure Trace {S A : Type} (step : S → A → Option S) (init : S) where
  state : Nat → S
  act : Nat → A
  start : state 0 = init
  next : ∀ n, step (state n) (act n) = some (state (n + 1))

namespace Trace

variable {S A P : Type} {step : S → A → Option S} {init : S} {actor : A → Option P}

theorem invariant (tr : Trace step init) {Inv : S → Prop} (h0 : Inv init)
    (hstep : ∀ s a t, Inv s → step s a = some t → Inv t) (n : Nat) : Inv (tr.state n) := by
  induction n with
  | zero =>
    rw [tr.start]
    exact h0
  | succ n ih => exact hstep _ _ _ ih (tr.next n)

theorem run_acts (tr : Trace step init) (n : Nat) : run step init ((List.range n).map tr.act) =
    some (tr.state n) := by
  induction n with
  | zero => exact congrArg some tr.start.symm
  | succ n ih =>
    rw [List.range_succ, List.map_append, run_append, ih, Option.bind_some]
    exact run_cons_eq_some.mpr ⟨_, tr.next n, rfl⟩

variable {R : S → Prop} {n : Nat}

theorem persists (tr : Trace step init) {m : Nat} (hle : n ≤ m) (h : R (tr.state n))
    (hkeep : ∀ k, n ≤ k → R (tr.state k) → R (tr.state (k + 1))) : R (tr.state m) := by
  induction hle with
  | refl => exact h
  | step hm ih => exact hkeep _ hm ih

variable {Q : S → Prop}

theorem eventually_of_act (tr : Trace step init) {p : P} (h : R (tr.state n))
    (hfair : ∃ m, n ≤ m ∧ actor (tr.act m) = some p)
    (hother : ∀ k, n ≤ k → R (tr.state k) → actor (tr.act k) ≠ some p → R (tr.state (k + 1)) ∨
      Q (tr.state (k + 1)))
    (hact : ∀ k, n ≤ k → R (tr.state k) → actor (tr.act k) = some p → Q (tr.state (k + 1))) :
    ∃ m, n ≤ m ∧ Q (tr.state m) := by
  by_contra hnever
  obtain ⟨m, hm, hp⟩ := hfair
  have hlasts : R (tr.state m) := by
    refine tr.persists hm h fun k hk hR => ?_
    by_cases hp : actor (tr.act k) = some p
    · exact absurd ⟨k + 1, by omega, hact k hk hR hp⟩ hnever
    · rcases hother k hk hR hp with hR | hQ
      · exact hR
      · exact absurd ⟨k + 1, by omega, hQ⟩ hnever
  exact hnever ⟨m + 1, by omega, hact m hm hlasts hp⟩

theorem eventually_of_rank (tr : Trace step init) {R : Nat → S → Prop}
    (hfalls : ∀ r n, R r (tr.state n) → ∃ m, n ≤ m ∧
      (Q (tr.state m) ∨ ∃ r' < r, R r' (tr.state m))) {r : Nat}
    (h : R r (tr.state n)) : ∃ m, n ≤ m ∧ Q (tr.state m) := by
  induction r using Nat.strongRecOn generalizing n with
  | _ r ih =>
    obtain ⟨m, hm, hQ | ⟨r', hlt, hR⟩⟩ := hfalls r n h
    · exact ⟨m, hm, hQ⟩
    · obtain ⟨m', hm', hQ⟩ := ih r' hlt hR
      exact ⟨m', by omega, hQ⟩

end Trace

end Akar
