import Mathlib.Data.List.Basic

namespace Akar

open List

/-! A loop that looks for each request in a state and creates what it does not find. -/

inductive Merged (ρ : Type) where
  | matched (r : ρ)
  | created (r : ρ)
  deriving DecidableEq, Repr

namespace Merged

variable {ρ : Type}

def get : Merged ρ → ρ
  | matched r => r
  | created r => r

def isCreated : Merged ρ → Bool
  | matched _ => false
  | created _ => true

end Merged

section MatchOrCreate

variable {σ ι ρ ε : Type}

def mergeOne (find : σ → ι → Except ε (Option ρ)) (create : σ → ι → Except ε (σ × ρ)) (s : σ) (x : ι) :
    Except ε (σ × Merged ρ) :=
  match find s x with
  | .error e => .error e
  | .ok (some r) => .ok (s, .matched r)
  | .ok none =>
    match create s x with
    | .error e => .error e
    | .ok (s', r) => .ok (s', .created r)

def mergeAll (find : σ → ι → Except ε (Option ρ)) (create : σ → ι → Except ε (σ × ρ)) (s : σ) :
    List ι → Except ε (σ × List (Merged ρ))
  | [] => .ok (s, [])
  | x :: xs =>
    match mergeOne find create s x with
    | .error e => .error e
    | .ok (s', m) =>
      match mergeAll find create s' xs with
      | .error e => .error e
      | .ok (s'', ms) => .ok (s'', m :: ms)

variable {find : σ → ι → Except ε (Option ρ)} {create : σ → ι → Except ε (σ × ρ)} {s s'' : σ}
    {x : ι} {xs : List ι}
  {ms : List (Merged ρ)}

theorem mergeAll_cons_eq_ok (h : mergeAll find create s (x :: xs) = .ok (s'', ms)) :
    ∃ s' m ms', mergeOne find create s x = .ok (s', m) ∧ mergeAll find create s' xs = .ok (s'', ms') ∧
      ms = m :: ms' := by
  rw [mergeAll] at h
  split at h
  · cases h
  next s' m hone =>
    split at h
    · cases h
    next s₂ ms' hall => cases h; exact ⟨s', m, ms', hone, hall, rfl⟩

theorem mergeAll_length (h : mergeAll find create s xs = .ok (s'', ms)) : ms.length = xs.length := by
  induction xs generalizing s ms with
  | nil =>
    cases h
    rfl
  | cons x xs ih =>
    obtain ⟨_, _, _, _, hall, rfl⟩ := mergeAll_cons_eq_ok h
    simp [ih hall]

end MatchOrCreate

end Akar
