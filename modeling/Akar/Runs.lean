import Mathlib.Order.Basic

namespace Akar

open List

/-!
Runs of a partial step function: `run` folds the steps, `Meets` says that a condition on
the state before each step holds all along.
-/

section Runs

variable {S A : Type} {step : S → A → Option S} {ok : S → A → Prop} {s t u : S} {a : A} {as bs : List A}

def run (step : S → A → Option S) : S → List A → Option S
  | s, [] => some s
  | s, a :: as => (step s a).bind fun t => run step t as

def Meets (step : S → A → Option S) (ok : S → A → Prop) : S → List A → Prop
  | _, [] => True
  | s, a :: as => ok s a ∧ ∀ t, step s a = some t → Meets step ok t as

theorem run_cons_eq_some : run step s (a :: as) = some u ↔ ∃ t, step s a = some t ∧ run step t as =
    some u :=
  Option.bind_eq_some_iff

theorem exists_run {P : S → Prop} (h : (run step s as).isSome)
    (hP : ∀ t, run step s as = some t → P t) :
    ∃ t, run step s as = some t ∧ P t := by
  obtain ⟨t, ht⟩ := Option.isSome_iff_exists.mp h
  exact ⟨t, ht, hP t ht⟩

theorem run_append : run step s (as ++ bs) = (run step s as).bind fun t => run step t bs := by
  induction as generalizing s with
  | nil => rfl
  | cons a as ih => simp [run, ih, Option.bind_assoc]

theorem run_append_eq_some :
    run step s (as ++ bs) = some u ↔ ∃ t, run step s as = some t ∧ run step t bs = some u := by
  rw [run_append, Option.bind_eq_some_iff]

theorem run_split (h : run step s (as ++ a :: bs) = some u) :
    ∃ t t', run step s as = some t ∧ step t a = some t' ∧ run step t' bs = some u := by
  obtain ⟨t, ht, h⟩ := run_append_eq_some.mp h
  obtain ⟨t', ht', h⟩ := run_cons_eq_some.mp h
  exact ⟨t, t', ht, ht', h⟩

theorem meets_append (h : run step s as = some t) :
    Meets step ok s (as ++ bs) ↔ Meets step ok s as ∧ Meets step ok t bs := by
  induction as generalizing s with
  | nil => cases h; simp [Meets]
  | cons a as ih =>
    obtain ⟨v, hv, ht⟩ := run_cons_eq_some.mp h
    simp only [cons_append, Meets, and_assoc, and_congr_right_iff]
    intro _
    constructor
    · intro hm
      have hvm := (ih ht).mp (hm v hv)
      refine ⟨fun w hw => ?_, hvm.2⟩
      rw [hv] at hw
      cases hw
      exact hvm.1
    · rintro ⟨hm, hb⟩ w hw
      rw [hv] at hw
      cases hw
      exact (ih ht).mpr ⟨hm v hv, hb⟩

theorem Meets.strengthen {ok' : S → A → Prop} (Inv : S → Prop)
    (hstep : ∀ s a t, Inv s → ok s a → step s a = some t → Inv t ∧ ok' s a)
    (h : run step s as = some u) (hm : Meets step ok s as) (h0 : Inv s) : Meets step ok' s as := by
  induction as generalizing s with
  | nil => trivial
  | cons a as ih =>
    obtain ⟨v, hv, hu⟩ := run_cons_eq_some.mp h
    obtain ⟨hi, hok⟩ := hstep s a v h0 hm.1 hv
    refine ⟨hok, fun t ht => ?_⟩
    rw [hv] at ht
    cases ht
    exact ih hu (hm.2 v hv) hi

theorem meets_trivial : Meets step (fun _ _ => True) s as := by
  induction as generalizing s with
  | nil => trivial
  | cons a as ih => exact ⟨trivial, fun t _ => ih⟩

theorem meets_iff_forall_step (h : run step s as = some u) :
    Meets step ok s as ↔ ∀ pre a post t, as = pre ++ a :: post → run step s pre = some t → ok t a := by
  constructor
  · rintro hm pre a post t rfl ht
    exact ((meets_append ht).mp hm).2.1
  · intro hall
    induction as generalizing s with
    | nil => trivial
    | cons a as ih =>
      obtain ⟨v, hv, hu⟩ := run_cons_eq_some.mp h
      refine ⟨hall [] a as s rfl rfl, fun t ht => ?_⟩
      rw [hv] at ht
      cases ht
      refine ih hu fun pre b post t hsplit ht => ?_
      exact hall (a :: pre) b post t (by rw [hsplit]; rfl) (run_cons_eq_some.mpr ⟨v, hv, ht⟩)

def meetsCheck (step : S → A → Option S) (ok : S → A → Prop) [∀ s a, Decidable (ok s a)] : S →
    List A → Bool
  | _, [] => true
  | s, a :: as => decide (ok s a) && (step s a).all fun t => meetsCheck step ok t as

theorem meets_of_check [∀ s a, Decidable (ok s a)] (h : meetsCheck step ok s as = true) :
    Meets step ok s as := by
  induction as generalizing s with
  | nil => trivial
  | cons a as ih =>
    simp only [meetsCheck, Bool.and_eq_true, decide_eq_true_eq] at h
    refine ⟨h.1, fun t ht => ih ?_⟩
    rw [ht] at h
    exact h.2

variable {Inv : S → Prop}

theorem run_keeps (hstep : ∀ s a t, Inv s → ok s a → step s a = some t → Inv t)
    (h : run step s as = some t) (hm : Meets step ok s as) (h0 : Inv s) : Inv t := by
  induction as generalizing s with
  | nil => cases h; exact h0
  | cons a as ih =>
    obtain ⟨v, hv, ht⟩ := run_cons_eq_some.mp h
    exact ih ht (hm.2 v hv) (hstep s a v h0 hm.1 hv)

theorem run_keeps_history {Inv : List A → S → Prop}
    (hstep : ∀ as s a t, Inv as s → step s a = some t → Inv (as ++ [a]) t)
    (h : run step s as = some t) (h0 : Inv [] s) : Inv as t := by
  have hfrom : ∀ as pre s, Inv pre s → run step s as = some t → Inv (pre ++ as) t := by
    intro as
    induction as with
    | nil =>
      intro pre s hs h
      cases h
      rw [append_nil]
      exact hs
    | cons a as ih =>
      intro pre s hs h
      obtain ⟨v, hv, ht⟩ := run_cons_eq_some.mp h
      have hrest := ih (pre ++ [a]) v (hstep pre s a v hs hv) ht
      rwa [append_assoc] at hrest
  exact hfrom as [] s h0 h

theorem run_keeps_all (Inv : S → Prop) (hstep : ∀ s a t, Inv s → step s a = some t → Inv t)
    (h : run step s as = some t) (h0 : Inv s) : Inv t :=
  run_keeps (fun s a t hs _ ht => hstep s a t hs ht) h meets_trivial h0

/-- A reflexive and transitive relation that every step from an `Inv` state obeys relates the ends
of a run. -/
theorem run_relates {R : S → S → Prop} (hrefl : ∀ s, R s s)
    (htrans : ∀ s t u, R s t → R t u → R s u)
    (hstep : ∀ s a t, Inv s → step s a = some t → Inv t ∧ R s t)
    (h : run step s as = some t) (h0 : Inv s) : R s t := by
  induction as generalizing s with
  | nil => cases h; exact hrefl _
  | cons a as ih =>
    obtain ⟨v, hv, ht⟩ := run_cons_eq_some.mp h
    obtain ⟨hi, hr⟩ := hstep s a v h0 hv
    exact htrans _ _ _ hr (ih ht hi)

/-- If a step keeps `P` exactly when it meets `ok`, a run meets `ok` throughout exactly when `P`
holds in every state it passes. -/
theorem meets_iff_holds_throughout (Inv P : S → Prop)
    (hinv : ∀ s a t, Inv s → step s a = some t → Inv t)
    (hstep : ∀ s a t, Inv s → P s → step s a = some t → (P t ↔ ok s a))
    (h : run step s as = some u) (h0 : Inv s) (hp : P s) :
    (∀ pre post t, as = pre ++ post → run step s pre = some t → P t) ↔ Meets step ok s as := by
  induction as generalizing s with
  | nil =>
    refine iff_of_true ?_ trivial
    intro pre post t hsplit ht
    obtain ⟨rfl, rfl⟩ := append_eq_nil_iff.mp hsplit.symm
    cases ht
    exact hp
  | cons a as ih =>
    obtain ⟨v, hv, hu⟩ := run_cons_eq_some.mp h
    constructor
    · intro hall
      have hpv := hall [a] as v rfl (by simp [run, hv])
      refine ⟨(hstep s a v h0 hp hv).mp hpv, fun t ht => ?_⟩
      rw [hv] at ht
      cases ht
      refine (ih hu (hinv s a v h0 hv) hpv).mp fun pre post t hsplit ht => ?_
      exact hall (a :: pre) post t (by rw [hsplit]; rfl) (run_cons_eq_some.mpr ⟨v, hv, ht⟩)
    · rintro ⟨hok, hm⟩ pre post t hsplit ht
      have hpv : P v := (hstep s a v h0 hp hv).mpr hok
      cases pre with
      | nil => cases ht; exact hp
      | cons b pre =>
        obtain ⟨rfl, rfl⟩ := cons.inj hsplit
        obtain ⟨w, hw, ht⟩ := run_cons_eq_some.mp ht
        rw [hv] at hw
        cases hw
        exact (ih hu (hinv s a v h0 hv) hpv).mpr (hm v hv) pre post t rfl ht

end Runs

end Akar
