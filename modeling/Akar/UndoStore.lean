import Akar.Slots

namespace Akar

open List Option Function

/-!
In-place writers over a store of cells. A transaction overwrites a cell where it stands and keeps what
was there, and one that gives up puts back what it kept, last first.
-/

/-- How far a transaction has come. An accepted one has its timestamp and can still fail. -/
inductive Standing where
  | live
  | accepted (ts : Nat)
  | committed (ts : Nat)
  | undoing
  deriving DecidableEq, Repr

namespace Standing

def pending : Standing → Bool
  | live | accepted _ => true
  | committed _ | undoing => false

def isCommitted : Standing → Bool
  | committed _ => true
  | _ => false

inductive Move : Standing → Nat → Standing → Nat → Prop where
  | work (n : Nat) : Move live n live n
  | accept (n : Nat) : Move live n (accepted n) (n + 1)
  | fail (ts n : Nat) : Move (accepted ts) n live n
  | commit (ts n : Nat) : Move (accepted ts) n (committed ts) n
  | commitAtOnce (n : Nat) : Move live n (committed n) (n + 1)
  | rollBack (n : Nat) : Move live n undoing n

end Standing

structure UndoStore (T C V : Type) where
  cells : C → V
  saved : T → List (C × V)
  wrote : T → List (C × V)
  standing : T → Standing
  clock : Nat

section Lookup

variable {C V : Type} [DecidableEq C] {c d : C} {v w : V} {ps : List (C × V)}

def lastOf (ps : List (C × V)) (c : C) : Option V := ps.reverse.lookup c

theorem lastOf_concat (ps : List (C × V)) (c d : C) (v : V) :
    lastOf (ps ++ [(c, v)]) d = if d = c then some v else lastOf ps d := by
  rw [lastOf, reverse_append, reverse_singleton, singleton_append, lookup_cons_ite]
  rfl

theorem mem_keys_of_lookup (h : ps.lookup c = some v) : c ∈ ps.map Prod.fst := by
  obtain ⟨l₁, l₂, hps, -⟩ := lookup_eq_some_iff.mp h
  rw [hps, map_append, map_cons]
  exact mem_append_right _ mem_cons_self

theorem lookup_eq_none_of_not_mem (h : c ∉ ps.map Prod.fst) : ps.lookup c = none := by
  cases hv : ps.lookup c with
  | none => rfl
  | some v => exact absurd (mem_keys_of_lookup hv) h

theorem lookup_concat_eq_some (h : (ps ++ [(c, v)]).lookup d = some w) :
    ps.lookup d = some w ∨ d ∉ ps.map Prod.fst ∧ d = c ∧ w = v := by
  rw [lookup_append] at h
  cases hps : ps.lookup d with
  | some x =>
    rw [hps, some_or] at h
    exact .inl h
  | none =>
    rw [hps, none_or, lookup_cons_ite] at h
    have hd : d ∉ ps.map Prod.fst := by
      intro hmem
      obtain ⟨p, hp, rfl⟩ := mem_map.mp hmem
      have hne := lookup_eq_none_iff.mp hps p hp
      simp at hne
    obtain ⟨heq, rfl⟩ := ite_some_none_eq_some.mp h
    exact .inr ⟨hd, heq, rfl⟩

end Lookup

namespace UndoStore

variable {T C V : Type} [DecidableEq T] [DecidableEq C] {s : UndoStore T C V} {init base : C → V}
    {t u : T} {c : C} {v : V}

def write (s : UndoStore T C V) (t : T) (c : C) (v : V) : UndoStore T C V := { s with
    cells := update s.cells c v
    saved := update s.saved t (s.saved t ++ [(c, s.cells c)])
    wrote := update s.wrote t (s.wrote t ++ [(c, v)]) }

def putBack (s : UndoStore T C V) (t : T) (c : C) (v : V) (rest : List (C × V)) : UndoStore T C V :=
  { s with cells := update s.cells c v, saved := update s.saved t rest }

def move (s : UndoStore T C V) (t : T) (x : Standing) (n : Nat) : UndoStore T C V := { s with
    saved := if x.isCommitted then update s.saved t [] else s.saved
    standing := update s.standing t x
    clock := n }

def Holds (s : UndoStore T C V) (t : T) (c : C) : Prop := c ∈ (s.saved t).map Prod.fst

def Wrote (s : UndoStore T C V) (t : T) (c : C) : Prop := c ∈ (s.wrote t).map Prod.fst

/-- `t` is the last in commit order of the committed writers of `c`. -/
structure LastWriter (s : UndoStore T C V) (c : C) (t : T) (ts : Nat) : Prop where
  committed : s.standing t = .committed ts
  wrote : s.Wrote t c
  last : ∀ u ts', s.standing u = .committed ts' → s.Wrote u c → u = t ∨ ts' < ts

def CommittedValue (s : UndoStore T C V) (init : C → V) (c : C) (v : V) : Prop :=
  (∃ t ts, s.LastWriter c t ts ∧ lastOf (s.wrote t) c = some v) ∨
    (∀ t ts, s.standing t = .committed ts → ¬s.Wrote t c) ∧ v = init c

/-- The cell is held by one transaction at most, and undoing everything that is not committed leads
to `base`. -/
structure Sound (s : UndoStore T C V) (init base : C → V) : Prop where
  alone : ∀ t u c, s.Holds t c → s.Holds u c → t = u
  free : ∀ c, (∀ t, ¬s.Holds t c) → s.cells c = base c
  oldest : ∀ t c v, (s.saved t).lookup c = some v → v = base c
  base : ∀ c, s.CommittedValue init c (base c)
  done : ∀ t ts, s.standing t = .committed ts → s.saved t = []
  held : ∀ t c, (s.standing t).pending = true → (s.Wrote t c ↔ s.Holds t c)
  current : ∀ t c, (s.standing t).pending = true → s.Holds t c → lastOf (s.wrote t) c = some (s.cells c)
  stamps : ∀ t ts, s.standing t = .committed ts ∨ s.standing t = .accepted ts → ts < s.clock
  order : ∀ t ts c u ts', s.standing t = .accepted ts → s.Holds t c → s.standing u = .committed ts' →
    s.Wrote u c → ts' < ts

omit [DecidableEq T] in
theorem CommittedValue.congr {s' : UndoStore T C V} (h : s.CommittedValue init c v)
    (hs : ∀ t ts, s'.standing t = .committed ts ↔ s.standing t = .committed ts)
    (hw : ∀ t ts, s.standing t = .committed ts → s'.wrote t = s.wrote t) :
      s'.CommittedValue init c v := by
  have hwrote {t : T} {ts : Nat} (ht : s.standing t = .committed ts) : s'.Wrote t c ↔ s.Wrote t c := by
    unfold Wrote
    rw [hw t ts ht]
  rcases h with ⟨t, ts, hlast, hv⟩ | ⟨hnone, hv⟩
  · refine .inl ⟨t, ts, ⟨(hs t ts).mpr hlast.committed, (hwrote hlast.committed).mpr hlast.wrote,
      ?_⟩, ?_⟩
    · intro u ts' hu hwu
      have hu' := (hs u ts').mp hu
      exact hlast.last u ts' hu' ((hwrote hu').mp hwu)
    · rw [hw t ts hlast.committed]
      exact hv
  · refine .inr ⟨fun t ts ht hwt => ?_, hv⟩
    have ht' := (hs t ts).mp ht
    exact hnone t ts ht' ((hwrote ht').mp hwt)

omit [DecidableEq T] in
theorem sound_of_idle (hsaved : ∀ t, s.saved t = []) (hwrote : ∀ t, s.wrote t = [])
    (hlive : ∀ t, s.standing t = .live) :
    s.Sound s.cells s.cells where
  alone := by
    intro t u c h
    rw [Holds, hsaved] at h
    cases h
  free := fun _ _ => rfl
  oldest := by
    intro t c v h
    rw [hsaved] at h
    cases h
  base := by
    intro c
    refine .inr ⟨fun t ts ht => ?_, rfl⟩
    rw [hlive] at ht
    cases ht
  done := fun t _ _ => hsaved t
  held := by
    intro t c _
    rw [Wrote, Holds, hsaved, hwrote]
  current := by
    intro t c _ h
    rw [Holds, hsaved] at h
    cases h
  stamps := by
    intro t ts h
    rw [hlive] at h
    rcases h with h | h <;> cases h
  order := by
    intro t ts c u ts' h
    rw [hlive] at h
    cases h

variable {d : C}

theorem holds_write : (s.write t c v).Holds u d ↔ s.Holds u d ∨ u = t ∧ d = c := by
  unfold Holds write
  by_cases hu : u = t
  · subst hu
    simp
  · simp [hu]

theorem wrote_write : (s.write t c v).Wrote u d ↔ s.Wrote u d ∨ u = t ∧ d = c := by
  unfold Wrote write
  by_cases hu : u = t
  · subst hu
    simp
  · simp [hu]

theorem Sound.write (h : s.Sound init base) (hlive : s.standing t = .live)
    (hown : ∀ u, s.Holds u c → u = t) (v : V) :
    (s.write t c v).Sound init base where
  alone := by
    intro u w d hu hw
    rcases holds_write.mp hu with hu' | ⟨hut, hdc⟩ <;> rcases holds_write.mp hw with hw' | ⟨hwt, hdc'⟩
    · exact h.alone u w d hu' hw'
    · exact (hown u (hdc' ▸ hu')).trans hwt.symm
    · exact hut.trans (hown w (hdc ▸ hw')).symm
    · exact hut.trans hwt.symm
  free := by
    intro d hd
    have hne : d ≠ c := fun heq => hd t (holds_write.mpr (.inr ⟨rfl, heq⟩))
    show update s.cells c v d = base d
    rw [update_of_ne hne]
    exact h.free d fun u hu => hd u (holds_write.mpr (.inl hu))
  oldest := by
    intro u d w hw
    by_cases hu : u = t
    · subst hu
      have hw' : (s.saved u ++ [(c, s.cells c)]).lookup d = some w := by
        have heq : (s.write u c v).saved u = s.saved u ++ [(c, s.cells c)] := update_self ..
        rw [← heq]
        exact hw
      rcases lookup_concat_eq_some hw' with hold | ⟨hnot, rfl, rfl⟩
      · exact h.oldest u d w hold
      · -- the first write to the cell keeps what the committed transactions left there
        exact h.free d fun x hx => hnot (hown x hx ▸ hx)
    · have heq : (s.write t c v).saved u = s.saved u := update_of_ne hu ..
      rw [heq] at hw
      exact h.oldest u d w hw
  base := by
    intro d
    refine (h.base d).congr (fun _ _ => Iff.rfl) fun u ts hu => ?_
    refine update_of_ne (fun heq => ?_) ..
    rw [heq, hlive] at hu
    cases hu
  done := by
    intro u ts hu
    have hne : u ≠ t := by
      intro heq
      have hu' : s.standing u = .committed ts := hu
      rw [heq, hlive] at hu'
      cases hu'
    show update s.saved t _ u = []
    rw [update_of_ne hne]
    exact h.done u ts hu
  held := by
    intro u d hu
    rw [wrote_write, holds_write, h.held u d hu]
  current := by
    intro u d hu hd
    by_cases hdc : d = c
    · have hut : u = t := by
        rcases holds_write.mp hd with hd | ⟨hut, -⟩
        · exact hown u (hdc ▸ hd)
        · exact hut
      subst hut hdc
      show lastOf (update s.wrote u _ u) d = some (update s.cells d v d)
      rw [update_self, update_self, lastOf_concat, if_pos rfl]
    · have hold : s.Holds u d := (holds_write.mp hd).resolve_right fun hboth => hdc hboth.2
      have hcur := h.current u d hu hold
      show lastOf (update s.wrote t _ u) d = some (update s.cells c v d)
      rw [update_of_ne hdc, ← hcur]
      rw [update_apply]
      split
      next hut =>
        subst hut
        rw [lastOf_concat, if_neg hdc]
      · rfl
  stamps := h.stamps
  order := by
    intro u ts d w ts' hu hd hw hwd
    have hu' : s.standing u = .accepted ts := hu
    have hw' : s.standing w = .committed ts' := hw
    have hd' : s.Holds u d := by
      refine (holds_write.mp hd).resolve_right fun hboth => ?_
      rw [hboth.1, hlive] at hu'
      cases hu'
    have hwd' : s.Wrote w d := by
      refine (wrote_write.mp hwd).resolve_right fun hboth => ?_
      rw [hboth.1, hlive] at hw'
      cases hw'
    exact h.order u ts d w ts' hu' hd' hw' hwd'

variable {rest : List (C × V)}

theorem holds_putBack (hsaved : s.saved t = rest ++ [(c, v)]) :
    s.Holds u d ↔ (s.putBack t c v rest).Holds u d ∨ u = t ∧ d = c := by
  unfold Holds putBack
  by_cases hu : u = t
  · subst hu
    simp [hsaved]
  · simp [hu]

theorem Sound.putBack (h : s.Sound init base) (hundo : s.standing t = .undoing)
    (hsaved : s.saved t = rest ++ [(c, v)]) : (s.putBack t c v rest).Sound init base := by
  have hold {u : T} {d : C} (hu : (s.putBack t c v rest).Holds u d) : s.Holds u d :=
    (holds_putBack hsaved).mpr (.inl hu)
  have hheld : s.Holds t c := (holds_putBack hsaved).mpr (.inr ⟨rfl, rfl⟩)
  have hne {u : T} (hu : s.standing u ≠ .undoing) : u ≠ t := fun heq => hu (heq ▸ hundo)
  have hsame {u : T} {d : C} (hu : s.standing u ≠ .undoing) : s.Holds u d ↔
      (s.putBack t c v rest).Holds u d := by
    rw [holds_putBack hsaved]
    exact or_iff_left fun hboth => hne hu hboth.1
  refine ⟨fun u w d hu hw => h.alone u w d (hold hu) (hold hw), ?_, ?_, ?_, ?_, ?_, ?_, h.stamps, ?_⟩
  · intro d hd
    show update s.cells c v d = base d
    by_cases hdc : d = c
    · -- nothing older is kept for the cell, so this is the value from before the first write
      subst hdc
      rw [update_self]
      have hnot : d ∉ rest.map Prod.fst := by
        have heq : (s.putBack t d v rest).saved t = rest := update_self ..
        have hd' := hd t
        rw [Holds, heq] at hd'
        exact hd'
      refine h.oldest t d v ?_
      rw [hsaved, lookup_append, lookup_eq_none_of_not_mem hnot, none_or, lookup_cons_self]
    · rw [update_of_ne hdc]
      refine h.free d fun u hu => ?_
      rcases (holds_putBack hsaved).mp hu with hu | ⟨-, heq⟩
      · exact hd u hu
      · exact hdc heq
  · intro u d w hw
    by_cases hu : u = t
    · subst hu
      have hrest : rest.lookup d = some w := by
        have heq : (s.putBack u c v rest).saved u = rest := update_self ..
        rw [heq] at hw
        exact hw
      refine h.oldest u d w ?_
      rw [hsaved, lookup_append, hrest, some_or]
    · have heq : (s.putBack t c v rest).saved u = s.saved u := update_of_ne hu ..
      rw [heq] at hw
      exact h.oldest u d w hw
  · exact fun d => (h.base d).congr (fun _ _ => Iff.rfl) fun _ _ _ => rfl
  · intro u ts hu
    have hu' : s.standing u = .committed ts := hu
    show update s.saved t rest u = []
    rw [update_of_ne (hne (by rw [hu']; intro heq; cases heq))]
    exact h.done u ts hu
  · intro u d hu
    have hu' : s.standing u ≠ .undoing := by
      intro heq
      have hpend : (s.standing u).pending = true := hu
      rw [heq] at hpend
      cases hpend
    rw [← hsame hu']
    exact h.held u d hu
  · intro u d hu hd
    have hdc : d ≠ c := by
      intro heq
      subst heq
      have hut := h.alone u t d (hold hd) hheld
      have hpend : (s.standing u).pending = true := hu
      rw [hut, hundo] at hpend
      cases hpend
    show lastOf (s.wrote u) d = some (update s.cells c v d)
    rw [update_of_ne hdc]
    exact h.current u d hu (hold hd)
  · exact fun u ts d w ts' hu hd => h.order u ts d w ts' hu (hold hd)

omit [DecidableEq C] in
theorem standing_move (s : UndoStore T C V) (t : T) (x : Standing) (n : Nat) (u : T) :
    (s.move t x n).standing u = if u = t then x else s.standing u :=
  update_apply ..

variable {x : Standing} {n : Nat}

theorem Sound.moveOn (h : s.Sound init base) (hx : x.isCommitted = false)
    (ht : (s.standing t).isCommitted = false) (hpend : x.pending = true → (s.standing t).pending = true)
    (hclock : s.clock ≤ n) (hstamp : ∀ ts, x = .accepted ts → s.clock ≤ ts ∧ ts < n) :
    (s.move t x n).Sound init base := by
  have hsaved : (s.move t x n).saved = s.saved := by
    unfold move
    rw [hx]
    rfl
  have hholds {u : T} {d : C} : (s.move t x n).Holds u d ↔ s.Holds u d := by
    unfold Holds
    rw [hsaved]
  have hcommitted {u : T} {ts : Nat} : (s.move t x n).standing u = .committed ts ↔ s.standing u =
      .committed ts := by
    rw [standing_move]
    by_cases hu : u = t
    · subst hu
      rw [if_pos rfl]
      refine iff_of_false (fun heq => ?_) fun heq => ?_
      · rw [heq] at hx
        cases hx
      · rw [heq] at ht
        cases ht
    · rw [if_neg hu]
  have hpending {u : T} (hu : ((s.move t x n).standing u).pending = true) :
      (s.standing u).pending = true := by
    rw [standing_move] at hu
    split at hu
    next heq => exact heq ▸ hpend hu
    next => exact hu
  refine ⟨fun u w d hu hw => h.alone u w d (hholds.mp hu) (hholds.mp hw), ?_, ?_, ?_, ?_, ?_, ?_,
    ?_, ?_⟩
  · exact fun d hd => h.free d fun u hu => hd u (hholds.mpr hu)
  · intro u d v hv
    rw [hsaved] at hv
    exact h.oldest u d v hv
  · exact fun d => (h.base d).congr (fun _ _ => hcommitted) fun _ _ _ => rfl
  · intro u ts hu
    rw [hsaved]
    exact h.done u ts (hcommitted.mp hu)
  · intro u d hu
    rw [hholds]
    exact h.held u d (hpending hu)
  · exact fun u d hu hd => h.current u d (hpending hu) (hholds.mp hd)
  · intro u ts hu
    show ts < n
    rcases hu with hu | hu
    · exact Nat.lt_of_lt_of_le (h.stamps u ts (.inl (hcommitted.mp hu))) hclock
    · rw [standing_move] at hu
      split at hu
      next => exact (hstamp ts hu).2
      next => exact Nat.lt_of_lt_of_le (h.stamps u ts (.inr hu)) hclock
  · intro u ts d w ts' hu hd hw hwd
    have hw' := hcommitted.mp hw
    rw [standing_move] at hu
    split at hu
    next => exact Nat.lt_of_lt_of_le (h.stamps w ts' (.inl hw')) (hstamp ts hu).1
    next => exact h.order u ts d w ts' hu (hholds.mp hd) hw' hwd

theorem CommittedValue.move (h : s.CommittedValue init d v) (hno : ¬s.Wrote t d) :
    (s.move t x n).CommittedValue init d v := by
  have hother {u : T} (hu : s.Wrote u d) : (s.move t x n).standing u = s.standing u := by
    have hut : u ≠ t := fun heq => hno (heq ▸ hu)
    rw [standing_move, if_neg hut]
  rcases h with ⟨u, ts, hlast, hv⟩ | ⟨hnone, hv⟩
  · refine .inl ⟨u, ts, ⟨(hother hlast.wrote).trans hlast.committed, hlast.wrote, fun w ts' hw hww =>
      ?_⟩, hv⟩
    rw [hother hww] at hw
    exact hlast.last w ts' hw hww
  · refine .inr ⟨fun w ts hw hww => ?_, hv⟩
    rw [hother hww] at hw
    exact hnone w ts hw hww

open Classical in
theorem Sound.commit (h : s.Sound init base) {ts : Nat} (ht : s.standing t = .accepted ts) :
    (s.move t (.committed ts) s.clock).Sound init fun c =>
      if s.Holds t c then s.cells c else base c := by
  have hholds {u : T} {d : C} : (s.move t (.committed ts) s.clock).Holds u d ↔ u ≠ t ∧ s.Holds u d := by
    unfold Holds move
    by_cases hu : u = t
    · subst hu
      simp [Standing.isCommitted]
    · simp [Standing.isCommitted, hu]
  have hother {u : T} (hu : u ≠ t) : (s.move t (.committed ts) s.clock).standing u = s.standing u := by
    rw [standing_move, if_neg hu]
  have hself : (s.move t (.committed ts) s.clock).standing t = .committed ts := by
    rw [standing_move, if_pos rfl]
  have hpend : (s.standing t).pending = true := by
    rw [ht]
    rfl
  have hnot {u : T} (hu : ((s.move t (.committed ts) s.clock).standing u).pending = true) : u ≠ t := by
    intro heq
    rw [heq, hself] at hu
    cases hu
  have hsaved {u : T} (hu : u ≠ t) : (s.move t (.committed ts) s.clock).saved u = s.saved u :=
    update_of_ne hu ..
  refine ⟨?_, ?_, ?_, ?_, ?_, ?_, ?_, ?_, ?_⟩
  · exact fun u w d hu hw => h.alone u w d (hholds.mp hu).2 (hholds.mp hw).2
  · intro d hd
    show s.cells d = _
    split
    next => rfl
    next hfree =>
      refine h.free d fun u hu => ?_
      by_cases hut : u = t
      · exact hfree (hut ▸ hu)
      · exact hd u (hholds.mpr ⟨hut, hu⟩)
  · intro u d v hv
    have hd := hholds.mp (mem_keys_of_lookup hv)
    have hfree : ¬s.Holds t d := fun hd' => hd.1 (h.alone u t d hd.2 hd')
    rw [if_neg hfree]
    rw [hsaved hd.1] at hv
    exact h.oldest u d v hv
  · intro d
    split
    next hd =>
      refine .inl ⟨t, ts, ⟨hself, (h.held t d hpend).mpr hd, fun u ts' hu hwu => ?_⟩,
        h.current t d hpend hd⟩
      by_cases hut : u = t
      · exact .inl hut
      · rw [hother hut] at hu
        exact .inr (h.order t ts d u ts' ht hd hu hwu)
    next hd => exact (h.base d).move fun hw => hd ((h.held t d hpend).mp hw)
  · intro u ts' hu
    by_cases hut : u = t
    · subst hut
      exact update_self ..
    · rw [hsaved hut]
      rw [hother hut] at hu
      exact h.done u ts' hu
  · intro u d hu
    have hut := hnot hu
    rw [hother hut] at hu
    rw [hholds, and_iff_right hut]
    exact h.held u d hu
  · intro u d hu hd
    rw [hother (hnot hu)] at hu
    exact h.current u d hu (hholds.mp hd).2
  · intro u ts' hu
    by_cases hut : u = t
    · rw [hut, hself] at hu
      rcases hu with hu | hu
      · cases hu
        exact h.stamps t ts (.inr ht)
      · cases hu
    · rw [hother hut] at hu
      exact h.stamps u ts' hu
  · intro u ts₁ d w ts₂ hu hd hw hwd
    obtain ⟨hut, hd⟩ := hholds.mp hd
    rw [hother hut] at hu
    by_cases hwt : w = t
    · -- the committed transaction held the cell, so nobody else does
      have hheld : s.Holds t d := (h.held t d hpend).mp (hwt ▸ hwd)
      exact absurd (h.alone u t d hd hheld) hut
    · rw [hother hwt] at hw
      exact h.order u ts₁ d w ts₂ hu hd hw hwd

theorem Sound.move (h : s.Sound init base) (hm : Standing.Move (s.standing t) s.clock x n) :
    ∃ base', (s.move t x n).Sound init base' := by
  generalize hst : s.standing t = y at hm
  generalize hcl : s.clock = m at hm
  cases hm with
  | work =>
    refine ⟨base, h.moveOn rfl (by rw [hst]; rfl) (fun _ => by rw [hst]; rfl)
      (Nat.le_of_eq hcl) fun ts hts => ?_⟩
    cases hts
  | accept =>
    refine ⟨base, h.moveOn rfl (by rw [hst]; rfl) (fun _ => by rw [hst]; rfl) (by omega) fun ts
      hts => ?_⟩
    cases hts
    omega
  | fail ts =>
    refine ⟨base, h.moveOn rfl (by rw [hst]; rfl) (fun _ => by rw [hst]; rfl)
      (Nat.le_of_eq hcl) fun ts hts => ?_⟩
    cases hts
  | commit =>
    subst hcl
    exact ⟨_, h.commit hst⟩
  | commitAtOnce =>
    subst hcl
    have haccept : (s.move t (.accepted s.clock) (s.clock + 1)).Sound init base := by
      refine h.moveOn rfl (by rw [hst]; rfl) (fun _ => by rw [hst]; rfl) (by omega) fun ts hts => ?_
      cases hts
      omega
    have htwice : (s.move t (.accepted s.clock) (s.clock + 1)).move t (.committed s.clock)
        (s.clock + 1) =
        s.move t (.committed s.clock) (s.clock + 1) := by
      unfold UndoStore.move
      simp [Standing.isCommitted]
    rw [← htwice]
    exact ⟨_, haccept.commit (by rw [standing_move, if_pos rfl])⟩
  | rollBack =>
    refine ⟨base, h.moveOn rfl (by rw [hst]; rfl) nofun (Nat.le_of_eq hcl) fun ts hts => ?_⟩
    cases hts

omit [DecidableEq T] in
theorem Sound.settled (h : s.Sound init base) (hend : ∀ t, s.saved t = []) (c : C) :
    s.CommittedValue init c (s.cells c) := by
  have hfree : s.cells c = base c := by
    refine h.free c fun t ht => ?_
    rw [Holds, hend] at ht
    cases ht
  rw [hfree]
  exact h.base c

end UndoStore

end Akar
