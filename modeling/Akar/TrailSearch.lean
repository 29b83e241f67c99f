import Akar.RecursiveExtend
import Mathlib.Data.Finset.Lattice.Fold

namespace Akar

open List Option AList

namespace PhysicalRecursiveExtend

variable (x : PhysicalRecursiveExtend) (src : UInt64)

/-- The search can take the edge: it leaves a node that a walk of less than `upperBound` edges leads
to. -/
def Used (u v e : UInt64) : Prop := ∃ d < x.upperBound, x.Walks src d u ∧ (v, e) ∈ x.neighbors u

/-- A walk along edges the search can take, with the ids of its edges, last edge first. -/
inductive Along : UInt64 → UInt64 → List UInt64 → Prop
  | refl (v : UInt64) : Along v v []
  | step {v u w e : UInt64} {es : List UInt64} (h : Along v u es) (hu : x.Used src u w e) : Along v w (e :: es)

/-- No edge leads back to where a walk started, except one the walk went along. -/
def NoReturn : Prop := ∀ v u e es, x.Along src v u es → x.Used src u v e → e ∈ es

/-- The recorded path of a node: the edges from it back to a record without a parent. -/
inductive Chain (ps : Parents) : UInt64 → List UInt64 → Prop
  | stop {v : UInt64} {p : Parent} (hv : ps.lookup v = some p) (hend : p.node = noOffset) : Chain ps v [p.edge]
  | step {v : UInt64} {p : Parent} {es : List UInt64} (hv : ps.lookup v = some p) (hmid : p.node ≠ noOffset)
    (h : Chain ps p.node es) : Chain ps v (p.edge :: es)

variable {x src} {ps : Parents} {p : Parent} {u v e : UInt64} {es es' : List UInt64} {fuel : Nat}

theorem Chain.unique (h : Chain ps v es) (h' : Chain ps v es') : es = es' := by
  induction h generalizing es' with
  | stop hv hend =>
    cases h' with
    | stop hv' _ => rw [some.inj (hv.symm.trans hv')]
    | step hv' hmid _ => exact absurd (some.inj (hv.symm.trans hv') ▸ hend) hmid
  | step hv hmid _ ih =>
    cases h' with
    | stop hv' hend => exact absurd (some.inj (hv'.symm.trans hv) ▸ hend) hmid
    | step hv' _ hrest =>
      obtain rfl := some.inj (hv.symm.trans hv')
      rw [ih hrest]

theorem Chain.part (h : Chain ps v es) {m : Nat} (hm : m < es.length) : ∃ w ws, Chain ps w ws ∧
    ws.length = m + 1 := by
  induction h with
  | stop hv hend =>
    obtain rfl := Nat.lt_one_iff.mp hm
    exact ⟨_, _, .stop hv hend, rfl⟩
  | @step v p es hv hmid h ih =>
    rcases Nat.lt_or_eq_of_le (Nat.le_of_lt_succ hm) with hlt | rfl
    · exact ih hlt
    · exact ⟨_, _, .step hv hmid h, rfl⟩

/-- A recorded path meets no node twice, since the paths of its nodes have different lengths. -/
theorem Chain.length_le (h : Chain ps v es) : es.length ≤ Fintype.card UInt64 := by
  choose node path hnode hlength using fun m : Fin es.length => h.part m.isLt
  have hinj : Function.Injective node := by
    intro m m' heq
    have hpath := (hnode m).unique (heq ▸ hnode m')
    have hsucc : m.val + 1 = m'.val + 1 := by rw [← hlength m, ← hlength m', hpath]
    exact Fin.ext (Nat.succ.inj hsucc)
  have hcard := Fintype.card_le_of_injective node hinj
  rwa [Fintype.card_fin] at hcard

theorem Chain.onTrail (h : Chain ps v es) (hfuel : es.length ≤ fuel) :
    ∃ found, onTrail ps e fuel v = some found ∧ (found = false → e ∉ es) := by
  induction h generalizing fuel with
  | stop hv hend =>
    obtain ⟨fuel, rfl⟩ := Nat.exists_eq_succ_of_ne_zero (Nat.ne_of_gt hfuel)
    simp only [Akar.onTrail, hv]
    split
    · exact ⟨true, rfl, by simp⟩
    next hne => exact ⟨false, rfl, fun _ => by simpa using Ne.symm hne⟩
  | step hv hmid _ ih =>
    obtain ⟨fuel, rfl⟩ :=
      Nat.exists_eq_succ_of_ne_zero (Nat.ne_of_gt (Nat.lt_of_lt_of_le (Nat.succ_pos _) hfuel))
    simp only [Akar.onTrail, hv]
    split
    · exact ⟨true, rfl, by simp⟩
    next hne =>
      obtain ⟨found, hfound, hnot⟩ := ih (Nat.le_of_succ_le_succ hfuel)
      refine ⟨found, hfound, fun hf => ?_⟩
      rw [mem_cons, not_or]
      exact ⟨Ne.symm hne, hnot hf⟩

theorem Chain.retrace (h : Chain ps v es) (hfuel : es.length ≤ fuel) : ∃ path,
    retrace ps src fuel v = some path := by
  induction h generalizing fuel with
  | @stop v p hv hend =>
    obtain ⟨fuel, rfl⟩ := Nat.exists_eq_succ_of_ne_zero (Nat.ne_of_gt hfuel)
    by_cases hsrc : v = src
    · exact ⟨_, if_pos hsrc⟩
    · exact ⟨_, by simp only [Akar.retrace, if_neg hsrc, hv, if_pos hend]; rfl⟩
  | @step v p es hv hmid _ ih =>
    obtain ⟨fuel, rfl⟩ :=
      Nat.exists_eq_succ_of_ne_zero (Nat.ne_of_gt (Nat.lt_of_lt_of_le (Nat.succ_pos _) hfuel))
    by_cases hsrc : v = src
    · exact ⟨_, if_pos hsrc⟩
    · obtain ⟨path, hpath⟩ := ih (Nat.le_of_succ_le_succ hfuel)
      exact ⟨_, by simp only [Akar.retrace, if_neg hsrc, hv, if_neg hmid, hpath]; rfl⟩

theorem Chain.insert_new (h : Chain ps u es) (hnew : ps.lookup v = none) :
    Chain (ps.insert v p) u es := by
  induction h with
  | stop hv hend => exact .stop (lookup_insert_of_new hnew hv) hend
  | step hv hmid _ ih => exact .step (lookup_insert_of_new hnew hv) hmid ih

/-- Overwriting the record of `v` leaves a recorded path as it is, or `v` is on it. -/
theorem Chain.insert (h : Chain ps u es)
    (hused : ∀ w q, ps.lookup w = some q → q.node ≠ noOffset → x.Used src q.node w q.edge) :
    Chain (ps.insert v p) u es ∨ ∃ ws, x.Along src v u ws ∧ ∀ e ∈ ws, e ∈ es := by
  induction h with
  | @stop w q hw hend =>
    by_cases hv : w = v
    · exact .inr ⟨[], hv ▸ .refl _, nofun⟩
    · exact .inl (.stop (by rwa [lookup_insert_ne hv]) hend)
  | @step w q es hw hmid _ ih =>
    by_cases hv : w = v
    · exact .inr ⟨[], hv ▸ .refl _, nofun⟩
    · rcases ih with hchain | ⟨ws, halong, hsub⟩
      · exact .inl (.step (by rwa [lookup_insert_ne hv]) hmid hchain)
      · refine .inr ⟨q.edge :: ws, halong.step (hused w q hw hmid), fun e he => ?_⟩
        rcases mem_cons.mp he with rfl | he
        · exact mem_cons_self
        · exact mem_cons_of_mem _ (hsub e he)

/-- With the path of the new parent still there, every node has a path again. -/
theorem Chain.reroute (h : Chain ps u es) (hparent : Chain (ps.insert v p) p.node es') :
    ∃ ws, Chain (ps.insert v p) u ws := by
  have hself : ∃ ws, Chain (ps.insert v p) v ws := by
    by_cases hend : p.node = noOffset
    · exact ⟨_, .stop (lookup_insert ps) hend⟩
    · exact ⟨_, .step (lookup_insert ps) hend hparent⟩
  induction h with
  | @stop w q hw hend =>
    by_cases hv : w = v
    · exact hv ▸ hself
    · exact ⟨_, .stop (by rwa [lookup_insert_ne hv]) hend⟩
  | @step w q es hw hmid _ ih =>
    by_cases hv : w = v
    · exact hv ▸ hself
    · obtain ⟨ws, hws⟩ := ih
      exact ⟨_, .step (by rwa [lookup_insert_ne hv]) hmid hws⟩

/-- Every recorded path runs along used edges and ends, and what is queued is recorded. -/
structure Tracked (x : PhysicalRecursiveExtend) (src : UInt64) (s : Search) : Prop where
  used : ∀ w q, s.parents.lookup w = some q → q.node ≠ noOffset → x.Used src q.node w q.edge
  chains : ∀ w q, s.parents.lookup w = some q → ∃ es, Chain s.parents w es
  queued : ∀ n ∈ s.queue, x.Walks src n.2 n.1 ∧ ∃ es, Chain s.parents n.1 es

theorem tracked_start : x.Tracked src (start src) := by
  have hroot : (start src).parents.lookup src = some ⟨noOffset, noOffset, 0⟩ := lookup_insert ∅
  have honly (w : UInt64) (q : Parent) (hw : (start src).parents.lookup w = some q) :
      w = src ∧ q = ⟨noOffset, noOffset, 0⟩ := by
    by_cases hne : w = src
    · subst hne
      exact ⟨rfl, some.inj (hw.symm.trans hroot)⟩
    · rw [start, lookup_insert_ne hne] at hw
      cases hw
  refine ⟨fun w q hw hmid => ?_, fun w q hw => ?_, fun n hn => ?_⟩
  · exact absurd ((honly w q hw).2 ▸ rfl) hmid
  · exact ⟨_, .stop hw ((honly w q hw).2 ▸ rfl)⟩
  · obtain rfl := mem_singleton.mp hn
    exact ⟨rfl, _, .stop hroot rfl⟩

variable {s : Search} {d : Nat}

theorem Tracked.record (h : x.Tracked src s) (hwalk : x.Walks src d u) (hd : d < x.upperBound)
    (hnbr : (v, e) ∈ x.neighbors u) (hkept : Chain (s.parents.insert v ⟨u, e, d + 1⟩) u es) :
    x.Tracked src ⟨s.queue ++ [(v, d + 1)], s.parents.insert v ⟨u, e, d + 1⟩⟩ := by
  have hself : ∃ ws, Chain (s.parents.insert v ⟨u, e, d + 1⟩) v ws := by
    by_cases hend : u = noOffset
    · exact ⟨_, .stop (lookup_insert s.parents) hend⟩
    · exact ⟨_, .step (lookup_insert s.parents) hend hkept⟩
  refine ⟨fun w q hw hmid => ?_, fun w q hw => ?_, fun n hn => ?_⟩
  · by_cases hwv : w = v
    · subst hwv
      obtain rfl := some.inj ((lookup_insert s.parents).symm.trans hw)
      exact ⟨d, hd, hwalk, hnbr⟩
    · rw [lookup_insert_ne hwv] at hw
      exact h.used w q hw hmid
  · by_cases hwv : w = v
    · exact hwv ▸ hself
    · rw [lookup_insert_ne hwv] at hw
      obtain ⟨es, hes⟩ := h.chains w q hw
      exact hes.reroute hkept
  · rcases mem_append.mp hn with hold | hlast
    · obtain ⟨hwalks, es, hes⟩ := h.queued n hold
      exact ⟨hwalks, hes.reroute hkept⟩
    · obtain rfl := mem_singleton.mp hlast
      exact ⟨⟨u, e, hwalk, hnbr⟩, hself⟩

/-- What the queue still costs: each entry can put at most `b` entries of the next depth behind
it. -/
def cost (b upperBound : Nat) (queue : List (UInt64 × Nat)) : Nat :=
  (queue.map fun n => (b + 1) ^ (upperBound - n.2)).sum

section Trail

variable (hreturn : x.NoReturn src) (htrail : x.semantic = .trail) (hfuel : Fintype.card UInt64 ≤ fuel)
include hreturn htrail hfuel

theorem Tracked.visit (h : x.Tracked src s) (hwalk : x.Walks src d u) (hd : d < x.upperBound)
    (hnbr : (v, e) ∈ x.neighbors u) (hchain : ∃ es, Chain s.parents u es) :
    ∃ s', x.visit fuel u d s (v, e) = some s' ∧ x.Tracked src s' ∧ (∃ es, Chain s'.parents u es) ∧
      (s'.queue = s.queue ∨ s'.queue = s.queue ++ [(v, d + 1)]) := by
  obtain ⟨es, hes⟩ := hchain
  cases hold : s.parents.lookup v with
  | none =>
    have hkept := hes.insert_new (p := ⟨u, e, d + 1⟩) hold
    exact ⟨_, by simp only [PhysicalRecursiveExtend.visit, hold], h.record hwalk hd hnbr hkept, ⟨es, hkept⟩, .inr rfl⟩
  | some q =>
    obtain ⟨found, hfound, hnot⟩ := hes.onTrail (e := e) (hes.length_le.trans hfuel)
    simp only [PhysicalRecursiveExtend.visit, hold, htrail, hfound, map_some]
    cases found with
    | true => exact ⟨s, rfl, h, ⟨es, hes⟩, .inl rfl⟩
    | false =>
      have hkept : Chain (s.parents.insert v ⟨u, e, d + 1⟩) u es := by
        refine (hes.insert h.used).resolve_right ?_
        rintro ⟨ws, halong, hsub⟩
        exact hnot rfl (hsub e (hreturn v u e ws halong ⟨d, hd, hwalk, hnbr⟩))
      exact ⟨_, rfl, h.record hwalk hd hnbr hkept, ⟨es, hkept⟩, .inr rfl⟩

theorem Tracked.visits {b : Nat} (h : x.Tracked src s) (hwalk : x.Walks src d u) (hd : d < x.upperBound)
    {nbrs : List (UInt64 × UInt64)} (hnbrs : ∀ n ∈ nbrs, n ∈ x.neighbors u)
    (hchain : ∃ es, Chain s.parents u es) :
    ∃ s', nbrs.foldlM (x.visit fuel u d) s = some s' ∧ x.Tracked src s' ∧
      cost b x.upperBound s'.queue ≤ cost b x.upperBound s.queue + nbrs.length * (b + 1) ^
        (x.upperBound - (d + 1)) := by
  induction nbrs generalizing s with
  | nil => exact ⟨s, rfl, h, Nat.le_add_right ..⟩
  | cons n nbrs ih =>
    obtain ⟨s₁, hvisit, htracked, hchain, hqueue⟩ :=
      h.visit hreturn htrail hfuel hwalk hd (hnbrs n mem_cons_self) hchain
    obtain ⟨s₂, hrest, hdone, hcost⟩ := ih htracked (forall_mem_cons.mp hnbrs).2 hchain
    refine ⟨s₂, by rw [foldlM_cons, hvisit]; exact hrest, hdone, hcost.trans ?_⟩
    have hstep : cost b x.upperBound s₁.queue ≤
        cost b x.upperBound s.queue + (b + 1) ^ (x.upperBound - (d + 1)) := by
      rcases hqueue with hq | hq <;> simp [hq, cost]
    rw [length_cons, Nat.succ_mul]
    omega

end Trail

theorem exists_bound {α : Type} [Fintype α] (f : α → Nat) : ∃ b, ∀ a, f a ≤ b :=
  ⟨Finset.univ.sup f, fun a => Finset.le_sup (Finset.mem_univ a)⟩

theorem expand_trail_ok {b : Nat} (hreturn : x.NoReturn src) (htrail : x.semantic = .trail)
    (hb : ∀ n, (x.neighbors n).length ≤ b) (h : x.Tracked src s)
    (hfuel : cost b x.upperBound s.queue + Fintype.card UInt64 < fuel) :
    ∃ ps, x.expand fuel s = some ps ∧ x.Tracked src ⟨[], ps⟩ := by
  induction fuel generalizing s with
  | zero => exact absurd hfuel (Nat.not_lt_zero _)
  | succ fuel ih =>
    obtain ⟨queue, ps⟩ := s
    cases queue with
    | nil => exact ⟨ps, rfl, h⟩
    | cons n queue =>
      obtain ⟨hn, hqueued⟩ := forall_mem_cons.mp h.queued
      have hpopped : x.Tracked src ⟨queue, ps⟩ := ⟨h.used, h.chains, hqueued⟩
      have hcost : cost b x.upperBound (n :: queue) =
          (b + 1) ^ (x.upperBound - n.2) + cost b x.upperBound queue := by
        simp [cost]
      have hpos : 0 < (b + 1) ^ (x.upperBound - n.2) := Nat.pow_pos (Nat.succ_pos b)
      simp only [hcost] at hfuel
      simp only [expand]
      split
      next => exact ih hpopped (by simp only; omega)
      next hlt =>
        have hlt := Nat.lt_of_not_le hlt
        have hcard : Fintype.card UInt64 ≤ fuel := by omega
        obtain ⟨s', hs', htracked, hle⟩ := hpopped.visits (b := b) hreturn htrail hcard hn.1 hlt
          (fun _ hm => hm) hn.2
        -- the entry taken pays for all it puts behind it
        have hpay : (x.neighbors n.1).length * (b + 1) ^ (x.upperBound - (n.2 + 1)) <
            (b + 1) ^ (x.upperBound - n.2) := by
          have hsub : x.upperBound - n.2 = x.upperBound - (n.2 + 1) + 1 := by omega
          rw [hsub, Nat.pow_succ, Nat.mul_comm]
          exact Nat.mul_lt_mul_of_pos_left (Nat.lt_succ_of_le (hb n.1)) (Nat.pow_pos (Nat.succ_pos b))
        obtain ⟨ps', hps', hdone⟩ := ih htracked (by simp only at hle; omega)
        exact ⟨ps', by rw [hs', bind_some, hps'], hdone⟩

end PhysicalRecursiveExtend

open PhysicalRecursiveExtend

/-- The expansion ends, and so does the way back from every node it recorded. A trail search has to
find no way back to a node it came from. -/
theorem path_search_terminates (x : PhysicalRecursiveExtend) (src : UInt64)
    (h : x.semantic = .trail → x.NoReturn src) :
    ∃ fuel ps, x.expand fuel (start src) = some ps ∧ ∀ v ∈ ps, ∃ path, retrace ps src fuel v =
      some path := by
  by_cases htrail : x.semantic = .trail
  · obtain ⟨b, hb⟩ := exists_bound fun n => (x.neighbors n).length
    obtain ⟨fuel, hfuel⟩ := exists_gt (cost b x.upperBound (start src).queue + Fintype.card UInt64)
    obtain ⟨ps, hps, hdone⟩ := expand_trail_ok (h htrail) htrail hb tracked_start hfuel
    refine ⟨fuel, ps, hps, fun v hv => ?_⟩
    obtain ⟨q, hq⟩ := isSome_iff_exists.mp (lookup_isSome.mpr hv)
    obtain ⟨es, hes⟩ := hdone.chains v q hq
    exact hes.retrace (hes.length_le.trans (by omega))
  · obtain ⟨ps, hps, _, hback⟩ := start_ends htrail src le_rfl (Nat.lt_succ_self _)
    refine ⟨_, ps, hps, fun v hv => ?_⟩
    obtain ⟨p, hp⟩ := isSome_iff_exists.mp (lookup_isSome.mpr hv)
    exact hback v p hp

/-- One edge from node 0 to node 1, walked both ways. -/
def oneRoad : PhysicalRecursiveExtend where
  relTables := [(ColumnarRelTable.new 7 "knows" 1 1 []).appendEdge 0 1 []]
  direction := .both
  lowerBound := 1
  upperBound := 3
  semantic := .trail

theorem neighbors_oneRoad {u v e : UInt64} (h : (v, e) ∈ oneRoad.neighbors u) : u ≠ v ∧ e = 0 := by
  by_cases h0 : u = 0 <;> by_cases h1 : u = 1 <;>
    simp [oneRoad, neighbors, ColumnarRelTable.appendEdge, ColumnarRelTable.new, RelTable.push, h0,
      h1] at h <;> grind

theorem path_search_terminates_oneRoad : ∃ fuel ps, oneRoad.expand fuel (start 0) = some ps ∧
    ∀ v ∈ ps, ∃ path, retrace ps 0 fuel v = some path := by
  refine path_search_terminates oneRoad 0 fun _ v u e es halong ⟨_, _, _, hnbr⟩ => ?_
  obtain ⟨hne, rfl⟩ := neighbors_oneRoad hnbr
  cases halong with
  | refl => exact absurd rfl hne
  | step _ hu =>
    obtain ⟨_, _, _, hlast⟩ := hu
    rw [(neighbors_oneRoad hlast).2]
    exact mem_cons_self

theorem onTrail_none (ps : Parents) (h : ps.lookup 0 = some ⟨0, 0, 1⟩) (fuel : Nat) :
    onTrail ps 1 fuel 0 = none := by
  induction fuel with
  | zero => rfl
  | succ fuel ih =>
    rw [onTrail, h]
    exact ih

/-- With two loops at a node the path recorded for it after the first goes round for ever, and the
check of the second goes with it. -/
theorem trail_search_never_ends : (loops 2 1 1 .trail).neighbors 0 = [(0, 0), (0, 1)] ∧
    ∀ fuel, (loops 2 1 1 .trail).expand fuel (start 0) = none := by
  have hnbrs : (loops 2 1 1 .trail).neighbors 0 = [(0, 0), (0, 1)] := rfl
  refine ⟨hnbrs, fun fuel => ?_⟩
  cases fuel with
  | zero => rfl
  | succ fuel =>
    simp only [expand, start, hnbrs, foldlM_cons]
    cases fuel with
    | zero => rfl
    | succ fuel =>
      have hfirst : (loops 2 1 1 .trail).visit (fuel + 1) 0 0 { start 0 with queue := [] } (0, 0) =
          some ⟨[(0, 1)], (start 0).parents.insert 0 ⟨0, 0, 1⟩⟩ := rfl
      have hsecond : (loops 2 1 1 .trail).visit (fuel + 1) 0 0
          ⟨[(0, 1)], (start 0).parents.insert 0 ⟨0, 0, 1⟩⟩ (0, 1) =
          none := by
        have hstuck := onTrail_none _ (lookup_insert (start 0).parents) (fuel + 1)
        simp only [visit, lookup_insert]
        simp [loops, hstuck]
      exact (congrArg (Option.bind · _) (congrArg (Option.bind · _) hfirst)).trans (by simp [hsecond])

end Akar
