import Akar.Extend
import Mathlib.Data.FinEnum
import Mathlib.Order.Nat

namespace Akar

open List Option AList

inductive PathSemantic where
  | walk
  | trail
  | acyclic
  deriving DecidableEq

structure Parent where
  node : UInt64
  edge : UInt64
  depth : Nat

abbrev Parents := AList fun _ : UInt64 => Parent

structure Search where
  queue : List (UInt64 × Nat)
  parents : Parents

structure PathRow where
  src : UInt64
  dst : UInt64
  len : Nat
  nodes : List UInt64
  edges : List UInt64

structure PhysicalRecursiveExtend where
  relTables : List ColumnarRelTable
  direction : Direction
  lowerBound : Nat
  upperBound : Nat
  semantic : PathSemantic

/-- The loop that looks for an edge on the recorded path of a node. `none` is a loop that has not
ended. -/
def onTrail (parents : Parents) (edge : UInt64) : Nat → UInt64 → Option Bool
  | 0, _ => none
  | fuel + 1, cur =>
    match parents.lookup cur with
    | none => some false
    | some p =>
      if p.edge = edge then some true
      else if p.node = noOffset then some false
      else onTrail parents edge fuel p.node

def retrace (parents : Parents) (src : UInt64) : Nat → UInt64 → Option (List UInt64 × List UInt64)
  | 0, _ => none
  | fuel + 1, cur =>
    if cur = src then some ([cur], [])
    else
      match parents.lookup cur with
      | none => some ([cur], [])
      | some p =>
        if p.node = noOffset then some ([cur], [])
        else (retrace parents src fuel p.node).map fun path => (cur :: path.1, p.edge :: path.2)

/-- The sources of the first field. What is neither null nor an Int64 counts as node 0. -/
def sourceOffsets (field : List Value) : List UInt64 := field.filterMap fun
    | .null => none
    | .int64 v => some v.toUInt64
    | _ => some 0

/-- A `ValueVector` of 64-bit cells, of which `data_mut` lends out the first `size`. -/
structure Int64Vector where
  data : List Int64
  size : Nat

namespace Int64Vector

def new (capacity : Nat) : Int64Vector := ⟨replicate capacity 0, 0⟩

/-- Copying 8 bytes to `data_mut()[i * 8..i * 8 + 8]`, which panics past the end of what is lent
out. -/
def copyAt (v : Int64Vector) (i : Nat) (x : Int64) : Option Int64Vector :=
  if i < v.size then some { v with data := v.data.set i x } else none

def fill (cells : List Int64) : Option Int64Vector :=
  (cells.zipIdx.foldlM (fun v cell => copyAt v cell.2 cell.1) (new cells.length)).map fun v =>
    { v with size := cells.length }

theorem fill_cons (x : Int64) (cells : List Int64) : fill (x :: cells) = none := by
  rw [fill, zipIdx_cons, foldlM_cons]
  rfl

end Int64Vector

/-- The output chunk, `none` where building it panics. The vectors are filled while their size is
still 0. -/
def buildOutput (rows : List PathRow) : Option (List PathRow) := if rows.isEmpty then some []
  else do
    let _ ← Int64Vector.fill (rows.map (·.src.toInt64))
    let _ ← Int64Vector.fill (rows.map (·.dst.toInt64))
    let _ ← Int64Vector.fill (rows.map (Int64.ofNat ·.len))
    some rows

theorem buildOutput_eq_some {rows out : List PathRow} : buildOutput rows = some out ↔ rows = [] ∧
    out = [] := by
  cases rows with
  | nil => simp [buildOutput, eq_comm]
  | cons r rows =>
    simp [buildOutput, Int64Vector.fill_cons]

namespace PhysicalRecursiveExtend

variable (x : PhysicalRecursiveExtend)

def neighbors (node : UInt64) : List (UInt64 × UInt64) :=
  let merged (adj : ColumnarRelTable → UInt64 → List (UInt64 × Nat)) :=
    x.relTables.flatMap fun t => (adj t node).map fun p => (p.1, UInt64.ofNat p.2)
  match x.direction with
  | .leftToRight => merged (·.fwdAdj)
  | .rightToLeft => merged (·.revAdj)
  | .both => merged (·.fwdAdj) ++ merged (·.revAdj)

def visit (fuel : Nat) (node : UInt64) (depth : Nat) (s : Search) (nbr : UInt64 × UInt64) :
    Option Search :=
  let next : Search :=
    ⟨s.queue ++ [(nbr.1, depth + 1)], s.parents.insert nbr.1 ⟨node, nbr.2, depth + 1⟩⟩
  match s.parents.lookup nbr.1, x.semantic with
  | none, _ => some next
  | some _, .trail => (onTrail s.parents nbr.2 fuel node).map fun found => if found then s else next
  | some _, _ => some s

def start (src : UInt64) : Search := ⟨[(src, 0)], (∅ : Parents).insert src ⟨noOffset, noOffset, 0⟩⟩

def expand : Nat → Search → Option Parents
  | 0, _ => none
  | fuel + 1, s =>
    match s.queue with
    | [] => some s.parents
    | (node, depth) :: queue =>
      if x.upperBound ≤ depth then expand fuel { s with queue }
      else ((x.neighbors node).foldlM (x.visit fuel node depth) { s with queue }).bind (expand fuel)

def inBounds (depth : Nat) : Bool :=
  x.lowerBound ≤ depth && depth ≤ x.upperBound && !(depth = 0 && 0 < x.lowerBound)

def emit (fuel : Nat) (src : UInt64) (parents : Parents) : Option (List PathRow) :=
  (parents.entries.filter fun e => x.inBounds e.2.depth).mapM fun e =>
    (retrace parents src fuel e.1).map fun path =>
      ⟨src, e.1, e.2.depth, src :: path.1.reverse, path.2.reverse⟩

/-- The result vectors of all sources, before the output chunk is built. -/
def results (fuel : Nat) (field : List Value) : Option (List PathRow) :=
  ((sourceOffsets field).mapM fun src => (x.expand fuel (start src)).bind (x.emit fuel src)).map
    List.flatten

def execute (fuel : Nat) (field : List Value) : Option (Option (List PathRow)) :=
  (x.results fuel field).map buildOutput

def Walks (src : UInt64) : Nat → UInt64 → Prop
  | 0, dst => dst = src
  | k + 1, dst => ∃ mid e, Walks src k mid ∧ (dst, e) ∈ x.neighbors mid

def RealWalk : List UInt64 → List UInt64 → Prop
  | [_], [] => True
  | a :: b :: nodes, e :: edges => (b, e) ∈ x.neighbors a ∧ RealWalk (b :: nodes) edges
  | _, _ => False

structure SoundComplete (sources : List UInt64) (rows : List PathRow) : Prop where
  reached : ∀ s ∈ sources, ∀ d, (∃ r ∈ rows, r.src = s ∧ r.dst = d) ↔
    ∃ k, x.lowerBound ≤ k ∧ k ≤ x.upperBound ∧ x.Walks s k d
  paths : ∀ r ∈ rows, x.RealWalk r.nodes r.edges ∧ r.nodes.head? = some r.src ∧ r.nodes.getLast? =
    some r.dst ∧
    r.edges.length = r.len

structure Searched (src : UInt64) (s : Search) : Prop where
  root : s.parents.lookup src = some ⟨noOffset, noOffset, 0⟩
  step : ∀ v p, s.parents.lookup v = some p → v ≠ src → ∃ q, s.parents.lookup p.node = some q ∧
    p.depth = q.depth + 1 ∧ p.depth ≤ x.upperBound ∧ (v, p.edge) ∈ x.neighbors p.node
  queued : ∀ e ∈ s.queue, ∃ p, s.parents.lookup e.1 = some p ∧ p.depth = e.2

def todo (bound : Nat) (s : Search) : Nat := s.queue.length + (bound - s.parents.keys.length)

variable {x} {src node v : UInt64} {s : Search} {depth fuel bound : Nat} {p : Parent}

theorem searched_start : x.Searched src (start src) where
  root := lookup_insert ∅
  step v p hv hne := by
    rw [start, lookup_insert_ne hne] at hv
    cases hv
  queued e he := by
    obtain rfl := mem_singleton.mp he
    exact ⟨_, lookup_insert ∅, rfl⟩

variable {q : Parent}

theorem lookup_insert_of_new {ps : Parents} {w : UInt64} (hnew : ps.lookup v = none)
    (h : ps.lookup w = some q) : (ps.insert v p).lookup w = some q := by
  have hne : w ≠ v := by
    rintro rfl
    rw [hnew] at h
    cases h
  rw [lookup_insert_ne hne, h]

theorem Searched.record {nbr : UInt64 × UInt64} (h : x.Searched src s)
    (hnew : s.parents.lookup nbr.1 = none) (hnode : s.parents.lookup node = some q)
    (hdepth : q.depth = depth) (hlt : depth < x.upperBound) (hnbr : nbr ∈ x.neighbors node) :
    x.Searched src ⟨s.queue ++ [(nbr.1, depth + 1)],
      s.parents.insert nbr.1 ⟨node, nbr.2, depth + 1⟩⟩ where
  root := lookup_insert_of_new hnew h.root
  step v p hv hne := by
    by_cases hvn : v = nbr.1
    · subst hvn
      obtain rfl := some.inj ((lookup_insert s.parents).symm.trans hv)
      exact ⟨q, lookup_insert_of_new hnew hnode, by simp [hdepth], hlt, hnbr⟩
    · rw [lookup_insert_ne hvn] at hv
      obtain ⟨q', hq', hrest⟩ := h.step v p hv hne
      exact ⟨q', lookup_insert_of_new hnew hq', hrest⟩
  queued e he := by
    rcases mem_append.mp he with hold | hlast
    · obtain ⟨p, hp, hd⟩ := h.queued e hold
      exact ⟨p, lookup_insert_of_new hnew hp, hd⟩
    · obtain rfl := mem_singleton.mp hlast
      exact ⟨_, lookup_insert s.parents, rfl⟩

theorem todo_record {nbr : UInt64} {d : Nat} (hbound : Fintype.card UInt64 ≤ bound)
    (hnew : s.parents.lookup nbr = none) :
    todo bound ⟨s.queue ++ [(nbr, d)], s.parents.insert nbr p⟩ = todo bound s := by
  have hkeys : (s.parents.insert nbr p).keys.length = s.parents.keys.length + 1 := by
    rw [keys_insert, erase_of_not_mem, length_cons]
    exact lookup_eq_none.mp hnew
  have hcard := (s.parents.insert nbr p).keys_nodup.length_le_card.trans hbound
  simp only [todo, hkeys, length_append, length_singleton]
  omega

theorem visits_ok (fuel : Nat) (hsem : x.semantic ≠ .trail) (hbound : Fintype.card UInt64 ≤ bound)
    {nbrs : List (UInt64 × UInt64)} (hnbrs : ∀ n ∈ nbrs, n ∈ x.neighbors node)
    (hlt : depth < x.upperBound) (h : x.Searched src s)
    (hnode : ∃ q, s.parents.lookup node = some q ∧ q.depth = depth) :
    ∃ s', nbrs.foldlM (x.visit fuel node depth) s = some s' ∧ x.Searched src s' ∧ todo bound s' =
      todo bound s := by
  induction nbrs generalizing s with
  | nil => exact ⟨s, rfl, h, rfl⟩
  | cons nbr nbrs ih =>
    have hrest := (forall_mem_cons.mp hnbrs).2
    rw [foldlM_cons]
    cases hold : s.parents.lookup nbr.1 with
    | some p =>
      have hvisit : x.visit fuel node depth s nbr = some s := by
        unfold visit
        rw [hold]
        cases hs : x.semantic with
        | trail => exact absurd hs hsem
        | walk | acyclic => rfl
      rw [hvisit]
      exact ih hrest h hnode
    | none =>
      obtain ⟨q, hq, hd⟩ := hnode
      have hvisit : x.visit fuel node depth s nbr =
          some ⟨s.queue ++ [(nbr.1, depth + 1)], s.parents.insert nbr.1 ⟨node, nbr.2, depth + 1⟩⟩ := by
        unfold visit
        rw [hold]
      obtain ⟨s', hs', hsearched, htodo⟩ := ih hrest (h.record hold hq hd hlt (hnbrs nbr mem_cons_self))
        ⟨q, lookup_insert_of_new hold hq, hd⟩
      rw [hvisit]
      exact ⟨s', hs', hsearched, htodo.trans (todo_record hbound hold)⟩

theorem expand_ok (hsem : x.semantic ≠ .trail) (hbound : Fintype.card UInt64 ≤ bound)
    (hfuel : todo bound s < fuel) (h : x.Searched src s) :
    ∃ ps, x.expand fuel s = some ps ∧ x.Searched src ⟨[], ps⟩ := by
  induction fuel generalizing s with
  | zero => exact absurd hfuel (Nat.not_lt_zero _)
  | succ fuel ih =>
    obtain ⟨queue, ps⟩ := s
    cases queue with
    | nil => exact ⟨ps, rfl, h⟩
    | cons e queue =>
      have hpopped : x.Searched src ⟨queue, ps⟩ := ⟨h.root, h.step, (forall_mem_cons.mp h.queued).2⟩
      have htodo : todo bound ⟨queue, ps⟩ < fuel := by
        simp only [todo, length_cons] at hfuel ⊢
        omega
      simp only [expand]
      split
      next => exact ih htodo hpopped
      next hlt =>
        obtain ⟨s', hs', hsearched, heq⟩ := visits_ok fuel hsem hbound (fun _ hn => hn)
          (Nat.lt_of_not_le hlt) hpopped
          (h.queued e mem_cons_self)
        obtain ⟨ps', hps', hdone⟩ := ih (heq ▸ htodo) hsearched
        exact ⟨ps', by rw [hs', bind_some, hps'], hdone⟩

section

variable (h : x.Searched src s) (hv : s.parents.lookup v = some p)
include h hv

theorem Searched.retrace_ok (hfuel : p.depth < fuel) : ∃ path, retrace s.parents src fuel v =
    some path := by
  induction fuel generalizing v p with
  | zero => exact absurd hfuel (Nat.not_lt_zero _)
  | succ fuel ih =>
    by_cases hsrc : v = src
    · exact ⟨_, if_pos hsrc⟩
    · obtain ⟨q, hq, hdepth, _⟩ := h.step v p hv hsrc
      obtain ⟨path, hpath⟩ := ih hq (by omega)
      simp only [retrace, if_neg hsrc, hv, hpath]
      split
      next => exact ⟨_, rfl⟩
      next => exact ⟨_, rfl⟩

theorem Searched.depth_le : p.depth ≤ x.upperBound := by
  by_cases hsrc : v = src
  · subst hsrc
    rw [← some.inj (h.root.symm.trans hv)]
    exact Nat.zero_le _
  · obtain ⟨_, _, _, hle, _⟩ := h.step v p hv hsrc
    exact hle

theorem Searched.walks : x.Walks src p.depth v := by
  obtain ⟨n, hn⟩ : ∃ n, p.depth = n := ⟨_, rfl⟩
  induction n generalizing v p with
  | zero =>
    rw [hn]
    by_contra hne
    obtain ⟨q, _, hdepth, _⟩ := h.step v p hv hne
    omega
  | succ n ih =>
    have hne : v ≠ src := by
      rintro rfl
      rw [← some.inj (h.root.symm.trans hv)] at hn
      cases hn
    obtain ⟨q, hq, hdepth, _, hnbr⟩ := h.step v p hv hne
    rw [hdepth]
    exact ⟨p.node, p.edge, ih hq (by omega), hnbr⟩

end

theorem start_ends (hsem : x.semantic ≠ .trail) (src : UInt64) (hbound : Fintype.card UInt64 ≤ bound)
    (hfuel : bound + x.upperBound + 1 < fuel) :
    ∃ ps, x.expand fuel (start src) = some ps ∧ x.Searched src ⟨[], ps⟩ ∧
      ∀ v p, ps.lookup v = some p → ∃ path, retrace ps src fuel v = some path := by
  have htodo : todo bound (start src) < fuel := by
    simp only [todo, start, length_singleton]
    omega
  obtain ⟨ps, hps, hdone⟩ := expand_ok hsem hbound htodo searched_start
  refine ⟨ps, hps, hdone, fun v p hv => hdone.retrace_ok hv ?_⟩
  have hle := hdone.depth_le hv
  omega

end PhysicalRecursiveExtend

namespace PhysicalRecursiveExtend

variable {x : PhysicalRecursiveExtend} {src cur : UInt64} {ps : Parents} {fuel : Nat}
    {path : List UInt64 × List UInt64}

theorem mapM_ok {α β : Type} {f : α → Option β} {q : α → β → Prop} {l : List α}
    (h : ∀ a ∈ l, ∃ b, f a = some b ∧ q a b) : ∃ bs, l.mapM f = some bs ∧ ∀ b ∈ bs, ∃ a ∈ l, q a b := by
  induction l with
  | nil => exact ⟨[], rfl, by simp⟩
  | cons a l ih =>
    obtain ⟨b, hb, hq⟩ := h a mem_cons_self
    obtain ⟨bs, hbs, hall⟩ := ih (forall_mem_cons.mp h).2
    refine ⟨b :: bs, by rw [mapM_cons, hb, hbs]; rfl, fun b' hb' => ?_⟩
    rcases mem_cons.mp hb' with rfl | hmem
    · exact ⟨a, mem_cons_self, hq⟩
    · obtain ⟨a', ha', hq'⟩ := hall b' hmem
      exact ⟨a', mem_cons_of_mem a ha', hq'⟩

theorem retrace_length (h : retrace ps src fuel cur = some path) : path.1.length =
    path.2.length + 1 := by
  induction fuel generalizing cur path with
  | zero => cases h
  | succ fuel ih =>
    simp only [retrace] at h
    split at h
    next =>
      cases h
      rfl
    next =>
      split at h
      next =>
        cases h
        rfl
      next p _ =>
        split at h
        next =>
          cases h
          rfl
        next =>
          obtain ⟨rest, hrest, rfl⟩ := map_eq_some_iff.mp h
          simp [ih hrest]

theorem RealWalk.length_eq {nodes edges : List UInt64} (h : x.RealWalk nodes edges) :
    nodes.length = edges.length + 1 := by
  fun_induction RealWalk x nodes edges with
  | case1 => rfl
  | case2 a b nodes e edges ih => simp [ih h.2]
  | case3 => exact h.elim

/-- What holds of every row: its walk is there, and the source stands twice among its nodes. -/
def Emitted (x : PhysicalRecursiveExtend) (r : PathRow) : Prop :=
  r.nodes.length = r.edges.length + 2 ∧ x.lowerBound ≤ r.len ∧ r.len ≤ x.upperBound ∧
    x.Walks r.src r.len r.dst

theorem emit_ok (h : x.Searched src ⟨[], ps⟩)
    (hback : ∀ v p, ps.lookup v = some p → ∃ path, retrace ps src fuel v = some path) :
    ∃ rows, x.emit fuel src ps = some rows ∧ ∀ r ∈ rows, r.src = src ∧ x.Emitted r := by
  obtain ⟨rows, hrows, hall⟩ := mapM_ok (q := fun _ r => r.src = src ∧ x.Emitted r)
    (l := ps.entries.filter fun e => x.inBounds e.2.depth) (f := fun e =>
      (retrace ps src fuel e.1).map fun path =>
      (⟨src, e.1, e.2.depth, src :: path.1.reverse, path.2.reverse⟩ : PathRow)) fun e he => by
    obtain ⟨hmem, hbounds⟩ := mem_filter.mp he
    have hlookup := mem_lookup_iff.mpr hmem
    obtain ⟨path, hpath⟩ := hback e.1 e.2 hlookup
    simp only [inBounds, Bool.and_eq_true, decide_eq_true_eq] at hbounds
    refine ⟨_, by rw [hpath, map_some], rfl, ?_, hbounds.1.1, hbounds.1.2, h.walks hlookup⟩
    simp [retrace_length hpath]
  exact ⟨rows, hrows, fun r hr => have ⟨_, _, hr⟩ := hall r hr; hr⟩

theorem results_ok (hsem : x.semantic ≠ .trail) (field : List Value) :
    ∃ fuel rows, x.results fuel field = some rows ∧ ∀ r ∈ rows, r.src ∈ sourceOffsets field ∧
      x.Emitted r := by
  obtain ⟨bound, hbound⟩ : ∃ bound, Fintype.card UInt64 ≤ bound := ⟨_, le_rfl⟩
  obtain ⟨fuel, hfuel⟩ := exists_gt (bound + x.upperBound + 1)
  obtain ⟨rows, hrows, hall⟩ := mapM_ok (q := fun src rows => ∀ r ∈ rows, r.src = src ∧ x.Emitted r)
    (l := sourceOffsets field) (f := fun src =>
      (x.expand fuel (start src)).bind (x.emit fuel src)) fun src _ => by
    obtain ⟨ps, hps, hdone, hback⟩ := start_ends hsem src hbound hfuel
    rw [hps]
    exact emit_ok hdone hback
  refine ⟨fuel, rows.flatten, by rw [results, hrows, map_some], fun r hr => ?_⟩
  obtain ⟨part, hpart, hr⟩ := mem_flatten.mp hr
  obtain ⟨src, hsrc, hrow⟩ := hall part hpart
  exact ⟨(hrow r hr).1 ▸ hsrc, (hrow r hr).2⟩

end PhysicalRecursiveExtend

open PhysicalRecursiveExtend

/-- Every row found has its source twice among its nodes, so the rows are right exactly when there
are none to find. -/
theorem results_right_iff (x : PhysicalRecursiveExtend) (field : List Value)
    (hwalk : x.semantic = .walk) :
    ∃ fuel rows, x.results fuel field = some rows ∧
      (∀ r ∈ rows, r.src ∈ sourceOffsets field ∧ x.Emitted r) ∧
      (x.SoundComplete (sourceOffsets field) rows ↔
        ∀ s ∈ sourceOffsets field, ∀ k d, x.lowerBound ≤ k → k ≤ x.upperBound → ¬x.Walks s k d) := by
  obtain ⟨fuel, rows, hrun, hrows⟩ :=
    results_ok (x := x) (by rw [hwalk]; exact fun h => by cases h) field
  refine ⟨fuel, rows, hrun, hrows, ⟨fun hright s hs k d hl hu hw => ?_, fun hnone => ?_⟩⟩
  · obtain ⟨r, hr, -⟩ := (hright.reached s hs d).mpr ⟨k, hl, hu, hw⟩
    have hreal := (hright.paths r hr).1.length_eq
    have hdoubled := (hrows r hr).2.1
    omega
  · have hempty : ∀ r ∈ rows, False := fun r hr =>
      have ⟨hsrc, _, hl, hu, hw⟩ := hrows r hr
      hnone r.src hsrc r.len r.dst hl hu hw
    exact ⟨fun s hs d => ⟨fun ⟨r, hr, _⟩ => (hempty r hr).elim, fun ⟨k, hl, hu, hw⟩ =>
      (hnone s hs k d hl hu hw).elim⟩,
      fun r hr => (hempty r hr).elim⟩

def loops (n : Nat) (lowerBound upperBound : Nat) (semantic : PathSemantic) :
    PhysicalRecursiveExtend where
  relTables := [(ColumnarRelTable.new 7 "knows" 1 1 []).appendEdges (replicate n ⟨0, 0, []⟩)]
  direction := .leftToRight
  lowerBound := lowerBound
  upperBound := upperBound
  semantic := semantic

end Akar
