import Akar.RelColumns

namespace Akar

open List Function

section Buckets

variable {α : Type} {adj : Nat → α} {off : Nat → Nat} {hs : List (Nat × α)} {v : Nat}

def put (s : (Nat → α) × (Nat → Nat)) (h : Nat × α) : (Nat → α) × (Nat → Nat) :=
  (update s.1 (s.2 h.1) h.2, update s.2 h.1 (s.2 h.1 + 1))

def bucket (hs : List (Nat × α)) (v : Nat) : List α := (hs.filter (·.1 = v)).map (·.2)

theorem bucket_concat (hs : List (Nat × α)) (h : Nat × α) (v : Nat) :
    bucket (hs ++ [h]) v = bucket hs v ++ if h.1 = v then [h.2] else [] := by
  simp only [bucket, filter_append, map_append, filter_singleton]
  split <;> simp_all

theorem foldl_put (hroom : ∀ v, off v + (bucket hs v).length ≤ off (v + 1)) :
    (∀ v, (hs.foldl put (adj, off)).2 v = off v + (bucket hs v).length) ∧
      ∀ v, (range' (off v) (bucket hs v).length).map (hs.foldl put (adj, off)).1 =
        bucket hs v := by
  have hmono : Monotone off := monotone_nat_of_le_succ fun v => by have := hroom v; omega
  induction hs using List.reverseRecOn with
  | nil => exact ⟨fun v => rfl, fun v => rfl⟩
  | append_singleton hs h ih =>
    simp only [bucket_concat, length_append] at hroom ⊢
    obtain ⟨hpos, hfill⟩ := ih fun v => by have := hroom v; omega
    rw [List.foldl_append, foldl_cons, foldl_nil]
    generalize hs.foldl put (adj, off) = s at hpos hfill
    -- the cursor of a bucket stays inside it, so that no other bucket is written
    have hcursor : off h.1 + (bucket hs h.1).length < off (h.1 + 1) := by
      have := hroom h.1
      rw [if_pos rfl, length_singleton] at this
      omega
    refine ⟨fun v => ?_, fun v => ?_⟩
    · by_cases hv : h.1 = v
      · subst hv
        simp [put, hpos, Nat.add_assoc]
      · simp [put, hv, Ne.symm hv, hpos]
    · have hkept : (range' (off v) (bucket hs v).length).map (put s h).1 = bucket hs v := by
        rw [← hfill v, length_map, length_range']
        refine map_congr_left fun k hk => update_of_ne ?_ _ _
        rw [mem_range'_1] at hk
        have hend := hroom v
        rw [hpos]
        rcases Nat.lt_trichotomy v h.1 with hlt | heq | hgt
        · have := hmono (a := v + 1) hlt
          omega
        · subst heq
          omega
        · have := hmono (a := h.1 + 1) hgt
          omega
      by_cases hv : h.1 = v
      · subst hv
        rw [if_pos rfl, length_singleton, range'_1_concat, map_append, hkept]
        simp [put, hpos]
      · simpa [hv] using hkept

end Buckets

structure GraphEdge where
  srcOffset : UInt64
  dstOffset : UInt64
  relId : Nat
  relTableId : Nat

def GraphEdge.halves (e : GraphEdge) : List (Nat × (Nat × Nat × UInt64)) :=
  [(e.srcOffset.toNat, (e.relId, e.relTableId, e.dstOffset)),
    (e.dstOffset.toNat, (e.relId, e.relTableId, e.srcOffset))]

def GraphEdge.dead (e : GraphEdge) : Bool := e.srcOffset = noOffset ∨ e.dstOffset = noOffset

structure CatalogGraphSource where
  numNodes : Nat
  edges : List GraphEdge

/-- The vectors by their indices. The degrees are counted without the bound of a `u32`. -/
structure CSRAdjacency where
  offsets : Nat → Nat
  adjacency : Nat → Nat × Nat × UInt64

namespace CSRAdjacency

def neighbors (csr : CSRAdjacency) (nodePos : Nat) : List (Nat × Nat × UInt64) :=
  (range' (csr.offsets nodePos) (csr.offsets (nodePos + 1) - csr.offsets nodePos)).map
    csr.adjacency

def build (edges : List GraphEdge) : CSRAdjacency :=
  let degree : Nat → Nat :=
    edges.foldl (fun d e => e.halves.foldl (fun d h => update d h.1 (d h.1 + 1))
    d) fun _ => 0
  let offsets := fun i => (range i).foldl (fun current j => current + degree j) 0
  let adj : Nat → Nat × Nat × UInt64 := fun _ => (0, 0, 0)
  ⟨offsets, (edges.foldl (fun s e => e.halves.foldl put s) (adj, offsets)).1⟩

theorem degree_eq {α : Type} (hs : List (Nat × α)) (v : Nat) :
    hs.foldl (fun d h => update d h.1 (d h.1 + 1)) (fun _ => 0) v = (bucket hs v).length := by
  induction hs using List.reverseRecOn with
  | nil => rfl
  | append_singleton hs h ih =>
    rw [List.foldl_append, bucket_concat, length_append, ← ih]
    by_cases hv : h.1 = v
    · subst hv
      simp
    · simp [hv, Ne.symm hv]

theorem neighbors_build (edges : List GraphEdge) (v : Nat) :
    (build edges).neighbors v = bucket (edges.flatMap GraphEdge.halves) v := by
  have hoff (v : Nat) : (build edges).offsets (v + 1) =
      (build edges).offsets v + (bucket (edges.flatMap GraphEdge.halves) v).length := by
    simp [build, range_succ, ← foldl_flatMap, degree_eq]
  have hfill := (@foldl_put _ (fun _ => (0, 0, 0)) _ _ fun v => (hoff v).ge).2 v
  rw [neighbors, hoff, Nat.add_sub_cancel_left]
  simpa only [build, ← foldl_flatMap] using hfill

end CSRAdjacency

/-- The vectors of `compute_scc_tarjan` by their indices, an index not given yet as `none`.
Component numbers are kept as they are; as `f64` they are exact below `2 ^ 53`. -/
structure TarjanState where
  indices : Nat → Option Nat
  lowlink : Nat → Nat
  onStack : Nat → Bool
  stack : List Nat
  component : Nat → Nat
  compId : Nat
  nextIndex : Nat

namespace TarjanState

def new : TarjanState := ⟨fun _ => none, fun _ => 0, fun _ => false, [], fun _ => 0, 0, 0⟩

def visit (s : TarjanState) (v : Nat) : TarjanState :=
  { s with
    indices := update s.indices v (some s.nextIndex)
    lowlink := update s.lowlink v s.nextIndex
    onStack := update s.onStack v true
    stack := v :: s.stack
    nextIndex := s.nextIndex + 1 }

/-- Pops the stack down to `v` into one component. -/
def popTo (v compId : Nat) : List Nat → (Nat → Bool) → (Nat → Nat) →
    List Nat × (Nat → Bool) × (Nat → Nat)
  | [], onStack, component => ([], onStack, component)
  | w :: stack, onStack, component =>
    let onStack := update onStack w false
    let component := update component w compId
    if w = v then (stack, onStack, component) else popTo v compId stack onStack component

def close (s : TarjanState) (v : Nat) : TarjanState := if some (s.lowlink v) = s.indices v then
    let (stack, onStack, component) := popTo v s.compId s.stack s.onStack s.component
    { s with stack, onStack, component, compId := s.compId + 1 }
  else s

def lower (s : TarjanState) (v bound : Nat) : TarjanState :=
  { s with lowlink := update s.lowlink v (min (s.lowlink v) bound) }

/-- The `while` loop over the path of the search; `none` if it has not ended after so many
rounds. -/
def search (csr : CSRAdjacency) (n : Nat) : Nat → TarjanState → List (Nat × Nat) → Option TarjanState
  | _, s, [] => some s
  | 0, _, _ :: _ => none
  | fuel + 1, s, (v, npos) :: path =>
    match (csr.neighbors v)[npos]? with
    | some (_, _, dst) =>
      let w := dst.toNat
      let path := (v, npos + 1) :: path
      if n ≤ w then search csr n fuel s path
      else
        match s.indices w with
        | none => search csr n fuel (s.visit w) ((w, 0) :: path)
        | some index => search csr n fuel (if s.onStack w then s.lower v index else s) path
    | none =>
      let s := match path with
        | (parent, _) :: _ => s.lower parent (s.lowlink v)
        | [] => s
      search csr n fuel (s.close v) path

def searchFrom (csr : CSRAdjacency) (n fuel : Nat) (s : TarjanState) (start : Nat) :
    Option TarjanState :=
  if (s.indices start).isSome then some s else search csr n fuel (s.visit start) [(start, 0)]

/-- Before the search from `v`: each vertex before it has its own component, and nothing is left
open. -/
structure Apart (s : TarjanState) (v : Nat) : Prop where
  fresh : ∀ w, v ≤ w → s.indices w = none
  stack : s.stack = []
  compId : s.compId = v
  component : ∀ w < v, s.component w = w

variable {csr : CSRAdjacency} {n fuel v : Nat} {s : TarjanState}

theorem Apart.searchFrom (h : s.Apart v) (hnone : ∀ v, csr.neighbors v = []) :
    ∃ s', s.searchFrom csr n (fuel + 1) v = some s' ∧ s'.Apart (v + 1) := by
  have hclose : (s.visit v).close v = { s.visit v with
      stack := [], onStack := update (s.visit v).onStack v false
      component := update s.component v v, compId := v + 1 } := by
    simp [close, visit, popTo, h.stack, h.compId]
  refine ⟨(s.visit v).close v, ?_, ?_⟩
  · simp [TarjanState.searchFrom, h.fresh v le_rfl, search, hnone]
  · rw [hclose]
    refine ⟨fun w hw => ?_, rfl, rfl, fun w hw => ?_⟩
    · rw [← h.fresh w (by omega)]
      exact update_of_ne (by omega) ..
    · rcases Nat.lt_succ_iff_lt_or_eq.mp hw with hlt | rfl
      · exact (update_of_ne hlt.ne ..).trans (h.component w hlt)
      · exact update_self ..

end TarjanState

/-- `compute_scc_tarjan`, with a bound on the rounds of each search. -/
def computeSccTarjan (csr : CSRAdjacency) (n fuel : Nat) : Option (Nat → Nat) :=
  ((range n).foldlM (TarjanState.searchFrom csr n fuel) .new).map (·.component)

theorem computeSccTarjan_apart {csr : CSRAdjacency} (hnone : ∀ v, csr.neighbors v = []) (n fuel : Nat) :
    ∃ component, computeSccTarjan csr n (fuel + 1) = some component ∧ ∀ v < n, component v = v := by
  have hrun (k : Nat) : ∃ s, (range k).foldlM (TarjanState.searchFrom csr n (fuel + 1)) .new =
      some s ∧
      s.Apart k := by
    induction k with
    | zero => exact ⟨_, rfl, fun _ _ => rfl, rfl, rfl, nofun⟩
    | succ k ih =>
      obtain ⟨s, hs, hapart⟩ := ih
      obtain ⟨s', hs', hapart'⟩ := @TarjanState.Apart.searchFrom csr n fuel k s hapart hnone
      exact ⟨s', by rw [range_succ, foldlM_append, hs]; simpa using hs', hapart'⟩
  obtain ⟨s, hs, hapart⟩ := hrun n
  exact ⟨s.component, by rw [computeSccTarjan, hs]; rfl, hapart.component⟩

namespace CatalogGraphSource

def slots (rels : List ColumnarRelTable) : List GraphEdge :=
  rels.flatMap fun t => t.edges.zipIdx.map fun p => ⟨p.1.1, p.1.2, p.2, t.tableId⟩

def push (g : CatalogGraphSource) (e : GraphEdge) : CatalogGraphSource := if e.dead then g
  else ⟨max (max g.numNodes (e.srcOffset.toNat + 1)) (e.dstOffset.toNat + 1), g.edges ++ [e]⟩

def new (nodes : List NodeTable) (rels : List ColumnarRelTable) : CatalogGraphSource :=
  (slots rels).foldl push ⟨nodes.foldl (fun n t => max n t.numRows) 0, []⟩

variable (nodes : List NodeTable) (rels : List ColumnarRelTable)

def csr : CSRAdjacency := .build (new nodes rels).edges

def LiveNode (n : Nat × Nat) : Prop := ∃ t ∈ nodes, t.tableId = n.1 ∧ (t.liveAt n.2).isSome

def vertex (n : Nat × Nat) : Nat := n.2

def liveEdges : List GraphEdge := (slots rels).filter (!·.dead)

def outgoing (v : Nat) : List (Nat × Nat × UInt64) :=
  ((liveEdges rels).filter (·.srcOffset.toNat = v)).map fun e => (e.relId, e.relTableId, e.dstOffset)

def Stored (a b : Nat × Nat) : Prop := ∃ t ∈ rels, ∃ p ∈ t.edges, ¬(p.1 = noOffset ∨ p.2 = noOffset) ∧
  a = (t.srcTableId, p.1.toNat) ∧ b = (t.dstTableId, p.2.toNat)

/-- The graph that the procedures are handed is the stored one, and its components are those of the
stored edges. -/
structure SeesStored : Prop where
  placed : ∀ n, LiveNode nodes n → vertex n < (new nodes rels).numNodes
  distinct : ∀ n m, LiveNode nodes n → LiveNode nodes m → vertex n = vertex m → n = m
  vertices : ∀ v < (new nodes rels).numNodes, ∃ n, LiveNode nodes n ∧ vertex n = v
  adjacency : ∀ v, ((csr nodes rels).neighbors v).Perm (outgoing rels v)
  together : ∃ fuel component, computeSccTarjan (csr nodes rels) (new nodes rels).numNodes fuel =
    some component ∧
    ∀ n m, LiveNode nodes n → LiveNode nodes m → (component (vertex n) = component (vertex m) ↔
      Relation.ReflTransGen (Stored rels) n m ∧ Relation.ReflTransGen (Stored rels) m n)

variable {nodes rels}

theorem foldl_push (es : List GraphEdge) (g : CatalogGraphSource) :
    (es.foldl push g).edges = g.edges ++ es.filter (!·.dead) ∧ g.numNodes ≤ (es.foldl push g).numNodes ∧
      ((es.foldl push g).edges = g.edges → (es.foldl push g).numNodes = g.numNodes) := by
  induction es generalizing g with
  | nil => simp
  | cons e es ih =>
    obtain ⟨hedges, hle, hsame⟩ := ih (push g e)
    rw [foldl_cons, hedges]
    cases he : e.dead with
    | true =>
      simp_all [push]
    | false =>
      have hgrow : g.numNodes ≤ (push g e).numNodes := by simp [push, he]
      exact ⟨by simp [push, he], hgrow.trans hle, by simp [push, he]⟩

theorem edges_new : (new nodes rels).edges = liveEdges rels := (foldl_push _ _).1

theorem lt_maxRows {v n : Nat} : v < nodes.foldl (fun n t => max n t.numRows) n ↔ v < n ∨
    ∃ t ∈ nodes, v < t.numRows := by
  induction nodes generalizing n with
  | nil => simp
  | cons t nodes ih => simp [ih, or_assoc]

theorem lt_numNodes {t : NodeTable} {r : Nat} (ht : t ∈ nodes) (hr : r < t.numRows) : r <
    (new nodes rels).numNodes := by
  have hrows : r < nodes.foldl (fun n t => max n t.numRows) 0 := lt_maxRows.mpr (.inr ⟨t, ht, hr⟩)
  exact hrows.trans_le (foldl_push (slots rels) ⟨_, []⟩).2.1

theorem length_bucket (es : List GraphEdge) (v : Nat) :
    (bucket (es.flatMap GraphEdge.halves) v).length =
    (es.filter (·.srcOffset.toNat = v)).length + (es.filter (·.dstOffset.toNat = v)).length := by
  induction es with
  | nil => rfl
  | cons e es ih =>
    simp only [bucket, length_map, flatMap_cons, filter_append, length_append] at ih ⊢
    simp only [GraphEdge.halves, filter_cons, filter_nil]
    grind

theorem liveEdges_of_adjacency (h : ∀ v, ((csr nodes rels).neighbors v).Perm (outgoing rels v)) :
    liveEdges rels = [] := by
  rw [eq_nil_iff_forall_not_mem]
  intro e he
  have hlen := (h e.dstOffset.toNat).length_eq
  rw [csr, CSRAdjacency.neighbors_build, edges_new, length_bucket, outgoing, length_map] at hlen
  have hnone := eq_nil_of_length_eq_zero (Nat.add_eq_left.mp hlen)
  exact filter_eq_nil_iff.mp hnone e he (by simp)

theorem not_stored (h : liveEdges rels = []) (a b : Nat × Nat) : ¬Stored rels a b := by
  rintro ⟨t, ht, p, hp, hlive, -, -⟩
  obtain ⟨i, hi⟩ := mem_iff_getElem?.mp hp
  have hslot : ⟨p.1, p.2, i, t.tableId⟩ ∈ slots rels :=
    mem_flatMap.mpr ⟨t, ht, mem_map.mpr ⟨(p, i), mk_mem_zipIdx_iff_getElem?.mpr hi, rfl⟩⟩
  simpa [GraphEdge.dead, hlive] using filter_eq_nil_iff.mp h _ hslot

end CatalogGraphSource

open CatalogGraphSource

/-- The procedures see what is stored exactly when no edge is, no two tables have a live node at one
offset, and no offset has deleted rows only. -/
theorem graph_sees_stored_iff (nodes : List NodeTable) (rels : List ColumnarRelTable) :
    SeesStored nodes rels ↔ liveEdges rels = [] ∧
      (∀ n m, LiveNode nodes n → LiveNode nodes m → n.2 = m.2 → n.1 = m.1) ∧
      ∀ t ∈ nodes, ∀ r < t.numRows, ∃ n, LiveNode nodes n ∧ n.2 = r := by
  constructor
  · intro h
    refine ⟨liveEdges_of_adjacency h.adjacency, fun n m hn hm heq => ?_, fun t ht r hr =>
      h.vertices r (lt_numNodes ht hr)⟩
    exact congrArg Prod.fst (h.distinct n m hn hm heq)
  · rintro ⟨hnone, happart, hlive⟩
    have hdistinct (n m) (hn : LiveNode nodes n) (hm : LiveNode nodes m) (heq : vertex n =
        vertex m) : n = m :=
      Prod.ext (happart n m hn hm heq) heq
    have hnil (v : Nat) : (csr nodes rels).neighbors v = [] := by
      rw [csr, CSRAdjacency.neighbors_build, edges_new, hnone]
      rfl
    have hplaced (n) (hn : LiveNode nodes n) : vertex n < (new nodes rels).numNodes := by
      obtain ⟨t, ht, _, hn⟩ := hn
      obtain ⟨row, hrow⟩ := Option.isSome_iff_exists.mp hn
      exact lt_numNodes ht (lt_length_of_getElem? (Option.filter_eq_some_iff.mp hrow).1)
    refine ⟨hplaced, hdistinct, fun v hv => ?_, fun v => ?_, ?_⟩
    · rw [new, (foldl_push _ _).2.2 (edges_new.trans hnone)] at hv
      obtain h | ⟨t, ht, hr⟩ := lt_maxRows.mp hv
      · cases h
      · exact hlive t ht v hr
    · rw [hnil, outgoing, hnone]
      exact .refl _
    · obtain ⟨component, hrun, hown⟩ := computeSccTarjan_apart hnil (new nodes rels).numNodes 0
      refine ⟨1, component, hrun, fun n m hn hm => ?_⟩
      rw [hown _ (hplaced n hn), hown _ (hplaced m hm),
        Relation.reflTransGen_iff_eq (not_stored hnone n),
        Relation.reflTransGen_iff_eq (not_stored hnone m)]
      exact ⟨fun h => ⟨(hdistinct n m hn hm h).symm, hdistinct n m hn hm h⟩, fun h =>
        congrArg vertex h.2⟩

def twoNodes : NodeTable where
  toNodeSchema := ⟨1, "person", [⟨"id", .int64, true⟩], 0⟩
  rows := [[.int64 1], [.int64 2]]
  hashIndex := .empty
  artIndex := none
  dirtyColumns := ∅
  persistenceDirty := false
  width := by simp
  filed := nofun

theorem graph_sees_stored_iff_twoNodes : SeesStored [twoNodes] [] := by
  refine (graph_sees_stored_iff [twoNodes] []).mpr ⟨rfl, ?_, ?_⟩
  · rintro n m ⟨t, ht, hn, -⟩ ⟨t', ht', hm, -⟩ -
    rw [← hn, ← hm, mem_singleton.mp ht, mem_singleton.mp ht']
  · intro t ht r hr
    rw [mem_singleton.mp ht] at hr
    refine ⟨(1, r), ⟨twoNodes, mem_singleton_self _, rfl, ?_⟩, rfl⟩
    match r, hr with
    | 0, _ | 1, _ => rfl

def oneEdge : ColumnarRelTable := (ColumnarRelTable.new 7 "knows" 1 1 []).appendEdge 0 1 []

theorem csr_lists_edge_backwards : (csr [twoNodes] [oneEdge]).neighbors 1 = [(0, 7, 0)] ∧ outgoing
    [oneEdge] 1 = [] ∧ (∀ n, ¬Stored [oneEdge] (1, 1) n) ∧ ¬SeesStored [twoNodes] [oneEdge] ∧
    ∃ component, computeSccTarjan (csr [twoNodes] [oneEdge]) 2 4 = some component ∧ component 0 =
      component 1 := by
  refine ⟨rfl, rfl, ?_, fun h => absurd (h.adjacency 1).length_eq (by decide), _, rfl, rfl⟩
  rintro n ⟨t, ht, p, hp, -, hstart, -⟩
  obtain rfl := mem_singleton.mp ht
  obtain rfl := mem_singleton.mp hp
  exact absurd hstart (by decide)

end Akar
