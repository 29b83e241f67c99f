import Mathlib.Algebra.Group.Nat.Defs
import Mathlib.Logic.Function.Basic
import Mathlib.Order.Monotone.Basic

namespace Akar

open Function List

/-- One direction of a CSR index: the neighbours of node `i` are
`adjacency[offsets[i]..offsets[i+1]]`. -/
structure CsrSide where
  offsets : Nat → Nat
  adjacency : List UInt64

namespace CsrSide

variable {α : Type}

section

variable (numNodes : Nat) (node : α → Nat) (other : α → UInt64)

/-- The degrees are counted in `u32`. -/
def count (degree : Nat → Nat) (e : α) : Nat → Nat :=
  if node e < numNodes then update degree (node e) ((degree (node e) + 1) % 2 ^ 32) else degree

def offsetsOf (degree : Nat → Nat) : Nat → Nat
  | 0 => 0
  | v + 1 => offsetsOf degree v + degree v

/-- The fill loop; an index out of bounds is a panic. -/
def fill : List α → (Nat → Nat) → List UInt64 → Option (List UInt64)
  | [], _, adjacency => some adjacency
  | e :: edges, pos, adjacency =>
    if node e < numNodes then
      if pos (node e) < adjacency.length then
        fill edges (update pos (node e) (pos (node e) + 1)) (adjacency.set (pos (node e)) (other e))
      else none
    else fill edges pos adjacency

def build (edges : List α) : Option CsrSide :=
  let offsets := offsetsOf (edges.foldl (count numNodes node) fun _ => 0)
  (fill numNodes node other edges offsets (replicate (offsets numNodes) 0)).map (⟨offsets, ·⟩)

end

def neighbors (s : CsrSide) (v : Nat) : List UInt64 :=
  (s.adjacency.drop (s.offsets v)).take (s.offsets (v + 1) - s.offsets v)

variable {numNodes v : Nat} {node : α → Nat} {other : α → UInt64} {edges : List α}
  {degree offsets pos : Nat → Nat} {adj : List UInt64}

theorem foldl_count (hv : v < numNodes) (hfew : degree v + edges.countP (node · = v) < 2 ^ 32) :
    edges.foldl (count numNodes node) degree v = degree v + edges.countP (node · = v) := by
  induction edges generalizing degree with
  | nil => rfl
  | cons e edges ih =>
    rw [countP_cons] at hfew ⊢
    have hstep : count numNodes node degree e v = degree v + if node e = v then 1 else 0 := by
      unfold count
      grind
    simp only [decide_eq_true_eq] at hfew ⊢
    rw [foldl_cons, ih (by omega), hstep]
    omega

theorem fill_windows (hmono : Monotone offsets) (hlen : adj.length = offsets numNodes)
    (hpos : ∀ v < numNodes, offsets v ≤ pos v ∧ pos v + edges.countP (node · = v) ≤ offsets (v + 1)) :
    ∃ adj', fill numNodes node other edges pos adj = some adj' ∧ ∀ v < numNodes,
      (adj'.take (pos v + edges.countP (node · = v))).drop (offsets v) =
        (adj.take (pos v)).drop (offsets v) ++ (edges.filter (node · = v)).map other := by
  induction edges generalizing pos adj with
  | nil => exact ⟨adj, rfl, by simp⟩
  | cons e edges ih =>
    simp only [countP_cons, decide_eq_true_eq] at hpos ⊢
    rw [fill]
    split
    next hn =>
      have hroom := hpos _ hn
      rw [if_pos rfl] at hroom
      have hend : offsets (node e + 1) ≤ offsets numNodes := hmono hn
      have hin : pos (node e) < adj.length := by omega
      rw [if_pos hin]
      have hset : (adj.set (pos (node e)) (other e)).length = offsets numNodes := by
        rw [length_set, hlen]
      obtain ⟨adj', hfill, hall⟩ := @ih (update pos (node e) (pos (node e) + 1)) _ hset fun v hv => by
        grind
      refine ⟨adj', hfill, fun v hv => ?_⟩
      have hwindow := hall v hv
      by_cases heq : node e = v
      · subst heq
        rw [update_self, take_add_one, getElem?_set_self hin, take_set_of_le (Nat.le_refl _),
          drop_append_of_le_length (by rw [length_take]; omega)] at hwindow
        rw [if_pos rfl, Nat.add_comm (edges.countP _), ← Nat.add_assoc, hwindow]
        simp
      · rw [update_of_ne (Ne.symm heq)] at hwindow
        rw [if_neg heq, Nat.add_zero, hwindow, filter_cons_of_neg (by simpa using heq)]
        rcases Nat.lt_or_gt_of_ne heq with hlt | hgt
        · have hapart : offsets (node e + 1) ≤ offsets v := hmono hlt
          rw [take_set, drop_set_of_lt (by omega)]
        · have hapart : offsets (v + 1) ≤ offsets (node e) := hmono hgt
          have hold := hpos v hv
          rw [take_set_of_le (by omega)]
    next hn =>
      have hne (v : Nat) (hv : v < numNodes) : node e ≠ v := by omega
      obtain ⟨adj', hfill, hall⟩ := ih hlen fun v hv => by simpa [hne v hv] using hpos v hv
      exact ⟨adj', hfill, fun v hv => by simpa [hne v hv] using hall v hv⟩

theorem build_neighbors (hfew : ∀ v, edges.countP (node · = v) < 2 ^ 32) :
    ∃ s, build numNodes node other edges = some s ∧
      ∀ v < numNodes, s.neighbors v = (edges.filter (node · = v)).map other := by
  unfold build
  generalize hdegree : edges.foldl (count numNodes node) (fun _ => 0) = degree
  have hoff : ∀ v < numNodes, offsetsOf degree (v + 1) =
      offsetsOf degree v + edges.countP (node · = v) := by
    intro v hv
    rw [offsetsOf, ← hdegree, foldl_count hv (by simpa using hfew v), Nat.zero_add]
  have hmono : Monotone (offsetsOf degree) := monotone_nat_of_le_succ fun v => Nat.le_add_right _ _
  obtain ⟨adj, hfill, hall⟩ := @fill_windows _ _ _ other edges _ _ (replicate _ 0) hmono
    length_replicate
    fun v hv => ⟨Nat.le_refl _, (hoff v hv).ge⟩
  refine ⟨⟨offsetsOf degree, adj⟩, by simp only [hfill, Option.map_some], fun v hv => ?_⟩
  have hwindow := hall v hv
  rw [← hoff v hv, drop_take, drop_take, Nat.sub_self, take_zero, nil_append] at hwindow
  exact hwindow

end CsrSide

structure CsrIndex where
  numNodes : Nat
  fwd : CsrSide
  rev : CsrSide

namespace CsrIndex

def build (edges : List (UInt64 × UInt64)) (numNodes : Nat) : Option CsrIndex := do
  let fwd ← CsrSide.build numNodes (·.1.toNat) (·.2) edges
  let rev ← CsrSide.build numNodes (·.2.toNat) (·.1) edges
  return ⟨numNodes, fwd, rev⟩

def getNeighbors (ix : CsrIndex) (nodeId : UInt64) (isFwd : Bool) : List UInt64 :=
  if ix.numNodes ≤ nodeId.toNat then []
  else if isFwd then ix.fwd.neighbors nodeId.toNat
  else ix.rev.neighbors nodeId.toNat

/-- A node's neighbours come back in the order of its edges, unless its degree wraps. -/
theorem build_keeps_graph (edges : List (UInt64 × UInt64)) (numNodes : Nat)
    (hfew : ∀ v, edges.countP (·.1.toNat = v) < 2 ^ 32 ∧ edges.countP (·.2.toNat = v) < 2 ^ 32) :
    ∃ ix, build edges numNodes = some ix ∧ ∀ v,
      ix.getNeighbors v true = (if v.toNat < numNodes then (edges.filter (·.1 = v)).map (·.2) else []) ∧
      ix.getNeighbors v false = if v.toNat < numNodes then (edges.filter (·.2 = v)).map
        (·.1) else [] := by
  obtain ⟨fwd, hfwd, houts⟩ := CsrSide.build_neighbors fun v => (hfew v).1
  obtain ⟨rev, hrev, hins⟩ := CsrSide.build_neighbors fun v => (hfew v).2
  refine ⟨⟨numNodes, fwd, rev⟩, by rw [build, hfwd, hrev]; rfl, fun v => ?_⟩
  unfold getNeighbors
  by_cases hv : v.toNat < numNodes
  · simp [hv, houts v.toNat hv, hins v.toNat hv, UInt64.toNat_inj]
  · simp [hv, Nat.le_of_not_lt hv]

theorem build_keeps_graph_loops : ∃ ix, build [(1, 0), (0, 0), (1, 0)] 2 = some ix ∧
    ix.getNeighbors 0 false = [1, 0, 1] := by
  obtain ⟨ix, hix, hall⟩ := build_keeps_graph [(1, 0), (0, 0), (1, 0)] 2 fun v =>
    ⟨countP_le_length.trans_lt (by decide), countP_le_length.trans_lt (by decide)⟩
  exact ⟨ix, hix, (hall 0).2⟩

/-- The answers say nothing of the edges' numbers. -/
theorem edge_ids_lost : ∃ a b, build [(0, 1), (1, 0)] 2 = some a ∧ build [(1, 0), (0, 1)] 2 = some b ∧
    ∀ d, a.getNeighbors 0 d = b.getNeighbors 0 d ∧ a.getNeighbors 1 d = b.getNeighbors 1 d :=
  ⟨_, _, rfl, rfl, fun d => by cases d <;> exact ⟨rfl, rfl⟩⟩

end CsrIndex

end Akar
