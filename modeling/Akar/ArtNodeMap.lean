import Akar.ArtNode
import Akar.Runs

namespace Akar

open List Function

/-- The children of a node with the `count` of its header. A child removed from a `Node48` leaves a
hole among the slots, so from then on the whole array is kept. -/
inductive NodeMap (α : Type) where
  | packed (children : Children α) (count : Nat)
  | holed (childIndex : UInt8 → UInt8) (slots : List (Option α)) (count : Nat)

inductive NodeOp (α : Type) where
  | insertChild (byte : UInt8) (child : α)
  | getOrInsertChild (byte : UInt8)
  | removeChild (byte : UInt8)
  | getChild (byte : UInt8)

variable {α : Type}

def Children.erase : Children α → UInt8 → Children α
  | .node4 slots, byte => .node4 (slots.eraseP (·.1 = byte))
  | .node16 slots, byte => .node16 (slots.eraseP (·.1 = byte))
  | .node256 slots, byte => .node256 (slots.set byte.toNat none)
  | cs, _ => cs

namespace NodeMap

def count : NodeMap α → Nat
  | packed _ count | holed _ _ count => count

def getChild : NodeMap α → UInt8 → Option α
  | packed children _, byte => children.get byte
  | holed childIndex slots _, byte =>
    if childIndex byte = emptyMarker then none else (slots[(childIndex byte).toNat]?).join

/-- `grow_node48_to_node256`: the first byte that points to a slot takes its child. -/
def grow (childIndex : UInt8 → UInt8) (slots : List (Option α)) : List (Option α) :=
  (allBytes.foldl (fun (grown, slots) byte =>
    if childIndex byte = emptyMarker then (grown ++ [none], slots)
    else (grown ++ [(slots[(childIndex byte).toNat]?).join],
      slots.set (childIndex byte).toNat none)) ([], slots)).1

/-- Only a `Node256` looks whether the byte has a child. -/
def insertPacked (children : Children α) (count : Nat) (byte : UInt8) (child : α) : NodeMap α :=
  match children.get byte, children.insert byte child with
  | some _, .node256 slots => packed (.node256 slots) count
  | _, grown => packed grown (count + 1)

def insertChild : NodeMap α → UInt8 → α → NodeMap α
  | packed children count, byte, child => insertPacked children count byte child
  | holed childIndex slots count, byte, child =>
    if count < 48 then
      holed (update childIndex byte (UInt8.ofNat count)) (slots.set count (some child)) (count + 1)
    else insertPacked (.node256 (grow childIndex slots)) count byte child

/-- `count -= 1`, a panic at zero. -/
def lessOne (node : Nat → NodeMap α) : Nat → Option (NodeMap α)
  | 0 => none
  | count + 1 => some (node count)

def removeHoled (childIndex : UInt8 → UInt8) (slots : List (Option α)) (count : Nat) (byte : UInt8) :
    Option (NodeMap α) :=
  if childIndex byte = emptyMarker then some (holed childIndex slots count)
  else lessOne
    (holed (update childIndex byte emptyMarker) (slots.set (childIndex byte).toNat none)) count

def removeChild : NodeMap α → UInt8 → Option (NodeMap α)
  | packed (.node48 childIndex slots) count, byte =>
    removeHoled childIndex (slots.map some ++ replicate (48 - slots.length) none) count byte
  | packed children count, byte =>
    if (children.get byte).isNone then some (packed children count) else lessOne
      (packed (children.erase byte)) count
  | holed childIndex slots count, byte => removeHoled childIndex slots count byte

/-- The calls on a node: `fresh` is the `Node4` that `get_or_insert_child` makes; a child not found
after its insertion is `unreachable!` code. -/
def step (fresh : α) (node : NodeMap α) : NodeOp α → Option (NodeMap α)
  | .insertChild byte child => some (node.insertChild byte child)
  | .getOrInsertChild byte =>
    if (node.getChild byte).isSome then some node
    else (some (node.insertChild byte fresh)).filter fun node => (node.getChild byte).isSome
  | .removeChild byte => node.removeChild byte
  | .getChild _ => some node

end NodeMap

def NodeOp.onMap (fresh : α) (f : UInt8 → Option α) : NodeOp α → UInt8 → Option α
  | .insertChild byte child => update f byte (some child)
  | .getOrInsertChild byte => update f byte (some ((f byte).getD fresh))
  | .removeChild byte => update f byte none
  | .getChild _ => f

def present (f : UInt8 → Option α) : Nat := allBytes.countP fun b => (f b).isSome

section Present

variable {f : UInt8 → Option α} {byte : UInt8} {child : α}

theorem present_update_some (h : f byte = none) (child : α) :
    present (update f byte (some child)) = present f + 1 := by
  have hperm := perm_cons_erase (mem_allBytes byte)
  have hnodup : allBytes.Nodup := pairwise_allBytes.imp fun hlt => UInt8.ne_of_lt hlt
  rw [present, present, hperm.countP_eq, hperm.countP_eq, countP_cons, countP_cons, update_self, h,
    Option.isSome_some, Option.isSome_none, if_pos rfl, if_neg Bool.false_ne_true, Nat.add_zero]
  refine congrArg (· + 1) (countP_congr fun b hb => ?_)
  rw [update_of_ne (hnodup.mem_erase_iff.mp hb).1]

theorem present_update_none (h : f byte = some child) : present f =
    present (update f byte none) + 1 := by
  have hback := present_update_some (update_self byte none f) child
  rw [update_idem, ← h, update_eq_self] at hback
  exact hback

end Present

namespace Children

variable {cs : Children α} {slots : List (UInt8 × α)}

theorem lookup_eraseP (hn : (slots.map (·.1)).Nodup) (byte b : UInt8) :
    (slots.eraseP (·.1 = byte)).lookup b = update (fun b => slots.lookup b) byte none b := by
  induction slots with
  | nil => simp [update_apply]
  | cons s slots ih =>
    obtain ⟨key, child⟩ := s
    obtain ⟨hkey, hn⟩ := nodup_cons.mp hn
    by_cases hs : key = byte
    · subst hs
      rw [eraseP_cons_of_pos (by simp), update_apply, lookup_cons_ite]
      split
      next hb =>
        subst hb
        exact lookup_eq_none_iff.mpr fun p hp => bne_iff_ne.mpr fun heq =>
          hkey (mem_map.mpr ⟨p, hp, heq.symm⟩)
      next => rfl
    · rw [eraseP_cons_of_neg (by simpa using hs), lookup_cons_ite, ih hn, update_apply,
        update_apply, lookup_cons_ite]
      by_cases hb : b = byte
      · rw [if_pos hb, if_pos hb, if_neg (hb ▸ Ne.symm hs)]
      · rw [if_neg hb, if_neg hb]

theorem erase_spec (h : cs.Valid) (h48 : ∀ childIndex slots, cs ≠ .node48 childIndex slots)
    (byte : UInt8) :
    (cs.erase byte).Valid ∧ (cs.erase byte).get = update cs.get byte none := by
  cases cs with
  | node4 slots | node16 slots =>
    have hsub : (slots.eraseP (·.1 = byte)).Sublist slots := eraseP_sublist
    exact ⟨⟨Nat.le_trans hsub.length_le h.1, h.2.sublist (hsub.map _)⟩, funext (lookup_eraseP h.2 byte)⟩
  | node48 childIndex slots => exact absurd rfl (h48 childIndex slots)
  | node256 slots =>
    refine ⟨(length_set ..).trans h, funext fun b => ?_⟩
    rw [update_apply]
    exact get_node256_set h none b

end Children

namespace NodeMap

variable {node : NodeMap α} {f : UInt8 → Option α} {byte : UInt8}

def Holds (node : NodeMap α) (f : UInt8 → Option α) : Prop :=
  ∃ cs : Children α, cs.Valid ∧ cs.get = f ∧ node = packed cs (present f)

/-- A child is inserted only where there is none, and none is removed from a `Node48`. -/
def Careful (node : NodeMap α) : NodeOp α → Prop
  | .insertChild byte _ => node.getChild byte = none
  | .removeChild _ => ∀ childIndex slots count, node ≠ packed (.node48 childIndex slots) count
  | _ => True

theorem Holds.insertChild (h : node.Holds f) (hnone : f byte = none) (child : α) :
    (node.insertChild byte child).Holds (update f byte (some child)) := by
  obtain ⟨cs, hvalid, rfl, rfl⟩ := h
  have hinserted := Children.inserted_insert hvalid hnone child
  refine ⟨cs.insert byte child, hinserted.valid, funext fun b => ?_, ?_⟩
  · rw [hinserted.get, update_apply]
  · rw [present_update_some hnone, NodeMap.insertChild, insertPacked, hnone]

theorem Holds.step (h : node.Holds f) (fresh : α) (op : NodeOp α) (hok : node.Careful op) :
    ∃ node', node.step fresh op = some node' ∧ node'.Holds (op.onMap fresh f) := by
  obtain ⟨cs, hvalid, rfl, rfl⟩ := id h
  cases op with
  | insertChild byte child => exact ⟨_, rfl, h.insertChild hok child⟩
  | getOrInsertChild byte =>
    have hget : (packed cs (present cs.get)).getChild byte = cs.get byte := rfl
    rw [NodeMap.step, NodeOp.onMap, hget]
    cases hb : cs.get byte with
    | none =>
      have hins := h.insertChild hb fresh
      obtain ⟨cs', -, hget', hnode'⟩ := id hins
      have hfound : ((packed cs (present cs.get)).insertChild byte fresh).getChild byte =
          some fresh := by
        rw [hnode']
        exact (congrFun hget' byte).trans (update_self ..)
      exact ⟨_, by simp [hfound], hins⟩
    | some child =>
      refine ⟨_, rfl, ?_⟩
      rw [Option.getD_some, ← hb, update_eq_self]
      exact h
  | removeChild byte =>
    have h48 : ∀ childIndex slots, cs ≠ .node48 childIndex slots :=
      fun _ _ heq => hok _ _ _ (congrArg (packed · _) heq)
    obtain ⟨hvalid', hget'⟩ := Children.erase_spec hvalid h48 byte
    rw [NodeMap.step, NodeOp.onMap, removeChild.eq_2 _ _ _ h48]
    cases hb : cs.get byte with
    | none => exact ⟨_, rfl, by rw [← hb, update_eq_self]; exact h⟩
    | some child =>
      rw [present_update_none hb]
      exact ⟨_, rfl, cs.erase byte, hvalid', hget', rfl⟩
  | getChild byte => exact ⟨_, rfl, h⟩

end NodeMap

structure HeadedNode (α : Type) where
  path : List UInt8
  offsets : List Nat
  overflowOffsets : List Nat
  children : NodeMap α

namespace HeadedNode

def step (fresh : α) (node : HeadedNode α) (op : NodeOp α) : Option (HeadedNode α) :=
  (node.children.step fresh op).map fun children => { node with children }

/-- Calls on a node without children leave it with the map they describe, and never panic. -/
theorem calls_refine_map (fresh : α) (node : HeadedNode α)
    (hnew : node.children = .packed (.node4 []) 0)
    (ops : List (NodeOp α))
    (hok : Meets (step fresh) (fun node op => node.children.Careful op) node ops) :
    ∃ children, run (step fresh) node ops = some { node with children } ∧
      children.getChild = ops.foldl (NodeOp.onMap fresh) (fun _ => none) ∧
      children.count = present children.getChild := by
  have hnone : present (fun _ => none : UInt8 → Option α) = 0 := by
    rw [present, countP_eq_zero]
    simp
  have hholds : node.children.Holds fun _ => none :=
    ⟨.node4 [], ⟨Nat.zero_le _, nodup_nil⟩, rfl, by rw [hnone, hnew]⟩
  generalize (fun _ => none : UInt8 → Option α) = f at hholds ⊢
  clear hnew
  induction ops generalizing node f with
  | nil =>
    obtain ⟨cs, -, rfl, hnode⟩ := hholds
    have hget : node.children.getChild = cs.get := by rw [hnode]; rfl
    exact ⟨node.children, rfl, hget, by rw [hget, hnode]; rfl⟩
  | cons op ops ih =>
    obtain ⟨children, hstep, hnext⟩ := hholds.step fresh op hok.1
    have hmap : node.step fresh op = some { node with children } := by rw [step, hstep]; rfl
    obtain ⟨children', hrun, hend⟩ := ih { node with children } (hok.2 _ hmap) _ hnext
    exact ⟨children', run_cons_eq_some.mpr ⟨_, hmap, hrun⟩, hend⟩

theorem calls_refine_map_three :
    ∃ children, run (step 0) ⟨[7], [1], [], .packed (.node4 []) 0⟩
    [.insertChild 3 1, .getOrInsertChild 5, .removeChild 3] = some ⟨[7], [1], [], children⟩ ∧
      children.getChild = update (update (update (fun _ => none) 3 (some 1)) 5 (some 0)) 3 none ∧
      children.count = present children.getChild :=
  calls_refine_map 0 ⟨[7], [1], [], .packed (.node4 []) 0⟩ rfl _
    ⟨rfl, fun _ h =>
      by cases h; exact ⟨trivial, fun _ h => by cases h; exact ⟨nofun, fun _ _ => trivial⟩⟩⟩

/-- A second child under a byte stays hidden behind the first; and after a removal from a `Node48`
the next child takes the slot of the last one. -/
theorem child_not_found :
    (run (step 0) ⟨[], [], [], .packed (.node4 []) 0⟩ [.insertChild 3 1, .insertChild 3 2]).map
        (·.children.getChild 3) = some (some 1) ∧
      (run (step 0) ⟨[], [], [], .packed (.node4 []) 0⟩
        ((List.range 17).map (fun i => .insertChild (UInt8.ofNat i) i) ++
          [.removeChild 0, .insertChild 17 17])).map
        (·.children.getChild 16) = some (some 17) := by
  decide +kernel

end HeadedNode

end Akar
