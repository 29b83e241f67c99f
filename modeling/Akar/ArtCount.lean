import Akar.ArtMultimap

namespace Akar

open List Children

section Spread

variable {α : Type} {f g : UInt8 → Option α} {byte : UInt8} {child : α}

theorem length_spread (f : UInt8 → Option α) : (spread f).length = allBytes.countP fun b =>
    (f b).isSome := by
  unfold spread
  rw [length_filterMap_eq_countP]
  congr 1
  funext b
  cases f b <;> rfl

theorem nodup_allBytes : allBytes.Nodup := by
  refine pairwise_allBytes.imp ?_
  intro a b hlt heq
  rw [heq] at hlt
  exact Std.lt_irrefl hlt

theorem countP_or {p : UInt8 → Bool} (hp : p byte = false) {l : List UInt8} (hl : l.Nodup) :
    (l.countP fun b => decide (b = byte) || p b) = l.countP p + if byte ∈ l then 1 else 0 := by
  induction l with
  | nil => rfl
  | cons b l ih =>
    obtain ⟨hb, hl⟩ := nodup_cons.mp hl
    rw [countP_cons, countP_cons, ih hl]
    by_cases heq : b = byte
    · subst heq
      simp [hp, hb]
    · have hne : ¬byte = b := fun h => heq h.symm
      simp only [heq, decide_false, Bool.false_or, mem_cons, hne, false_or]
      omega

theorem length_spread_insert (hg : ∀ b, g b = if b = byte then some child else f b)
    (hnone : f byte = none) :
    (spread g).length = (spread f).length + 1 := by
  have hp : (fun b => (g b).isSome) = fun b => decide (b = byte) || (f b).isSome := by
    funext b
    rw [hg]
    split
    next hb =>
      rw [decide_eq_true hb]
      rfl
    next hb =>
      rw [decide_eq_false hb]
      rfl
  have hfree : (f byte).isSome = false := by
    rw [hnone]
    rfl
  have hcount := @countP_or byte (fun b => (f b).isSome) hfree _ nodup_allBytes
  rw [if_pos (mem_allBytes byte)] at hcount
  rw [length_spread, length_spread, hp, hcount]

theorem length_spread_set (hg : ∀ b, g b = if b = byte then some child else f b)
    (hsome : (f byte).isSome = true) :
    (spread g).length = (spread f).length := by
  have hp : (fun b => (g b).isSome) = fun b => (f b).isSome := by
    funext b
    rw [hg]
    split
    next hb =>
      rw [hb, hsome]
      rfl
    · rfl
  rw [length_spread, length_spread, hp]

end Spread

namespace Children

variable {α : Type} {cs cs' : Children α} {byte : UInt8} {child : α}

def count : Children α → Nat
  | .node4 slots | .node16 slots => slots.length
  | .node48 _ slots => slots.length
  | .node256 slots => slots.countP Option.isSome

def Counted (cs : Children α) : Prop := cs.count = (spread cs.get).length

theorem length_pairs (h : cs.Valid) : cs.pairs.length = (spread cs.get).length := by
  cases cs with
  | node4 slots | node16 slots =>
    rw [← ordered_eq h]
    exact (length_mergeSort ..).symm
  | node48 | node256 => rfl

theorem counted_of_valid (h : cs.Valid)
    (h48 : ∀ childIndex nodes, cs = .node48 childIndex nodes → nodes.length =
      (spread cs.get).length) : cs.Counted := by
  cases cs with
  | node4 slots | node16 slots => exact length_pairs h
  | node48 childIndex nodes => exact h48 childIndex nodes rfl
  | node256 slots =>
    have hlen : slots.length = 256 := h
    have hslots : slots = allBytes.map fun b => (slots[b.toNat]?).join := by
      apply ext_getElem?
      intro i
      unfold allBytes
      rw [map_map, getElem?_map]
      by_cases hi : i < 256
      · have hnat : (UInt8.ofNat i).toNat = i := by
          rw [UInt8.toNat_ofNat']
          omega
        rw [getElem?_range hi, Option.map_some, Function.comp_apply, hnat,
          getElem?_eq_getElem (by omega)]
        rfl
      · rw [getElem?_eq_none (by omega), getElem?_eq_none (by rw [length_range]; omega)]
        rfl
    show slots.countP Option.isSome = _
    rw [length_spread, hslots, countP_map]
    rw [← hslots]
    rfl

theorem length_of_insert {childIndex : UInt8 → UInt8} {nodes : List α}
    (h : cs.insert byte child = .node48 childIndex nodes) :
    nodes.length = cs.count + 1 := by
  have h256 {slots : List (Option α)} (h : insert256 slots byte child = .node48 childIndex nodes) :
      False := by
    unfold insert256 at h
    split at h <;> cases h
  have h48 {index : UInt8 → UInt8} {olds : List α} (h : insert48 index olds byte child =
      .node48 childIndex nodes) :
      nodes.length = olds.length + 1 := by
    unfold insert48 at h
    split at h
    next =>
      cases h
      rw [length_append]
      rfl
    next => exact (h256 h).elim
  have h16 {slots : List (UInt8 × α)} (h : insert16 slots byte child = .node48 childIndex nodes) :
      nodes.length = slots.length + 1 := by
    unfold insert16 at h
    split at h
    next => cases h
    next => exact (h48 h).trans (by rw [length_map])
  cases cs with
  | node4 slots =>
    have hdef : (Children.node4 slots).insert byte child =
        if slots.length < 4 then .node4 (slots ++ [(byte, child)]) else insert16 slots byte child := rfl
    rw [hdef] at h
    split at h
    next => cases h
    next => exact h16 h
  | node16 => exact h16 h
  | node48 => exact h48 h
  | node256 => exact (h256 h).elim

theorem Counted.insert (hc : cs.Counted) (h : cs.Valid) (hnone : cs.get byte = none) (child : α) :
    (cs.insert byte child).Counted := by
  have hinserted := inserted_insert h hnone child
  refine counted_of_valid hinserted.valid fun childIndex nodes heq => ?_
  rw [length_spread_insert hinserted.get hnone, length_of_insert heq, hc]

theorem Counted.set (hc : cs.Counted) (h : cs.Valid) {c : α} (hsome : cs.get byte = some c)
    (child : α) :
    (cs.set byte child).Counted := by
  have hinserted := inserted_set h hsome child
  refine counted_of_valid hinserted.valid fun childIndex nodes heq => ?_
  rw [length_spread_set hinserted.get (by rw [hsome]; rfl), ← hc]
  cases cs with
  | node4 slots | node16 slots => cases heq
  | node48 index olds =>
    have hdef : (Children.node48 index olds).set byte child =
        if index byte = emptyMarker then .node48 index olds else .node48 index
          (olds.set (index byte).toNat child) := rfl
    rw [hdef] at heq
    split at heq
    next =>
      cases heq
      rfl
    next =>
      cases heq
      exact length_set
  | node256 slots =>
    have hdef : (Children.node256 slots).set byte child =
        if (slots[byte.toNat]?).join.isSome then .node256
          (slots.set byte.toNat (some child)) else .node256 slots := rfl
    rw [hdef] at heq
    split at heq <;> cases heq

theorem counted_clear (cs : Children α) : cs.clear.Counted := by
  refine counted_of_valid (valid_clear cs) fun childIndex nodes heq => ?_
  have hnone : cs.clear.get = fun _ => none := funext (get_clear cs)
  have hempty : (spread fun _ : UInt8 => (none : Option α)).length = 0 := by
    rw [length_spread]
    exact countP_eq_zero.mpr nofun
  rw [hnone, hempty]
  cases cs with
  | node4 slots | node16 slots | node256 slots => cases heq
  | node48 =>
    cases heq
    rfl

theorem Counted.transfer {ps : List (UInt8 × α)} (hc : cs.Counted) (h : cs.Valid)
    (hn : (ps.map (·.1)).Nodup)
    (hnew : ∀ p ∈ ps, cs.get p.1 = none) : (Children.transfer ps cs).Counted := by
  induction ps generalizing cs with
  | nil => exact hc
  | cons p ps ih =>
    obtain ⟨byte, child⟩ := p
    have hn' := nodup_cons.mp hn
    have hnone := hnew _ mem_cons_self
    have hinserted := inserted_insert h hnone child
    refine ih (hc.insert h hnone child) hinserted.valid hn'.2 fun p hp => ?_
    have hne : p.1 ≠ byte := fun heq => hn'.1 (heq ▸ mem_map.mpr ⟨p, hp, rfl⟩)
    rw [hinserted.get, if_neg hne]
    exact hnew p (mem_cons_of_mem _ hp)

end Children

namespace ArtNode

variable {node node' child : ArtNode} {key : List UInt8} {offset n n' : Nat} {b byte : UInt8}

inductive Counted : ArtNode → Prop where
  | intro {node : ArtNode} : node.children.Counted → (∀ b c, node.children.get b = some c → Counted c) → Counted node

theorem Counted.children (h : node.Counted) : node.children.Counted := by
  cases h with
  | intro hc => exact hc

theorem Counted.descend (h : node.Counted) (hc : node.children.get b = some child) : child.Counted := by
  cases h with
  | intro _ hall => exact hall b child hc

theorem Counted.of_same (h : node.Counted) (hc : node'.children = node.children) : node'.Counted := by
  refine .intro (hc ▸ h.children) fun b c hb => ?_
  rw [hc] at hb
  exact h.descend hb

theorem Counted.withChild {cs : Children ArtNode} (h : node.Counted)
    (hcs : node.children.Inserted byte child cs)
    (hcount : cs.Counted) (hchild : child.Counted) :
    ({ node with children := cs } : ArtNode).Counted := by
  refine .intro hcount fun b c hc => ?_
  have hc' := (hcs.get b).symm.trans hc
  split at hc'
  · cases hc'
    exact hchild
  · exact h.descend hc'

theorem counted_newLeaf (path : List UInt8) (offset : Nat) : (newLeaf path offset).Counted := by
  refine .intro (counted_of_valid (valid_newLeaf path offset).children fun _ _ heq => ?_) fun b c
    hc => ?_
  · cases heq
  · cases hc

theorem children_foldl_addOffset (offsets : List Nat) (node : ArtNode) :
    (offsets.foldl addOffset node).children = node.children := by
  induction offsets generalizing node with
  | nil => rfl
  | cons offset offsets ih => exact (ih _).trans (children_addOffset node offset).1

variable {shared s : List UInt8} {a : UInt8}

theorem counted_existingChild (h : node.Valid) (hcount : node.Counted)
    (hpath : node.path = shared ++ a :: s) : (node.existingChild shared.length).Counted := by
  obtain ⟨-, -, hget, -⟩ := existingChild_spec h hpath
  refine .intro ?_ fun b c hc => hcount.descend ((hget b).symm.trans hc)
  have hempty : (Children.node4 ([] : List (UInt8 × ArtNode))).Valid := ⟨Nat.zero_le _, nodup_nil⟩
  have hzero : (Children.node4 ([] : List (UInt8 × ArtNode))).Counted := by
    refine counted_of_valid hempty fun _ _ heq => ?_
    cases heq
  rw [existingChild, children_foldl_addOffset]
  exact hzero.transfer hempty (nodup_pairs h.children) fun _ _ => rfl

theorem counted_forked {r : List UInt8} {b : UInt8} (h : node.Valid) (hcount : node.Counted)
    (hab : a ≠ b)
    (hpath : node.path = shared ++ a :: s) (offset : Nat) :
      (node.forked shared a b r offset).Counted := by
  obtain ⟨hvalid, hnone⟩ := forked_first node shared hab
  have hone := (counted_clear node.children).insert (valid_clear node.children)
    (get_clear node.children a) (node.existingChild shared.length)
  refine .intro (hone.insert hvalid hnone (newLeaf r offset)) fun c d hd => ?_
  rcases child_of_forked hab hd with ⟨_, rfl⟩ | ⟨_, rfl⟩
  · exact counted_newLeaf r offset
  · exact counted_existingChild h hcount hpath

theorem Counted.insertInternal (hcount : node.Counted) (h : node.Valid)
    (hs : node.insertInternal key offset n = some (node', n')) : node'.Counted := by
  induction node using tree_induction generalizing key node' with
  | step node ih =>
    cases beside node.path key with
    | ends =>
      rw [insertInternal_path] at hs
      obtain ⟨rfl, rfl⟩ := Prod.mk.inj (Option.some.inj hs)
      exact hcount.of_same (children_addOffset node offset).1
    | past byte rest =>
      cases hget : node.children.get byte with
      | none =>
        rw [insertInternal_missing hget] at hs
        obtain ⟨rfl, rfl⟩ := Prod.mk.inj (Option.some.inj hs)
        exact hcount.withChild (inserted_insert h.children hget _)
          (hcount.children.insert h.children hget _)
          (counted_newLeaf rest offset)
      | some child =>
        rw [insertInternal_child hget] at hs
        obtain ⟨⟨child', m⟩, hchild, heq⟩ := Option.map_eq_some_iff.mp hs
        obtain ⟨rfl, rfl⟩ := Prod.mk.inj heq
        exact hcount.withChild (inserted_set h.children hget child')
          (hcount.children.set h.children hget child')
          (ih byte child hget (hcount.descend hget) (h.descend hget) hchild)
    | inside _ byte rest hin =>
      rw [insertInternal_inside hin] at hs
      cases hs
    | leaves shared a s b r hab hout =>
      rw [insertInternal_leaves hab hout] at hs
      obtain ⟨rfl, rfl⟩ := Prod.mk.inj (Option.some.inj hs)
      exact counted_forked h hcount hab hout offset

theorem Counted.eraseInternal (hcount : node.Counted) (h : node.Valid) :
    (node.eraseInternal key offset).1.Counted := by
  induction node using tree_induction generalizing key with
  | step node ih =>
    cases along node.path key with
    | ends =>
      rw [eraseInternal_path]
      exact hcount.of_same (removeOffset_spec h offset).2.2.1
    | past byte =>
      cases hget : node.children.get byte with
      | none =>
        rw [eraseInternal_missing hget]
        exact hcount
      | some child =>
        rw [eraseInternal_child hget]
        exact hcount.withChild (inserted_set h.children hget _) (hcount.children.set h.children hget _)
          (ih byte child hget (hcount.descend hget) (h.descend hget))
    | off hnot =>
      rw [eraseInternal_of_not hnot]
      exact hcount

end ArtNode

namespace ArtPrimaryKeyIndex

variable {ix ix' : ArtPrimaryKeyIndex} {op : ArtOp} {ops : List ArtOp}
    {stored : List (List UInt8 × Nat)}

theorem counted_step (hfiles : ix.Files stored) (h : ix.root.Counted)
    (hstep : ix.step op = some ix') : ix'.root.Counted := by
  cases op with
  | insert =>
    rw [ArtPrimaryKeyIndex.step, insert] at hstep
    split at hstep
    next =>
      cases hstep
      exact h
    next =>
      obtain ⟨⟨root, m⟩, hroot, rfl⟩ := Option.map_eq_some_iff.mp hstep
      exact h.insertInternal hfiles.valid hroot
  | delete =>
    cases hstep
    rw [delete]
    split
    next => exact h
    next => exact h.eraseInternal hfiles.valid

theorem counted_run (hfiles : ix.Files stored) (h : ix.root.Counted)
    (hrun : run step ix ops = some ix') :
    ix'.root.Counted := by
  induction ops generalizing ix stored with
  | nil =>
    cases hrun
    exact h
  | cons op ops ih =>
    obtain ⟨t, hstep, hrest⟩ := run_cons_eq_some.mp hrun
    exact ih (hfiles.step hstep) (counted_step hfiles h hstep) hrest

theorem counted_new : new.root.Counted := by
  refine .intro (counted_of_valid ArtNode.valid_newNode4.children fun _ _ heq => ?_) fun b c hc => ?_
  · cases heq
  · cases hc

end ArtPrimaryKeyIndex

end Akar
