import Akar.Slots
import Akar.StableSort
import Mathlib.Data.List.Induction
import Mathlib.Data.List.Nodup

namespace Akar

open List Option Function

def emptyMarker : UInt8 := 255

/-- The children of a node in the four layouts, each with the slots that are in use. -/
inductive Children (α : Type) where
  | node4 (slots : List (UInt8 × α))
  | node16 (slots : List (UInt8 × α))
  | node48 (childIndex : UInt8 → UInt8) (slots : List α)
  | node256 (slots : List (Option α))

def allBytes : List UInt8 := (range 256).map UInt8.ofNat

def spread {α : Type} (f : UInt8 → Option α) : List (UInt8 × α) :=
  allBytes.filterMap fun b => (f b).map (b, ·)

namespace Children

variable {α : Type}

def get : Children α → UInt8 → Option α
  | .node4 slots, byte | .node16 slots, byte => slots.lookup byte
  | .node48 childIndex slots, byte =>
    if childIndex byte = emptyMarker then none else slots[(childIndex byte).toNat]?
  | .node256 slots, byte => (slots[byte.toNat]?).join

def setSlot (byte : UInt8) (child : α) : List (UInt8 × α) → List (UInt8 × α)
  | [] => []
  | (b, c) :: slots => if b = byte then (b, child) :: slots else (b, c) :: setSlot byte child slots

def set : Children α → UInt8 → α → Children α
  | .node4 slots, byte, child => .node4 (setSlot byte child slots)
  | .node16 slots, byte, child => .node16 (setSlot byte child slots)
  | .node48 childIndex slots, byte, child =>
    if childIndex byte = emptyMarker then .node48 childIndex slots
    else .node48 childIndex (slots.set (childIndex byte).toNat child)
  | .node256 slots, byte, child =>
    if (slots[byte.toNat]?).join.isSome then .node256
      (slots.set byte.toNat (some child)) else .node256 slots

def insert256 (slots : List (Option α)) (byte : UInt8) (child : α) : Children α :=
  if (slots[byte.toNat]?).join.isNone then .node256
    (slots.set byte.toNat (some child)) else .node256 slots

def growNode48 (childIndex : UInt8 → UInt8) (slots : List α) : List (Option α) :=
  allBytes.map fun byte =>
    if childIndex byte = emptyMarker then none else slots[(childIndex byte).toNat]?

def insert48 (childIndex : UInt8 → UInt8) (slots : List α) (byte : UInt8) (child : α) : Children α :=
  if slots.length < 48 then
    .node48 (update childIndex byte (UInt8.ofNat slots.length)) (slots ++ [child])
  else insert256 (growNode48 childIndex slots) byte child

def indexSlots (slots : List (UInt8 × α)) : UInt8 → UInt8 :=
  slots.zipIdx.foldl (fun index slot =>
    update index slot.1.1 (UInt8.ofNat slot.2)) fun _ => emptyMarker

def insert16 (slots : List (UInt8 × α)) (byte : UInt8) (child : α) : Children α :=
  if slots.length < 16 then .node16 (slots ++ [(byte, child)])
  else insert48 (indexSlots slots) (slots.map (·.2)) byte child

def insert : Children α → UInt8 → α → Children α
  | .node4 slots, byte, child =>
    if slots.length < 4 then .node4 (slots ++ [(byte, child)]) else insert16 slots byte child
  | .node16 slots, byte, child => insert16 slots byte child
  | .node48 childIndex slots, byte, child => insert48 childIndex slots byte child
  | .node256 slots, byte, child => insert256 slots byte child

def pairs : Children α → List (UInt8 × α)
  | .node4 slots | .node16 slots => slots
  | .node48 childIndex slots => spread (get (.node48 childIndex slots))
  | .node256 slots => spread (get (.node256 slots))

def ordered : Children α → List (UInt8 × α)
  | .node4 slots | .node16 slots => byKey slots
  | .node48 childIndex slots => spread (get (.node48 childIndex slots))
  | .node256 slots => spread (get (.node256 slots))

def clear : Children α → Children α
  | .node4 _ => .node4 []
  | .node16 _ => .node16 []
  | .node48 _ _ => .node48 (fun _ => emptyMarker) []
  | .node256 _ => .node256 (replicate 256 none)

end Children

structure ArtNode where
  path : List UInt8
  offsets : List Nat
  overflowOffsets : List Nat
  children : Children ArtNode

namespace ArtNode

def newNode4 : ArtNode := ⟨[], [], [], .node4 []⟩

def allOffsets (node : ArtNode) : List Nat := node.offsets ++ node.overflowOffsets

def hasOffsets (node : ArtNode) : Bool := !node.offsets.isEmpty || !node.overflowOffsets.isEmpty

def addOffset (node : ArtNode) (offset : Nat) : ArtNode :=
  if node.offsets.isEmpty then { node with offsets := node.offsets ++ [offset] }
  else { node with overflowOffsets := node.overflowOffsets ++ [offset] }

/-- `remove_offset`: an overflow offset takes the place of a removed primary one. The second
component says whether the offset was there. -/
def removeOffset (node : ArtNode) (offset : Nat) : ArtNode × Bool := if offset ∈ node.offsets then
    match node.overflowOffsets with
    | [] => ({ node with offsets := node.offsets.erase offset }, true)
    | next :: rest =>
      ({ node with offsets := node.offsets.erase offset ++ [next], overflowOffsets := rest }, true)
  else if offset ∈ node.overflowOffsets then
    ({ node with overflowOffsets := node.overflowOffsets.erase offset }, true)
  else (node, false)

end ArtNode

section Spread

variable {α : Type} {f : UInt8 → Option α} {b : UInt8} {c : α}

theorem mem_allBytes (b : UInt8) : b ∈ allBytes := by
  apply List.mem_map.mpr
  exact ⟨b.toNat, mem_range.mpr (UInt8.toNat_lt b), UInt8.ofNat_toNat⟩

theorem pairwise_allBytes : allBytes.Pairwise (· < ·) := by
  apply pairwise_map.mpr
  refine Pairwise.imp_of_mem ?_ pairwise_lt_range
  intro i j hi hj hij
  have hi' := mem_range.mp hi
  have hj' := mem_range.mp hj
  rw [UInt8.lt_iff_toNat_lt, UInt8.toNat_ofNat', UInt8.toNat_ofNat', Nat.mod_eq_of_lt hi',
    Nat.mod_eq_of_lt hj']
  exact hij

theorem mem_spread : (b, c) ∈ spread f ↔ f b = some c := by
  unfold spread
  rw [mem_filterMap]
  constructor
  · rintro ⟨b', _, h⟩
    obtain ⟨c', hc, heq⟩ := map_eq_some_iff.mp h
    cases heq
    exact hc
  · intro h
    exact ⟨b, mem_allBytes b, by rw [h]; rfl⟩

theorem pairwise_spread (f : UInt8 → Option α) : (spread f).Pairwise fun a b => a.1 < b.1 := by
  apply Pairwise.filterMap _ _ pairwise_allBytes
  intro a a' haa' b hb b' hb'
  obtain ⟨_, _, rfl⟩ := map_eq_some_iff.mp hb
  obtain ⟨_, _, rfl⟩ := map_eq_some_iff.mp hb'
  exact haa'

theorem nodup_spread (f : UInt8 → Option α) : ((spread f).map (·.1)).Nodup := by
  apply pairwise_map.mpr
  refine (pairwise_spread f).imp fun hlt heq => ?_
  rw [heq] at hlt
  exact Std.lt_irrefl hlt

variable {l : List (UInt8 × α)}

theorem filter_eq_lookup (h : (l.map (·.1)).Nodup) (b : UInt8) :
    l.filter (·.1 = b) = ((l.lookup b).map (b, ·)).toList := by
  induction l with
  | nil => rfl
  | cons s l ih =>
    obtain ⟨b', c⟩ := s
    have h' := nodup_cons.mp h
    by_cases hb : b' = b
    · subst hb
      have hnone : l.filter (·.1 = b') = [] := by
        apply filter_eq_nil_iff.mpr
        intro s hs heq
        exact h'.1 (mem_map.mpr ⟨s, hs, of_decide_eq_true heq⟩)
      rw [filter_cons_of_pos (by simp), hnone, lookup_cons_self]
      rfl
    · rw [filter_cons_of_neg (by simpa using hb), ih h'.2, lookup_cons_ite, if_neg fun heq =>
        hb heq.symm]

theorem mem_iff_lookup (h : (l.map (·.1)).Nodup) : (b, c) ∈ l ↔ l.lookup b = some c := by
  have hfilter := filter_eq_lookup h b
  constructor
  · intro hmem
    have hin : (b, c) ∈ l.filter (·.1 = b) := mem_filter.mpr ⟨hmem, decide_eq_true rfl⟩
    rw [hfilter] at hin
    simpa using hin
  · intro hl
    have hin : (b, c) ∈ l.filter (·.1 = b) := by rw [hfilter, hl]; simp
    exact (mem_filter.mp hin).1

theorem lookup_spread (f : UInt8 → Option α) (b : UInt8) : (spread f).lookup b = f b := by
  apply Option.ext
  intro c
  rw [← mem_iff_lookup (nodup_spread f), mem_spread]

theorem byKey_eq_spread (h : (l.map (·.1)).Nodup) : byKey l = spread fun b => l.lookup b := by
  symm
  apply eq_byKey
  · exact (pairwise_spread _).imp Std.le_of_lt
  · intro b
    rw [filter_eq_lookup (nodup_spread _), lookup_spread, filter_eq_lookup h]

end Spread

namespace Children

variable {α : Type} {cs : Children α} {slots : List (UInt8 × α)} {childIndex : UInt8 → UInt8}
    {nodes : List α}
  {b byte : UInt8} {c child : α}

/-- No byte has two slots, the layout has room for its slots, and an index points to slots in
use. -/
def Valid : Children α → Prop
  | .node4 slots => slots.length ≤ 4 ∧ (slots.map (·.1)).Nodup
  | .node16 slots => slots.length ≤ 16 ∧ (slots.map (·.1)).Nodup
  | .node48 childIndex slots =>
    slots.length ≤ 48 ∧ (∀ b, childIndex b ≠ emptyMarker → (childIndex b).toNat < slots.length) ∧
      ∀ b b', childIndex b ≠ emptyMarker → childIndex b = childIndex b' → b = b'
  | .node256 slots => slots.length = 256

theorem get_node48 (childIndex : UInt8 → UInt8) (nodes : List α) (b : UInt8) :
    (Children.node48 childIndex nodes).get b =
      if childIndex b = emptyMarker then none else nodes[(childIndex b).toNat]? := rfl

theorem valid_clear (cs : Children α) : cs.clear.Valid := by
  cases cs with
  | node4 _ | node16 _ => exact ⟨Nat.zero_le _, nodup_nil⟩
  | node48 => exact ⟨Nat.zero_le _, fun _ h => absurd rfl h, fun _ _ h => absurd rfl h⟩
  | node256 => exact length_replicate

theorem get_clear (cs : Children α) (b : UInt8) : cs.clear.get b = none := by
  cases cs with
  | node4 | node16 | node48 => rfl
  | node256 =>
    show ((replicate 256 none)[b.toNat]?).join = none
    rw [getElem?_replicate]
    split <;> rfl

theorem ordered_eq (h : cs.Valid) : cs.ordered = spread cs.get := by
  cases cs with
  | node4 slots | node16 slots => exact byKey_eq_spread h.2
  | node48 | node256 => rfl

theorem nodup_pairs (h : cs.Valid) : (cs.pairs.map (·.1)).Nodup := by
  cases cs with
  | node4 slots | node16 slots => exact h.2
  | node48 | node256 => exact nodup_spread _

theorem lookup_pairs (cs : Children α) (b : UInt8) : cs.pairs.lookup b = cs.get b := by
  cases cs with
  | node4 slots | node16 slots => rfl
  | node48 | node256 => exact lookup_spread _ b

theorem lookup_concat (h : slots.lookup byte = none) (child : α) (b : UInt8) :
    (slots ++ [(byte, child)]).lookup b = if b = byte then some child else slots.lookup b := by
  rw [lookup_append, lookup_cons_ite]
  by_cases hb : b = byte
  · rw [if_pos hb, if_pos hb, hb, h]
    rfl
  · rw [if_neg hb, if_neg hb]
    exact or_none

theorem nodup_concat (hn : (slots.map (·.1)).Nodup) (h : slots.lookup byte = none) (child : α) :
    ((slots ++ [(byte, child)]).map (·.1)).Nodup := by
  rw [map_append, nodup_append]
  refine ⟨hn, nodup_singleton _, ?_⟩
  intro b hb b' hb' heq
  obtain ⟨s, hs, rfl⟩ := mem_map.mp hb
  have hbyte := heq.trans (mem_singleton.mp hb')
  have hlookup := (mem_iff_lookup hn).mp (show (s.1, s.2) ∈ slots from hs)
  rw [hbyte, h] at hlookup
  cases hlookup

structure Inserted (cs : Children α) (byte : UInt8) (child : α) (cs' : Children α) : Prop where
  valid : cs'.Valid
  get : ∀ b, cs'.get b = if b = byte then some child else cs.get b

theorem get_node256_set {slots : List (Option α)} (hlen : slots.length = 256) (slot : Option α)
    (b : UInt8) :
    (Children.node256 (slots.set byte.toNat slot)).get b = if b =
      byte then slot else (Children.node256 slots).get b := by
  show ((slots.set byte.toNat slot)[b.toNat]?).join = _
  by_cases hb : b = byte
  · rw [if_pos hb, hb, getElem?_set_self (hlen ▸ UInt8.toNat_lt byte)]
    rfl
  · have hne : byte.toNat ≠ b.toNat := fun heq => hb (UInt8.toNat_inj.mp heq).symm
    rw [if_neg hb, getElem?_set_ne hne]
    rfl

theorem inserted256 {slots : List (Option α)} (hlen : slots.length = 256)
    (hnone : (Children.node256 slots).get byte = none) (child : α) :
    Inserted (.node256 slots) byte child (insert256 slots byte child) := by
  have hset : insert256 slots byte child = .node256 (slots.set byte.toNat (some child)) := by
    have hfree : (slots[byte.toNat]?).join = none := hnone
    rw [insert256, hfree]
    rfl
  rw [hset]
  exact ⟨by rw [Valid, length_set]; exact hlen, get_node256_set hlen _⟩

theorem growNode48_spec (childIndex : UInt8 → UInt8) (nodes : List α) :
    (Children.node256 (growNode48 childIndex nodes)).Valid ∧
      ∀ b, (Children.node256 (growNode48 childIndex nodes)).get b =
        (Children.node48 childIndex nodes).get b := by
  have hat (b : UInt8) : allBytes[b.toNat]? = some b := by
    unfold allBytes
    rw [getElem?_map, getElem?_range (UInt8.toNat_lt b)]
    exact congrArg some UInt8.ofNat_toNat
  refine ⟨?_, fun b => ?_⟩
  · show (growNode48 childIndex nodes).length = 256
    simp [growNode48, allBytes]
  · show ((growNode48 childIndex nodes)[b.toNat]?).join = _
    rw [growNode48, getElem?_map, hat]
    rfl

theorem inserted48_of_room (hroom : nodes.length < 48)
    (h : (Children.node48 childIndex nodes).Valid) (byte : UInt8) (child : α) :
    Inserted (.node48 childIndex nodes) byte child
      (.node48 (update childIndex byte (UInt8.ofNat nodes.length)) (nodes ++ [child])) := by
  obtain ⟨-, hbound, hinj⟩ := h
  have hnat : (UInt8.ofNat nodes.length).toNat = nodes.length := by
    rw [UInt8.toNat_ofNat']
    omega
  have hmark : UInt8.ofNat nodes.length ≠ emptyMarker := by
    intro heq
    have := congrArg UInt8.toNat heq
    have hmax : emptyMarker.toNat = 255 := rfl
    omega
  refine ⟨⟨by rw [length_append]; exact hroom, fun b hb => ?_, fun b b' hb heq => ?_⟩, fun b => ?_⟩
  · rw [length_append, length_singleton]
    by_cases hbyte : b = byte
    · rw [hbyte, update_self, hnat]
      omega
    · rw [update_of_ne hbyte] at hb ⊢
      have := hbound b hb
      omega
  · -- the new slot is past all the old ones
    by_cases hbyte : b = byte <;> by_cases hbyte' : b' = byte
    · rw [hbyte, hbyte']
    · exfalso
      rw [hbyte, update_self, update_of_ne hbyte'] at heq
      have := hbound b' (heq ▸ hmark)
      rw [← heq, hnat] at this
      omega
    · exfalso
      rw [hbyte', update_self, update_of_ne hbyte] at heq
      have := hbound b (heq ▸ hmark)
      rw [heq, hnat] at this
      omega
    · rw [update_of_ne hbyte] at hb heq
      rw [update_of_ne hbyte'] at heq
      exact hinj b b' hb heq
  · rw [get_node48, get_node48]
    by_cases hbyte : b = byte
    · rw [if_pos hbyte, hbyte, update_self, if_neg hmark, hnat]
      simp
    · rw [if_neg hbyte, update_of_ne hbyte]
      by_cases hb : childIndex b = emptyMarker
      · rw [if_pos hb, if_pos hb]
      · rw [if_neg hb, if_neg hb, getElem?_append_left (hbound b hb)]

theorem inserted48 (h : (Children.node48 childIndex nodes).Valid)
    (hnone : (Children.node48 childIndex nodes).get byte = none) (child : α) :
    Inserted (.node48 childIndex nodes) byte child (insert48 childIndex nodes byte child) := by
  unfold insert48
  split
  next hroom => exact inserted48_of_room hroom h byte child
  next =>
    obtain ⟨hvalid, hget⟩ := growNode48_spec childIndex nodes
    have hinserted := inserted256 hvalid ((hget byte).trans hnone) child
    exact ⟨hinserted.valid, fun b => by rw [hinserted.get, hget]⟩

theorem indexSlots_concat (slots : List (UInt8 × α)) (byte : UInt8) (child : α) :
    indexSlots (slots ++ [(byte, child)]) =
      update (indexSlots slots) byte (UInt8.ofNat slots.length) := by
  simp [indexSlots, zipIdx_append]

theorem growNode16_spec (hlen : slots.length ≤ 48) (hn : (slots.map (·.1)).Nodup) :
    (Children.node48 (indexSlots slots) (slots.map (·.2))).Valid ∧
      ∀ b, (Children.node48 (indexSlots slots) (slots.map (·.2))).get b = slots.lookup b := by
  induction slots using List.reverseRecOn with
  | nil => exact ⟨⟨Nat.zero_le _, fun _ h => absurd rfl h, fun _ _ h => absurd rfl h⟩, fun _ => rfl⟩
  | append_singleton slots s ih =>
    obtain ⟨byte, child⟩ := s
    have hlen' : slots.length < 48 := by
      rw [length_append, length_singleton] at hlen
      omega
    have hn' : (slots.map (·.1)).Nodup := by
      rw [map_append] at hn
      exact hn.of_append_left
    have hnone : slots.lookup byte = none := by
      by_contra hsome
      obtain ⟨c, hc⟩ := ne_none_iff_exists'.mp hsome
      rw [map_append, nodup_append] at hn
      exact hn.2.2 byte (mem_map.mpr ⟨_, (mem_iff_lookup hn').mpr hc, rfl⟩) byte (by simp) rfl
    obtain ⟨hvalid, hget⟩ := ih (Nat.le_of_lt hlen') hn'
    have hinserted := inserted48_of_room (by rwa [length_map]) hvalid byte child
    rw [length_map] at hinserted
    rw [indexSlots_concat, map_append]
    refine ⟨hinserted.valid, fun b => (hinserted.get b).trans ?_⟩
    rw [hget, lookup_concat hnone]

theorem inserted16 (hlen : slots.length ≤ 16) (hn : (slots.map (·.1)).Nodup)
    (hnone : slots.lookup byte = none)
    (child : α) : Inserted (.node16 slots) byte child (insert16 slots byte child) := by
  unfold insert16
  split
  next hroom =>
    refine ⟨⟨?_, nodup_concat hn hnone child⟩, lookup_concat hnone child⟩
    rw [length_append]
    exact hroom
  next =>
    obtain ⟨hvalid, hget⟩ := growNode16_spec (by omega) hn
    have hinserted := inserted48 hvalid ((hget byte).trans hnone) child
    exact ⟨hinserted.valid, fun b => by rw [hinserted.get, hget]; rfl⟩

theorem inserted_insert (h : cs.Valid) (hnone : cs.get byte = none) (child : α) :
    Inserted cs byte child (cs.insert byte child) := by
  cases cs with
  | node4 slots =>
    show Inserted _ byte child (if slots.length < 4 then _ else _)
    split
    next hroom =>
      refine ⟨⟨?_, nodup_concat h.2 hnone child⟩, lookup_concat hnone child⟩
      rw [length_append]
      exact hroom
    next =>
      have hinserted := inserted16 (by have := h.1; omega) h.2 hnone child
      exact ⟨hinserted.valid, hinserted.get⟩
  | node16 => exact inserted16 h.1 h.2 hnone child
  | node48 => exact inserted48 h hnone child
  | node256 => exact inserted256 h hnone child

def transfer (pairs : List (UInt8 × α)) (cs : Children α) : Children α :=
  pairs.foldl (fun cs pair => cs.insert pair.1 pair.2) cs

theorem transfer_spec {ps : List (UInt8 × α)} (h : cs.Valid) (hn : (ps.map (·.1)).Nodup)
    (hnew : ∀ p ∈ ps, cs.get p.1 = none) :
    (transfer ps cs).Valid ∧ ∀ b, (transfer ps cs).get b = (ps.lookup b).or (cs.get b) := by
  induction ps generalizing cs with
  | nil => exact ⟨h, fun b => rfl⟩
  | cons p ps ih =>
    obtain ⟨byte, child⟩ := p
    have hn' := nodup_cons.mp hn
    have hinserted := inserted_insert h (hnew _ mem_cons_self) child
    have hnew' : ∀ p ∈ ps, (cs.insert byte child).get p.1 = none := by
      intro p hp
      have hne : p.1 ≠ byte := fun heq => hn'.1 (heq ▸ mem_map.mpr ⟨p, hp, rfl⟩)
      rw [hinserted.get, if_neg hne]
      exact hnew p (mem_cons_of_mem _ hp)
    obtain ⟨hvalid, hget⟩ := ih hinserted.valid hn'.2 hnew'
    refine ⟨hvalid, fun b => (hget b).trans ?_⟩
    rw [hinserted.get, lookup_cons_ite]
    by_cases hb : b = byte
    · have hnone : ps.lookup byte = none := by
        by_contra hsome
        obtain ⟨c, hc⟩ := ne_none_iff_exists'.mp hsome
        exact hn'.1 (mem_map.mpr ⟨_, (mem_iff_lookup hn'.2).mpr hc, rfl⟩)
      rw [if_pos hb, if_pos hb, hb, hnone]
      rfl
    · rw [if_neg hb, if_neg hb]

theorem keys_setSlot (byte : UInt8) (child : α) (slots : List (UInt8 × α)) :
    (setSlot byte child slots).map (·.1) = slots.map (·.1) := by
  induction slots with
  | nil => rfl
  | cons s slots ih =>
    rw [setSlot]
    split
    · rfl
    · rw [map_cons, map_cons, ih]

theorem lookup_setSlot (hsome : slots.lookup byte = some c) (child : α) (b : UInt8) :
    (setSlot byte child slots).lookup b = if b = byte then some child else slots.lookup b := by
  induction slots with
  | nil => cases hsome
  | cons s slots ih =>
    obtain ⟨b', c'⟩ := s
    rw [setSlot]
    by_cases hb' : b' = byte
    · subst hb'
      rw [if_pos rfl, lookup_cons_ite, lookup_cons_ite]
      split <;> rfl
    · rw [lookup_cons_ite, if_neg fun heq => hb' heq.symm] at hsome
      rw [if_neg hb', lookup_cons_ite, lookup_cons_ite, ih hsome]
      by_cases hb : b = b'
      · rw [if_pos hb, if_pos hb, if_neg (hb ▸ hb')]
      · rw [if_neg hb, if_neg hb]

theorem inserted_set (h : cs.Valid) (hsome : cs.get byte = some c) (child : α) :
    Inserted cs byte child (cs.set byte child) := by
  cases cs with
  | node4 slots | node16 slots =>
    refine ⟨⟨?_, ?_⟩, lookup_setSlot hsome child⟩
    · rw [← length_map (f := Prod.fst), keys_setSlot, length_map]
      exact h.1
    · rw [keys_setSlot]
      exact h.2
  | node48 childIndex =>
    obtain ⟨hlen, hbound, hinj⟩ := h
    have hmark : childIndex byte ≠ emptyMarker := by
      intro heq
      rw [get_node48, if_pos heq] at hsome
      cases hsome
    rw [set, if_neg hmark]
    refine ⟨⟨by rwa [length_set], fun b hb => by rw [length_set]; exact hbound b hb, hinj⟩, fun b => ?_⟩
    rw [get_node48, get_node48]
    by_cases hb : b = byte
    · rw [if_pos hb, hb, if_neg hmark, getElem?_set_self (hbound byte hmark)]
    · rw [if_neg hb]
      by_cases hm : childIndex b = emptyMarker
      · rw [if_pos hm, if_pos hm]
      · have hne : (childIndex byte).toNat ≠ (childIndex b).toNat :=
          fun heq => hb (hinj b byte hm (UInt8.toNat_inj.mp heq).symm)
        rw [if_neg hm, if_neg hm, getElem?_set_ne hne]
  | node256 slots =>
    have hfull : (slots[byte.toNat]?).join = some c := hsome
    rw [set, hfull, isSome_some, if_pos rfl]
    exact ⟨by rw [Valid, length_set]; exact h, get_node256_set h _⟩

theorem sizeOf_lt_of_get [SizeOf α] (h : cs.get b = some c) : sizeOf c < sizeOf cs := by
  have hslot {slots : List (UInt8 × α)} (h : slots.lookup b = some c) : sizeOf c < sizeOf slots := by
    obtain ⟨l₁, l₂, rfl, _⟩ := lookup_eq_some_iff.mp h
    have hmem := sizeOf_lt_of_mem (show (b, c) ∈ l₁ ++ (b, c) :: l₂ by simp)
    simp only [Prod.mk.sizeOf_spec] at hmem
    omega
  cases cs with
  | node4 =>
    have := hslot h
    simp only [node4.sizeOf_spec]
    omega
  | node16 =>
    have := hslot h
    simp only [node16.sizeOf_spec]
    omega
  | node48 =>
    rw [get_node48] at h
    split at h
    · cases h
    · have := sizeOf_lt_of_mem (mem_of_getElem? h)
      simp only [node48.sizeOf_spec]
      omega
  | node256 slots =>
    have h' : (slots[b.toNat]?).join = some c := h
    rw [join_eq_some_iff] at h'
    have := sizeOf_lt_of_mem (mem_of_getElem? h')
    simp only [some.sizeOf_spec] at this
    simp only [node256.sizeOf_spec]
    omega

theorem sizeOf_lt_of_ordered [SizeOf α] (h : (b, c) ∈ cs.ordered) : sizeOf c < sizeOf cs := by
  have hslot {slots : List (UInt8 × α)} (h : (b, c) ∈ byKey slots) : sizeOf c < sizeOf slots := by
    have hmem := sizeOf_lt_of_mem (mem_mergeSort.mp h)
    simp only [Prod.mk.sizeOf_spec] at hmem
    omega
  cases cs with
  | node4 =>
    have := hslot h
    simp only [node4.sizeOf_spec]
    omega
  | node16 =>
    have := hslot h
    simp only [node16.sizeOf_spec]
    omega
  | node48 | node256 => exact sizeOf_lt_of_get (mem_spread.mp h)

end Children

end Akar
