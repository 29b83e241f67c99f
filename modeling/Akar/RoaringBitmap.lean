import Akar.RoaringContainer

namespace Akar

open List Function Container

structure RoaringBitmap where
  containers : UInt16 → Option Container
  len : Nat

namespace RoaringBitmap

def key (value : UInt32) : UInt16 := (value >>> 16).toUInt16

def low (value : UInt32) : UInt16 := (value &&& 0xFFFF).toUInt16

def join (k l : UInt16) : UInt32 := (k.toUInt32 <<< 16) ||| l.toUInt32

def new : RoaringBitmap := ⟨fun _ => none, 0⟩

def allKeys : List UInt16 := (range 65536).map UInt16.ofNat

def keys (rb : RoaringBitmap) : List UInt16 := allKeys.filter fun k => (rb.containers k).isSome

def entry (rb : RoaringBitmap) (k : UInt16) : Container := (rb.containers k).getD .newArray

def put (rb : RoaringBitmap) (k : UInt16) (c : Container) (len : Nat) : RoaringBitmap :=
  ⟨update rb.containers k (some c), len⟩

def dropKey (rb : RoaringBitmap) (k : UInt16) : RoaringBitmap :=
  ⟨update rb.containers k none, rb.len⟩

def add (rb : RoaringBitmap) (value : UInt32) : RoaringBitmap × Bool :=
  let added := (rb.entry (key value)).add (low value)
  (rb.put (key value) added.1 (if added.2 then rb.len + 1 else rb.len), added.2)

def remove (rb : RoaringBitmap) (value : UInt32) : RoaringBitmap × Bool :=
  match rb.containers (key value) with
  | none => (rb, false)
  | some c =>
    let removed := c.remove (low value)
    if removed.2 then
      let kept := rb.put (key value) removed.1 (rb.len - 1)
      (if removed.1.isEmpty then kept.dropKey (key value) else kept, true)
    else (rb, false)

def contains (rb : RoaringBitmap) (value : UInt32) : Bool := match rb.containers (key value) with
  | none => false
  | some c => c.contains (low value)

def isEmpty (rb : RoaringBitmap) : Bool := rb.len = 0

def unionAt (other : RoaringBitmap) (rb : RoaringBitmap) (k : UInt16) : RoaringBitmap :=
  match other.containers k with
  | none => rb
  | some otherC =>
    let c := (rb.entry k).insertAllFrom otherC
    rb.put k c (rb.len + (c.len - (rb.entry k).len))

def unionWith (rb other : RoaringBitmap) : RoaringBitmap := other.keys.foldl (unionAt other) rb

def intersectAt (other : RoaringBitmap) (acc : RoaringBitmap × List UInt16) (k : UInt16) :
    RoaringBitmap × List UInt16 :=
  match acc.1.containers k with
  | none => acc
  | some c =>
    match other.containers k with
    | some otherC =>
      let kept := c.retainIntersection otherC
      (acc.1.put k kept (acc.1.len - (c.len - kept.len)), if kept.isEmpty then acc.2 ++ [k] else acc.2)
    | none => ({ acc.1 with len := acc.1.len - c.len }, acc.2 ++ [k])

def intersectWith (rb other : RoaringBitmap) : RoaringBitmap :=
  let acc := rb.keys.foldl (intersectAt other) (rb, [])
  acc.2.foldl dropKey acc.1

def iter (rb : RoaringBitmap) : List UInt32 := rb.keys.flatMap fun k => (rb.entry k).iter.map (join k)

/-- The inner loop of `from_sorted`: the values that follow under the same key go to the same
container. -/
def addBatch (k : UInt16) (c : Container) (len : Nat) : List UInt32 → Container × Nat × List UInt32
  | [] => (c, len, [])
  | value :: values =>
    if key value = k then addBatch k (c.add (low value)).1 (len + 1) values else (c, len,
      value :: values)

theorem length_addBatch_le (k : UInt16) (c : Container) (len : Nat) (values : List UInt32) :
    (addBatch k c len values).2.2.length ≤ values.length := by
  fun_induction addBatch k c len values with
  | case1 c len => exact le_rfl
  | case2 c len value values _ ih => exact Nat.le_succ_of_le ih
  | case3 c len value values => exact le_rfl

def addSorted (rb : RoaringBitmap) : List UInt32 → RoaringBitmap
  | [] => rb
  | value :: values =>
    let c := ((rb.entry (key value)).add (low value)).1
    let batch := addBatch (key value) c (rb.len + 1) values
    addSorted (rb.put (key value) batch.1 batch.2.1) batch.2.2
  termination_by values => values.length
  decreasing_by exact Nat.lt_succ_of_le (length_addBatch_le ..)

def fromSorted (values : List UInt32) : RoaringBitmap := addSorted .new values

def addEach (rb : RoaringBitmap) (values : List UInt32) : RoaringBitmap :=
  values.foldl (fun rb value => (rb.add value).1) rb

section Halves

variable {k l : UInt16} {v w : UInt32}

theorem toNat_key : (key v).toNat = v.toNat / 65536 := by
  have hlt := v.toNat_lt
  show v.toNat >>> 16 % 2 ^ 16 = _
  rw [Nat.shiftRight_eq_div_pow]
  exact Nat.mod_eq_of_lt (by omega)

theorem toNat_low : (low v).toNat = v.toNat % 65536 := by
  show (v.toNat &&& 2 ^ 16 - 1) % 2 ^ 16 = _
  rw [Nat.and_two_pow_sub_one_eq_mod]
  exact Nat.mod_mod ..

theorem toNat_join : (join k l).toNat = k.toNat * 65536 + l.toNat := by
  have hk := k.toNat_lt
  have hl := l.toNat_lt
  show (k.toNat <<< 16) % 2 ^ 32 ||| l.toNat = _
  have hshift : (k.toNat <<< 16) % 2 ^ 32 = k.toNat <<< 16 := by
    exact Nat.mod_eq_of_lt (by omega)
  rw [hshift, ← Nat.shiftLeft_add_eq_or_of_lt hl, Nat.shiftLeft_eq]

@[simp] theorem key_join : key (join k l) = k := by
  have hl := l.toNat_lt
  refine UInt16.toNat_inj.mp ?_
  rw [toNat_key, toNat_join]
  omega

@[simp] theorem low_join : low (join k l) = l := by
  have hl := l.toNat_lt
  refine UInt16.toNat_inj.mp ?_
  rw [toNat_low, toNat_join]
  omega

@[simp] theorem join_key_low : join (key v) (low v) = v := by
  refine UInt32.toNat_inj.mp ?_
  rw [toNat_join, toNat_key, toNat_low]
  omega

end Halves

section Slices

variable {s t : Finset UInt32} {k l : UInt16} {v : UInt32}

def slice (s : Finset UInt32) (k : UInt16) : Finset UInt16 := {v ∈ s | key v = k}.image low

theorem mem_slice : l ∈ slice s k ↔ join k l ∈ s := by
  unfold slice
  simp only [Finset.mem_image, Finset.mem_filter]
  constructor
  · rintro ⟨v, ⟨hv, rfl⟩, rfl⟩
    rwa [join_key_low]
  · intro h
    exact ⟨join k l, ⟨h, key_join⟩, low_join⟩

theorem mem_iff_slice : v ∈ s ↔ low v ∈ slice s (key v) := by rw [mem_slice, join_key_low]

theorem card_slice : (slice s k).card = ({v ∈ s | key v = k} : Finset UInt32).card := by
  refine Finset.card_image_of_injOn fun v hv w hw hlow => ?_
  have hv := (Finset.mem_filter.mp (Finset.mem_coe.mp hv)).2
  have hw := (Finset.mem_filter.mp (Finset.mem_coe.mp hw)).2
  rw [← join_key_low (v := v), hv.trans hw.symm, hlow, join_key_low]

theorem card_of_slices (h : ∀ k', k' ≠ k → slice t k' = slice s k') :
    t.card + (slice s k).card = s.card + (slice t k).card := by
  have hrest : ({v ∈ t | ¬key v = k} : Finset UInt32) = {v ∈ s | ¬key v = k} := by
    ext v
    simp only [Finset.mem_filter]
    refine and_congr_left fun hk => ?_
    rw [mem_iff_slice, h _ hk, ← mem_iff_slice]
  have hs := Finset.card_filter_add_card_filter_not (s := s) (fun v => key v = k)
  have ht := Finset.card_filter_add_card_filter_not (s := t) (fun v => key v = k)
  rw [hrest] at ht
  rw [card_slice, card_slice]
  omega

end Slices

section Refinement

variable {rb rb' other : RoaringBitmap} {s t : Finset UInt32} {k : UInt16} {v : UInt32}
    {c : Container} {n : Nat}

structure Refines (rb : RoaringBitmap) (s : Finset UInt32) : Prop where
  valid : ∀ k, (rb.entry k).Valid
  sets : ∀ k, (rb.entry k).set = slice s k
  len : rb.len = s.card

variable {k' : UInt16}

theorem entry_put : (rb.put k c n).entry k' = if k' = k then c else rb.entry k' := by
  show (update rb.containers k (some c) k').getD .newArray = _
  unfold entry
  split
  next h =>
    rw [h, update_self]
    rfl
  next h => rw [update_of_ne h]

theorem entry_dropKey : (rb.dropKey k).entry k' = if k' = k then .newArray else rb.entry k' := by
  show (update rb.containers k none k').getD .newArray = _
  unfold entry
  split
  next h =>
    rw [h, update_self]
    rfl
  next h => rw [update_of_ne h]

theorem entry_of_some (h : rb.containers k = some c) : rb.entry k = c := by
  unfold entry
  rw [h]
  rfl

theorem newArray_valid : newArray.Valid := valid_array .nil (Nat.zero_le _)

theorem refines_new : new.Refines ∅ where
  valid _ := newArray_valid
  sets _ := rfl
  len := rfl

theorem Refines.change (h : rb.Refines s) (hothers : ∀ k', k' ≠ k → rb'.entry k' = rb.entry k')
    (hslices : ∀ k', k' ≠ k → slice t k' = slice s k') (hvalid : (rb'.entry k).Valid)
    (hset : (rb'.entry k).set = slice t k)
    (hlen : rb'.len + (slice s k).card = rb.len + (slice t k).card) : rb'.Refines t where
  valid k' := by
    by_cases hk : k' = k
    · rw [hk]
      exact hvalid
    · rw [hothers k' hk]
      exact h.valid k'
  sets k' := by
    by_cases hk : k' = k
    · rw [hk]
      exact hset
    · rw [hothers k' hk, hslices k' hk]
      exact h.sets k'
  len := by
    have hcard := card_of_slices hslices
    have hbefore := h.len
    omega

theorem Refines.len_entry (h : rb.Refines s) : (rb.entry k).len = (slice s k).card := by
  rw [len_eq (h.valid k), h.sets k]

theorem Refines.contains_eq (h : rb.Refines s) : rb.contains v = decide (v ∈ s) := by
  rw [← Bool.coe_iff_coe, decide_eq_true_eq, mem_iff_slice, ← h.sets, Container.mem_set]
  unfold contains entry
  cases rb.containers (key v) with
  | none | some => exact Iff.rfl

theorem slice_insert : slice (insert v s) k = if k =
    key v then insert (low v) (slice s k) else slice s k := by
  ext l
  rw [mem_slice, Finset.mem_insert]
  split
  next hk =>
    subst hk
    rw [Finset.mem_insert, mem_slice]
    refine or_congr_left ⟨fun h => ?_, fun h => by rw [h, join_key_low]⟩
    rw [← h, low_join]
  next hk =>
    rw [mem_slice]
    refine or_iff_right fun h => hk ?_
    rw [← h, key_join]

theorem slice_erase : slice (s.erase v) k = if k = key v then (slice s k).erase (low v) else slice
    s k := by
  ext l
  rw [mem_slice, Finset.mem_erase]
  split
  next hk =>
    subst hk
    rw [Finset.mem_erase, mem_slice]
    refine and_congr_left fun _ => not_congr ⟨fun h => ?_, fun h => by rw [h, join_key_low]⟩
    rw [← h, low_join]
  next hk =>
    rw [mem_slice]
    refine and_iff_right fun h => hk ?_
    rw [← h, key_join]

section

variable (h : rb.Refines s)
include h

theorem Refines.add : (rb.add v).1.Refines (insert v s) := by
  obtain ⟨hvalid, hset, hnew⟩ := add_spec (x := low v) (h.valid (key v))
  rw [h.sets] at hset hnew
  have hslice : slice (insert v s) (key v) = insert (low v) (slice s (key v)) := by
    rw [slice_insert, if_pos rfl]
  refine h.change (k := key v) (fun k' hk => ?_) (fun k' hk => ?_) ?_ ?_ ?_
  · exact entry_put.trans (if_neg hk)
  · rw [slice_insert, if_neg hk]
  · exact (entry_put.trans (if_pos rfl)) ▸ hvalid
  · exact (congrArg _ (entry_put.trans (if_pos rfl))).trans (hset.trans hslice.symm)
  · show (if ((rb.entry (key v)).add (low v)).2 then rb.len + 1 else rb.len) + _ = _
    rw [hslice, hnew]
    by_cases hmem : low v ∈ slice s (key v)
    · simp [hmem]
    · rw [Finset.card_insert_of_notMem hmem]
      simp only [hmem, not_false_eq_true, decide_true, if_true]
      omega

theorem Refines.remove : (rb.remove v).1.Refines (s.erase v) := by
  have hslice : slice (s.erase v) (key v) = (slice s (key v)).erase (low v) := by
    rw [slice_erase, if_pos rfl]
  have hkept : v ∉ s → rb.Refines (s.erase v) := fun hv => by
    rw [Finset.erase_eq_of_notMem hv]
    exact h
  unfold RoaringBitmap.remove
  split
  next hnone =>
    refine hkept fun hv => ?_
    rw [mem_iff_slice, ← h.sets] at hv
    unfold entry at hv
    rw [hnone] at hv
    cases hv
  next c hsome =>
    have hentry := entry_of_some hsome
    obtain ⟨hvalid, hset, hflag⟩ := remove_spec (x := low v) (hentry ▸ h.valid (key v))
    have hc : c.set = slice s (key v) := hentry ▸ h.sets (key v)
    rw [hc] at hset hflag
    dsimp only
    split
    next hremoved =>
      rw [hflag, decide_eq_true_eq] at hremoved
      have hcard : rb.len - 1 + (slice s (key v)).card = rb.len + (slice (s.erase v) (key v)).card := by
        have hle : (slice s (key v)).card ≤ s.card := by
          rw [card_slice]
          exact Finset.card_filter_le ..
        have hpos := Finset.card_pos.mpr ⟨_, hremoved⟩
        rw [hslice, Finset.card_erase_of_mem hremoved, h.len]
        omega
      split
      next hempty =>
        have hnone := Container.isEmpty_iff.mp hempty
        rw [hset] at hnone
        refine h.change (k := key v) (fun k' hk => ?_) (fun k' hk => ?_) ?_ ?_ hcard
        · rw [entry_dropKey, if_neg hk, entry_put, if_neg hk]
        · rw [slice_erase, if_neg hk]
        · rw [entry_dropKey, if_pos rfl]
          exact newArray_valid
        · rw [entry_dropKey, if_pos rfl, hslice, hnone]
          rfl
      next =>
        refine h.change (k := key v) (fun k' hk => ?_) (fun k' hk => ?_) ?_ ?_ hcard
        · rw [entry_put, if_neg hk]
        · rw [slice_erase, if_neg hk]
        · rw [entry_put, if_pos rfl]
          exact hvalid
        · rw [entry_put, if_pos rfl, hset, hslice]
    next hkeep =>
      refine hkept fun hv => hkeep ?_
      rw [hflag, decide_eq_true_eq, ← mem_iff_slice]
      exact hv

theorem Refines.unionAt (hother : other.Refines t) :
    (unionAt other rb k).Refines (s ∪ {v ∈ t | key v = k}) := by
  have hslice : slice (s ∪ {v ∈ t | key v = k}) k = slice s k ∪ slice t k := by
    ext l
    simp [mem_slice, key_join]
  have hslices : ∀ k', k' ≠ k → slice (s ∪ {v ∈ t | key v = k}) k' = slice s k' := by
    intro k' hk
    ext l
    simp [mem_slice, key_join, hk]
  unfold RoaringBitmap.unionAt
  split
  next hnone =>
    have hempty : slice t k = ∅ := by
      rw [← hother.sets k]
      unfold entry
      rw [hnone]
      rfl
    refine h.change (fun k' _ => rfl) hslices (h.valid k) ?_ ?_
    · rw [hslice, hempty, Finset.union_empty]
      exact h.sets k
    · rw [hslice, hempty, Finset.union_empty]
  next otherC hsome =>
    have hentry := entry_of_some hsome
    obtain ⟨hvalid, hset⟩ := insertAllFrom_spec (h.valid k) (hentry ▸ hother.valid k)
    rw [h.sets k, ← hentry, hother.sets k, hentry] at hset
    refine h.change (k := k) (fun k' hk => ?_) hslices ?_ ?_ ?_
    · rw [entry_put, if_neg hk]
    · rw [entry_put, if_pos rfl]
      exact hvalid
    · rw [entry_put, if_pos rfl, hset, hslice]
    · have hle : (slice s k).card ≤ (slice s k ∪ slice t k).card :=
        Finset.card_le_card Finset.subset_union_left
      show rb.len + (_ - (rb.entry k).len) + _ = _
      rw [len_eq hvalid, hset, h.len_entry, hslice]
      omega

theorem Refines.mem_keys (hv : v ∈ s) : key v ∈ rb.keys := by
  unfold keys allKeys
  rw [mem_filter]
  constructor
  · have hlt : (key v).toNat < 65536 := (key v).toNat_lt
    exact mem_map.mpr ⟨(key v).toNat, mem_range.mpr hlt, UInt16.ofNat_toNat⟩
  · rw [mem_iff_slice, ← h.sets] at hv
    unfold entry at hv
    cases hc : rb.containers (key v) with
    | none =>
      rw [hc] at hv
      cases hv
    | some c => rfl

theorem Refines.unionWith (hother : other.Refines t) : (rb.unionWith other).Refines (s ∪ t) := by
  have hloop : ∀ ks : List UInt16, ∀ rb s, Refines rb s →
      Refines (ks.foldl (RoaringBitmap.unionAt other) rb) (s ∪ {v ∈ t | key v ∈ ks}) := by
    intro ks
    induction ks with
    | nil =>
      intro rb s h
      simpa using h
    | cons k ks ih =>
      intro rb s h
      have hrest := ih _ _ (h.unionAt (k := k) hother)
      have hsets : s ∪ {v ∈ t | key v = k} ∪ {v ∈ t | key v ∈ ks} = s ∪ {v ∈ t | key v ∈ k :: ks} := by
        ext v
        simp only [Finset.mem_union, Finset.mem_filter, mem_cons]
        tauto
      rw [hsets] at hrest
      exact hrest
  have hall := Finset.filter_true_of_mem fun v hv => hother.mem_keys hv
  have hend := hloop other.keys rb s h
  rw [hall] at hend
  exact hend

end

variable {rm : List UInt16}

theorem entry_dropKeys : (rm.foldl dropKey rb).entry k' =
    if k' ∈ rm then .newArray else rb.entry k' := by
  induction rm generalizing rb with
  | nil => simp
  | cons k rm ih =>
    rw [foldl_cons, ih, entry_dropKey]
    split
    next hmem =>
      rw [if_pos (mem_cons_of_mem _ hmem)]
    next hmem =>
      exact if_congr (by simp [hmem]) rfl rfl

theorem len_dropKeys : (rm.foldl dropKey rb).len = rb.len := by
  induction rm generalizing rb with
  | nil => rfl
  | cons k rm ih => exact ih

theorem set_of_none (h : rb.containers k = none) : (rb.entry k).set = ∅ := by
  unfold entry
  rw [h]
  rfl

theorem Refines.dropAt (h : (rm.foldl dropKey rb).Refines s)
    (hothers : ∀ k', k' ≠ k → rb'.entry k' = rb.entry k')
    (hslices : ∀ k', k' ≠ k → slice t k' = slice s k') (hempty : slice t k = ∅)
    (hlen : rb'.len + (slice s k).card = rb.len + (slice t k).card) :
    ((rm ++ [k]).foldl dropKey rb').Refines t := by
  refine h.change (k := k) (fun k' hk' => ?_) hslices ?_ ?_ ?_
  · rw [entry_dropKeys, entry_dropKeys, hothers k' hk']
    exact if_congr (by simp [hk']) rfl rfl
  · rw [entry_dropKeys, if_pos (by simp)]
    exact newArray_valid
  · rw [entry_dropKeys, if_pos (by simp), hempty]
    rfl
  · rw [len_dropKeys, len_dropKeys]
    exact hlen

theorem Refines.intersectAt (h : (rm.foldl dropKey rb).Refines s) (hother : other.Refines t)
    (hk : k ∉ rm) :
    ((RoaringBitmap.intersectAt other (rb, rm) k).2.foldl dropKey
      (RoaringBitmap.intersectAt other (rb, rm) k).1).Refines
      {v ∈ s | key v = k → v ∈ t} ∧ ∀ k' ∈ (RoaringBitmap.intersectAt other (rb, rm) k).2,
        k' ∈ rm ∨ k' = k := by
  have hslice : slice {v ∈ s | key v = k → v ∈ t} k = slice s k ∩ slice t k := by
    ext l
    simp [mem_slice, key_join]
  have hslices : ∀ k', k' ≠ k → slice {v ∈ s | key v = k → v ∈ t} k' = slice s k' := by
    intro k' hk
    ext l
    simp [mem_slice, key_join, hk]
  have hentryk : (rm.foldl dropKey rb).entry k = rb.entry k := entry_dropKeys.trans (if_neg hk)
  have hvalid := h.valid k
  have hset := h.sets k
  have hcount := h.len_entry (k := k)
  rw [hentryk] at hvalid hset hcount
  unfold RoaringBitmap.intersectAt
  dsimp only
  split
  next hnone =>
    have hempty : slice s k = ∅ := hset.symm.trans (set_of_none hnone)
    refine ⟨h.change (fun k' _ => rfl) hslices (h.valid k) ?_ ?_, fun k' hk' => .inl hk'⟩
    · rw [h.sets k, hslice, hempty, Finset.empty_inter]
    · rw [hslice, hempty, Finset.empty_inter]
  next c hsome =>
    have hc := entry_of_some hsome
    rw [hc] at hvalid hset hcount
    have hle : (slice s k).card ≤ rb.len := by
      rw [← @len_dropKeys rb rm, h.len, card_slice]
      exact Finset.card_filter_le ..
    split
    next otherC hsome' =>
      have hotherC := entry_of_some hsome'
      obtain ⟨hkvalid, hkset⟩ := @retainIntersection_spec c otherC hvalid
      rw [hset, ← hotherC, hother.sets k, hotherC] at hkset
      have hlen : rb.len - (c.len - (c.retainIntersection otherC).len) + (slice s k).card =
          rb.len + (slice {v ∈ s | key v = k → v ∈ t} k).card := by
        have hsub : (slice s k ∩ slice t k).card ≤ (slice s k).card :=
          Finset.card_le_card Finset.inter_subset_left
        rw [hcount, len_eq hkvalid, hkset, hslice]
        omega
      split
      next hempty =>
        have hnone := Container.isEmpty_iff.mp hempty
        rw [hkset] at hnone
        refine ⟨h.dropAt (fun k' hk' => ?_) hslices (hslice.trans hnone) hlen, fun k' hk' =>
          by simpa using hk'⟩
        rw [entry_put, if_neg hk']
      next =>
        refine ⟨h.change (k := k) (fun k' hk' => ?_) hslices ?_ ?_ ?_, fun k' hk' => .inl hk'⟩
        · rw [entry_dropKeys, entry_dropKeys, entry_put, if_neg hk']
        · rw [entry_dropKeys, if_neg hk, entry_put, if_pos rfl]
          exact hkvalid
        · rw [entry_dropKeys, if_neg hk, entry_put, if_pos rfl, hkset, hslice]
        · rw [len_dropKeys, len_dropKeys]
          exact hlen
    next hnone' =>
      have hempty : slice t k = ∅ := (hother.sets k).symm.trans (set_of_none hnone')
      rw [hempty, Finset.inter_empty] at hslice
      refine ⟨h.dropAt (fun _ _ => rfl) hslices hslice ?_, fun k' hk' => by simpa using hk'⟩
      show rb.len - c.len + _ = _
      rw [hslice, Finset.card_empty]
      omega

theorem pairwise_allKeys : allKeys.Pairwise (· < ·) := by
  unfold allKeys
  rw [pairwise_map]
  refine pairwise_lt_range.imp_of_mem fun {a b} ha hb hab => ?_
  rw [mem_range] at ha hb
  rw [UInt16.lt_iff_toNat_lt, UInt16.toNat_ofNat', UInt16.toNat_ofNat', Nat.mod_eq_of_lt ha,
    Nat.mod_eq_of_lt hb]
  exact hab

theorem pairwise_keys : rb.keys.Pairwise (· < ·) := pairwise_allKeys.sublist filter_sublist

theorem Refines.intersectWith (h : rb.Refines s) (hother : other.Refines t) :
    (rb.intersectWith other).Refines (s ∩ t) := by
  have hloop : ∀ ks : List UInt16, ks.Nodup → ∀ rb rm s, Refines (rm.foldl dropKey rb) s →
      (∀ k ∈ ks, k ∉ rm) →
      Refines ((ks.foldl (RoaringBitmap.intersectAt other) (rb, rm)).2.foldl dropKey
        (ks.foldl (RoaringBitmap.intersectAt other) (rb, rm)).1) {v ∈ s | key v ∈ ks → v ∈ t} := by
    intro ks
    induction ks with
    | nil =>
      intro _ rb rm s h _
      simpa using h
    | cons k ks ih =>
      intro hnodup rb rm s h hrm
      rw [nodup_cons] at hnodup
      obtain ⟨hstep, hadded⟩ := h.intersectAt hother (hrm k mem_cons_self)
      have hrest := ih hnodup.2 _ _ _ hstep fun k' hk' hmem => by
        rcases hadded k' hmem with hmem | rfl
        · exact hrm k' (mem_cons_of_mem _ hk') hmem
        · exact hnodup.1 hk'
      have hsets : ({v ∈ ({v ∈ s | key v = k → v ∈ t} : Finset UInt32) | key v ∈ ks → v ∈ t} :
          Finset UInt32) =
          {v ∈ s | key v ∈ k :: ks → v ∈ t} := by
        ext v
        simp only [Finset.mem_filter, mem_cons]
        tauto
      rw [hsets] at hrest
      exact hrest
  have hall : ({v ∈ s | key v ∈ rb.keys → v ∈ t} : Finset UInt32) = s ∩ t := by
    ext v
    rw [Finset.mem_filter, Finset.mem_inter]
    exact and_congr_right fun hv => ⟨fun himp => himp (h.mem_keys hv), fun ht _ => ht⟩
  have hend := hloop rb.keys (pairwise_keys.imp UInt16.ne_of_lt) rb [] s h (by simp)
  rw [hall] at hend
  exact hend

structure Agrees (rb : RoaringBitmap) (s : Finset UInt32) : Prop where
  contains : ∀ v, rb.contains v = decide (v ∈ s)
  len : rb.len = s.card
  isEmpty : rb.isEmpty = decide (s = ∅)
  ascending : rb.iter.Pairwise (· < ·)
  iterates : ∀ v, v ∈ rb.iter ↔ v ∈ s

theorem Refines.agrees (h : rb.Refines s) : rb.Agrees s where
  contains _ := h.contains_eq
  len := h.len
  isEmpty := by
    unfold RoaringBitmap.isEmpty
    rw [h.len]
    exact decide_eq_decide.mpr Finset.card_eq_zero
  ascending := by
    refine pairwise_flatMap.mpr ⟨fun k _ => ?_, ?_⟩
    · rw [pairwise_map]
      refine (iter_sorted (h.valid k)).imp fun {l l'} hlt => ?_
      rw [UInt32.lt_iff_toNat_lt, toNat_join, toNat_join]
      have hlt := UInt16.lt_iff_toNat_lt.mp hlt
      omega
    · refine pairwise_keys.imp fun {k k'} hlt v hv w hw => ?_
      obtain ⟨l, -, rfl⟩ := mem_map.mp hv
      obtain ⟨l', -, rfl⟩ := mem_map.mp hw
      rw [UInt32.lt_iff_toNat_lt, toNat_join, toNat_join]
      have hlt := UInt16.lt_iff_toNat_lt.mp hlt
      have hl := l.toNat_lt
      omega
  iterates v := by
    have hmem : ∀ k l, l ∈ (rb.entry k).iter ↔ l ∈ slice s k := fun k l => by
      rw [← h.sets k]
      exact mem_toFinset.symm
    unfold iter
    rw [mem_flatMap]
    constructor
    · rintro ⟨k, -, hv⟩
      obtain ⟨l, hl, rfl⟩ := mem_map.mp hv
      exact mem_slice.mp ((hmem k l).mp hl)
    · intro hv
      refine ⟨key v, h.mem_keys hv, mem_map.mpr ⟨low v, ?_, join_key_low⟩⟩
      exact (hmem _ _).mpr (mem_iff_slice.mp hv)

end Refinement

/-- A call on numbered bitmaps; the in-place forms store the result where the first operand is. -/
inductive Call where
  | add (i : Nat) (value : UInt32)
  | remove (i : Nat) (value : UInt32)
  | union (dest i j : Nat)
  | intersection (dest i j : Nat)

def call (bitmaps : Nat → RoaringBitmap) : Call → Nat → RoaringBitmap
  | .add i value => update bitmaps i ((bitmaps i).add value).1
  | .remove i value => update bitmaps i ((bitmaps i).remove value).1
  | .union dest i j => update bitmaps dest ((bitmaps i).unionWith (bitmaps j))
  | .intersection dest i j => update bitmaps dest ((bitmaps i).intersectWith (bitmaps j))

def callSets (sets : Nat → Finset UInt32) : Call → Nat → Finset UInt32
  | .add i value => update sets i (insert value (sets i))
  | .remove i value => update sets i ((sets i).erase value)
  | .union dest i j => update sets dest (sets i ∪ sets j)
  | .intersection dest i j => update sets dest (sets i ∩ sets j)

variable {rb : RoaringBitmap} {bitmaps : Nat → RoaringBitmap} {sets : Nat → Finset UInt32}
    {s : Finset UInt32}

theorem refines_update (h : ∀ i, (bitmaps i).Refines (sets i)) (hnew : rb.Refines s) (dest i : Nat) :
    (update bitmaps dest rb i).Refines (update sets dest s i) := by
  by_cases hi : i = dest
  · subst hi
    rw [update_self, update_self]
    exact hnew
  · rw [update_of_ne hi, update_of_ne hi]
    exact h i

theorem refines_call (h : ∀ i, (bitmaps i).Refines (sets i)) (c : Call) (i : Nat) :
    (call bitmaps c i).Refines (callSets sets c i) := by
  cases c with
  | add j => exact refines_update h (h j).add j i
  | remove j => exact refines_update h (h j).remove j i
  | union dest j j' => exact refines_update h ((h j).unionWith (h j')) dest i
  | intersection dest j j' => exact refines_update h ((h j).intersectWith (h j')) dest i

theorem refines_calls (calls : List Call) : ∀ (bitmaps : Nat → RoaringBitmap)
    (sets : Nat → Finset UInt32),
    (∀ i, (bitmaps i).Refines (sets i)) → ∀ i,
      (calls.foldl call bitmaps i).Refines (calls.foldl callSets sets i) := by
  induction calls with
  | nil => exact fun _ _ h => h
  | cons c calls ih => exact fun bitmaps sets h => ih _ _ (refines_call h c)

theorem refines_addEach (h : rb.Refines s) (values : List UInt32) :
    (rb.addEach values).Refines (s ∪ values.toFinset) := by
  induction values generalizing rb s with
  | nil =>
    rw [toFinset_nil, Finset.union_empty]
    exact h
  | cons value values ih =>
    have hrest := ih (h.add (v := value))
    have hsets : insert value s ∪ values.toFinset = s ∪ (value :: values).toFinset := by
      ext v
      simp only [Finset.mem_union, Finset.mem_insert, toFinset_cons]
      tauto
    rw [hsets] at hrest
    exact hrest

def addCounting (rb : RoaringBitmap) (value : UInt32) : RoaringBitmap :=
  { (rb.add value).1 with len := rb.len + 1 }

theorem put_put {k : UInt16} {c c' : Container} {n n' : Nat} : (rb.put k c n).put k c' n' =
    rb.put k c' n' := by
  unfold put
  rw [update_idem]

theorem foldl_addBatch (rb : RoaringBitmap) (k : UInt16) (values : List UInt32) : ∀ (c : Container)
    (n : Nat), values.foldl addCounting (rb.put k c n) =
      (addBatch k c n values).2.2.foldl addCounting
        (rb.put k (addBatch k c n values).1 (addBatch k c n values).2.1) := by
  induction values with
  | nil => exact fun c n => rfl
  | cons value values ih =>
    intro c n
    rw [addBatch]
    split
    next hk =>
      rw [← ih, foldl_cons]
      have hstep : addCounting (rb.put k c n) value =
          (rb.put k c n).put (key value) ((((rb.put k c n).entry (key value)).add (low value)).1)
          (n + 1) := rfl
      rw [hstep, hk, put_put, entry_put, if_pos rfl]
    next => rfl

theorem addSorted_eq (rb : RoaringBitmap) (values : List UInt32) : rb.addSorted values =
    values.foldl addCounting rb := by
  fun_induction addSorted rb values with
  | case1 rb => rfl
  | case2 rb value values c batch ih =>
    rw [ih, foldl_cons]
    exact (foldl_addBatch rb (key value) values c (rb.len + 1)).symm

theorem foldl_addCounting (values : List UInt32) : ∀ rb rb' : RoaringBitmap, rb.containers =
    rb'.containers →
    values.foldl addCounting rb = ⟨(rb'.addEach values).containers, rb.len + values.length⟩ := by
  induction values with
  | nil =>
    intro rb rb' h
    exact congrArg (RoaringBitmap.mk · rb.len) h
  | cons value values ih =>
    intro rb rb' h
    have hnext : (addCounting rb value).containers = (rb'.add value).1.containers := by
      show update rb.containers (key value) (some ((rb.entry (key value)).add (low value)).1) =
        update rb'.containers (key value) (some ((rb'.entry (key value)).add (low value)).1)
      unfold entry
      rw [h]
    rw [foldl_cons, ih _ _ hnext]
    refine congrArg _ ?_
    show rb.len + 1 + values.length = rb.len + (values.length + 1)
    omega

/-- Every run on bitmaps agrees with the run on sets; building from a slice equals adding its values
exactly where none is repeated. -/
theorem roaring_refines_sets (calls : List Call) (i : Nat) (values : List UInt32) :
    (calls.foldl call (fun _ => .new) i).Agrees (calls.foldl callSets (fun _ => ∅) i) ∧
      (fromSorted values = new.addEach values ↔ values.Nodup) := by
  refine ⟨(refines_calls calls _ _ (fun _ => refines_new) i).agrees, ?_⟩
  have hsorted : fromSorted values = ⟨(new.addEach values).containers, values.length⟩ := by
    unfold fromSorted
    rw [addSorted_eq, foldl_addCounting values new new rfl]
    show RoaringBitmap.mk _ (0 + values.length) = _
    rw [Nat.zero_add]
  have hlen := (refines_addEach refines_new values).len
  rw [Finset.empty_union] at hlen
  rw [hsorted]
  constructor
  · intro heq
    have hcount := congrArg RoaringBitmap.len heq
    rw [hlen] at hcount
    exact Multiset.toFinset_card_eq_card_iff_nodup.mp hcount.symm
  · intro hnodup
    rw [toFinset_card_of_nodup hnodup] at hlen
    rw [← hlen]

theorem repeated_value_counted :
    ([5, 5] : List UInt32).Pairwise (· ≤ ·) ∧ (fromSorted [5, 5]).len = 2 ∧
    (new.addEach [5, 5]).len = 1 ∧ fromSorted [5, 5] ≠ new.addEach [5, 5] := by
  have hsorted : (fromSorted [5, 5]).len = 2 := by
    unfold fromSorted
    rw [addSorted_eq]
    rfl
  have hadded : (new.addEach [5, 5]).len = 1 := by decide +kernel
  refine ⟨by decide, hsorted, hadded, fun heq => ?_⟩
  rw [heq, hadded] at hsorted
  cases hsorted

end RoaringBitmap

end Akar
