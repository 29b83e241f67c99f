import Mathlib.Algebra.BigOperators.Group.List.Basic
import Mathlib.Algebra.GroupWithZero.Nat
import Mathlib.Data.Finset.Card
import Mathlib.Data.List.Sort

namespace Akar

open Function

/-- The low halves of the members under one key: an ascending vector, or 1024 words of bits. -/
inductive Container where
  | array (v : List UInt16)
  | bitmap (bm : Nat → BitVec 64)

namespace Container

def arrayMaxSize : Nat := 4096

def newArray : Container := .array []

def hasBit (word : BitVec 64) (bit : Nat) : Bool := word &&& (1#64 <<< bit) ≠ 0

def testBit (bm : Nat → BitVec 64) (idx : UInt16) : Bool :=
  hasBit (bm (idx.toNat / 64)) (idx.toNat % 64)

def setBit (bm : Nat → BitVec 64) (idx : UInt16) : Nat → BitVec 64 :=
  update bm (idx.toNat / 64) (bm (idx.toNat / 64) ||| (1#64 <<< (idx.toNat % 64)))

def clearBit (bm : Nat → BitVec 64) (idx : UInt16) : Nat → BitVec 64 :=
  update bm (idx.toNat / 64) (bm (idx.toNat / 64) &&& ~~~(1#64 <<< (idx.toNat % 64)))

def countOnes (word : BitVec 64) : Nat := (List.range 64).countP word.getLsbD

def count (bm : Nat → BitVec 64) : Nat := ((List.range 1024).map fun i => countOnes (bm i)).sum

def orWords (bm other : Nat → BitVec 64) : Nat → BitVec 64 := fun i => bm i ||| other i

def andWords (bm other : Nat → BitVec 64) : Nat → BitVec 64 := fun i => bm i &&& other i

def fromArrayToBitmap (v : List UInt16) : Nat → BitVec 64 := v.foldl setBit fun _ => 0

def bitsOf (bm : Nat → BitVec 64) : List UInt16 := (List.range 1024).flatMap fun i =>
    if bm i = 0 then [] else ((List.range 64).filter (hasBit (bm i))).map fun bit =>
      UInt16.ofNat (i * 64 + bit)

def len : Container → Nat
  | .array v => v.length
  | .bitmap bm => count bm

def isEmpty : Container → Bool
  | .array v => v.isEmpty
  | .bitmap bm => (List.range 1024).all fun i => bm i = 0

def contains : Container → UInt16 → Bool
  | .array v, idx => v.contains idx
  | .bitmap bm, idx => testBit bm idx

def ofArray (v : List UInt16) : Container :=
  if arrayMaxSize < v.length then .bitmap (fromArrayToBitmap v) else .array v

def insertSorted (v : List UInt16) (idx : UInt16) : List UInt16 :=
  if v.contains idx then v else v.orderedInsert (· ≤ ·) idx

def add : Container → UInt16 → Container × Bool
  | .array v, idx =>
    if v.contains idx then (.array v, false) else (ofArray (v.orderedInsert (· ≤ ·) idx), true)
  | .bitmap bm, idx => if testBit bm idx then (.bitmap bm, false) else (.bitmap (setBit bm idx), true)

def remove : Container → UInt16 → Container × Bool
  | .array v, idx => if v.contains idx then (.array (v.erase idx), true) else (.array v, false)
  | .bitmap bm, idx => if testBit bm idx then (.bitmap (clearBit bm idx), true) else (.bitmap bm, false)

def merged : List UInt16 → List UInt16 → List UInt16
  | [], w => w
  | v, [] => v
  | x :: v, y :: w =>
    if x < y then x :: merged v (y :: w)
    else if y < x then y :: merged (x :: v) w
    else x :: merged v w
  termination_by v w => v.length + w.length

def insertAllFrom : Container → Container → Container
  | .array v, .array other => ofArray (merged v other)
  | .array v, .bitmap other =>
    if arrayMaxSize < v.length + count other then .bitmap (orWords (fromArrayToBitmap v) other)
    else ofArray ((bitsOf other).foldl insertSorted v)
  | .bitmap bm, .array other => .bitmap (other.foldl setBit bm)
  | .bitmap bm, .bitmap other => .bitmap (orWords bm other)

def retainIntersection : Container → Container → Container
  | .array v, other => .array (v.filter other.contains)
  | .bitmap bm, .array other => .bitmap (andWords bm (fromArrayToBitmap other))
  | .bitmap bm, .bitmap other => .bitmap (andWords bm other)

def iter : Container → List UInt16
  | .array v => v
  | .bitmap bm => bitsOf bm

structure Valid (c : Container) : Prop where
  ascends : ∀ v, c = .array v → v.Pairwise (· < ·)
  short : ∀ v, c = .array v → v.length ≤ arrayMaxSize

def set (c : Container) : Finset UInt16 := c.iter.toFinset

section Bits

variable {bm other : Nat → BitVec 64} {word word' : BitVec 64} {bit : Nat} {x y : UInt16}

theorem hasBit_eq (h : bit < 64) : hasBit word bit = word.getLsbD bit := by
  have hmask : 1#64 <<< bit = BitVec.twoPow 64 bit := rfl
  have hne : BitVec.twoPow 64 bit ≠ 0#64 := by
    intro hzero
    have hbit := congrArg (·.getLsbD bit) hzero
    simp [h] at hbit
  unfold hasBit
  rw [hmask, BitVec.and_twoPow]
  cases word.getLsbD bit <;> simp [hne]

theorem testBit_eq : testBit bm x = (bm (x.toNat / 64)).getLsbD (x.toNat % 64) :=
  hasBit_eq (Nat.mod_lt _ (by decide))

theorem toNat_ofNat_bit {i : Nat} (hi : i < 1024) (hbit : bit < 64) :
    (UInt16.ofNat (i * 64 + bit)).toNat = i * 64 + bit := by
  exact Nat.mod_eq_of_lt (by omega)

theorem mem_bitsOf : x ∈ bitsOf bm ↔ testBit bm x = true := by
  rw [testBit_eq]
  simp only [bitsOf, List.mem_flatMap, List.mem_range]
  constructor
  · rintro ⟨i, hi, hx⟩
    split at hx
    next => cases hx
    next =>
      obtain ⟨bit, hbit, rfl⟩ := List.mem_map.mp hx
      obtain ⟨hlt, hhas⟩ := List.mem_filter.mp hbit
      rw [List.mem_range] at hlt
      have hdiv : (i * 64 + bit) / 64 = i := by omega
      have hmod : (i * 64 + bit) % 64 = bit := by omega
      rw [toNat_ofNat_bit hi hlt, hdiv, hmod, ← hasBit_eq hlt]
      exact hhas
  · intro hx
    have hlt : x.toNat < 65536 := x.toNat_lt
    have hmod : x.toNat % 64 < 64 := Nat.mod_lt _ (by decide)
    refine ⟨x.toNat / 64, by omega, ?_⟩
    rw [if_neg (fun hzero => by rw [hzero] at hx; simp at hx)]
    refine List.mem_map.mpr ⟨x.toNat % 64, List.mem_filter.mpr ⟨List.mem_range.mpr hmod, ?_⟩, ?_⟩
    · rw [hasBit_eq hmod]
      exact hx
    · rw [Nat.div_add_mod' x.toNat 64, UInt16.ofNat_toNat]

theorem bitsOf_sorted : (bitsOf bm).Pairwise (· < ·) := by
  refine List.pairwise_flatMap.mpr ⟨fun i hi => ?_, ?_⟩
  · rw [List.mem_range] at hi
    split
    next => exact .nil
    next =>
      rw [List.pairwise_map]
      refine (List.pairwise_lt_range.sublist List.filter_sublist).imp_of_mem fun {a b} ha hb hab => ?_
      have ha := List.mem_range.mp (List.mem_filter.mp ha).1
      have hb := List.mem_range.mp (List.mem_filter.mp hb).1
      rw [UInt16.lt_iff_toNat_lt, toNat_ofNat_bit hi ha, toNat_ofNat_bit hi hb]
      omega
  · refine List.pairwise_lt_range.imp_of_mem fun {i j} hi hj hij x hx y hy => ?_
    split at hx
    next => cases hx
    next =>
      split at hy
      next => cases hy
      next =>
        obtain ⟨a, ha, rfl⟩ := List.mem_map.mp hx
        obtain ⟨b, hb, rfl⟩ := List.mem_map.mp hy
        have ha := List.mem_range.mp (List.mem_filter.mp ha).1
        have hb := List.mem_range.mp (List.mem_filter.mp hb).1
        rw [UInt16.lt_iff_toNat_lt, toNat_ofNat_bit (List.mem_range.mp hi) ha,
          toNat_ofNat_bit (List.mem_range.mp hj) hb]
        omega

theorem length_bitsOf : (bitsOf bm).length = count bm := by
  unfold bitsOf count
  rw [List.length_flatMap]
  refine congrArg _ (List.map_congr_left fun i _ => ?_)
  split
  next hzero =>
    rw [hzero]
    exact (List.countP_eq_zero.mpr fun bit _ => by simp).symm
  next =>
    rw [List.length_map, ← List.countP_eq_length_filter]
    exact List.countP_congr fun bit hbit => by rw [hasBit_eq (List.mem_range.mp hbit)]

theorem getLsbD_bit (hword : y.toNat / 64 = x.toNat / 64) :
    (1#64 <<< (x.toNat % 64)).getLsbD (y.toNat % 64) = decide (y = x) := by
  rw [show 1#64 <<< (x.toNat % 64) = BitVec.twoPow 64 (x.toNat % 64) from rfl, BitVec.getLsbD_twoPow,
    decide_eq_true (Nat.mod_lt x.toNat (by decide : 0 < 64)), Bool.true_and]
  exact decide_eq_decide.mpr ⟨fun h => UInt16.toNat_inj.mp (by omega), fun h => by rw [h]⟩

theorem testBit_setBit : testBit (setBit bm x) y = (decide (y = x) || testBit bm y) := by
  rw [testBit_eq, testBit_eq]
  unfold setBit
  by_cases hword : y.toNat / 64 = x.toNat / 64
  · rw [hword, update_self, BitVec.getLsbD_or, getLsbD_bit hword, Bool.or_comm]
  · have hne : y ≠ x := fun h => hword (by rw [h])
    rw [update_of_ne hword, decide_eq_false hne, Bool.false_or]

theorem testBit_clearBit : testBit (clearBit bm x) y = (!decide (y = x) && testBit bm y) := by
  have hlt : y.toNat % 64 < 64 := Nat.mod_lt _ (by decide)
  rw [testBit_eq, testBit_eq]
  unfold clearBit
  by_cases hword : y.toNat / 64 = x.toNat / 64
  · rw [hword, update_self, BitVec.getLsbD_and, BitVec.getLsbD_not, getLsbD_bit hword,
      decide_eq_true hlt, Bool.true_and, Bool.and_comm]
  · have hne : y ≠ x := fun h => hword (by rw [h])
    rw [update_of_ne hword, decide_eq_false hne, Bool.not_false, Bool.true_and]

theorem testBit_orWords : testBit (orWords bm other) x = (testBit bm x || testBit other x) := by
  rw [testBit_eq, testBit_eq, testBit_eq]
  exact BitVec.getLsbD_or

theorem testBit_andWords : testBit (andWords bm other) x = (testBit bm x && testBit other x) := by
  rw [testBit_eq, testBit_eq, testBit_eq]
  exact BitVec.getLsbD_and

variable {v : List UInt16}

theorem testBit_foldl_setBit : testBit (v.foldl setBit bm) x = (v.contains x || testBit bm x) := by
  induction v generalizing bm with
  | nil => rfl
  | cons y v ih =>
    rw [List.foldl_cons, ih, testBit_setBit, List.contains_cons]
    rw [← beq_eq_decide]
    cases v.contains x <;> simp

theorem testBit_fromArrayToBitmap : testBit (fromArrayToBitmap v) x = v.contains x := by
  unfold fromArrayToBitmap
  rw [testBit_foldl_setBit, testBit_eq]
  simp

end Bits

section Sets

variable {c other : Container} {v w : List UInt16} {x y : UInt16}

theorem valid_array (h : v.Pairwise (· < ·)) (hlen : v.length ≤ arrayMaxSize) : (array v).Valid where
  ascends w hw := by
    cases hw
    exact h
  short w hw := by
    cases hw
    exact hlen

theorem valid_bitmap {bm : Nat → BitVec 64} : (bitmap bm).Valid where
  ascends w hw := by cases hw
  short w hw := by cases hw

theorem mem_set : x ∈ c.set ↔ c.contains x = true := by
  unfold set
  rw [List.mem_toFinset]
  cases c with
  | array => exact List.contains_iff_mem.symm
  | bitmap => exact mem_bitsOf

theorem iter_sorted (h : c.Valid) : c.iter.Pairwise (· < ·) := by
  cases c with
  | array v => exact h.ascends v rfl
  | bitmap => exact bitsOf_sorted

theorem len_eq (h : c.Valid) : c.len = c.set.card := by
  have hnodup : c.iter.Nodup := (iter_sorted h).imp UInt16.ne_of_lt
  unfold set
  rw [List.toFinset_card_of_nodup hnodup]
  cases c with
  | array => rfl
  | bitmap => exact length_bitsOf.symm

theorem isEmpty_iff : c.isEmpty = true ↔ c.set = ∅ := by
  unfold set
  rw [List.toFinset_eq_empty_iff]
  cases c with
  | array => exact List.isEmpty_iff
  | bitmap bm =>
    show ((List.range 1024).all fun i => decide (bm i = 0)) = true ↔ bitsOf bm = []
    simp only [List.all_eq_true, decide_eq_true_eq, List.mem_range]
    constructor
    · intro h
      refine List.flatMap_eq_nil_iff.mpr fun i hi => ?_
      rw [if_pos (h i (List.mem_range.mp hi))]
    · intro h i hi
      -- a word with a set bit would be visited
      have hi' := List.flatMap_eq_nil_iff.mp h i (List.mem_range.mpr hi)
      split at hi'
      next hzero => exact hzero
      next =>
        refine BitVec.eq_of_getLsbD_eq fun bit hbit => ?_
        rw [List.map_eq_nil_iff, List.filter_eq_nil_iff] at hi'
        have hbit' := hi' bit (List.mem_range.mpr hbit)
        rw [hasBit_eq hbit] at hbit'
        simpa using hbit'

theorem orderedInsert_sorted (h : v.Pairwise (· < ·)) (hx : x ∉ v) :
    (v.orderedInsert (· ≤ ·) x).Pairwise (· < ·) := by
  have hle := List.Pairwise.orderedInsert x v (h.imp UInt16.le_of_lt)
  have hnodup : (x :: v).Nodup := List.nodup_cons.mpr ⟨hx, h.imp UInt16.ne_of_lt⟩
  have hne := (List.perm_orderedInsert (· ≤ ·) x v).symm.nodup hnodup
  exact (hle.and hne).imp fun hh => UInt16.lt_of_le_of_ne hh.1 hh.2

theorem ofArray_valid (h : v.Pairwise (· < ·)) : (ofArray v).Valid := by
  unfold ofArray
  split
  next => exact valid_bitmap
  next hlen => exact valid_array h (Nat.le_of_not_lt hlen)

theorem contains_ofArray : (ofArray v).contains x = v.contains x := by
  unfold ofArray
  split
  next => exact testBit_fromArrayToBitmap
  next => rfl

theorem add_spec (h : c.Valid) :
    (c.add x).1.Valid ∧ (c.add x).1.set = insert x c.set ∧ (c.add x).2 = decide (x ∉ c.set) := by
  cases c with
  | array v =>
    have hadd : (array v).add x =
        if v.contains x then (.array v, false) else (ofArray (v.orderedInsert (· ≤ ·) x), true) := rfl
    rw [hadd]
    by_cases hx : v.contains x = true
    · have hmem : x ∈ (array v).set := mem_set.mpr hx
      rw [if_pos hx]
      exact ⟨h, (Finset.insert_eq_of_mem hmem).symm, by simp [hmem]⟩
    · have hmem : x ∉ (array v).set := fun hmem => hx (mem_set.mp hmem)
      rw [if_neg hx]
      refine ⟨ofArray_valid (orderedInsert_sorted (h.ascends v rfl) fun hv =>
        hx (List.contains_iff_mem.mpr hv)), ?_, by simp [hmem]⟩
      ext y
      rw [mem_set, contains_ofArray, Finset.mem_insert, mem_set, List.contains_iff_mem,
        List.mem_orderedInsert]
      exact or_congr_right List.contains_iff_mem.symm
  | bitmap bm =>
    have hadd : (bitmap bm).add x =
        if testBit bm x then (.bitmap bm, false) else (.bitmap (setBit bm x), true) := rfl
    rw [hadd]
    by_cases hx : testBit bm x = true
    · have hmem : x ∈ (bitmap bm).set := mem_set.mpr hx
      rw [if_pos hx]
      exact ⟨h, (Finset.insert_eq_of_mem hmem).symm, by simp [hmem]⟩
    · have hmem : x ∉ (bitmap bm).set := fun hmem => hx (mem_set.mp hmem)
      rw [if_neg hx]
      refine ⟨valid_bitmap, ?_, by simp [hmem]⟩
      ext y
      rw [mem_set, Finset.mem_insert, mem_set]
      show testBit (setBit bm x) y = true ↔ y = x ∨ testBit bm y = true
      rw [testBit_setBit]
      simp

theorem remove_spec (h : c.Valid) :
    (c.remove x).1.Valid ∧ (c.remove x).1.set = c.set.erase x ∧ (c.remove x).2 =
      decide (x ∈ c.set) := by
  cases c with
  | array v =>
    have hremove : (array v).remove x =
        if v.contains x then (.array (v.erase x), true) else (.array v, false) := rfl
    rw [hremove]
    by_cases hx : v.contains x = true
    · have hmem : x ∈ (array v).set := mem_set.mpr hx
      have hnodup : v.Nodup := (h.ascends v rfl).imp UInt16.ne_of_lt
      rw [if_pos hx]
      refine ⟨valid_array ((h.ascends v rfl).sublist List.erase_sublist)
        (List.erase_sublist.length_le.trans (h.short v rfl)), ?_, by simp [hmem]⟩
      ext y
      rw [mem_set, Finset.mem_erase, mem_set]
      show (v.erase x).contains y = true ↔ y ≠ x ∧ v.contains y = true
      rw [List.contains_iff_mem, List.contains_iff_mem, hnodup.mem_erase_iff]
    · have hmem : x ∉ (array v).set := fun hmem => hx (mem_set.mp hmem)
      rw [if_neg hx]
      exact ⟨h, (Finset.erase_eq_of_notMem hmem).symm, by simp [hmem]⟩
  | bitmap bm =>
    have hremove : (bitmap bm).remove x =
        if testBit bm x then (.bitmap (clearBit bm x), true) else (.bitmap bm, false) := rfl
    rw [hremove]
    by_cases hx : testBit bm x = true
    · have hmem : x ∈ (bitmap bm).set := mem_set.mpr hx
      rw [if_pos hx]
      refine ⟨valid_bitmap, ?_, by simp [hmem]⟩
      ext y
      rw [mem_set, Finset.mem_erase, mem_set]
      show testBit (clearBit bm x) y = true ↔ y ≠ x ∧ testBit bm y = true
      rw [testBit_clearBit]
      simp
    · have hmem : x ∉ (bitmap bm).set := fun hmem => hx (mem_set.mp hmem)
      rw [if_neg hx]
      exact ⟨h, (Finset.erase_eq_of_notMem hmem).symm, by simp [hmem]⟩

theorem mem_merged : x ∈ merged v w ↔ x ∈ v ∨ x ∈ w := by
  fun_induction merged v w with
  | case1 w => simp
  | case2 v => simp
  | case3 a v b w hlt ih => simp only [List.mem_cons, ih]; tauto
  | case4 a v b w hnlt hlt ih => simp only [List.mem_cons, ih]; tauto
  | case5 a v b w hnlt hnlt' ih =>
    obtain rfl := UInt16.le_antisymm (UInt16.not_lt.mp hnlt') (UInt16.not_lt.mp hnlt)
    simp only [List.mem_cons, ih]
    tauto

section

variable (hv : v.Pairwise (· < ·))
include hv

theorem merged_sorted (hw : w.Pairwise (· < ·)) : (merged v w).Pairwise (· < ·) := by
  fun_induction merged v w with
  | case1 w => exact hw
  | case2 v => exact hv
  | case3 a v b w hlt ih =>
    rw [List.pairwise_cons] at hv
    have hw' := List.pairwise_cons.mp hw
    refine List.pairwise_cons.mpr ⟨fun z hz => ?_, ih hv.2 hw⟩
    rcases mem_merged.mp hz with hz | hz
    · exact hv.1 z hz
    · rcases List.mem_cons.mp hz with rfl | hz
      · exact hlt
      · exact UInt16.lt_trans hlt (hw'.1 z hz)
  | case4 a v b w hnlt hlt ih =>
    rw [List.pairwise_cons] at hw
    have hv' := List.pairwise_cons.mp hv
    refine List.pairwise_cons.mpr ⟨fun z hz => ?_, ih hv hw.2⟩
    rcases mem_merged.mp hz with hz | hz
    · rcases List.mem_cons.mp hz with rfl | hz
      · exact hlt
      · exact UInt16.lt_trans hlt (hv'.1 z hz)
    · exact hw.1 z hz
  | case5 a v b w hnlt hnlt' ih =>
    obtain rfl := UInt16.le_antisymm (UInt16.not_lt.mp hnlt') (UInt16.not_lt.mp hnlt)
    rw [List.pairwise_cons] at hv hw
    refine List.pairwise_cons.mpr ⟨fun z hz => ?_, ih hv.2 hw.2⟩
    rcases mem_merged.mp hz with hz | hz
    · exact hv.1 z hz
    · exact hw.1 z hz

theorem insertSorted_spec : (insertSorted v x).Pairwise (· < ·) ∧ ∀ y, y ∈ insertSorted v x ↔
    y ∈ v ∨ y = x := by
  unfold insertSorted
  split
  next hx =>
    refine ⟨hv, fun y => ⟨fun hy => .inl hy, ?_⟩⟩
    rintro (hy | rfl)
    · exact hy
    · exact List.contains_iff_mem.mp hx
  next hx =>
    refine ⟨orderedInsert_sorted hv fun hmem => hx (List.contains_iff_mem.mpr hmem), fun y => ?_⟩
    rw [List.mem_orderedInsert]
    exact or_comm

theorem foldl_insertSorted_spec :
    (w.foldl insertSorted v).Pairwise (· < ·) ∧ ∀ y, y ∈ w.foldl insertSorted v ↔ y ∈ v ∨ y ∈ w := by
  induction w generalizing v with
  | nil => exact ⟨hv, by simp⟩
  | cons x w ih =>
    rw [List.foldl_cons]
    obtain ⟨hsorted, hmem⟩ := insertSorted_spec (x := x) hv
    obtain ⟨hsorted', hmem'⟩ := ih hsorted
    refine ⟨hsorted', fun y => ?_⟩
    rw [hmem', hmem, List.mem_cons, or_assoc]

theorem ofArray_inserted_spec :
    (ofArray (w.foldl insertSorted v)).Valid ∧
      ∀ y, (ofArray (w.foldl insertSorted v)).contains y = true ↔ v.contains y = true ∨ y ∈ w := by
  obtain ⟨hsorted, hmem⟩ := foldl_insertSorted_spec (w := w) hv
  refine ⟨ofArray_valid hsorted, fun y => ?_⟩
  rw [contains_ofArray, List.contains_iff_mem, List.contains_iff_mem, hmem]

end

theorem insertAllFrom_spec (h : c.Valid) (hother : other.Valid) :
    (c.insertAllFrom other).Valid ∧ (c.insertAllFrom other).set = c.set ∪ other.set := by
  cases c with
  | array v =>
    cases other with
    | array w =>
      refine ⟨ofArray_valid (merged_sorted (h.ascends v rfl) (hother.ascends w rfl)), ?_⟩
      ext y
      rw [Finset.mem_union, mem_set, mem_set, mem_set]
      show (ofArray (merged v w)).contains y = true ↔ v.contains y = true ∨ w.contains y = true
      rw [contains_ofArray, List.contains_iff_mem, List.contains_iff_mem, List.contains_iff_mem,
        mem_merged]
    | bitmap other =>
      obtain ⟨hvalid, hcontains⟩ := ofArray_inserted_spec (w := bitsOf other) (h.ascends v rfl)
      have hinsert : (array v).insertAllFrom (bitmap other) =
          if arrayMaxSize < v.length + count other then .bitmap (orWords (fromArrayToBitmap v) other)
          else ofArray ((bitsOf other).foldl insertSorted v) := rfl
      rw [hinsert]
      split
      next =>
        refine ⟨valid_bitmap, ?_⟩
        ext y
        rw [Finset.mem_union, mem_set, mem_set, mem_set]
        show testBit (orWords (fromArrayToBitmap v) other) y = true ↔ v.contains y = true ∨
          testBit other y = true
        rw [testBit_orWords, testBit_fromArrayToBitmap, Bool.or_eq_true]
      next =>
        refine ⟨hvalid, ?_⟩
        ext y
        rw [Finset.mem_union, mem_set, mem_set, mem_set, hcontains, mem_bitsOf]
        exact Iff.rfl
  | bitmap bm =>
    cases other with
    | array w =>
      refine ⟨valid_bitmap, ?_⟩
      ext y
      rw [Finset.mem_union, mem_set, mem_set, mem_set]
      show testBit (w.foldl setBit bm) y = true ↔ testBit bm y = true ∨ w.contains y = true
      rw [testBit_foldl_setBit, Bool.or_eq_true]
      exact or_comm
    | bitmap other =>
      refine ⟨valid_bitmap, ?_⟩
      ext y
      rw [Finset.mem_union, mem_set, mem_set, mem_set]
      show testBit (orWords bm other) y = true ↔ testBit bm y = true ∨ testBit other y = true
      rw [testBit_orWords, Bool.or_eq_true]

theorem retainIntersection_spec (h : c.Valid) :
    (c.retainIntersection other).Valid ∧ (c.retainIntersection other).set = c.set ∩ other.set := by
  cases c with
  | array v =>
    refine ⟨valid_array ((h.ascends v rfl).sublist List.filter_sublist)
      (List.filter_sublist.length_le.trans (h.short v rfl)), ?_⟩
    ext y
    rw [Finset.mem_inter, mem_set, mem_set, mem_set]
    show (v.filter other.contains).contains y = true ↔ v.contains y = true ∧ other.contains y = true
    rw [List.contains_iff_mem, List.contains_iff_mem, List.mem_filter]
  | bitmap bm =>
    cases other with
    | array w =>
      refine ⟨valid_bitmap, ?_⟩
      ext y
      rw [Finset.mem_inter, mem_set, mem_set, mem_set]
      show testBit (andWords bm (fromArrayToBitmap w)) y = true ↔ testBit bm y = true ∧
        w.contains y = true
      rw [testBit_andWords, testBit_fromArrayToBitmap, Bool.and_eq_true]
    | bitmap other =>
      refine ⟨valid_bitmap, ?_⟩
      ext y
      rw [Finset.mem_inter, mem_set, mem_set, mem_set]
      show testBit (andWords bm other) y = true ↔ testBit bm y = true ∧ testBit other y = true
      rw [testBit_andWords, Bool.and_eq_true]

end Sets

end Container

end Akar
