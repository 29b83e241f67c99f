import Akar.StableSort
import Mathlib.Data.List.Perm.Basic
import Mathlib.Tactic.Ring

namespace Akar

open List

/-!
Sorting by a lawful comparison: stable comparison sort, the passes of a least-significant-digit radix sort,
merging several sorted runs, and a heap that keeps the least entries it was given.
-/

section Comparator

variable {α β : Type} (cmp : α → α → Ordering)

def leBy (a b : α) : Bool := (cmp a b).isLE

def sortBy (l : List α) : List α := l.mergeSort (leBy cmp)

def SortedBy (l : List α) : Prop := l.Pairwise fun a b => leBy cmp a b = true

variable {cmp} {l m : List α}

theorem sortBy_perm (l : List α) : (sortBy cmp l).Perm l := mergeSort_perm ..

section Lawful

variable [Std.TransCmp cmp]

theorem leBy_trans (a b c : α) (hab : leBy cmp a b = true) (hbc : leBy cmp b c = true) :
    leBy cmp a c = true :=
  Std.TransCmp.isLE_trans hab hbc

theorem leBy_of_not {a b : α} (h : leBy cmp a b = false) : leBy cmp b a = true := by
  rw [leBy] at h ⊢
  rw [@Std.OrientedCmp.eq_swap α cmp _ b a]
  cases hab : cmp a b <;> simp_all

theorem leBy_total (a b : α) : (leBy cmp a b || leBy cmp b a) = true := by
  cases h : leBy cmp a b with
  | true => rfl
  | false => exact leBy_of_not h

theorem sorted_sortBy (l : List α) : SortedBy cmp (sortBy cmp l) :=
  pairwise_mergeSort leBy_trans leBy_total l

end Lawful

theorem map_key_unique {key : α → β} (hkey : ∀ a b, leBy cmp a b = true → leBy cmp b a = true →
    key a = key b)
    (hcongr : ∀ a b c d, key a = key c → key b = key d → leBy cmp a b = leBy cmp c d)
    (hl : SortedBy cmp l) (hm : SortedBy cmp m) (hperm : l.Perm m) : l.map key = m.map key := by
  -- the order of the keys, read off any entries that carry them
  have hle : ∀ {l : List α}, SortedBy cmp l →
      (l.map key).Pairwise fun x y => ∀ a b, key a = x → key b = y → leBy cmp a b = true := by
    intro l hl
    rw [pairwise_map]
    exact hl.imp fun hab c d hc hd => (hcongr _ _ _ _ hc hd).trans hab
  refine Perm.eq_of_pairwise ?_ (hle hl) (hle hm) (hperm.map key)
  intro x y hx hy hxy hyx
  obtain ⟨a, _, rfl⟩ := mem_map.mp hx
  obtain ⟨b, _, rfl⟩ := mem_map.mp hy
  exact hkey a b (hxy a b rfl rfl) (hyx b a rfl rfl)

end Comparator

section Radix

variable {α : Type} (key : α → Nat)

/-- One pass of a counting sort on a digit below `base`: the entries bucket by bucket, each bucket
in the order in which its entries were met. -/
def radixPass (base pass : Nat) (l : List α) : List α :=
  (range base).flatMap fun bucket => l.filter fun a => key a / base ^ pass % base = bucket

def radixSort (base : Nat) : Nat → List α → List α
  | 0, l => l
  | passes + 1, l => radixPass key base passes (radixSort base passes l)

variable {key} {base pass : Nat} {l : List α}

theorem filter_radixPass (hbase : 0 < base) (x : Nat) :
    (radixPass key base pass l).filter (fun a => key a = x) = l.filter fun a => key a = x := by
  -- the entries with one key are all in the bucket of its digit
  have hbucket (bucket : Nat) : (l.filter fun a => key a / base ^ pass % base = bucket).filter
      (fun a => key a = x) =
      if x / base ^ pass % base = bucket then l.filter (fun a => key a = x) else [] := by
    rw [filter_filter]
    split
    next hx =>
      apply filter_congr
      intro a _
      by_cases ha : key a = x
      · simp [ha, hx]
      · simp [ha]
    next hx =>
      apply filter_eq_nil_iff.mpr
      rintro a _ ha
      simp only [Bool.and_eq_true, decide_eq_true_eq] at ha
      exact hx (ha.1 ▸ ha.2)
  rw [radixPass, List.filter_flatMap]
  simp only [hbucket]
  have hd : x / base ^ pass % base < base := Nat.mod_lt _ hbase
  generalize x / base ^ pass % base = d at hd ⊢
  obtain ⟨k, rfl⟩ : ∃ k, base = d + 1 + k := ⟨base - (d + 1), by omega⟩
  rw [range_add, flatMap_append, range_succ, flatMap_append]
  have hbelow :
      (range d).flatMap (fun bucket => if d = bucket then l.filter (fun a => key a = x) else []) =
      [] := by
    rw [flatMap_eq_nil_iff]
    intro bucket hb
    rw [if_neg (by have := mem_range.mp hb; omega)]
  have habove : ((range k).map (d + 1 + ·)).flatMap
      (fun bucket => if d = bucket then l.filter (fun a => key a = x) else []) = [] := by
    rw [flatMap_eq_nil_iff]
    intro bucket hb
    obtain ⟨j, _, rfl⟩ := mem_map.mp hb
    rw [if_neg (by omega)]
  rw [hbelow, habove]
  simp

theorem filter_radixSort (hbase : 0 < base) (passes x : Nat) :
    (radixSort key base passes l).filter (fun a => key a = x) = l.filter fun a => key a = x := by
  induction passes with
  | zero => rfl
  | succ passes ih => rw [radixSort, filter_radixPass hbase, ih]

theorem mod_pow_succ_le {base pass x y : Nat} (hdigit : x / base ^ pass % base ≤ y / base ^ pass % base)
    (hlow : x / base ^ pass % base = y / base ^ pass % base → x % base ^ pass ≤ y % base ^ pass) :
    x % base ^ (pass + 1) ≤ y % base ^ (pass + 1) := by
  have hsplit (n : Nat) : n % base ^ (pass + 1) =
      n % base ^ pass + base ^ pass * (n / base ^ pass % base) := by
    rw [Nat.pow_succ, Nat.mod_mul]
  rw [hsplit, hsplit]
  rcases Nat.lt_or_eq_of_le hdigit with hlt | heq
  · rcases Nat.eq_zero_or_pos (base ^ pass) with h0 | hpos
    · rw [h0] at hlt
      simp at hlt
    · have hx := Nat.mod_lt x hpos
      calc x % base ^ pass + base ^ pass * (x / base ^ pass % base)
          ≤ base ^ pass * (x / base ^ pass % base + 1) := by rw [Nat.mul_add]; omega
        _ ≤ base ^ pass * (y / base ^ pass % base) := Nat.mul_le_mul_left _ hlt
        _ ≤ _ := Nat.le_add_left ..
  · rw [heq]
    exact Nat.add_le_add_right (hlow heq) _

theorem pairwise_radixSort (base passes : Nat) (l : List α) :
    (radixSort key base passes l).Pairwise fun a b => key a % base ^ passes ≤
      key b % base ^ passes := by
  induction passes with
  | zero =>
    simp only [Nat.pow_zero, Nat.mod_one]
    exact pairwise_of_forall_mem_list fun _ _ _ _ => Nat.le_refl 0
  | succ passes ih =>
    rw [radixSort, radixPass, pairwise_flatMap]
    have hdigit {bucket : Nat} {a : α}
        (ha : a ∈ (radixSort key base passes l).filter fun a => key a / base ^ passes % base = bucket) :
        key a / base ^ passes % base = bucket := of_decide_eq_true (mem_filter.mp ha).2
    refine ⟨fun bucket _ => ?_, ?_⟩
    · refine (ih.filter _).imp_of_mem fun ha hb hab => ?_
      exact mod_pow_succ_le ((hdigit ha).trans (hdigit hb).symm).le fun _ => hab
    · refine pairwise_lt_range.imp fun {i j} hij a ha b hb => ?_
      have hlt : key a / base ^ passes % base < key b / base ^ passes % base := by
        rw [hdigit ha, hdigit hb]
        exact hij
      exact mod_pow_succ_le hlt.le fun heq => absurd heq hlt.ne

variable {κ ν : Type}

variable {R : κ × ν → κ × ν → Prop}

theorem pairwise_same_key_iff [DecidableEq κ] {l : List (κ × ν)} :
    l.Pairwise (fun a b => a.1 = b.1 → R a b) ↔ ∀ k, (l.filter (·.1 = k)).Pairwise R := by
  induction l with
  | nil => simp
  | cons a l ih =>
    rw [pairwise_cons, ih]
    constructor
    · rintro ⟨hhead, htail⟩ k
      by_cases hk : a.1 = k
      · rw [filter_cons_of_pos (by simpa using hk), pairwise_cons]
        refine ⟨fun b hb => ?_, htail k⟩
        obtain ⟨hb, hkey⟩ := mem_filter.mp hb
        exact hhead b hb (hk.trans (of_decide_eq_true hkey).symm)
      · rw [filter_cons_of_neg (by simpa using hk)]
        exact htail k
    · intro h
      refine ⟨fun b hb hab => ?_, fun k => ?_⟩
      · have hk := h a.1
        rw [filter_cons_of_pos (by simp), pairwise_cons] at hk
        exact hk.1 b (mem_filter.mpr ⟨hb, by simp [hab]⟩)
      · have hk := h k
        by_cases ha : a.1 = k
        · rw [filter_cons_of_pos (by simpa using ha), pairwise_cons] at hk
          exact hk.2
        · rwa [filter_cons_of_neg (by simpa using ha)] at hk

theorem pairwise_byKey_iff [LE κ] [Std.IsLinearOrder κ] [DecidableLE κ] [DecidableEq κ]
    {l : List (κ × ν)} :
    (byKey l).Pairwise (fun a b => a.1 = b.1 → R a b) ↔ l.Pairwise fun a b => a.1 = b.1 → R a b := by
  rw [pairwise_same_key_iff, pairwise_same_key_iff]
  simp only [filter_byKey]

theorem radixSort_eq_byKey {l : List (Nat × ν)} {base passes : Nat} (hbase : 0 < base)
    (hkeys : ∀ a ∈ l, a.1 < base ^ passes) : radixSort Prod.fst base passes l = byKey l := by
  have hfilter (k : Nat) : (radixSort Prod.fst base passes l).filter (fun a => a.1 = k) =
      l.filter fun a => a.1 = k :=
    filter_radixSort hbase passes k
  have hmem : ∀ a ∈ radixSort Prod.fst base passes l, a.1 < base ^ passes := by
    intro a ha
    have hin : a ∈ (radixSort Prod.fst base passes l).filter fun b => b.1 = a.1 :=
      mem_filter.mpr ⟨ha, decide_eq_true rfl⟩
    rw [hfilter] at hin
    exact hkeys a (mem_filter.mp hin).1
  apply eq_byKey _ hfilter
  refine (pairwise_radixSort base passes l).imp_of_mem fun ha hb hab => ?_
  rwa [Nat.mod_eq_of_lt (hmem _ ha), Nat.mod_eq_of_lt (hmem _ hb)] at hab

end Radix

section Merge

variable {α : Type} (le : α → α → Bool)

/-- The least of the heads of some runs, of the first run that has it, with the runs that are
left. -/
def popLeast : List (List α) → Option (α × List (List α))
  | [] => none
  | [] :: runs => (popLeast runs).map fun p => (p.1, [] :: p.2)
  | (y :: ys) :: runs =>
    match popLeast runs with
    | none => some (y, ys :: runs)
    | some p => if le y p.1 then some (y, ys :: runs) else some (p.1, (y :: ys) :: p.2)

def mergeRuns : Nat → List (List α) → List α
  | 0, _ => []
  | n + 1, runs =>
    match popLeast le runs with
    | none => []
    | some p => p.1 :: mergeRuns n p.2

variable {le} {runs runs' : List (List α)} {x : α}

theorem popLeast_eq_none (h : popLeast le runs = none) : runs.flatten = [] := by
  induction runs with
  | nil => rfl
  | cons run runs ih =>
    cases run with
    | nil =>
      rw [popLeast, Option.map_eq_none_iff] at h
      simpa using ih h
    | cons =>
      rw [popLeast] at h
      split at h
      · cases h
      · split at h <;> cases h

theorem popLeast_runs (h : popLeast le runs = some (x, runs')) :
    runs.flatten.Perm (x :: runs'.flatten) ∧ Forall₂ (fun run run' => run = run' ∨ run = x :: run')
      runs runs' := by
  have same (runs : List (List α)) : Forall₂ (fun run run' => run = run' ∨ run = x :: run') runs runs :=
    forall₂_same.mpr fun _ _ => .inl rfl
  induction runs generalizing x runs' with
  | nil => cases h
  | cons run runs ih =>
    cases run with
    | nil =>
      rw [popLeast, Option.map_eq_some_iff] at h
      obtain ⟨⟨z, rest⟩, hz, heq⟩ := h
      cases heq
      obtain ⟨hperm, hall⟩ := ih hz same
      exact ⟨by simpa using hperm, .cons (.inl rfl) hall⟩
    | cons y ys =>
      have htake : ((y :: ys) :: runs).flatten.Perm (y :: (ys :: runs).flatten) := by simp
      rw [popLeast] at h
      split at h
      · cases h
        exact ⟨htake, .cons (.inr rfl) (same runs)⟩
      next p hp =>
        split at h
        · cases h
          exact ⟨htake, .cons (.inr rfl) (same runs)⟩
        · cases h
          obtain ⟨hperm, hall⟩ := ih hp same
          refine ⟨?_, .cons (.inl rfl) hall⟩
          exact (hperm.append_left (y :: ys)).trans perm_middle

variable {n : Nat}

theorem mergeRuns_perm (h : runs.flatten.length ≤ n) : (mergeRuns le n runs).Perm runs.flatten := by
  induction n generalizing runs with
  | zero =>
    rw [length_eq_zero_iff.mp (Nat.le_zero.mp h)]
    exact .nil
  | succ n ih =>
    rw [mergeRuns]
    split
    next hnone => rw [popLeast_eq_none hnone]
    next p hp =>
      obtain ⟨hperm, _⟩ := popLeast_runs hp
      have hlen := hperm.length_eq
      rw [length_cons] at hlen
      exact ((ih (by omega)).cons p.1).trans hperm.symm

theorem sublist_mergeRuns (h : runs.flatten.length ≤ n) {run : List α} (hrun : run ∈ runs) :
    run.Sublist (mergeRuns le n runs) := by
  induction n generalizing runs run with
  | zero =>
    have hempty : run = [] := by
      have hall := flatten_eq_nil_iff.mp (length_eq_zero_iff.mp (Nat.le_zero.mp h))
      exact hall run hrun
    rw [hempty]
    exact nil_sublist _
  | succ n ih =>
    rw [mergeRuns]
    split
    next hnone =>
      rw [flatten_eq_nil_iff.mp (popLeast_eq_none hnone) run hrun]
    next p hp =>
      obtain ⟨hperm, hall⟩ := popLeast_runs hp
      have hlen := hperm.length_eq
      rw [length_cons] at hlen
      obtain ⟨i, hi, rfl⟩ := mem_iff_getElem.mp hrun
      have hi' : i < p.2.length := by rw [← hall.length_eq]; exact hi
      have hsub := ih (by omega) (getElem_mem hi')
      rcases (forall₂_iff_get.mp hall).2 i hi hi' with heq | heq
      · simp only [get_eq_getElem] at heq
        rw [heq]
        exact hsub.cons _
      · simp only [get_eq_getElem] at heq
        rw [heq]
        exact hsub.cons_cons _

section

variable (htrans : ∀ a b c, le a b = true → le b c = true → le a c = true)
    (htotal : ∀ a b, (le a b || le b a) = true)
include htrans htotal

theorem popLeast_le (hsorted : ∀ run ∈ runs, run.Pairwise fun a b => le a b = true)
    (h : popLeast le runs = some (x, runs')) : ∀ a ∈ runs.flatten, le x a = true := by
  have hrefl (a : α) : le a a = true := by simpa using htotal a a
  have hhead {y : α} {ys : List α} (hs : (y :: ys).Pairwise fun a b => le a b = true) :
      ∀ a ∈ y :: ys, le y a = true := by
    intro a ha
    rcases mem_cons.mp ha with rfl | ha
    · exact hrefl a
    · exact (pairwise_cons.mp hs).1 a ha
  induction runs generalizing x runs' with
  | nil => cases h
  | cons run runs ih =>
    have hrest := (forall_mem_cons.mp hsorted).2
    cases run with
    | nil =>
      rw [popLeast, Option.map_eq_some_iff] at h
      obtain ⟨⟨z, rest⟩, hz, heq⟩ := h
      cases heq
      simpa using ih hrest hz
    | cons y =>
      have hrun := hhead (hsorted _ mem_cons_self)
      rw [popLeast] at h
      intro a ha
      rw [flatten_cons, mem_append] at ha
      split at h
      next hnone =>
        cases h
        rw [popLeast_eq_none hnone] at ha
        exact hrun a (ha.resolve_right not_mem_nil)
      next p hp =>
        have hp' := ih hrest hp
        split at h
        next hle =>
          cases h
          rcases ha with ha | ha
          · exact hrun a ha
          · exact htrans _ _ _ hle (hp' a ha)
        next hle =>
          cases h
          rcases ha with ha | ha
          · have hback : le p.1 y = true := by
              have := htotal y p.1
              simpa [hle] using this
            exact htrans _ _ _ hback (hrun a ha)
          · exact hp' a ha

theorem pairwise_mergeRuns (hn : runs.flatten.length ≤ n)
    (hsorted : ∀ run ∈ runs, run.Pairwise fun a b => le a b = true) :
    (mergeRuns le n runs).Pairwise fun a b => le a b = true := by
  induction n generalizing runs with
  | zero => exact .nil
  | succ n ih =>
    rw [mergeRuns]
    split
    · exact .nil
    next p hp =>
      obtain ⟨hperm, hall⟩ := popLeast_runs hp
      have hleast := popLeast_le htrans htotal hsorted hp
      have hlen := hperm.length_eq
      rw [length_cons] at hlen
      have hsorted' : ∀ run ∈ p.2, run.Pairwise fun a b => le a b = true := by
        intro run hrun
        obtain ⟨i, hi, rfl⟩ := mem_iff_getElem.mp hrun
        have hi' : i < runs.length := by rw [hall.length_eq]; exact hi
        have hold := hsorted _ (getElem_mem hi')
        rcases (forall₂_iff_get.mp hall).2 i hi' hi with heq | heq
        · simp only [get_eq_getElem] at heq
          rwa [heq] at hold
        · simp only [get_eq_getElem] at heq
          rw [heq] at hold
          exact (pairwise_cons.mp hold).2
      refine pairwise_cons.mpr ⟨fun a ha => ?_, ih (by omega) hsorted'⟩
      have hin : a ∈ p.2.flatten := (mergeRuns_perm (by omega)).mem_iff.mp ha
      exact hleast a (hperm.mem_iff.mpr (mem_cons_of_mem _ hin))

end

end Merge

section Bounded

variable {α : Type} (le : α → α → Bool)

/-- What a max-heap promises: a pop takes out one of the greatest entries. -/
def PopsGreatest (pop : List α → α × List α) : Prop :=
  ∀ l, l ≠ [] → l.Perm ((pop l).1 :: (pop l).2) ∧ ∀ a ∈ (pop l).2, le a (pop l).1 = true

def keepLeast (pop : List α → α × List α) (capacity : Nat) (l : List α) : List α :=
  l.foldl (fun heap a => if capacity < (a :: heap).length then (pop (a :: heap)).2 else a :: heap) []

def drainSorted (pop : List α → α × List α) : Nat → List α → List α → List α
  | 0, _, sorted => sorted
  | n + 1, heap, sorted => drainSorted pop n (pop heap).2 ((pop heap).1 :: sorted)

variable {le} {pop : List α → α × List α} {capacity : Nat}

structure Keeps (le : α → α → Bool) (capacity : Nat) (seen heap gone : List α) : Prop where
  perm : (heap ++ gone).Perm seen
  least : ∀ a ∈ heap, ∀ b ∈ gone, le a b = true
  size : heap.length = min capacity seen.length

variable {heap : List α}

section

variable (htrans : ∀ a b c, le a b = true → le b c = true → le a c = true) (hpop : PopsGreatest le pop)
include htrans hpop

theorem Keeps.push {seen gone : List α} (h : Keeps le capacity seen heap gone) (a : α) :
    ∃ gone', Keeps le capacity (seen ++ [a])
      (if capacity < (a :: heap).length then (pop (a :: heap)).2 else a :: heap) gone' := by
  have hin : (a :: heap ++ gone).Perm (seen ++ [a]) := by
    have hcons := h.perm.cons a
    exact hcons.trans (perm_append_singleton a seen).symm
  have hlen := h.perm.length_eq
  rw [length_append] at hlen
  have hsize := h.size
  split
  next hfull =>
    obtain ⟨hperm, hgreatest⟩ := hpop (a :: heap) (cons_ne_nil _ _)
    have hplen := hperm.length_eq
    rw [length_cons] at hplen hfull
    rw [length_cons] at hplen
    refine ⟨(pop (a :: heap)).1 :: gone, ?_, ?_, ?_⟩
    · refine Perm.trans ?_ hin
      refine perm_middle.trans ?_
      exact (hperm.symm.append_right gone)
    · intro b hb c hc
      rcases mem_cons.mp hc with rfl | hgone
      · exact hgreatest b hb
      · have hb' := hperm.mem_iff.mpr (mem_cons_of_mem _ hb)
        rcases mem_cons.mp hb' with rfl | hb'
        · -- the pushed entry stays: it is below the popped one, which was in the heap, or ties with one that was
          rcases mem_cons.mp (hperm.mem_iff.mpr mem_cons_self) with htop | htop
          · rw [htop] at hperm
            exact h.least b (((perm_cons b).mp hperm).mem_iff.mpr hb) c hgone
          · exact htrans _ _ _ (hgreatest b hb) (h.least _ htop c hgone)
        · exact h.least b hb' c hgone
    · rw [length_append, length_singleton]
      omega
  next hroom =>
    rw [length_cons] at hroom
    have hnone : gone = [] := by
      apply length_eq_zero_iff.mp
      omega
    subst hnone
    refine ⟨[], ?_, nofun, ?_⟩
    · exact hin
    · rw [length_append, length_singleton, length_cons]
      omega

theorem keeps_keepLeast (capacity : Nat) (l : List α) : ∃ gone,
    Keeps le capacity l (keepLeast pop capacity l) gone := by
  have hfold : ∀ (l seen heap : List α), (∃ gone, Keeps le capacity seen heap gone) →
      ∃ gone, Keeps le capacity (seen ++ l)
        (l.foldl (fun heap a => if capacity < (a :: heap).length then (pop (a :: heap)).2 else a ::
          heap) heap) gone := by
    intro l
    induction l with
    | nil => intro seen heap h; simpa using h
    | cons a l ih =>
      rintro seen heap ⟨gone, h⟩
      have hstep := ih (seen ++ [a]) _ (h.push htrans hpop a)
      rwa [append_assoc, singleton_append] at hstep
  exact hfold l [] [] ⟨[], .nil, nofun, by simp⟩

end

theorem drainSorted_spec (hpop : PopsGreatest le pop) {n : Nat} {sorted : List α} (hn : heap.length = n)
    (hsorted : sorted.Pairwise fun a b => le a b = true)
    (hle : ∀ a ∈ heap, ∀ b ∈ sorted, le a b = true) :
    (drainSorted pop n heap sorted).Perm (heap ++ sorted) ∧
      (drainSorted pop n heap sorted).Pairwise fun a b => le a b = true := by
  induction n generalizing heap sorted with
  | zero =>
    rw [length_eq_zero_iff.mp hn]
    exact ⟨.refl _, hsorted⟩
  | succ n ih =>
    have hne : heap ≠ [] := by
      rintro rfl
      cases hn
    obtain ⟨hperm, hgreatest⟩ := hpop heap hne
    have hlen := hperm.length_eq
    rw [length_cons] at hlen
    have htop := hle _ (hperm.mem_iff.mpr mem_cons_self)
    have hsorted' := pairwise_cons.mpr ⟨htop, hsorted⟩
    have hle' : ∀ a ∈ (pop heap).2, ∀ b ∈ (pop heap).1 :: sorted, le a b = true := by
      intro a ha b hb
      rcases mem_cons.mp hb with rfl | hb
      · exact hgreatest a ha
      · exact hle a (hperm.mem_iff.mpr (mem_cons_of_mem _ ha)) b hb
    obtain ⟨hp, hs⟩ := ih (by omega : (pop heap).2.length = n) hsorted' hle'
    refine ⟨hp.trans ?_, hs⟩
    exact perm_middle.trans (hperm.symm.append_right sorted)

end Bounded

end Akar
