import Akar.PoolMoves
import Akar.Runs

namespace Akar

open Function BufferManager

namespace BufferManager

variable {n : Nat} {bm bm' : BufferManager n} {io : Io} {k : PageKey} {f : Frame n}

def pins (bm : BufferManager n) (k : PageKey) : Nat :=
  ((bm.frames.lookup k).map (·.pinCount.toNat)).getD 0

theorem pins_of_lookup (h : bm.frames.lookup k = some f) : bm.pins k = f.pinCount.toNat := by
  rw [pins, h]
  rfl

theorem pins_of_absent (h : k ∉ bm.frames) : bm.pins k = 0 := by
  rw [pins, AList.lookup_eq_none.mpr h]
  rfl

theorem pins_setFrame (j : PageKey) : (bm.setFrame k f).pins j = if j =
    k then f.pinCount.toNat else bm.pins j := by
  rw [pins, lookup_setFrame]
  split <;> rfl

theorem not_isPinned_iff : f.isPinned = false ↔ f.pinCount.toNat = 0 := by
  have hzero : (0 : UInt32).toNat = 0 := rfl
  rw [Frame.isPinned, decide_eq_false_iff_not, UInt32.lt_iff_toNat_lt, hzero]
  omega

theorem Sweeps.pins_eq (h : Sweeps bm bm') (j : PageKey) : bm'.pins j = bm.pins j := by
  cases h with
  | hand => rfl
  | unref k f hf =>
    rw [pins_setFrame]
    split
    next heq => rw [heq, pins_of_lookup hf]
    next => rfl
  | evict k f hf hpin =>
    rw [pins, lookup_remove, frames_writeBack]
    split
    next heq =>
      rw [heq, pins_of_lookup hf, not_isPinned_iff.mp hpin]
      rfl
    next => rfl

theorem Fetches.pins_eq {ks : List PageKey} (h : Fetches ks bm bm') (j : PageKey) : bm'.pins j =
    bm.pins j := by
  cases h with
  | load k _ hnew =>
    rw [pins, lookup_load, frames_mapFile]
    split
    next heq =>
      rw [heq, pins_of_absent hnew]
      rfl
    next => rfl

theorem moves_pins_eq {R : BufferManager n → BufferManager n → Prop}
    (hR : ∀ bm bm', R bm bm' → ∀ j, bm'.pins j = bm.pins j) (h : Relation.ReflTransGen R bm bm')
    (j : PageKey) :
    bm'.pins j = bm.pins j :=
  moves_keep (P := fun b => b.pins j = bm.pins j) (fun _ _ hm hb => (hR _ _ hm j).trans hb) h rfl

theorem pins_evict (bm : BufferManager n) (io : Io) (j : PageKey) : (bm.evict io).1.pins j =
    bm.pins j :=
  moves_pins_eq (fun _ _ h => h.pins_eq) (evict_sweeps bm io) j

def PinsOneMore (bm bm' : BufferManager n) (k : PageKey) : Prop :=
  ∀ j, bm'.pins j = bm.pins j + if j = k then 1 else 0

theorem pinsOneMore_access (hf : bm.frames.lookup k = some f) (hroom : bm.pins k + 1 < 2 ^ 32)
    (write : Option (Fin n → UInt8)) : PinsOneMore bm (bm.setFrame k (f.access.overwrite write)) k := by
  intro j
  have hpins := pins_of_lookup hf
  rw [hpins] at hroom
  have hcount : (f.access.overwrite write).pinCount = f.pinCount + 1 := by cases write <;> rfl
  rw [pins_setFrame, hcount]
  split
  next heq =>
    rw [heq, UInt32.toNat_add, hpins]
    exact Nat.mod_eq_of_lt hroom
  next => rfl

theorem pins_fault (io : Io) (hnew : k ∉ bm.frames) :
    ((bm.fault io k).2.isSome = true → PinsOneMore bm (bm.fault io k).1 k) ∧
      ((bm.fault io k).2 = none → ∀ j, (bm.fault io k).1.pins j = bm.pins j) := by
  cases hread : io.reads k with
  | false => simp [fault_eq_of_unread bm hread]
  | true =>
    rw [fault_eq bm hread]
    refine ⟨fun _ j => ?_, nofun⟩
    rw [moves_pins_eq (fun _ _ h => h.pins_eq) (maybeReadahead_fetches _ io k) j]
    show pins ((bm.mapFile k.1).load k (bm.freshFrame k)) j = _
    rw [pins, lookup_load, frames_mapFile]
    split
    next heq =>
      rw [heq, pins_of_absent hnew]
      rfl
    next => rfl

theorem pins_pin (io : Io) (hroom : bm.pins k + 1 < 2 ^ 32) :
    ((bm.pin io k).2.isSome = true → PinsOneMore bm (bm.pin io k).1 k) ∧
      ((bm.pin io k).2 = none → ∀ j, (bm.pin io k).1.pins j = bm.pins j) := by
  generalize hresult : bm.pin io k = result
  have hcases := pin_cases bm io k
  rw [hresult] at hcases
  cases hcases with
  | hit f hf => exact ⟨fun _ => pinsOneMore_access hf hroom none, nofun⟩
  | full => exact ⟨nofun, fun _ => pins_evict bm io⟩
  | evicted hnew =>
    have hfault := pins_fault io (sweeps_absent (evict_sweeps bm io) hnew)
    refine ⟨fun hs j => ?_, fun hnone j => ?_⟩
    · rw [hfault.1 hs j, pins_evict]
    · rw [hfault.2 hnone j, pins_evict]
  | room hnew => exact pins_fault io hnew

theorem pins_pinMut (io : Io) (hroom : bm.pins k + 1 < 2 ^ 32) (write : Option (Fin n → UInt8)) :
    ((bm.pinMut io k write).2 = true →
      ∀ j, (bm.pinMut io k write).1.pins j = bm.pins j + if j =
        k then (if k ∈ bm.frames then 1 else 2) else 0) ∧
      ((bm.pinMut io k write).2 = false → ∀ j, (bm.pinMut io k write).1.pins j = bm.pins j) := by
  unfold pinMut
  by_cases hres : k ∈ bm.frames
  · rw [if_pos hres]
    refine ⟨fun _ j => ?_, nofun⟩
    obtain ⟨f, hf⟩ := exists_lookup hres
    have hmore := pinsOneMore_access hf hroom write j
    rw [if_pos hres, accessMut, hf]
    exact hmore
  · rw [if_neg hres]
    split
    next hsome =>
      refine ⟨fun _ j => ?_, nofun⟩
      have hpin := (pins_pin io hroom).1 hsome
      obtain ⟨f, hf⟩ := exists_lookup (mem_pin hsome)
      have hroom' : (bm.pin io k).1.pins k + 1 < 2 ^ 32 := by
        rw [hpin k, pins_of_absent hres, if_pos rfl]
        omega
      have hmore := pinsOneMore_access hf hroom' write j
      rw [accessMut, hf]
      rw [hpin j] at hmore
      rw [hmore]
      split <;> omega
    next hnone =>
      have hfail : (bm.pin io k).2 = none := by simpa using hnone
      exact ⟨nofun, fun _ => (pins_pin io hroom).2 hfail⟩

theorem pins_unpin (k j : PageKey) : (bm.unpin k).pins j = bm.pins j - if j = k then 1 else 0 := by
  unfold unpin
  split
  next f hf =>
    rw [pins_setFrame]
    by_cases hj : j = k
    · rw [if_pos hj, if_pos hj, hj, pins_of_lookup hf, Frame.unpin]
      split
      next hpos =>
        have hle : (1 : UInt32) ≤ f.pinCount := by
          exact UInt32.lt_iff_toNat_lt.mp hpos
        exact UInt32.toNat_sub_of_le _ _ hle
      next hzero =>
        have hz : f.pinCount.toNat = 0 := by
          rw [UInt32.lt_iff_toNat_lt] at hzero
          have : (0 : UInt32).toNat = 0 := rfl
          omega
        rw [hz]
    · rw [if_neg hj, if_neg hj]
      rfl
  next hnone =>
    by_cases hj : j = k
    · rw [hj, pins_of_absent (AList.lookup_eq_none.mp hnone), Nat.zero_sub]
    · rw [if_neg hj]
      rfl

theorem pins_flush (j : PageKey) : (bm.flush io k).1.pins j = bm.pins j := by
  unfold flush
  split
  next f hf =>
    split
    · split
      · rw [pins_setFrame]
        split
        next heq => rw [heq, pins_of_lookup hf]
        next => rw [writeToDisk_eq]; rfl
      · rfl
    · rfl
  next => rfl

theorem pins_flushKeys (io : Io) (ks : List PageKey) (j : PageKey) : (flushKeys io ks bm).pins j =
    bm.pins j := by
  induction ks generalizing bm with
  | nil => rfl
  | cons k ks ih =>
    rw [flushKeys]
    split
    · rw [ih, pins_flush]
    · exact pins_flush j

end BufferManager

structure PinLedger (n : Nat) where
  pool : BufferManager n
  held : PageKey → Nat

inductive PageAccess (n : Nat) where
  | pin (io : Io) (k : PageKey)
  | pinMut (io : Io) (k : PageKey) (write : Option (Fin n → UInt8))
  | unpin (k : PageKey)
  | flush (io : Io) (k : PageKey)
  | flushAll (io : Io)

namespace PinLedger

variable {n : Nat} {s t : PinLedger n} {a : PageAccess n} {as : List (PageAccess n)} {l : PageKey → Nat}

def take (held : PageKey → Nat) (k : PageKey) (ok : Bool) : PageKey → Nat :=
  if ok then update held k (held k + 1) else held

/-- Each successful `pin` or `pin_mut` takes a pin, and only a pin that is held is given back. -/
def step (s : PinLedger n) : PageAccess n → Option (PinLedger n)
  | .pin io k => some ⟨(s.pool.pin io k).1, take s.held k (s.pool.pin io k).2.isSome⟩
  | .pinMut io k write =>
    some ⟨(s.pool.pinMut io k write).1, take s.held k (s.pool.pinMut io k write).2⟩
  | .unpin k =>
    if 0 < s.held k then some ⟨s.pool.unpin k, update s.held k (s.held k - 1)⟩ else none
  | .flush io k => some ⟨(s.pool.flush io k).1, s.held⟩
  | .flushAll io => some ⟨s.pool.flushAll io, s.held⟩

/-- The page an access pins has room for one more pin in its 32-bit count. -/
def Room (s : PinLedger n) : PageAccess n → Prop
  | .pin _ k | .pinMut _ k _ => s.pool.pins k + 1 < 2 ^ 32
  | _ => True

def Resident (s : PinLedger n) : PageAccess n → Prop
  | .pinMut _ k _ => k ∈ s.pool.frames
  | _ => True

instance : Decidable (s.Room a) := match a with
  | .pin _ k | .pinMut _ k _ => inferInstanceAs (Decidable (s.pool.pins k + 1 < 2 ^ 32))
  | .unpin _ | .flush _ _ | .flushAll _ => isTrue trivial

instance : Decidable (s.Resident a) := match a with
  | .pinMut _ k _ => inferInstanceAs (Decidable (k ∈ s.pool.frames))
  | .pin _ _ | .unpin _ | .flush _ _ | .flushAll _ => isTrue trivial

def leak (s : PinLedger n) : PageAccess n → PageKey → Nat
  | .pinMut io k write, j =>
    if j = k ∧ k ∉ s.pool.frames ∧ (s.pool.pinMut io k write).2 = true then 1 else 0
  | _, _ => 0

def Balanced (s : PinLedger n) (leaked : PageKey → Nat) : Prop :=
  ∀ k, s.pool.pins k = s.held k + leaked k

theorem take_apply (held : PageKey → Nat) (k j : PageKey) (ok : Bool) :
    take held k ok j = held j + if ok = true ∧ j = k then 1 else 0 := by
  unfold take
  split
  next hok =>
    by_cases hj : j = k
    · subst hj
      rw [update_self, if_pos ⟨hok, rfl⟩]
    · rw [update_of_ne hj, if_neg fun hh => hj hh.2]
      rfl
  next hok => rw [if_neg fun hh => hok hh.1]; rfl

theorem balanced_step (h : s.Balanced l) (hroom : s.Room a) (hstep : s.step a = some t) :
    t.Balanced fun k => l k + s.leak a k := by
  intro j
  have hj := h j
  cases a with
  | pin io k =>
    cases hstep
    have hpin := pins_pin io hroom
    dsimp only
    rw [take_apply]
    cases hok : (s.pool.pin io k).2 with
    | none => rw [hpin.2 hok j, hj]; simp [leak]
    | some f =>
      rw [hpin.1 (by rw [hok]; rfl) j, hj]
      simp only [leak, Option.isSome_some, true_and]
      omega
  | pinMut io k write =>
    cases hstep
    have hpin := pins_pinMut io hroom write
    dsimp only
    rw [take_apply]
    cases hok : (s.pool.pinMut io k write).2 with
    | false => rw [hpin.2 hok j, hj]; simp [leak, hok]
    | true =>
      rw [hpin.1 hok j, hj]
      simp only [leak, hok, true_and, and_true]
      by_cases hjk : j = k <;> by_cases hres : k ∈ s.pool.frames <;> simp [hjk, hres] <;> omega
  | unpin k =>
    obtain ⟨hheld, rfl⟩ := Option.ite_some_none_eq_some.mp hstep
    rw [pins_unpin, hj]
    simp only [leak]
    by_cases hjk : j = k
    · subst hjk
      rw [if_pos rfl, update_self]
      omega
    · rw [if_neg hjk, update_of_ne hjk]
      omega
  | flush => cases hstep; exact (pins_flush j).trans hj
  | flushAll io => cases hstep; exact (pins_flushKeys io _ j).trans hj

def leaks (s : PinLedger n) : List (PageAccess n) → PageKey → Nat
  | [], _ => 0
  | a :: as, k => s.leak a k + ((s.step a).map fun t => leaks t as k).getD 0

theorem leaks_cons (hstep : s.step a = some t) (k : PageKey) : s.leaks (a :: as) k =
    s.leak a k + t.leaks as k := by
  rw [leaks, hstep]
  rfl

theorem balanced_run (h : s.Balanced l) (hroom : Meets step Room s as) (hrun : run step s as = some t) :
    t.Balanced fun k => l k + s.leaks as k := by
  induction as generalizing s l with
  | nil => cases hrun; exact h
  | cons a as ih =>
    obtain ⟨u, hstep, hrest⟩ := run_cons_eq_some.mp hrun
    have hnext := ih (balanced_step h hroom.1 hstep) (hroom.2 u hstep) hrest
    intro k
    have hk := hnext k
    dsimp only at hk ⊢
    rw [hk, leaks_cons hstep]
    omega

theorem leaks_eq_zero_iff (hrun : run step s as = some t) :
    (∀ k, s.leaks as k = 0) ↔ Meets step (fun s a => ∀ k, s.leak a k = 0) s as := by
  induction as generalizing s with
  | nil => exact iff_of_true (fun _ => rfl) trivial
  | cons a as ih =>
    obtain ⟨u, hstep, hrest⟩ := run_cons_eq_some.mp hrun
    have htail := ih hrest
    simp only [leaks_cons hstep, Nat.add_eq_zero_iff, forall_and, htail, Meets, hstep,
      Option.some.injEq, forall_eq']

theorem leak_eq_zero_of_resident (h : s.Resident a) (k : PageKey) : s.leak a k = 0 := by
  cases a with
  | pinMut => exact if_neg fun hh => hh.2.1 h
  | pin | unpin | flush | flushAll => rfl

/-- Once all pins are given back, no page is pinned if every mutable access was to a resident page,
and only if no successful one was to a page outside the pool. -/
theorem pins_return_to_zero (bm : BufferManager n)
    (hidle : ∀ k f, bm.frames.lookup k = some f → f.pinCount = 0)
    (hrun : run step ⟨bm, fun _ => 0⟩ as = some t) (hdone : ∀ k, t.held k = 0) :
    (Meets step (fun s a => s.Resident a ∧ s.Room a) ⟨bm, fun _ => 0⟩ as →
        ∀ k f, t.pool.frames.lookup k = some f → f.pinCount = 0 ∧ f.isPinned = false) ∧
      (Meets step Room ⟨bm, fun _ => 0⟩ as → (∀ k f, t.pool.frames.lookup k = some f → f.pinCount = 0) →
        Meets step (fun s a => ∀ io k write, a = .pinMut io k write →
          (s.pool.pinMut io k write).2 = true →
          k ∈ s.pool.frames) ⟨bm, fun _ => 0⟩ as) := by
  have hstart : (⟨bm, fun _ => 0⟩ : PinLedger n).Balanced fun _ => 0 := by
    intro k
    by_cases hk : k ∈ bm.frames
    · obtain ⟨f, hf⟩ := exists_lookup hk
      show bm.pins k = 0
      rw [pins_of_lookup hf, hidle k f hf]
      rfl
    · exact pins_of_absent hk
  have hend (hroom : Meets step Room ⟨bm, fun _ => 0⟩ as) (k : PageKey) :
      t.pool.pins k = (⟨bm, fun _ => 0⟩ : PinLedger n).leaks as k := by
    have hb := balanced_run hstart hroom hrun k
    dsimp only at hb
    rw [hdone k] at hb
    omega
  constructor
  · intro hm k f hf
    have hroom := hm.strengthen (fun _ => True) (fun _ _ _ _ hok _ => ⟨trivial, hok.2⟩) hrun trivial
    have hnone : Meets step (fun s a => ∀ k, s.leak a k = 0) ⟨bm, fun _ => 0⟩ as :=
      hm.strengthen (fun _ => True) (fun _ _ _ _ hok _ =>
        ⟨trivial, leak_eq_zero_of_resident hok.1⟩) hrun trivial
    have hcount : f.pinCount.toNat = 0 := by
      rw [← pins_of_lookup hf, hend hroom]
      exact (leaks_eq_zero_iff hrun).mpr hnone k
    exact ⟨UInt32.toNat_inj.mp hcount, not_isPinned_iff.mpr hcount⟩
  · intro hroom hzero
    have hleaks (k : PageKey) : (⟨bm, fun _ => 0⟩ : PinLedger n).leaks as k = 0 := by
      rw [← hend hroom]
      by_cases hk : k ∈ t.pool.frames
      · obtain ⟨f, hf⟩ := exists_lookup hk
        rw [pins_of_lookup hf, hzero k f hf]
        rfl
      · exact pins_of_absent hk
    refine ((leaks_eq_zero_iff hrun).mp hleaks).strengthen (fun _ => True) (fun s a _ _ hleak _ =>
      ?_) hrun trivial
    refine ⟨trivial, ?_⟩
    rintro io k write rfl hok
    by_contra habsent
    have hzero := hleak k
    rw [leak, if_pos ⟨rfl, habsent, hok⟩] at hzero
    cases hzero

def smallPool : BufferManager 1 :=
  (BufferManager.new 2 false ⟨false, 0⟩ fun path => if path =
    "main.db" then some [] else none).registerFile "main"
    "main.db"

def readThenWrite : List (PageAccess 1) :=
  [.pin .ok ("main", 0), .pinMut .ok ("main", 0) (some fun _ => 7), .unpin ("main", 0),
    .unpin ("main", 0)]

theorem pins_return_to_zero_readThenWrite :
    ∃ t, run step ⟨smallPool, fun _ => 0⟩ readThenWrite = some t ∧
      ∀ k f, t.pool.frames.lookup k = some f → f.pinCount = 0 ∧ f.isPinned = false := by
  have hrun : run step ⟨smallPool, fun _ => 0⟩ readThenWrite = some _ := rfl
  refine ⟨_, hrun, ?_⟩
  have hdone (k : PageKey) :
      update (update (update (update (fun _ => 0) ("main", 0) 1) ("main", 0) 2)
        ("main", 0) 1) ("main", 0) 0 k = 0 := by
    by_cases hk : k = ("main", 0)
    · rw [hk, update_self]
    · simp [update_of_ne hk]
  exact (pins_return_to_zero smallPool nofun hrun hdone).1 (meets_of_check (by decide))

/-- One mutable access to a page outside the pool, given back once. -/
theorem pins_not_returned :
    ∃ t f, run step ⟨smallPool, fun _ => 0⟩ [.pinMut .ok ("main", 0) none, .unpin ("main", 0)] =
      some t ∧
      (∀ k, t.held k = 0) ∧ t.pool.frames.lookup ("main", 0) = some f ∧ f.pinCount = 1 ∧
        f.isPinned = true := by
  refine ⟨_, _, rfl, fun k => ?_, rfl, rfl, rfl⟩
  show update (update (fun _ => 0) ("main", 0) 1) ("main", 0) 0 k = 0
  rw [update_apply]
  split
  · rfl
  next hk =>
    rw [update_of_ne hk]

/-- A page that is held is in the pool, and no access can evict it. -/
theorem held_page_resident {k : PageKey} (h : s.Balanced l) (hroom : Meets step Room s as)
    (hrun : run step s as = some t) (hheld : 0 < t.held k) :
    ∃ f, t.pool.frames.lookup k = some f ∧ f.isPinned = true ∧ t.held k ≤ f.pinCount.toNat := by
  have hpins := balanced_run h hroom hrun k
  dsimp only at hpins
  by_cases hmem : k ∈ t.pool.frames
  · obtain ⟨f, hf⟩ := exists_lookup hmem
    rw [pins_of_lookup hf] at hpins
    refine ⟨f, hf, ?_, by omega⟩
    by_contra hfree
    have hzero := not_isPinned_iff.mp (Bool.eq_false_iff.mpr hfree)
    omega
  · rw [pins_of_absent hmem] at hpins
    omega

theorem held_page_resident_readThenWrite : ∃ t f,
    run step ⟨smallPool, fun _ => 0⟩ (readThenWrite.take 3) = some t ∧
      t.pool.frames.lookup ("main", 0) = some f ∧ f.isPinned = true := by
  have hrun : run step ⟨smallPool, fun _ => 0⟩ (readThenWrite.take 3) = some _ := rfl
  obtain ⟨f, hf, hpin, _⟩ := held_page_resident (l := fun _ => 0) (fun k => rfl)
    (meets_of_check (by decide)) hrun
    (k := ("main", 0)) (by decide)
  exact ⟨_, f, hrun, hf, hpin⟩

end PinLedger

end Akar
