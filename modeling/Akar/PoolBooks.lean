import Akar.PoolMoves
import Akar.Runs

namespace Akar

open List AList

inductive PoolCall (n : Nat) where
  | pin (io : Io) (k : PageKey)
  | pinMut (io : Io) (k : PageKey) (write : Option (Fin n → UInt8))
  | unpin (k : PageKey)
  | flush (io : Io) (k : PageKey)
  | flushAll (io : Io)
  | dropFile (file : String)
  | registerFile (name path : String)

namespace BufferManager

variable {n : Nat} {bm bm' : BufferManager n} {io : Io} {k : PageKey} {f : Frame n} {a : PoolCall n}

/-- Every call returns; those that fail in I/O leave the pool as far as they got. -/
def call (bm : BufferManager n) : PoolCall n → Option (BufferManager n)
  | .pin io k => some (bm.pin io k).1
  | .pinMut io k write => some (bm.pinMut io k write).1
  | .unpin k => some (bm.unpin k)
  | .flush io k => some (bm.flush io k).1
  | .flushAll io => some (bm.flushAll io)
  | .dropFile file => some (bm.dropFile file)
  | .registerFile name path => some (bm.registerFile name path)

/-- The clock list holds each resident page once and nothing else, and every resident page is paid
for. -/
structure Books (bm : BufferManager n) : Prop where
  nodup : bm.clockOrder.Nodup
  mem_iff : ∀ k, k ∈ bm.clockOrder ↔ k ∈ bm.frames
  charged : bm.charged = bm.numFrames * n

def HandWithin (bm : BufferManager n) : Prop := bm.clockHand < bm.clockOrder.length ∨ bm.clockHand = 0

theorem numFrames_eq (bm : BufferManager n) : bm.numFrames = bm.frames.keys.length :=
  (length_map _).symm

theorem numFrames_remove (h : k ∈ bm.frames) (i : Nat) : (bm.remove k i).numFrames + 1 =
    bm.numFrames := by
  have hkeys := AList.mem_keys.mp h
  have hpos := length_pos_of_mem hkeys
  have herase : (bm.frames.erase k).keys.length = bm.frames.keys.length - 1 := by
    rw [keys_erase]
    exact @length_erase_of_mem _ instBEqOfDecidableEq _ k _ hkeys
  rw [numFrames_eq, numFrames_eq, remove, herase]
  omega

theorem numFrames_insert (i : Nat) : (bm.setFrame k f).numFrames = (bm.remove k i).numFrames + 1 := by
  rw [numFrames_eq, numFrames_eq, setFrame, remove, keys_insert, length_cons, keys_erase]

theorem numFrames_setFrame (h : k ∈ bm.frames) : (bm.setFrame k f).numFrames = bm.numFrames := by
  rw [numFrames_insert 0, numFrames_remove h]

theorem numFrames_load (h : k ∉ bm.frames) : (bm.load k f).numFrames = bm.numFrames + 1 := by
  show (bm.frames.insert k f).entries.length = bm.frames.entries.length + 1
  rw [entries_insert_of_notMem h, length_cons]

section

variable (h : bm.Books)
include h

theorem Books.setFrame (hk : k ∈ bm.frames) : (bm.setFrame k f).Books where
  nodup := h.nodup
  mem_iff j := by
    refine (h.mem_iff j).trans ?_
    rw [BufferManager.setFrame, AList.mem_insert]
    constructor
    · exact Or.inr
    · rintro (rfl | hj)
      · exact hk
      · exact hj
  charged := by
    rw [numFrames_setFrame hk]
    exact h.charged

theorem Books.load (hk : k ∉ bm.frames) : (bm.load k f).Books where
  nodup := by
    have hnew : k ∉ bm.clockOrder := fun hh => hk ((h.mem_iff k).mp hh)
    exact nodup_append.mpr ⟨h.nodup, nodup_singleton k, fun a ha b hb => by
      rw [mem_singleton.mp hb]
      rintro rfl
      exact hnew ha⟩
  mem_iff j := by
    show j ∈ bm.clockOrder ++ [k] ↔ j ∈ bm.frames.insert k f
    rw [mem_append, mem_singleton, AList.mem_insert, h.mem_iff]
    exact or_comm
  charged := by
    rw [numFrames_load hk, Nat.add_mul, Nat.one_mul, ← h.charged]
    rfl

theorem Books.remove {i : Nat} (hi : bm.clockOrder[i]? = some k) : (bm.remove k i).Books := by
  obtain ⟨hlt, hget⟩ := List.getElem?_eq_some_iff.mp hi
  have hk : k ∈ bm.frames := (h.mem_iff k).mp (mem_of_getElem? hi)
  have herase : bm.clockOrder.eraseIdx i = bm.clockOrder.erase k := by
    rw [← hget, h.nodup.erase_getElem]
  refine ⟨?_, fun j => ?_, ?_⟩
  · show (bm.clockOrder.eraseIdx i).Nodup
    rw [herase]
    exact h.nodup.erase k
  · show j ∈ bm.clockOrder.eraseIdx i ↔ j ∈ bm.frames.erase k
    rw [herase, h.nodup.mem_erase_iff, mem_erase, h.mem_iff]
  · have hcount := numFrames_remove hk i
    show bm.charged - n = _
    rw [h.charged, ← hcount, Nat.add_mul, Nat.one_mul, Nat.add_sub_cancel]

theorem Books.congr (hf : bm'.frames = bm.frames) (ho : bm'.clockOrder = bm.clockOrder)
    (hc : bm'.charged = bm.charged) : bm'.Books := by
  refine ⟨?_, fun j => ?_, ?_⟩
  · rw [ho]
    exact h.nodup
  · rw [ho, hf]
    exact h.mem_iff j
  · rw [hc, h.charged, numFrames, numFrames, hf]

theorem Books.mapFile (file : String) : (bm.mapFile file).Books := by
  rw [mapFile_eq]
  exact h.congr rfl rfl rfl

theorem Books.writeBack (k : PageKey) (f : Frame n) : (bm.writeBack k f).Books := by
  rw [writeBack_eq]
  exact h.congr rfl rfl rfl

end

/-- The books, and a hand that may also stand just past the last entry, as between the moves of a
sweep. -/
def Sweepable (bm : BufferManager n) : Prop := bm.Books ∧ bm.clockHand ≤ bm.clockOrder.length

theorem Sweeps.sweepable (hm : Sweeps bm bm') (h : bm.Sweepable) : bm'.Sweepable := by
  cases hm with
  | hand i hi => exact ⟨h.1.congr rfl rfl rfl, hi⟩
  | unref k f hf => exact ⟨h.1.setFrame (mem_of_lookup hf), h.2⟩
  | evict k f hf _ hi =>
    have hlt := (List.getElem?_eq_some_iff.mp hi).1
    refine ⟨(h.1.writeBack k f).remove (by rw [writeBack_eq]; exact hi), ?_⟩
    rw [writeBack_eq]
    show bm.clockHand ≤ (bm.clockOrder.eraseIdx bm.clockHand).length
    rw [length_eraseIdx_of_lt hlt]
    omega

theorem evict_sweepable (h : bm.Sweepable) : (bm.evict io).1.Sweepable :=
  moves_keep (fun _ _ hm => hm.sweepable) (evict_sweeps bm io) h

theorem HandWithin.le (h : bm.HandWithin) : bm.clockHand ≤ bm.clockOrder.length := by
  rcases h with h | h <;> omega

theorem sweep_hand_of_failed (io : Io) (len turns : Nat) (bm : BufferManager n) :
    (sweep io len turns bm).2 = false → (sweep io len turns bm).1.HandWithin := by
  induction turns generalizing bm with
  | zero =>
    intro h
    cases h
  | succ turns ih =>
    simp only [sweep]
    generalize (if len ≤ bm.clockHand then 0 else bm.clockHand) = hand
    split
    · intro h
      cases h
    next k hk =>
    have hlt : hand < bm.clockOrder.length := (List.getElem?_eq_some_iff.mp hk).1
    split
    · exact ih _
    · split
      · exact ih _
      · split
        · exact ih _
        · split
          · split
            · intro h
              cases h
            · exact fun _ => .inl hlt
          · intro h
            cases h

theorem evict_hand_of_failed (h : (bm.evict io).2 = false) : (bm.evict io).1.HandWithin := by
  unfold evict at h ⊢
  split at h
  · cases h
  next hne =>
    rw [if_neg hne]
    exact sweep_hand_of_failed io _ _ bm h

structure InOrder (bm : BufferManager n) : Prop where
  books : bm.Books
  hand : bm.HandWithin

theorem InOrder.setFrame (h : bm.InOrder) (hk : k ∈ bm.frames) : (bm.setFrame k f).InOrder :=
  ⟨h.books.setFrame hk, h.hand⟩

theorem InOrder.track (h : bm.InOrder) (k : PageKey) : (bm.track k).InOrder :=
  ⟨h.books.congr rfl rfl rfl, h.hand⟩

theorem Sweepable.load (h : bm.Sweepable) (hk : k ∉ bm.frames) : (bm.load k f).InOrder := by
  refine ⟨h.1.load hk, .inl ?_⟩
  have hle := h.2
  show bm.clockHand < (bm.clockOrder ++ [k]).length
  rw [length_append, length_singleton]
  omega

theorem Sweepable.mapFile (h : bm.Sweepable) (file : String) : (bm.mapFile file).Sweepable := by
  refine ⟨h.1.mapFile file, ?_⟩
  rw [mapFile_eq]
  exact h.2

theorem Fetches.inOrder {ks : List PageKey} (hm : Fetches ks bm bm') (h : bm.InOrder) :
    bm'.InOrder := by
  cases hm with
  | load k _ hnew =>
    have hs := Sweepable.mapFile ⟨h.books, h.hand.le⟩ k.1
    exact hs.load (by rw [frames_mapFile]; exact hnew)

theorem InOrder.maybeReadahead (h : bm.InOrder) (io : Io) (k : PageKey) :
    (bm.maybeReadahead io k).InOrder :=
  moves_keep (fun _ _ hm => hm.inOrder) (maybeReadahead_fetches bm io k) h

theorem Sweepable.fault (h : bm.Sweepable) (hnew : k ∉ bm.frames) (hread : io.reads k = true) :
    (bm.fault io k).1.InOrder := by
  rw [fault_eq bm hread]
  have hload : ((bm.mapFile k.1).load k (bm.freshFrame k)).InOrder :=
    (h.mapFile k.1).load (by rw [frames_mapFile]; exact hnew)
  exact (hload.track k).maybeReadahead io k

def Fetchable (bm : BufferManager n) (io : Io) (k : PageKey) : Prop :=
  k ∈ bm.frames ∨ bm.numFrames < bm.maxFrames ∨ io.reads k = true

section

variable (h : bm.InOrder)
include h

theorem InOrder.pin (hk : bm.Fetchable io k) : (bm.pin io k).1.InOrder := by
  have hs : bm.Sweepable := ⟨h.books, h.hand.le⟩
  generalize hresult : bm.pin io k = result
  have hcases := pin_cases bm io k
  rw [hresult] at hcases
  cases hcases with
  | hit f hf => exact (h.setFrame (mem_of_lookup hf)).track k
  | full _ _ hfail => exact ⟨(evict_sweepable hs).1, evict_hand_of_failed hfail⟩
  | evicted hnew =>
    have hread : io.reads k = true := by
      rcases hk with hk | hk | hk
      · exact absurd hk hnew
      · omega
      · exact hk
    exact (evict_sweepable hs).fault (sweeps_absent (evict_sweeps bm io) hnew) hread
  | room hnew =>
    cases hread : io.reads k with
    | true => exact hs.fault hnew hread
    | false =>
      rw [fault_eq_of_unread bm hread]
      exact h

theorem InOrder.accessMut (k : PageKey) (write : Option (Fin n → UInt8)) :
    (bm.accessMut k write).InOrder := by
  unfold BufferManager.accessMut
  split
  next f hf => exact h.setFrame (mem_of_lookup hf)
  next => exact h

theorem InOrder.pinMut (hk : bm.Fetchable io k) (write : Option (Fin n → UInt8)) :
    (bm.pinMut io k write).1.InOrder := by
  unfold BufferManager.pinMut
  split
  · exact h.accessMut k write
  · split
    · exact (h.pin hk).accessMut k write
    · exact h.pin hk

theorem InOrder.unpin (k : PageKey) : (bm.unpin k).InOrder := by
  unfold BufferManager.unpin
  split
  next f hf => exact h.setFrame (mem_of_lookup hf)
  next => exact h

theorem InOrder.flush (io : Io) (k : PageKey) : (bm.flush io k).1.InOrder := by
  unfold BufferManager.flush
  split
  next f hf =>
    split
    · split
      · refine InOrder.setFrame ?_ ?_
        · rw [writeToDisk_eq]
          exact ⟨h.books.congr rfl rfl rfl, h.hand⟩
        · rw [writeToDisk_eq]
          exact mem_of_lookup hf
      · exact h
    · exact h
  next => exact h

theorem InOrder.flushKeys (io : Io) (ks : List PageKey) : (flushKeys io ks bm).InOrder := by
  induction ks generalizing bm with
  | nil => exact h
  | cons k ks ih =>
    rw [BufferManager.flushKeys]
    split
    · exact ih (h.flush io k)
    · exact h.flush io k

theorem InOrder.dropFile {file : String} (hnone : ∀ k ∈ bm.frames.keys, k.1 ≠ file) :
    (bm.dropFile file).InOrder := by
  have hframes : retain bm.frames (·.1 ≠ file) = bm.frames := by
    apply AList.ext
    apply filter_eq_self.mpr
    intro e he
    simpa using hnone e.1 (mem_map_of_mem he)
  have horder : bm.clockOrder.filter (·.1 ≠ file) = bm.clockOrder := by
    apply filter_eq_self.mpr
    intro k hk
    have hkey := AList.mem_keys.mp ((h.books.mem_iff k).mp hk)
    simpa using hnone k hkey
  refine ⟨h.books.congr hframes horder rfl, ?_⟩
  show bm.clockHand < (bm.clockOrder.filter (·.1 ≠ file)).length ∨ bm.clockHand = 0
  rw [horder]
  exact h.hand

end

/-- A page that needs an eviction can be read, and a file is dropped only when none of its pages is
in the pool. -/
def Accountable (bm : BufferManager n) : PoolCall n → Prop
  | .pin io k | .pinMut io k _ => bm.Fetchable io k
  | .dropFile file => ∀ k ∈ bm.frames.keys, k.1 ≠ file
  | _ => True

instance : Decidable (bm.Accountable a) := match a with
  | .pin io k | .pinMut io k _ =>
    inferInstanceAs (Decidable (k ∈ bm.frames ∨ bm.numFrames < bm.maxFrames ∨ io.reads k = true))
  | .dropFile file => inferInstanceAs (Decidable (∀ k ∈ bm.frames.keys, k.1 ≠ file))
  | .unpin _ | .flush _ _ | .flushAll _ | .registerFile _ _ => isTrue trivial

theorem InOrder.call (h : bm.InOrder) (hok : bm.Accountable a) (hcall : bm.call a = some bm') :
    bm'.InOrder := by
  cases a with
  | pin => cases hcall; exact h.pin hok
  | pinMut io k write => cases hcall; exact h.pinMut hok write
  | unpin k => cases hcall; exact h.unpin k
  | flush io k => cases hcall; exact h.flush io k
  | flushAll io => cases hcall; exact h.flushKeys io _
  | dropFile => cases hcall; exact h.dropFile hok
  | registerFile => cases hcall; exact ⟨h.books.congr rfl rfl rfl, h.hand⟩

/-- The books of the pool balance after every accountable run. -/
theorem bookkeeping (maxMemory : Nat) (useMmap : Bool) (readahead : ReadaheadPolicy)
    (disk : String → Option (List UInt8)) (calls : List (PoolCall n)) (bm : BufferManager n)
    (hrun : run call (new maxMemory useMmap readahead disk) calls = some bm)
    (hok : Meets call Accountable (new maxMemory useMmap readahead disk) calls) :
    (∀ k, bm.clockOrder.count k = if k ∈ bm.frames then 1 else 0) ∧
      (bm.clockHand < bm.clockOrder.length ∨ bm.clockHand = 0) ∧ bm.charged = bm.numFrames * n := by
  have h : bm.InOrder :=
    run_keeps (fun _ _ _ hs hok hcall => hs.call hok hcall) hrun hok
      ⟨⟨nodup_nil, fun _ => iff_of_false not_mem_nil (notMem_empty _), (Nat.zero_mul n).symm⟩, .inr rfl⟩
  refine ⟨fun k => ?_, h.hand, h.books.charged⟩
  split
  next hk => exact count_eq_one_of_mem h.books.nodup ((h.books.mem_iff k).mpr hk)
  next hk => exact count_eq_zero.mpr fun hh => hk ((h.books.mem_iff k).mp hh)

def onePageRun : List (PoolCall 1) :=
  [.registerFile "main" "main.db", .pin .ok ("main", 0), .unpin ("main", 0),
    .pinMut .ok ("main", 1) none, .flushAll .ok, .dropFile "other"]

theorem bookkeeping_onePageRun :
    ∃ bm : BufferManager 1, run call (new 1 false ⟨true, 4⟩ fun _ => none) onePageRun = some bm ∧
      bm.clockOrder = [("main", 1)] ∧ bm.charged = bm.numFrames * 1 :=
  have hrun : run call (new 1 false ⟨true, 4⟩ fun _ => none) onePageRun = some _ := rfl
  ⟨_, hrun, rfl,
    (bookkeeping 1 false ⟨true, 4⟩ (fun _ => none) onePageRun _ hrun
    (meets_of_check (by decide))).2.2⟩

/-- Dropping a file with pages in the pool leaves their memory charged and the hand past the end of
the list. -/
theorem charge_left_behind :
    ∃ bm : BufferManager 1,
      run call (new 2 false ⟨false, 0⟩ fun _ => none)
        [.pin .ok ("main", 0), .pin .ok ("main", 1), .pin .ok ("main", 2), .dropFile "main"] = some bm ∧
      bm.clockOrder = [] ∧ bm.clockHand = 1 ∧ bm.numFrames = 0 ∧ bm.charged = 3 :=
  ⟨_, rfl, rfl, rfl, rfl, rfl⟩

end BufferManager

end Akar
