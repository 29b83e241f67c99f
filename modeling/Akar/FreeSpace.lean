import Mathlib.Algebra.Group.Nat.Defs
import Mathlib.Data.List.Sort
import Mathlib.Data.Prod.Lex

namespace Akar

open List Function

structure PageRange where
  startPageIdx : Nat
  numPages : Nat
  deriving DecidableEq, Repr

namespace PageRange

/-- The shorter range first, and of equally long ones the one that starts first. -/
def before (r q : PageRange) : Prop :=
  r.numPages < q.numPages ∨ r.numPages = q.numPages ∧ r.startPageIdx ≤ q.startPageIdx

instance : DecidableRel before := fun r q =>
  inferInstanceAs (Decidable (r.numPages < q.numPages ∨ r.numPages = q.numPages ∧ r.startPageIdx ≤
    q.startPageIdx))

def Holds (r : PageRange) (page : Nat) : Prop :=
  r.startPageIdx ≤ page ∧ page < r.startPageIdx + r.numPages

instance (r : PageRange) (page : Nat) : Decidable (r.Holds page) :=
  inferInstanceAs (Decidable (r.startPageIdx ≤ page ∧ page < r.startPageIdx + r.numPages))

def Apart (r q : PageRange) : Prop :=
  r.startPageIdx + r.numPages ≤ q.startPageIdx ∨ q.startPageIdx + q.numPages ≤ r.startPageIdx

instance (r q : PageRange) : Decidable (r.Apart q) := inferInstanceAs (Decidable (_ ∨ _))

def Proper (r : PageRange) : Prop :=
  0 < r.numPages ∧ r.numPages < 2 ^ 64 ∧ r.startPageIdx + r.numPages ≤ 2 ^ 64

instance (r : PageRange) : Decidable r.Proper := inferInstanceAs (Decidable (_ ∧ _ ∧ _))

end PageRange

/-- The free lists by level, each in the order of its set, and the ranges that wait for a
checkpoint. -/
structure FreeSpaceManager where
  freeLists : Nat → List PageRange
  uncheckpointed : List PageRange
  numEntries : Nat

def numLevels : Nat := 64

namespace FreeSpaceManager

def new : FreeSpaceManager := ⟨fun _ => [], [], 0⟩

def getLevel (numPages : Nat) : Nat := Nat.log2 numPages

/-- `add_free_pages`; none where an assertion fails. -/
def addFreePages (fsm : FreeSpaceManager) (entry : PageRange) : Option FreeSpaceManager :=
  if entry.numPages = 0 then none
  else
    let level := getLevel entry.numPages
    if numLevels ≤ level then none
    else if entry ∈ fsm.freeLists level then none
    else
      some { fsm with
        freeLists :=
          update fsm.freeLists level ((fsm.freeLists level).orderedInsert PageRange.before
          entry)
        numEntries := fsm.numEntries + 1 }

def firstFit (fsm : FreeSpaceManager) (numPages level : Nat) : Option PageRange :=
  (fsm.freeLists level).find? fun r => numPages ≤ r.numPages

def search (fsm : FreeSpaceManager) (numPages : Nat) : List Nat → Option (Nat × PageRange)
  | [] => none
  | level :: levels =>
    match fsm.firstFit numPages level with
    | some entry => some (level, entry)
    | none => fsm.search numPages levels

def removeEntry (fsm : FreeSpaceManager) (level : Nat) (entry : PageRange) : FreeSpaceManager :=
  { fsm with
    freeLists := update fsm.freeLists level ((fsm.freeLists level).erase entry)
    numEntries := fsm.numEntries - 1 }

def splitPageRange (fsm : FreeSpaceManager) (chunk : PageRange) (numRequired : Nat) :
    Option (FreeSpaceManager × PageRange) :=
  let result : PageRange := ⟨chunk.startPageIdx, numRequired⟩
  if numRequired < chunk.numPages then
    (fsm.addFreePages ⟨(chunk.startPageIdx + numRequired) % 2 ^ 64,
      chunk.numPages - numRequired⟩).map (·, result)
  else some (fsm, result)

def popFreePages (fsm : FreeSpaceManager) (numPages : Nat) :
    Option (FreeSpaceManager × Option PageRange) :=
  if numPages = 0 then some (fsm, none)
  else
    match fsm.search numPages (range' (getLevel numPages) (numLevels - getLevel numPages)) with
    | none => some (fsm, none)
    | some (level, entry) =>
      ((fsm.removeEntry level entry).splitPageRange entry numPages).map fun (rest, result) =>
        (rest, some result)

def addUncheckpointedFreePages (fsm : FreeSpaceManager) (entry : PageRange) : FreeSpaceManager :=
  { fsm with uncheckpointed := fsm.uncheckpointed ++ [entry] }

def rollbackCheckpoint (fsm : FreeSpaceManager) : FreeSpaceManager := { fsm with uncheckpointed := [] }

def addAll (fsm : FreeSpaceManager) : List PageRange → Option FreeSpaceManager
  | [] => some fsm
  | entry :: entries => (fsm.addFreePages entry).bind fun next => next.addAll entries

def finalizeCheckpoint (fsm : FreeSpaceManager) : Option FreeSpaceManager :=
  fsm.rollbackCheckpoint.addAll fsm.uncheckpointed

def ranges (fsm : FreeSpaceManager) : List PageRange := (range numLevels).flatMap fsm.freeLists

section Levels

variable {fsm fsm' : FreeSpaceManager} {entry r : PageRange} {level numPages : Nat} {levels : List Nat}

theorem flatMap_update_perm {f : Nat → List PageRange} {list : List PageRange} (hnodup : levels.Nodup)
    (hlevel : level ∈ levels) (hlist : list.Perm (entry :: f level)) :
    (levels.flatMap (update f level list)).Perm (entry :: levels.flatMap f) := by
  induction levels with
  | nil => cases hlevel
  | cons l levels ih =>
    rw [nodup_cons] at hnodup
    rw [flatMap_cons, flatMap_cons]
    by_cases hl : l = level
    · subst hl
      have hothers : levels.flatMap (update f l list) = levels.flatMap f := by
        refine flatMap_congr fun k hk => ?_
        have hne : k ≠ l := by
          rintro rfl
          exact hnodup.1 hk
        rw [update_of_ne hne]
      rw [update_self, hothers]
      exact hlist.append_right _
    · have hmem := (mem_cons.mp hlevel).resolve_left fun h => hl h.symm
      rw [update_of_ne hl]
      exact ((ih hnodup.2 hmem).append_left _).trans perm_middle

theorem mem_ranges : r ∈ fsm.ranges ↔ ∃ level < numLevels, r ∈ fsm.freeLists level := by
  simp [ranges]

theorem addFreePages_eq_some (h : fsm.addFreePages entry = some fsm') :
    fsm'.ranges.Perm (entry :: fsm.ranges) ∧ fsm'.numEntries = fsm.numEntries + 1 ∧
      fsm'.uncheckpointed = fsm.uncheckpointed ∧
      fsm'.freeLists = update fsm.freeLists (getLevel entry.numPages)
        ((fsm.freeLists (getLevel entry.numPages)).orderedInsert PageRange.before entry) := by
  unfold addFreePages at h
  simp only [Option.ite_none_left_eq_some, Option.some.injEq] at h
  obtain ⟨-, hlevel, -, rfl⟩ := h
  refine ⟨?_, rfl, rfl, rfl⟩
  exact flatMap_update_perm nodup_range (mem_range.mpr (Nat.lt_of_not_le hlevel))
    (perm_orderedInsert ..)

theorem getLevel_lt (hpos : 0 < numPages) (h : numPages < 2 ^ 64) : getLevel numPages < numLevels :=
  (Nat.log2_lt (Nat.ne_of_gt hpos)).mpr h

theorem addFreePages_isSome (hproper : entry.Proper) (hnew : entry ∉ fsm.ranges) :
    ∃ fsm', fsm.addFreePages entry = some fsm' := by
  have hpos := hproper.1
  have hlevel := getLevel_lt hpos hproper.2.1
  have hmem : entry ∉ fsm.freeLists (getLevel entry.numPages) :=
    fun h => hnew (mem_ranges.mpr ⟨_, hlevel, h⟩)
  unfold addFreePages
  rw [if_neg (Nat.ne_of_gt hpos)]
  rw [if_neg (Nat.not_le.mpr hlevel), if_neg hmem]
  exact ⟨_, rfl⟩

theorem search_eq_some (h : fsm.search numPages levels = some (level, entry)) :
    level ∈ levels ∧ entry ∈ fsm.freeLists level ∧ numPages ≤ entry.numPages := by
  induction levels with
  | nil => cases h
  | cons l levels ih =>
    unfold search at h
    split at h
    next found hfound =>
      cases h
      exact ⟨mem_cons_self, mem_of_find?_eq_some hfound, by simpa using find?_some hfound⟩
    next =>
      obtain ⟨hl, he⟩ := ih h
      exact ⟨mem_cons_of_mem _ hl, he⟩

theorem search_eq_none (h : fsm.search numPages levels = none) (hlevel : level ∈ levels)
    (hentry : entry ∈ fsm.freeLists level) : entry.numPages < numPages := by
  induction levels with
  | nil => cases hlevel
  | cons l levels ih =>
    unfold search at h
    split at h
    next => cases h
    next hnone =>
      rcases mem_cons.mp hlevel with rfl | hlevel
      · have hnot := find?_eq_none.mp hnone entry hentry
        simpa using hnot
      · exact ih h hlevel

theorem removeEntry_perm (hlevel : level < numLevels) (hentry : entry ∈ fsm.freeLists level) :
    fsm.ranges.Perm (entry :: (fsm.removeEntry level entry).ranges) := by
  have hlist : (fsm.freeLists level).Perm (entry :: (fsm.removeEntry level entry).freeLists level) := by
    show (fsm.freeLists level).Perm (entry :: update fsm.freeLists level _ level)
    rw [update_self]
    exact perm_cons_erase hentry
  have hback : update (fsm.removeEntry level entry).freeLists level (fsm.freeLists level) =
      fsm.freeLists := by
    show update (update fsm.freeLists level _) level _ = _
    rw [update_idem, update_eq_self]
  have hperm := flatMap_update_perm nodup_range (mem_range.mpr hlevel) hlist
  rw [hback] at hperm
  exact hperm

end Levels

end FreeSpaceManager

end Akar
