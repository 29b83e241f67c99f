import Akar.Value

namespace Akar

open Function

structure HashIndex where
  entries : String → Option Nat

namespace HashIndex

def empty : HashIndex := ⟨fun _ => none⟩

@[simps]
def insert (ix : HashIndex) (key : String) (rowOffset : Nat) : HashIndex :=
  ⟨update ix.entries key (some rowOffset)⟩

def lookup (ix : HashIndex) (key : String) : Option Nat := ix.entries key

@[simps]
def delete (ix : HashIndex) (key : String) : HashIndex := ⟨update ix.entries key none⟩

def file (ix : HashIndex) (key : Option String) (rowOffset : Nat) : HashIndex := match key with
  | some key => ix.insert key rowOffset
  | none => ix

def unfile (ix : HashIndex) (key : Option String) : HashIndex := match key with
  | some key => ix.delete key
  | none => ix

theorem lookup_file (ix : HashIndex) (key : Option String) (n : Nat) (k : String) :
    (ix.file key n).lookup k = if key = some k then some n else ix.lookup k := by
  cases key with
  | none => simp [file]
  | some =>
    simp only [file, lookup, insert_entries, update_apply, Option.some.injEq]
    exact if_congr eq_comm rfl rfl

theorem lookup_unfile (ix : HashIndex) (key : Option String) (k : String) :
    (ix.unfile key).lookup k = if key = some k then none else ix.lookup k := by
  cases key with
  | none => simp [unfile]
  | some =>
    simp only [unfile, lookup, delete_entries, update_apply, Option.some.injEq]
    exact if_congr eq_comm rfl rfl

end HashIndex

/-- The radix tree seen through its interface: the offsets filed under each key, oldest first. It
stands for the tree where the keys are `ArtKeys`. -/
@[ext]
structure ArtIndex where
  offsets : List UInt8 → List Nat

namespace ArtIndex

def empty : ArtIndex := ⟨fun _ => []⟩

/-- An empty key is never filed. -/
def insert (ix : ArtIndex) (key : List UInt8) (rowOffset : Nat) : ArtIndex :=
  if key = [] then ix else ⟨update ix.offsets key (ix.offsets key ++ [rowOffset])⟩

def delete (ix : ArtIndex) (key : List UInt8) (rowOffset : Nat) : ArtIndex :=
  if key = [] then ix else ⟨update ix.offsets key ((ix.offsets key).erase rowOffset)⟩

def Below (ix : ArtIndex) (n : Nat) : Prop := ∀ key, ∀ off ∈ ix.offsets key, off < n

variable {ix : ArtIndex} {n : Nat}

theorem Below.mono {m : Nat} (h : ix.Below n) (hle : n ≤ m) : ix.Below m := by
  intro key off ho
  have := h key off ho
  omega

theorem below_empty (n : Nat) : empty.Below n := by
  nofun

theorem Below.insert {key : List UInt8} (h : ix.Below n) : (ix.insert key n).Below (n + 1) := by
  unfold ArtIndex.insert
  split
  · exact h.mono (Nat.le_succ n)
  · intro k off ho
    by_cases hk : k = key
    · subst hk
      simp only [update_self, List.mem_append, List.mem_singleton] at ho
      rcases ho with ho | rfl
      · exact Nat.lt_succ_of_lt (h k off ho)
      · exact Nat.lt_succ_self _
    · simp only [update_of_ne hk] at ho
      exact Nat.lt_succ_of_lt (h k off ho)

variable {row : Nat}

theorem Below.delete {key : List UInt8} (h : ix.Below n) : (ix.delete key row).Below n := by
  unfold ArtIndex.delete
  split
  · exact h
  · intro k off ho
    by_cases hk : k = key
    · subst hk
      simp only [update_self] at ho
      exact h k off (List.mem_of_mem_erase ho)
    · simp only [update_of_ne hk] at ho
      exact h k off ho

def file (ix : ArtIndex) (key : Option (List UInt8)) (rowOffset : Nat) : ArtIndex := match key with
  | some key => ix.insert key rowOffset
  | none => ix

def unfile (ix : ArtIndex) (key : Option (List UInt8)) (rowOffset : Nat) : ArtIndex := match key with
  | some key => ix.delete key rowOffset
  | none => ix

variable {key : Option (List UInt8)}

theorem Below.file (h : ix.Below n) : (ix.file key n).Below (n + 1) := by
  cases key with
  | some => exact h.insert
  | none => exact h.mono (Nat.le_succ n)

theorem Below.unfile (h : ix.Below n) : (ix.unfile key row).Below n := by
  cases key with
  | some => exact h.delete
  | none => exact h

section

variable (ix : ArtIndex) {key : Option (List UInt8)} (hne : key ≠ some []) (n : Nat) (k : List UInt8)

include hne

theorem offsets_file : (ix.file key n).offsets k = if key = some k then ix.offsets k ++
    [n] else ix.offsets k := by
  cases key with
  | none => simp [file]
  | some key =>
    have hkey : key ≠ [] := fun h => hne (congrArg some h)
    simp only [file, insert, hkey, ↓reduceIte, update_apply, Option.some.injEq]
    grind

theorem offsets_unfile :
    (ix.unfile key n).offsets k = if key = some k then (ix.offsets k).erase n else ix.offsets k := by
  cases key with
  | none => simp [unfile]
  | some key =>
    have hkey : key ≠ [] := fun h => hne (congrArg some h)
    simp only [unfile, delete, hkey, ↓reduceIte, update_apply, Option.some.injEq]
    grind

end

end ArtIndex

end Akar
