import Mathlib.Data.List.Basic

namespace Akar

open List Option

/-!
A list some of whose entries have a key, and a table that answers a key with the position of the
entry that has it.
-/

section KeyedIndex

variable {α κ κ' : Type} {key : α → Option κ} {key' : α → Option κ'} {l m : List α}
    {look : κ → Option Nat} {a : α}
  {i : Nat} {g : α → α}

def Distinct (key : α → Option κ) (l : List α) : Prop :=
  ∀ (k : κ) (i j : Nat), (l[i]?).bind key = some k → (l[j]?).bind key = some k → i = j

def Mirrors (key : α → Option κ) (l : List α) (look : κ → Option Nat) : Prop :=
  ∀ k i, look k = some i ↔ (l[i]?).bind key = some k

variable {k : κ}

theorem key_mem (h : (l[i]?).bind key = some k) : ∃ a ∈ l, key a = some k := by
  obtain ⟨a, ha, hk⟩ := bind_eq_some_iff.mp h
  exact ⟨a, mem_of_getElem? ha, hk⟩

theorem key_of_mem (ha : a ∈ l) (hk : key a = some k) : ∃ i : Nat, (l[i]?).bind key = some k := by
  obtain ⟨i, hi⟩ := mem_iff_getElem?.mp ha
  exact ⟨i, by rw [hi]; exact hk⟩

theorem key_modify (hg : ∀ a, l[i]? = some a → key (g a) = key a) (j : Nat) :
    ((l.modify i g)[j]?).bind key = (l[j]?).bind key := by
  rw [getElem?_modify]
  by_cases hj : i = j
  · subst hj
    cases ha : l[i]? with
    | none => simp
    | some a => simp [hg a ha]
  · cases l[j]? <;> simp [hj]

theorem Distinct.of_key (h : Distinct key l)
    (hkey : ∀ a ∈ l, ∀ b ∈ l, ∀ k', key' a = some k' → key' b = some k' → ∃ k, key a = some k ∧
      key b = some k) :
    Distinct key' l := by
  intro k' i j hi hj
  obtain ⟨a, ha, hka⟩ := bind_eq_some_iff.mp hi
  obtain ⟨b, hb, hkb⟩ := bind_eq_some_iff.mp hj
  obtain ⟨k, hk, hk'⟩ := hkey a (mem_of_getElem? ha) b (mem_of_getElem? hb) k' hka hkb
  exact h k i j (by rw [ha]; exact hk) (by rw [hb]; exact hk')

theorem Distinct.append (hl : Distinct key l) (hm : Distinct key m)
    (hnew : ∀ a ∈ l, ∀ b ∈ m, ∀ k, key a = some k → key b ≠ some k) : Distinct key (l ++ m) := by
  have hcross : ∀ k i j, i < l.length → ¬ j < l.length → ((l ++ m)[i]?).bind key = some k →
      ((l ++ m)[j]?).bind key ≠ some k := by
    intro k i j hi hj hki hkj
    rw [getElem?_append_left hi] at hki
    rw [getElem?_append_right (by omega)] at hkj
    obtain ⟨a, ha, hka⟩ := key_mem hki
    obtain ⟨b, hb, hkb⟩ := key_mem hkj
    exact hnew a ha b hb k hka hkb
  intro k i j hi hj
  by_cases hil : i < l.length <;> by_cases hjl : j < l.length
  · rw [getElem?_append_left hil] at hi
    rw [getElem?_append_left hjl] at hj
    exact hl k i j hi hj
  · exact absurd hj (hcross k i j hil hjl hi)
  · exact absurd hi (hcross k j i hjl hil hj)
  · rw [getElem?_append_right (by omega)] at hi hj
    have := hm k _ _ hi hj
    omega

theorem mirrors_nil : Mirrors key [] fun _ => none := by
  intro k i
  simp

namespace Mirrors

theorem distinct (h : Mirrors key l look) : Distinct key l := by
  intro k i j hi hj
  exact some.inj (((h k i).mpr hi).symm.trans ((h k j).mpr hj))

variable {k : κ}

theorem ne_of_look_none (h : Mirrors key l look) (hk : look k = none) (ha : a ∈ l) :
    key a ≠ some k := by
  intro hka
  obtain ⟨i, hi⟩ := key_of_mem ha hka
  rw [(h k i).mpr hi] at hk
  cases hk

theorem look_none_of_distinct (h : Mirrors key l look) (hd : Distinct key (l ++ a :: m))
    (hk : key a = some k) : look k = none := by
  cases hi : look k with
  | none => rfl
  | some i =>
    have hki := (h k i).mp hi
    obtain ⟨b, hb, _⟩ := bind_eq_some_iff.mp hki
    have hlt : i < l.length := (List.getElem?_eq_some_iff.mp hb).1
    have heq : i = l.length := by
      apply hd k
      · rwa [getElem?_append_left hlt]
      · simpa using hk
    omega

theorem look_iff {f : κ → Option κ'} {look : κ' → Option Nat} {k' : κ'} (h : Mirrors key' l look)
    (hf : ∀ a, key' a = (key a).bind f) (hk : f k = some k')
    (hinj : ∀ a ∈ l, ∀ k₁, key a = some k₁ → f k₁ = some k' → k₁ = k) :
    look k' = some i ↔ (l[i]?).bind key = some k := by
  rw [h k' i]
  constructor
  · intro hi
    obtain ⟨a, ha, hka⟩ := bind_eq_some_iff.mp hi
    rw [hf a] at hka
    obtain ⟨k₁, hk₁, hfk⟩ := bind_eq_some_iff.mp hka
    rw [ha, bind_some, hk₁, hinj a (mem_of_getElem? ha) k₁ hk₁ hfk]
  · intro hi
    obtain ⟨a, ha, hka⟩ := bind_eq_some_iff.mp hi
    rw [ha, bind_some, hf a, hka, bind_some, hk]

theorem modify (h : Mirrors key l look) (hg : ∀ a, l[i]? = some a → key (g a) = key a) :
    Mirrors key (l.modify i g) look := by
  intro k j
  rw [h k j, key_modify hg]

variable [DecidableEq κ]

theorem concat (h : Mirrors key l look) (hfresh : ∀ k, key a = some k → look k = none) :
    Mirrors key (l ++ [a]) fun k => if key a = some k then some l.length else look k := by
  intro k i
  dsimp only
  by_cases hi : i < l.length
  · rw [getElem?_append_left hi, ← h k i]
    split
    next hk => rw [hfresh k hk]; simp; omega
    next => rfl
  · rw [getElem?_append_right (by omega)]
    have hnone : look k ≠ some i := by
      intro hl
      obtain ⟨b, hb, _⟩ := bind_eq_some_iff.mp ((h k i).mp hl)
      exact hi (List.getElem?_eq_some_iff.mp hb).1
    by_cases heq : i = l.length
    · subst heq
      split
      next hk => simp [hk]
      next hk => simp [hk, hnone]
    · have hpos : 0 < i - l.length := by omega
      rw [getElem?_eq_none hpos]
      split
      next => simp; omega
      next => simp [hnone]

theorem erase (h : Mirrors key l look) (hi : l[i]? = some a) (hg : key (g a) = none) :
    Mirrors key (l.modify i g) fun k => if key a = some k then none else look k := by
  intro k j
  dsimp only
  rw [getElem?_modify]
  by_cases hj : i = j
  · subst hj
    simp only [hi, ↓reduceIte, Option.map_eq_map, map_some, bind_some, hg]
    split
    next => simp
    next hk =>
      rw [h k i, hi]
      simp [hk]
  · have hid : id <$> l[j]? = l[j]? := by cases l[j]? <;> rfl
    split
    next hk =>
      -- the position that had the key was `i`
      refine iff_of_false nofun fun hkj => hj ?_
      exact h.distinct k i j (by rw [hi]; exact hk) (by simpa [hid] using hkj)
    next => simpa [hid] using h k j

end Mirrors

end KeyedIndex

end Akar
