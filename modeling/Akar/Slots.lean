import Mathlib.Data.List.Basic
import Mathlib.Data.Option.Basic

namespace Akar

open List Option Function

variable {α : Type} {i : Nat} {l : List α}

theorem modify_append_left (h : i < l.length) (m : List α) (f : α → α) : (l ++ m).modify i f =
    l.modify i f ++ m := by
  induction l generalizing i with
  | nil => cases h
  | cons a l ih =>
    cases i with
    | zero => rfl
    | succ =>
      simp only [cons_append, modify_succ_cons]
      rw [ih (Nat.lt_of_succ_lt_succ h)]

variable {f : α → α}

theorem modify_congr {g : α → α} (h : ∀ a, l[i]? = some a → f a = g a) : l.modify i f =
    l.modify i g := by
  induction l generalizing i with
  | nil => simp
  | cons a l ih =>
    cases i with
    | zero => simp [h a rfl]
    | succ =>
      rw [modify_succ_cons, modify_succ_cons, ih]
      intro b hb
      exact h b (by simpa using hb)

theorem modify_eq_self (h : ∀ a, l[i]? = some a → f a = a) : l.modify i f = l := by
  rw [modify_congr (g := id) h, modify_id]

theorem modify_concat (l : List α) (a : α) (f : α → α) : (l ++ [a]).modify l.length f = l ++ [f a] := by
  induction l with
  | nil => rfl
  | cons b l ih => simp [ih]

theorem lookup_cons_ite {κ : Type} [DecidableEq κ] [BEq κ] [LawfulBEq κ] {c : κ} {l : List (κ × α)}
    (v : α) (d : κ) :
    ((c, v) :: l).lookup d = if d = c then some v else l.lookup d := by
  rw [lookup_cons]
  by_cases h : d = c
  · rw [if_pos h, h, beq_self_eq_true]
  · rw [if_neg h, beq_eq_false_iff_ne.mpr h]

variable {β : Type} {R : α → β → Prop}

theorem rel_some_right {a : Option α} {b : β} (h : Option.Rel R a (some b)) : ∃ x, a = some x ∧
    R x b := by
  cases h with
  | some h => exact ⟨_, rfl, h⟩

variable {a : α} {b : Option β}

theorem rel_some_left (h : Option.Rel R (some a) b) : ∃ y, b = some y ∧ R a y := by
  cases h with
  | some h => exact ⟨_, rfl, h⟩

theorem rel_none_left (h : Option.Rel R none b) : b = none := by
  cases h
  rfl

theorem rel_of_some {R' : α → β → Prop} {a : Option α} (h : Option.Rel R a b)
    (hR : ∀ y, b = some y → ∀ x, R x y → R' x y) : Option.Rel R' a b := by
  cases h with
  | some h => exact .some (hR _ rfl _ h)
  | none => exact .none

theorem lt_length_of_getElem? (h : l[i]? = some a) : i < l.length := (List.getElem?_eq_some_iff.mp h).1

/-! Two lists of slots of which one has empty slots that the other lacks. Below the frontier the lists
agree slot by slot; beyond it only their live entries do, in the same order. -/

section Aligned

variable {α : Type} {live : α → Bool} {frontier : Option Nat} {l l' : List α} {i : Nat}

def Aligned (live : α → Bool) (frontier : Option Nat) (l l' : List α) : Prop :=
  ∃ common tail tail', l = common ++ tail ∧ l' = common ++ tail' ∧ common.length =
    frontier.getD l.length ∧
    (frontier = none → tail' = []) ∧ tail.filter live = tail'.filter live

theorem aligned_refl (live : α → Bool) (l : List α) : Aligned live none l l := ⟨l, [], [], by simp⟩

theorem Aligned.append (h : Aligned live frontier l l') (a : α) :
    Aligned live frontier (l ++ [a]) (l' ++ [a]) := by
  obtain ⟨common, tail, tail', rfl, rfl, hlen, hnone, hfilter⟩ := h
  cases frontier with
  | none =>
    have htail : tail = [] := by simpa using hlen
    subst htail
    rw [hnone rfl]
    exact ⟨common ++ [a], [], [], by simp⟩
  | some => exact ⟨common, tail ++ [a], tail' ++ [a], by simp, by simp, hlen, nofun, by simp [hfilter]⟩

theorem Aligned.get (h : Aligned live frontier l l') (hi : i < frontier.getD l.length) : l'[i]? =
    l[i]? := by
  obtain ⟨common, tail, tail', rfl, rfl, hlen, _, _⟩ := h
  rw [← hlen] at hi
  rw [getElem?_append_left hi, getElem?_append_left hi]

section

variable (h : Aligned live frontier l l')
include h

theorem Aligned.frontier_le : frontier.getD l.length ≤ l.length := by
  obtain ⟨common, tail, tail', rfl, rfl, hlen, _, _⟩ := h
  rw [← hlen, length_append]
  omega

theorem Aligned.modify (hi : i < frontier.getD l.length) (f : α → α) :
    Aligned live frontier (l.modify i f) (l'.modify i f) := by
  obtain ⟨common, tail, tail', rfl, rfl, hlen, hnone, hfilter⟩ := h
  rw [← hlen] at hi
  rw [modify_append_left hi, modify_append_left hi]
  refine ⟨common.modify i f, tail, tail', rfl, rfl, ?_, hnone, hfilter⟩
  simpa using hlen

theorem Aligned.filter : l.filter live = l'.filter live := by
  obtain ⟨common, tail, tail', rfl, rfl, _, _, hfilter⟩ := h
  rw [filter_append, filter_append, hfilter]

end

def frontierAfter (frontier : Option Nat) (n n' : Nat) : Option Nat :=
  if n = n' then frontier else some (frontier.getD n)

theorem frontierAfter_getD (frontier : Option Nat) {n n' : Nat} :
    (frontierAfter frontier n n').getD n' = frontier.getD n := by
  unfold frontierAfter
  split
  next h => rw [h]
  next => rfl

/-- Empty slots left behind by one list keep the two aligned, with the frontier before them. -/
theorem Aligned.leave (h : Aligned live frontier l l') {empty : List α}
    (hempty : ∀ a ∈ empty, live a = false) :
    Aligned live (frontierAfter frontier l.length (l ++ empty).length) (l ++ empty) l' := by
  obtain ⟨common, tail, tail', rfl, rfl, hlen, hnone, hfilter⟩ := h
  refine ⟨common, tail ++ empty, tail', by simp, rfl, ?_, ?_, ?_⟩
  · rw [frontierAfter_getD, hlen]
  · intro hf
    unfold frontierAfter at hf
    split at hf
    · exact hnone hf
    · cases hf
  · have hnil := filter_eq_nil_iff.mpr (by simpa using hempty)
    rw [filter_append, hnil, append_nil, hfilter]

end Aligned

section AtSome

variable {α : Type} {P : List α → α → Prop} {l : List α} {x : α}

def AtSome (P : List α → α → Prop) (l : List α) : Prop := ∃ a x b, l = a ++ x :: b ∧ P a x

theorem not_atSome_nil : ¬AtSome P [] := by
  rintro ⟨a, x, b, h, _⟩
  simp at h

/-- Such a position lies before the last element or is that of the last element. -/
theorem atSome_concat : AtSome P (l ++ [x]) ↔ AtSome P l ∨ P l x := by
  constructor
  · rintro ⟨a, y, b, h, hp⟩
    rcases eq_nil_or_concat b with rfl | ⟨b', z, rfl⟩
    · obtain ⟨rfl, hx⟩ := append_inj' h rfl
      cases hx
      exact .inr hp
    · rw [concat_eq_append, ← cons_append, ← append_assoc] at h
      obtain ⟨rfl, _⟩ := append_inj' h rfl
      exact .inl ⟨a, y, b', rfl, hp⟩
  · rintro (⟨a, y, b, rfl, hp⟩ | hp)
    · exact ⟨a, y, b ++ [x], by simp, hp⟩
    · exact ⟨l, x, [], rfl, hp⟩

theorem not_atSome_of_concat (h : ¬AtSome P (l ++ [x])) : ¬AtSome P l :=
  fun hl => h (atSome_concat.mpr (.inl hl))

end AtSome

section Live

variable {α : Type} {live : α → Bool} {l l' : List α}

theorem filter_eq_nil_of_slots (h : ∀ i : Nat, (l[i]?).filter live = none) : l.filter live = [] := by
  rw [filter_eq_nil_iff]
  intro a ha
  obtain ⟨i, hi⟩ := mem_iff_getElem?.mp ha
  have := h i
  rw [hi, filter_eq_none_iff] at this
  simpa using this a rfl

/-- Lists that agree slot by slot on live elements have the same live elements in order. -/
theorem filter_eq_of_slots (h : ∀ i : Nat, (l'[i]?).filter live = (l[i]?).filter live) :
    l'.filter live = l.filter live := by
  induction l generalizing l' with
  | nil => exact filter_eq_nil_of_slots h
  | cons a l ih =>
    cases l' with
    | nil => exact (filter_eq_nil_of_slots fun i => (h i).symm).symm
    | cons b l' =>
      have hhead : (some b).filter live = (some a).filter live := h 0
      have htail := @ih l' fun i => h (i + 1)
      rw [filter_cons, filter_cons, htail]
      simp only [Option.filter] at hhead
      by_cases ha : live a = true
      · by_cases hb : live b = true
        · rw [if_pos ha, if_pos hb] at hhead
          cases hhead
          rfl
        · rw [if_pos ha, if_neg hb] at hhead
          cases hhead
      · by_cases hb : live b = true
        · rw [if_neg ha, if_pos hb] at hhead
          cases hhead
        · rw [if_neg ha, if_neg hb]

/-- Under one mask the live slots agree exactly when the lengths and the live elements do. -/
theorem slots_eq_iff_of_mask (hle : l.length ≤ l'.length)
    (hmask : ∀ (i : Nat) (a b : α), l[i]? = some a → l'[i]? = some b → live a = live b)
    (hrest : ∀ (i : Nat) (a : α), l.length ≤ i → l'[i]? = some a → live a = true) :
    (∀ i : Nat, (l'[i]?).filter live = (l[i]?).filter live) ↔
      l'.length = l.length ∧ ∀ (i : Nat) (a b : α), l[i]? = some a → l'[i]? = some b → live a =
        true → a = b := by
  constructor
  · intro h
    constructor
    · by_contra hne
      have hlt : l.length < l'.length := by omega
      have hb := getElem?_eq_getElem hlt
      have hslot := h l.length
      rw [hb, getElem?_eq_none (Nat.le_refl _), filter_none, filter_eq_none_iff] at hslot
      exact hslot _ rfl (hrest _ _ (Nat.le_refl _) hb)
    · intro i a b ha hb hlive
      have hslot := h i
      rw [ha, hb, filter_some_pos hlive, filter_eq_some_iff] at hslot
      exact (some.inj hslot.1).symm
  · rintro ⟨hlen, hagree⟩ i
    cases ha : l[i]? with
    | none =>
      have : l'[i]? = none := by
        rw [List.getElem?_eq_none_iff] at ha ⊢
        omega
      rw [this]
    | some a =>
      have hi := Nat.lt_of_lt_of_le (lt_length_of_getElem? ha) hle
      have hb := getElem?_eq_getElem hi
      rw [hb]
      by_cases hlive : live a = true
      · rw [hagree i a _ ha hb hlive]
      · have hdead : live a = false := Bool.not_eq_true _ ▸ hlive
        rw [filter_some_neg hdead, filter_some_neg ((hmask i a _ ha hb).symm.trans hdead)]

end Live

theorem update_some_eq_some [DecidableEq α] {f : α → Option β} {k : α} {v e : β}
    (h : update f a (some v) k = some e) : k = a ∧ e = v ∨ k ≠ a ∧ f k = some e := by
  rw [update_apply] at h
  split at h
  next hk =>
    subst hk
    exact .inl ⟨rfl, (some.inj h).symm⟩
  next hk =>
    exact .inr ⟨hk, h⟩

theorem flatMap_filter_of_nil {f : α → List β} {p : α → Bool} (h : ∀ a ∈ l, p a = false → f a = []) :
    l.flatMap f = (l.filter p).flatMap f := by
  induction l with
  | nil => rfl
  | cons a l ih =>
    have ih := ih (forall_mem_cons.mp h).2
    cases ha : p a with
    | true => rw [filter_cons_of_pos ha, flatMap_cons, flatMap_cons, ih]
    | false =>
      rw [filter_cons_of_neg (by simp [ha]), flatMap_cons, h a mem_cons_self ha, nil_append, ih]

theorem mapM_eq_some_map {f : α → Option β} {g : α → β} (h : ∀ a ∈ l, f a = some (g a)) :
    l.mapM f = some (l.map g) := by
  induction l with
  | nil => rfl
  | cons a l ih =>
    rw [forall_mem_cons] at h
    rw [mapM_cons, h.1, ih h.2]
    rfl

variable {ε : Type} {x : Except ε α}

theorem map_eq_ok {f : α → β} {b : β} : x.map f = .ok b ↔ ∃ a, x = .ok a ∧ f a = b := by
  cases x <;> simp [Except.map]

theorem bind_eq_ok {f : α → Except ε β} {b : β} : (x >>= f) = .ok b ↔ ∃ a, x = .ok a ∧ f a = .ok b := by
  cases x <;> simp [bind, Except.bind]

variable {p : Prop} [Decidable p] {e : ε}

theorem guard_ok (h : (if p then x else .error e) = .ok a) : p ∧ x = .ok a := by
  split at h
  next hp => exact ⟨hp, h⟩
  next => cases h

theorem reject_ok (h : (if p then .error e else x) = .ok a) : ¬p ∧ x = .ok a := by
  split at h
  next => cases h
  next hp => exact ⟨hp, h⟩

end Akar
