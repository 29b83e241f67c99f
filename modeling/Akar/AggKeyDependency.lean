import Mathlib.Data.Set.Basic

namespace Akar.AggKeyDependency

open List

inductive KeyExpr where
  | property (var prop : String)
  | other (expr : String)
  deriving DecidableEq

def isIdProperty (name : String) : Bool :=
  let lower := name.toList.map Char.toLower
  lower = ['i', 'd'] || lower = ['_', 'i', 'd']

abbrev KeyProps := List (String × String)

def idProps (keys : List KeyExpr) : KeyProps :=
  keys.foldl (fun props key =>
    match key with
    | .property var prop =>
      if isIdProperty prop && (props.lookup var).isNone then (var, prop) :: props else props
    | .other _ => props) []

/-- The second pass: the first property of each variable that has none so far. -/
def varKeyProps (keys : List KeyExpr) : KeyProps :=
  keys.foldl (fun props key =>
    match key with
    | .property var prop => if (props.lookup var).isNone then (var, prop) :: props else props
    | .other _ => props) (idProps keys)

def isDependent (props : KeyProps) : KeyExpr → Bool
  | .property var prop =>
    match props.lookup var with
    | some keyProp => prop != keyProp
    | none => false
  | .other _ => false

/-- The group keys that `AggKeyDependency` leaves of an aggregate. -/
def reduceKeys (keys : List KeyExpr) : List KeyExpr :=
  if keys.length ≤ 1 then keys else keys.filter fun key => !isDependent (varKeyProps keys) key

section Kept

variable {keys : List KeyExpr}

def propsOf (keys : List KeyExpr) (var : String) : List String :=
  keys.filterMap fun key =>
    match key with
    | .property v prop => if v = var then some prop else none
    | .other _ => none

/-- What the pass takes for the key of a variable: its first property named `id` or `_id`, and where
there is none simply its first property. -/
def keyProp (keys : List KeyExpr) (var : String) : Option String :=
  ((propsOf keys var).find? isIdProperty).or (propsOf keys var).head?

def Kept (keys : List KeyExpr) : KeyExpr → Prop
  | .property var prop => keyProp keys var = some prop
  | .other _ => True

theorem propsOf_cons_property (v prop : String) (keys : List KeyExpr) (var : String) :
    propsOf (.property v prop :: keys) var = (if v = var then [prop] else []) ++ propsOf keys var := by
  by_cases h : v = var <;> simp [propsOf, h]

/-- One pass that notes, for each variable that has none, its first property that passes the
test. -/
def note (test : String → Bool) (props : KeyProps) : KeyExpr → KeyProps
  | .property var prop => if test prop && (props.lookup var).isNone then (var, prop) :: props else props
  | .other _ => props

theorem lookup_note (test : String → Bool) (keys : List KeyExpr) (props : KeyProps) (var : String) :
    (keys.foldl (note test) props).lookup var =
      (props.lookup var).or ((propsOf keys var).find? test) := by
  induction keys generalizing props with
  | nil => simp [propsOf]
  | cons key keys ih =>
    rw [foldl_cons, ih]
    cases key with
    | other => rfl
    | property v prop =>
      rw [propsOf_cons_property, find?_append, note]
      by_cases hv : v = var
      · subst hv
        cases htest : test prop <;> cases hprops : props.lookup v <;> simp [htest, hprops]
      · have hne : (var == v) = false := by simpa using fun h : var = v => hv h.symm
        rw [if_neg hv, find?_nil, Option.none_or]
        split
        · rw [lookup_cons, hne]
        · rfl

theorem lookup_varKeyProps (keys : List KeyExpr) (var : String) :
    (varKeyProps keys).lookup var = keyProp keys var := by
  have hid : idProps keys = keys.foldl (note isIdProperty) [] := rfl
  have hfirst : varKeyProps keys = keys.foldl (note fun _ => true) (idProps keys) := rfl
  rw [hfirst, lookup_note, hid, lookup_note, lookup_nil, Option.none_or, keyProp]
  cases propsOf keys var <;> rfl

theorem keyProp_isSome {var prop : String} (h : .property var prop ∈ keys) : ∃ p,
    keyProp keys var = some p := by
  have hmem : prop ∈ propsOf keys var := mem_filterMap.mpr ⟨_, h, if_pos rfl⟩
  unfold keyProp
  cases hprops : propsOf keys var with
  | nil => rw [hprops] at hmem; cases hmem
  | cons p props => cases (p :: props).find? isIdProperty <;> exact ⟨_, rfl⟩

theorem isDependent_iff {key : KeyExpr} (h : key ∈ keys) :
    isDependent (varKeyProps keys) key = true ↔ ¬Kept keys key := by
  cases key with
  | other => simp [isDependent, Kept]
  | property var prop =>
    obtain ⟨p, hp⟩ := keyProp_isSome h
    simp only [isDependent, Kept, lookup_varKeyProps, hp, bne_iff_ne, Option.some.injEq]
    exact ne_comm

/-- Of each variable's properties the pass keeps the one it takes for the key, and it keeps all
other keys. -/
theorem mem_reduceKeys {key : KeyExpr} : key ∈ reduceKeys keys ↔ key ∈ keys ∧ Kept keys key := by
  unfold reduceKeys
  split
  next hlen =>
    refine ⟨fun h => ⟨h, ?_⟩, And.left⟩
    -- one key alone is the key of its variable
    obtain ⟨key', rfl⟩ := length_eq_one_iff.mp (Nat.le_antisymm hlen (length_pos_of_mem h))
    obtain rfl := mem_singleton.mp h
    cases key with
    | other => trivial
    | property var prop => cases h : isIdProperty prop <;> simp [Kept, keyProp, propsOf, h]
  next =>
    rw [mem_filter]
    refine and_congr_right fun h => ?_
    rw [Bool.not_eq_true', ← Bool.not_eq_true, isDependent_iff h, not_not]

end Kept

section Groups

variable {ρ ν : Type} [DecidableEq ν] (eval : KeyExpr → ρ → ν) (rows : List ρ)

def groupOf (keys : List KeyExpr) (r : ρ) : List ρ :=
  rows.filter fun s => keys.all fun key => eval key s = eval key r

def groups (keys : List KeyExpr) : Set (List ρ) := { g | ∃ r ∈ rows, g = groupOf eval rows keys r }

variable {eval rows} {keys kept : List KeyExpr} {r s : ρ}

theorem mem_groupOf : s ∈ groupOf eval rows keys r ↔ s ∈ rows ∧ ∀ key ∈ keys, eval key s =
    eval key r := by
  simp [groupOf]

theorem groups_eq_iff (hsub : ∀ key ∈ kept, key ∈ keys) : groups eval rows kept =
    groups eval rows keys ↔
    ∀ r ∈ rows, ∀ s ∈ rows, (∀ key ∈ kept, eval key s = eval key r) → ∀ key ∈ keys, eval key s =
      eval key r := by
  constructor
  · intro h r hr s hs hagree key hkey
    -- the group of `r` under the kept keys is a group under all keys, and both rows are in it
    have hgroup : groupOf eval rows kept r ∈ groups eval rows keys := h ▸ ⟨r, hr, rfl⟩
    obtain ⟨t, -, ht⟩ := hgroup
    have hrt := (mem_groupOf.mp (ht ▸ mem_groupOf.mpr ⟨hr, fun _ _ => rfl⟩)).2 key hkey
    have hst := (mem_groupOf.mp (ht ▸ mem_groupOf.mpr ⟨hs, hagree⟩)).2 key hkey
    rw [hst, hrt]
  · intro h
    have hsame : ∀ r ∈ rows, groupOf eval rows kept r = groupOf eval rows keys r := by
      intro r hr
      apply filter_congr
      intro s hs
      rw [Bool.eq_iff_iff]
      simp only [all_eq_true, decide_eq_true_eq]
      exact ⟨h r hr s hs, fun hagree key hkey => hagree key (hsub key hkey)⟩
    ext g
    constructor
    · rintro ⟨r, hr, rfl⟩
      exact ⟨r, hr, hsame r hr⟩
    · rintro ⟨r, hr, rfl⟩
      exact ⟨r, hr, (hsame r hr).symm⟩

end Groups

def cell (key : KeyExpr) (r : String × String) : String :=
  if key = .property "a" "city" then r.1 else r.2

end Akar.AggKeyDependency
