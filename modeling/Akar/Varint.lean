import Akar.ByteCodec
import Mathlib.Tactic.Ring

/-! Numbers of up to 64 bits in groups of seven, lowest first, the top bit of a byte saying that another follows. -/

namespace ByteCodec

open List

def writeVarint (value : Nat) : Bytes := if value >>> 7 = 0 then [UInt8.ofNat (value &&& 0x7F)]
  else (UInt8.ofNat (value &&& 0x7F) ||| 0x80) :: writeVarint (value >>> 7)
termination_by value
decreasing_by
  rw [Nat.shiftRight_eq_div_pow] at *
  omega

def varintLen (value : Nat) : Nat := if 0x80 ≤ value then varintLen (value >>> 7) + 1 else 1
termination_by value
decreasing_by
  rw [Nat.shiftRight_eq_div_pow]
  omega

def readVarintFrom {ε : Type} (tooMany eof : ε) : Bytes → Nat → Nat → Except ε (Nat × Bytes)
  | [], shift, _ => .error (if 63 < shift then tooMany else eof)
  | byte :: rest, shift, result =>
    if 63 < shift then .error tooMany
    else
      let result := result ||| ((byte &&& 0x7F).toNat <<< shift) % 2 ^ 64
      if byte &&& 0x80 = 0 then .ok (result, rest) else readVarintFrom tooMany eof rest (shift + 7)
        result

def readVarint {ε : Type} (tooMany eof : ε) : Reader ε Nat :=
  fun bs => readVarintFrom tooMany eof bs 0 0

theorem low_seven (value : Nat) : value &&& 0x7F = value % 128 := Nat.and_two_pow_sub_one_eq_mod value 7

theorem drop_seven (value : Nat) : value >>> 7 = value / 128 := Nat.shiftRight_eq_div_pow value 7

theorem group_bits : ∀ d < 128, (UInt8.ofNat d &&& 0x7F).toNat = d ∧ UInt8.ofNat d &&& 0x80 = 0 ∧
    ((UInt8.ofNat d ||| 0x80) &&& 0x7F).toNat = d ∧ (UInt8.ofNat d ||| 0x80) &&& 0x80 ≠ 0 := by
  decide +kernel

theorem varintLen_of_lt {value : Nat} (h : value < 128) : varintLen value = 1 := by
  rw [varintLen, if_neg (by omega)]

theorem length_writeVarint (value : Nat) : (writeVarint value).length = varintLen value := by
  fun_induction writeVarint value with
  | case1 value h =>
    exact (varintLen_of_lt (by omega)).symm
  | case2 value h ih =>
    rw [varintLen, if_pos (by omega), length_cons, ih]

theorem length_writeVarint_pos (value : Nat) : 0 < (writeVarint value).length := by
  rw [writeVarint]
  split
  next => exact Nat.zero_lt_one
  next => exact Nat.zero_lt_succ _

section

variable {ε : Type} {tooMany eof : ε} {acc shift : Nat}

theorem or_group {d : Nat} (hacc : acc < 2 ^ shift) (hd : d * 2 ^ shift < 2 ^ 64) :
    acc ||| (d <<< shift) % 2 ^ 64 = acc + d * 2 ^ shift := by
  rw [Nat.mod_eq_of_lt (by rw [Nat.shiftLeft_eq]; exact hd), Nat.or_comm,
    ← Nat.shiftLeft_add_eq_or_of_lt hacc, Nat.shiftLeft_eq, Nat.add_comm]

theorem readVarintFrom_writeVarint (v : Nat) (rest : Bytes) (hacc : acc < 2 ^ shift)
    (hshift : shift ≤ 63) (hv : v * 2 ^ shift < 2 ^ 64) :
    readVarintFrom tooMany eof (writeVarint v ++ rest) shift acc = .ok (acc + v * 2 ^ shift, rest) := by
  induction v using Nat.strongRecOn generalizing shift acc with
  | ind v ih =>
    obtain ⟨hlow, hstop, hlow', hmore⟩ := group_bits (v % 128) (by omega)
    have hle : v % 128 * 2 ^ shift ≤ v * 2 ^ shift := Nat.mul_le_mul_right _ (by omega)
    have hgroup := or_group hacc (hle.trans_lt hv)
    rw [writeVarint, low_seven, drop_seven]
    by_cases hlast : v / 128 = 0
    · have hmod : v % 128 = v := by omega
      rw [if_pos hlast, singleton_append, readVarintFrom, if_neg (by omega), hlow, if_pos hstop,
        hgroup, hmod]
    · have hsplit : v * 2 ^ shift = v % 128 * 2 ^ shift + v / 128 * 2 ^ (shift + 7) := by
        have hparts : v = 128 * (v / 128) + v % 128 := (Nat.div_add_mod v 128).symm
        calc v * 2 ^ shift = (128 * (v / 128) + v % 128) * 2 ^ shift := by rw [← hparts]
          _ = v % 128 * 2 ^ shift + v / 128 * 2 ^ (shift + 7) := by ring
      have hv' : v / 128 * 2 ^ (shift + 7) < 2 ^ 64 := by omega
      have hshift' : shift + 7 ≤ 63 := by
        have hone : 2 ^ (shift + 7) ≤ v / 128 * 2 ^ (shift + 7) := Nat.le_mul_of_pos_left _ (by omega)
        have hlt : shift + 7 < 64 := (Nat.pow_lt_pow_iff_right (by omega)).mp (hone.trans_lt hv')
        omega
      have hacc' : acc + v % 128 * 2 ^ shift < 2 ^ (shift + 7) := by
        have hbound : v % 128 * 2 ^ shift ≤ 127 * 2 ^ shift := Nat.mul_le_mul_right _ (by omega)
        have hpow : 2 ^ (shift + 7) = 128 * 2 ^ shift := by ring
        omega
      rw [if_neg hlast, cons_append, readVarintFrom, if_neg (by omega), hlow', if_neg hmore, hgroup,
        ih (v / 128) (by omega) hacc' hshift' hv', hsplit, Nat.add_assoc]

end

namespace Reader

variable {ε α β : Type} {r : Reader ε α} {f : α → Reader ε β} {bad : ε} {n k : Nat}

/-- The reader makes `a` of the bytes, whatever comes after them. -/
def Gives (r : Reader ε α) (bytes : Bytes) (a : α) : Prop := ∀ rest, r (bytes ++ rest) = .ok (a, rest)

theorem gives_pure (a : α) : Gives (pure a : Reader ε α) [] a := fun _ => rfl

theorem Gives.bind {xs ys : Bytes} {a : α} {b : β} (h : r.Gives xs a) (hf : (f a).Gives ys b) :
    (r.bind f).Gives (xs ++ ys) b := by
  intro rest
  rw [append_assoc, bind_ok (h _)]
  exact hf rest

theorem gives_exactly (eof : ε) (xs : Bytes) : (exactly eof xs.length).Gives xs xs :=
  fun rest => exactly_append eof xs rest rfl

theorem gives_many {write : α → Bytes} {as : List α} (h : ∀ a ∈ as, r.Gives (write a) a) :
    (many r as.length).Gives (as.flatMap write) as :=
  fun rest => many_flatMap h rest

theorem gives_varint (tooMany eof : ε) {v : Nat} (hv : v < 2 ^ 64) :
    (readVarint tooMany eof).Gives (writeVarint v) v := by
  intro rest
  rw [readVarint, readVarintFrom_writeVarint v rest Nat.zero_lt_one (Nat.zero_le _) (by omega)]
  simp

/-- On inputs of at most `n` bytes the reader does not fail with `bad`, and takes `k` bytes if it
succeeds. -/
def Avoids (bad : ε) (n k : Nat) (r : Reader ε α) : Prop :=
  ∀ bs : Bytes, bs.length ≤ n → r bs ≠ .error bad ∧ ∀ a rest, r bs = .ok (a, rest) →
    rest.length + k ≤ bs.length

variable {k' : Nat}

theorem Avoids.weaken (h : r.Avoids bad n k) {n' : Nat} (hn : n' ≤ n) (hk : k' ≤ k) :
    r.Avoids bad n' k' := by
  intro bs hbs
  obtain ⟨hbad, hok⟩ := h bs (hbs.trans hn)
  exact ⟨hbad, fun a rest hr => (Nat.add_le_add_left hk _).trans (hok a rest hr)⟩

theorem avoids_pure (a : α) : Avoids bad n 0 (pure a : Reader ε α) := by
  refine fun bs _ => ⟨fun h => ?_, fun b rest h => ?_⟩
  · cases h
  · cases h
    exact le_rfl

theorem Avoids.bind (h : r.Avoids bad n k) (hf : k ≤ n → ∀ a, (f a).Avoids bad (n - k) k') :
    (r.bind f).Avoids bad n (k + k') := by
  intro bs hbs
  obtain ⟨hbad, hok⟩ := h bs hbs
  cases hr : r bs with
  | error e =>
    have hbind : r.bind f bs = .error e := by simp only [Reader.bind, hr]
    rw [hbind]
    refine ⟨fun heq => hbad (hr.trans (congrArg _ (Except.error.inj heq))), fun b rest heq => ?_⟩
    cases heq
  | ok res =>
    obtain ⟨a, mid⟩ := res
    rw [bind_ok hr]
    have hmid := hok a mid hr
    obtain ⟨hbad', hok'⟩ := hf (by omega) a mid (by omega)
    refine ⟨hbad', fun b rest heq => ?_⟩
    have hrest := hok' b rest heq
    omega

theorem Avoids.then (h : r.Avoids bad n 0) (hf : ∀ a, (f a).Avoids bad n 0) :
    (r.bind f).Avoids bad n 0 :=
  h.bind fun _ => hf

theorem avoids_many (h : r.Avoids bad n 0) (m : Nat) : (many r m).Avoids bad n 0 := by
  induction m with
  | zero => exact avoids_pure _
  | succ m ih => exact h.then fun a => ih.then fun as => avoids_pure _

variable {eof : ε}

theorem avoids_exactly (he : eof ≠ bad) (m : Nat) : (exactly eof m).Avoids bad n 0 := by
  intro bs _
  unfold exactly
  split
  next =>
    refine ⟨fun heq => he (Except.error.inj heq), fun a rest heq => ?_⟩
    cases heq
  next =>
    refine ⟨fun heq => ?_, fun a rest heq => ?_⟩
    · cases heq
    · cases heq
      rw [length_drop]
      omega

theorem avoids_varint {tooMany : ε} (hmany : tooMany ≠ bad) (heof : eof ≠ bad) :
    (readVarint tooMany eof).Avoids bad n 1 := by
  have hfrom (bs : Bytes) : ∀ shift result, readVarintFrom tooMany eof bs shift result ≠ .error bad ∧
      ∀ a rest, readVarintFrom tooMany eof bs shift result = .ok (a, rest) → rest.length + 1 ≤
        bs.length := by
    induction bs with
    | nil =>
      intro shift result
      refine ⟨fun heq => ?_, fun a rest heq => ?_⟩
      · have hboth := Except.error.inj heq
        split at hboth
        · exact hmany hboth
        · exact heof hboth
      · cases heq
    | cons byte bs ih =>
      intro shift result
      rw [readVarintFrom]
      split
      next =>
        refine ⟨fun heq => hmany (Except.error.inj heq), fun a rest heq => ?_⟩
        cases heq
      next =>
        split
        next =>
          refine ⟨fun heq => ?_, fun a rest heq => ?_⟩
          · cases heq
          · cases heq
            exact le_rfl
        next =>
          obtain ⟨hbad, hok⟩ := ih (shift + 7) (result ||| ((byte &&& 0x7F).toNat <<< shift) % 2 ^ 64)
          refine ⟨hbad, fun a rest heq => ?_⟩
          have hrest := hok a rest heq
          rw [length_cons]
          omega
  exact fun bs _ => hfrom bs 0 0

end Reader

end ByteCodec
