import Mathlib.Data.UInt

/-!
Fixed-width little-endian numbers, the bytes of a text, and readers that consume a list of bytes from
the front.
-/

namespace ByteCodec

open List

abbrev Bytes := List UInt8

def toLe : Nat → Nat → Bytes
  | 0, _ => []
  | k + 1, n => UInt8.ofNat n :: toLe k (n / 256)

def ofLe : Bytes → Nat
  | [] => 0
  | b :: bs => b.toNat + 256 * ofLe bs

@[simp] theorem length_toLe (k n : Nat) : (toLe k n).length = k := by
  induction k generalizing n with
  | zero => rfl
  | succ k ih => simp [toLe, ih]

theorem ofLe_toLe (k n : Nat) : ofLe (toLe k n) = n % 256 ^ k := by
  induction k generalizing n with
  | zero => simp [toLe, ofLe, Nat.mod_one]
  | succ k ih =>
    rw [toLe, ofLe, ih, Nat.pow_succ, Nat.mul_comm (256 ^ k) 256, Nat.mod_mul]
    simp

theorem ofLe_toLe_of_lt {k n : Nat} (h : n < 256 ^ k) : ofLe (toLe k n) = n := by
  rw [ofLe_toLe, Nat.mod_eq_of_lt h]

theorem ofLe_lt (bs : Bytes) : ofLe bs < 256 ^ bs.length := by
  induction bs with
  | nil => simp [ofLe]
  | cons b =>
    have hb := b.toNat_lt
    rw [ofLe, length_cons, Nat.pow_succ]
    omega

theorem toList_loop (b : ByteArray) (i : Nat) (acc : List UInt8) :
    ByteArray.toList.loop b i acc = acc.reverse ++ b.data.toList.drop i := by
  fun_induction ByteArray.toList.loop b i acc with
  | case1 i acc h ih =>
    have hi : i < b.data.toList.length := by simpa using h
    have hget : b.get! i = b.data.toList[i] := by
      show b.data[i]! = _
      rw [getElem!_pos b.data i (by simpa using hi)]
      simp
    rw [ih, drop_eq_getElem_cons hi, reverse_cons, append_assoc, hget]
    rfl
  | case2 i acc h => rw [drop_eq_nil_of_le (by simpa using h), append_nil]

theorem toUTF8_toList_inj {s s' : String} (h : s.toUTF8.toList = s'.toUTF8.toList) : s = s' := by
  have hdata : s.toByteArray.data.toList = s'.toByteArray.data.toList := by
    simpa [ByteArray.toList, toList_loop] using h
  exact String.toByteArray_inj.mp (ByteArray.ext (Array.toList_inj.mp hdata))

abbrev Reader (ε α : Type) := Bytes → Except ε (α × Bytes)

namespace Reader

variable {ε α β : Type}

def pure (a : α) : Reader ε α := fun bs => .ok (a, bs)

def bind (r : Reader ε α) (f : α → Reader ε β) : Reader ε β := fun bs =>
  match r bs with
  | .ok (a, rest) => f a rest
  | .error e => .error e

def exactly (eof : ε) (n : Nat) : Reader ε Bytes := fun bs =>
  if bs.length < n then .error eof else .ok (bs.take n, bs.drop n)

def le (eof : ε) (n : Nat) : Reader ε Nat := (exactly eof n).bind fun bs => pure (ofLe bs)

def many (r : Reader ε α) : Nat → Reader ε (List α)
  | 0 => pure []
  | n + 1 => r.bind fun a => (many r n).bind fun as => pure (a :: as)

variable {r : Reader ε α} {bs : Bytes} {a : α} {f : α → Reader ε β} {rest : Bytes}

theorem bind_ok (h : r bs = .ok (a, rest)) : r.bind f bs = f a rest := by
  simp only [bind, h]

variable {n : Nat}

theorem exactly_append (eof : ε) (xs rest : Bytes) (h : xs.length = n) :
    exactly eof n (xs ++ rest) = .ok (xs, rest) := by
  subst h
  simp [exactly]

variable {eof : ε}

theorem le_append (eof : ε) (k n : Nat) (rest : Bytes) : le eof k (toLe k n ++ rest) =
    .ok (n % 256 ^ k, rest) := by
  rw [le, bind_ok (exactly_append eof _ rest (length_toLe k n)), ofLe_toLe]
  rfl

theorem le_eof (h : bs.length < n) : le eof n bs = .error eof := by
  simp only [le, bind, exactly, if_pos h]

theorem many_flatMap {write : α → Bytes} {as : List α}
    (h : ∀ a ∈ as, ∀ rest, r (write a ++ rest) = .ok (a, rest))
    (rest : Bytes) : many r as.length (as.flatMap write ++ rest) = .ok (as, rest) := by
  induction as with
  | nil => rfl
  | cons a as ih =>
    have hrest := ih (forall_mem_cons.mp h).2
    rw [flatMap_cons, append_assoc, length_cons, many, bind_ok (h a mem_cons_self _), bind_ok hrest]
    rfl

/-- What the reader gives meets `P`, and it depends on nothing but the bytes taken. -/
def Reads (P : α → Prop) (r : Reader ε α) : Prop :=
  ∀ bs a rest, r bs = .ok (a, rest) → P a ∧ ∃ used, bs = used ++ rest ∧ ∀ more, r (used ++ more) =
    .ok (a, more)

variable {P : α → Prop}

theorem reads_pure (h : P a) : Reads P (pure a : Reader ε α) := by
  intro bs b rest heq
  cases heq
  exact ⟨h, [], rfl, fun _ => rfl⟩

theorem reads_exactly (eof : ε) (n : Nat) : Reads (fun bs => bs.length = n) (exactly eof n) := by
  intro bs a rest h
  unfold exactly at h
  split at h
  · cases h
  next hlen =>
    cases h
    have htake := length_take_of_le (Nat.le_of_not_lt hlen)
    exact ⟨htake, bs.take n, (take_append_drop n bs).symm, fun more => exactly_append eof _ more htake⟩

theorem Reads.bind {Q : β → Prop} (hr : r.Reads P) (hf : ∀ a, P a → (f a).Reads Q) :
    (r.bind f).Reads Q := by
  intro bs b rest h
  cases hbs : r bs with
  | error e => simp only [Reader.bind, hbs] at h; cases h
  | ok res =>
    obtain ⟨a, mid⟩ := res
    rw [bind_ok hbs] at h
    obtain ⟨hP, used, rfl, hused⟩ := hr bs a mid hbs
    obtain ⟨hQ, used', rfl, hused'⟩ := hf a hP mid b rest h
    refine ⟨hQ, used ++ used', (append_assoc ..).symm, fun more => ?_⟩
    rw [append_assoc, bind_ok (hused _), hused' more]

theorem reads_le (eof : ε) (n : Nat) : Reads (fun x => x < 256 ^ n) (le eof n) :=
  (reads_exactly eof n).bind fun bs h => reads_pure (h ▸ ofLe_lt bs)

theorem Reads.length_le (hr : r.Reads P) (h : r bs = .ok (a, rest)) : rest.length ≤ bs.length := by
  obtain ⟨-, used, rfl, -⟩ := hr bs a rest h
  rw [length_append]
  exact Nat.le_add_left ..

end Reader

end ByteCodec
