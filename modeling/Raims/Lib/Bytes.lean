import Mathlib.Data.List.Basic
import Mathlib.Data.Nat.ModEq
import Mathlib.Tactic.Ring

/-!
# Bytes: numbers in a byte order, and checked reads of a buffer

A reader of untrusted bytes computes offsets and lengths from what it has
read. The reads here carry their own bound: one that leaves the first `lim`
bytes, a length that would be negative, and the use of something that was
never recorded are faults, and not values. A program written with them that
ends without a fault has read inside its bound only.
-/

namespace Bytes

/-! ## §1 Numbers in bytes -/

/-- The `w` low bytes of `n`, the most significant one first. -/
def be : Nat → Nat → List UInt8
  | 0, _ => []
  | w + 1, n => UInt8.ofNat (n / 256 ^ w) :: be w n

/-- The number that a string of bytes spells. -/
def ofBe (l : List UInt8) : Nat :=
  l.foldl (fun a b => a * 256 + b.toNat) 0

@[simp] theorem length_be (w n : Nat) : (be w n).length = w := by
  induction w with
  | zero => rfl
  | succ w ih => simp [be, ih]

theorem foldl_be (w n a : Nat) :
    (be w n).foldl (fun a b => a * 256 + b.toNat) a =
      a * 256 ^ w + n % 256 ^ w := by
  induction w generalizing a with
  | zero => simp [be, Nat.mod_one]
  | succ w ih =>
    rw [be, List.foldl_cons, ih, Nat.mod_pow_succ, UInt8.toNat_ofNat']
    ring

theorem ofBe_be_mod (w n : Nat) : ofBe (be w n) = n % 256 ^ w := by
  rw [ofBe, foldl_be, Nat.zero_mul, Nat.zero_add]

theorem ofBe_be {w n : Nat} (h : n < 256 ^ w) : ofBe (be w n) = n := by
  rw [ofBe_be_mod, Nat.mod_eq_of_lt h]

theorem foldl_lt (l : List UInt8) (a : Nat) :
    l.foldl (fun a b => a * 256 + b.toNat) a < (a + 1) * 256 ^ l.length := by
  induction l generalizing a with
  | nil => simp
  | cons x l ih =>
    have hx : a * 256 + x.toNat + 1 ≤ (a + 1) * 256 := by
      have := x.toNat_lt
      omega
    calc (x :: l).foldl (fun a b => a * 256 + b.toNat) a
        < (a * 256 + x.toNat + 1) * 256 ^ l.length := ih _
      _ ≤ (a + 1) * 256 * 256 ^ l.length := Nat.mul_le_mul_right _ hx
      _ = (a + 1) * 256 ^ (x :: l).length := by rw [List.length_cons, Nat.pow_succ']; ring

theorem ofBe_lt (l : List UInt8) : ofBe l < 256 ^ l.length := by
  have h := foldl_lt l 0
  rwa [Nat.zero_add, Nat.one_mul] at h

theorem foldl_ofBe (l : List UInt8) (a : Nat) :
    l.foldl (fun a b => a * 256 + b.toNat) a = a * 256 ^ l.length + ofBe l := by
  induction l generalizing a with
  | nil => simp [ofBe]
  | cons x l ih =>
    have hx : ofBe (x :: l) = x.toNat * 256 ^ l.length + ofBe l := by
      rw [ofBe, List.foldl_cons, ih, Nat.zero_mul, Nat.zero_add]
    rw [List.foldl_cons, ih, hx, List.length_cons]
    ring

theorem ofBe_cons (x : UInt8) (l : List UInt8) :
    ofBe (x :: l) = x.toNat * 256 ^ l.length + ofBe l := by
  rw [ofBe, List.foldl_cons, foldl_ofBe, Nat.zero_mul, Nat.zero_add]

theorem be_add_mul (w n a : Nat) : be w (a * 256 ^ w + n) = be w n := by
  have hall : ∀ v ≤ w, be v (a * 256 ^ w + n) = be v n := by
    intro v hv
    induction v with
    | zero => rfl
    | succ v ih =>
      obtain ⟨d, rfl⟩ := Nat.exists_eq_add_of_lt hv
      have hsplit : a * 256 ^ (v + d + 1) + n = n + 256 ^ v * (256 * (a * 256 ^ d)) := by ring
      have hdiv : (a * 256 ^ (v + d + 1) + n) / 256 ^ v = n / 256 ^ v + 256 * (a * 256 ^ d) := by
        rw [hsplit, Nat.add_mul_div_left _ _ (Nat.pow_pos (by decide))]
      rw [be, be, ih (by omega), hdiv]
      congr 1
      apply UInt8.toNat_inj.mp
      rw [UInt8.toNat_ofNat', UInt8.toNat_ofNat']
      omega
  exact hall w (Nat.le_refl w)

/-- The bytes of the number that they spell. -/
theorem be_ofBe (l : List UInt8) : be l.length (ofBe l) = l := by
  induction l with
  | nil => rfl
  | cons x l ih =>
    rw [ofBe_cons, List.length_cons, be, be_add_mul, ih]
    congr 1
    rw [Nat.add_comm, Nat.add_mul_div_right _ _ (Nat.pow_pos (by decide)), Nat.div_eq_of_lt (ofBe_lt l),
      Nat.zero_add, UInt8.ofNat_toNat]

/-- The `w` low bytes of `n`, the least significant one first. -/
def le (w n : Nat) : List UInt8 := (be w n).reverse

def ofLe (l : List UInt8) : Nat := ofBe l.reverse

@[simp] theorem length_le (w n : Nat) : (le w n).length = w := by
  rw [le, List.length_reverse, length_be]

theorem ofLe_le {w n : Nat} (h : n < 256 ^ w) : ofLe (le w n) = n := by
  rw [ofLe, le, List.reverse_reverse, ofBe_be h]

/-! ## §2 The bytes at an offset -/

/-- The `n` bytes from offset `i` on. -/
def bytesAt (l : List UInt8) (i n : Nat) : List UInt8 :=
  (l.drop i).take n

theorem bytesAt_append_left {l r : List UInt8} {i n : Nat}
    (h : i + n ≤ l.length) : bytesAt (l ++ r) i n = bytesAt l i n := by
  rw [bytesAt, bytesAt, List.drop_append_of_le_length (by omega),
    List.take_append_of_le_length (by rw [List.length_drop]; omega)]

theorem bytesAt_append_right (l r : List UInt8) (i n : Nat) :
    bytesAt (l ++ r) (l.length + i) n = bytesAt r i n := by
  rw [bytesAt, bytesAt, List.drop_length_add_append]

/-- The part between what stands before and what stands after it. -/
theorem bytesAt_middle (pre mid post : List UInt8) :
    bytesAt (pre ++ (mid ++ post)) pre.length mid.length = mid := by
  have h := bytesAt_append_right pre (mid ++ post) 0 mid.length
  rw [Nat.add_zero] at h
  rw [h, bytesAt_append_left (by omega), bytesAt]
  simp

theorem bytesAt_of_isPrefix {l mid : List UInt8} {i n : Nat} (pre : List UInt8)
    (h : pre ++ mid <+: l) (hi : pre.length = i) (hn : mid.length = n) : bytesAt l i n = mid := by
  obtain ⟨post, rfl⟩ := h
  rw [List.append_assoc, ← hi, ← hn, bytesAt_middle]

/-- A part of a part. -/
theorem bytesAt_bytesAt {l : List UInt8} {i n j k : Nat} (h : j + k ≤ n) :
    bytesAt (bytesAt l i n) j k = bytesAt l (i + j) k := by
  rw [bytesAt, bytesAt, bytesAt, List.drop_take, List.drop_drop, List.take_take,
    Nat.min_eq_left (by omega)]

/-! ## §3 Checked reads -/

/-- What a reader of untrusted bytes must not do. -/
inductive Fault
  /-- a read outside of the message -/
  | outside
  /-- a length that is less than zero -/
  | underflow
  /-- the use of what was not recorded -/
  | absent
deriving DecidableEq, Repr

@[simp] theorem ok_bind {α β : Type} (a : α) (f : α → Except Fault β) :
    (Except.ok a >>= f) = f a := rfl

/-- Read `n` bytes at `i` of a message that ends at `lim`. -/
def fetch (l : List UInt8) (lim i n : Nat) : Except Fault (List UInt8) :=
  if i + n ≤ lim then .ok (bytesAt l i n) else .error .outside

/-- An unsigned subtraction whose result is a length. -/
def lenSub (a b : Nat) : Except Fault Nat :=
  if b ≤ a then .ok (a - b) else .error .underflow

/-- What was recorded. -/
def recorded {α : Type} : Option α → Except Fault α
  | some a => .ok a
  | none => .error .absent

/-- A big endian number of `w` bytes. -/
def getBe (w : Nat) (l : List UInt8) (lim i : Nat) : Except Fault Nat := do
  let b ← fetch l lim i w
  return ofBe b

theorem fetch_ok {l : List UInt8} {lim i n : Nat} (h : i + n ≤ lim) :
    fetch l lim i n = .ok (bytesAt l i n) := if_pos h

theorem lenSub_ok {a b : Nat} (h : b ≤ a) : lenSub a b = .ok (a - b) := if_pos h

theorem getBe_ok {w : Nat} {l : List UInt8} {lim i : Nat} (h : i + w ≤ lim) :
    getBe w l lim i = .ok (ofBe (bytesAt l i w)) := by
  rw [getBe, fetch_ok h]
  rfl

/-- A read, and then the rest. -/
theorem isOk_fetch_bind {α : Type} {l : List UInt8} {lim i n : Nat}
    {f : List UInt8 → Except Fault α} :
    (fetch l lim i n >>= f).isOk ↔ i + n ≤ lim ∧ (f (bytesAt l i n)).isOk := by
  by_cases h : i + n ≤ lim
  · rw [fetch_ok h, ok_bind]
    exact ⟨fun hf => ⟨h, hf⟩, fun hf => hf.2⟩
  · rw [fetch, if_neg h]
    exact ⟨fun hf => absurd hf Bool.false_ne_true, fun hf => absurd hf.1 h⟩

theorem isOk_lenSub_bind {α : Type} {a b : Nat} {f : Nat → Except Fault α} :
    (lenSub a b >>= f).isOk ↔ b ≤ a ∧ (f (a - b)).isOk := by
  by_cases h : b ≤ a
  · rw [lenSub_ok h, ok_bind]
    exact ⟨fun hf => ⟨h, hf⟩, fun hf => hf.2⟩
  · rw [lenSub, if_neg h]
    exact ⟨fun hf => absurd hf Bool.false_ne_true, fun hf => absurd hf.1 h⟩

theorem isOk_recorded_bind {α β : Type} {o : Option α} {f : α → Except Fault β} :
    (recorded o >>= f).isOk ↔ o.isSome ∧ ∀ a ∈ o, (f a).isOk := by
  cases o with
  | none => exact ⟨fun hf => absurd hf Bool.false_ne_true, fun hf => absurd hf.1 Bool.false_ne_true⟩
  | some a =>
    simp only [recorded, ok_bind, Option.isSome_some, true_and, Option.mem_some_iff]
    exact ⟨fun hf _ ha => ha ▸ hf, fun hf => hf a rfl⟩

/-- One program, and then another one. -/
theorem isOk_unit_bind {x : Except Fault Unit} {f : Unit → Except Fault Unit} :
    (x >>= f).isOk ↔ x.isOk ∧ (f ()).isOk := by
  cases x with
  | error e => exact ⟨fun hf => absurd hf Bool.false_ne_true, fun hf => absurd hf.1 Bool.false_ne_true⟩
  | ok a => exact ⟨fun hf => ⟨rfl, hf⟩, fun hf => hf.2⟩

theorem isOk_return {α : Type} (a : α) : (pure a : Except Fault α).isOk := rfl

/-- A number read back from where it was written. -/
theorem getBe_be {w n lim : Nat} {l : List UInt8} {i : Nat}
    (h : bytesAt l i w = be w n) (hn : n < 256 ^ w) (hi : i + w ≤ lim) :
    getBe w l lim i = .ok n := by
  rw [getBe_ok hi, h, ofBe_be hn]

end Bytes
