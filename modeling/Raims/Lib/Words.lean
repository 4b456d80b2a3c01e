import Mathlib.Data.Nat.Bitwise
import Mathlib.Tactic.Ring

/-!
# Words: 64-bit limbs of larger numbers

Code that computes with numbers of more than 64 bits cuts them into limbs of
fewer than 64 bits, with masks and shifts, and adds products of two limbs in
words of 128 bits. Here is what each of these operations is on the numbers
that the words stand for, as long as no carry is lost.
-/

namespace Words

/-! ## §1 Masks and shifts -/

variable {x y m s : UInt64} {k : ℕ}

theorem toNat_and_mask (hm : m.toNat = 2 ^ k - 1) : (x &&& m).toNat = x.toNat % 2 ^ k := by
  rw [UInt64.toNat_and, hm, Nat.and_two_pow_sub_one_eq_mod]

theorem toNat_shiftRight (hs : s.toNat < 64) : (x >>> s).toNat = x.toNat / 2 ^ s.toNat := by
  rw [UInt64.toNat_shiftRight, Nat.mod_eq_of_lt hs, Nat.shiftRight_eq_div_pow]

theorem toNat_shiftLeft (hs : s.toNat < 64) :
    (x <<< s).toNat = x.toNat * 2 ^ s.toNat % 2 ^ 64 := by
  rw [UInt64.toNat_shiftLeft, Nat.mod_eq_of_lt hs, Nat.shiftLeft_eq]

/-- Bits under a multiple of a power of two are added to it. -/
theorem or_mul_two_pow {a b : ℕ} (h : a < 2 ^ k) : a ||| b * 2 ^ k = a + b * 2 ^ k := by
  rw [Nat.or_comm, ← Nat.shiftLeft_eq, ← Nat.shiftLeft_add_eq_or_of_lt h, Nat.add_comm]

theorem toNat_or_of_lt {b : ℕ} (hx : x.toNat < 2 ^ k) (hy : y.toNat = b * 2 ^ k) :
    (x ||| y).toNat = x.toNat + y.toNat := by
  rw [UInt64.toNat_or, hy, or_mul_two_pow hx]

/-- The two words `t0` and `t1` are shifted as one, `a` bits down. -/
theorem toNat_or_shift {t0 t1 a b : UInt64} (ha : 0 < a.toNat) (hb : 0 < b.toNat)
    (hab : a.toNat + b.toNat = 64) :
    (t0 >>> a ||| t1 <<< b).toNat =
      (t0.toNat + 2 ^ 64 * t1.toNat) / 2 ^ a.toNat % 2 ^ 64 := by
  have hsplit : (2 : ℕ) ^ 64 = 2 ^ a.toNat * 2 ^ b.toNat := by rw [← pow_add, hab]
  have hpos : 0 < 2 ^ a.toNat := Nat.two_pow_pos _
  have hdiv : (t0.toNat + 2 ^ 64 * t1.toNat) / 2 ^ a.toNat =
      t0.toNat / 2 ^ a.toNat + t1.toNat * 2 ^ b.toNat := by
    rw [hsplit, Nat.mul_assoc, Nat.add_mul_div_left _ _ hpos, Nat.mul_comm (2 ^ b.toNat)]
  have hlow : t0.toNat / 2 ^ a.toNat < 2 ^ b.toNat := by
    rw [Nat.div_lt_iff_lt_mul hpos, Nat.mul_comm, ← hsplit]
    exact t0.toNat_lt
  have hhigh : t1.toNat * 2 ^ b.toNat % 2 ^ 64 = t1.toNat % 2 ^ a.toNat * 2 ^ b.toNat := by
    rw [hsplit, Nat.mul_mod_mul_right]
  have hlt : t0.toNat / 2 ^ a.toNat + t1.toNat % 2 ^ a.toNat * 2 ^ b.toNat < 2 ^ 64 := by
    have hmod : t1.toNat % 2 ^ a.toNat + 1 ≤ 2 ^ a.toNat := Nat.mod_lt _ hpos
    have := Nat.mul_le_mul_right (2 ^ b.toNat) hmod
    rw [← hsplit] at this
    rw [Nat.add_mul] at this
    omega
  rw [UInt64.toNat_or, toNat_shiftRight (by omega), toNat_shiftLeft (by omega), hhigh,
    or_mul_two_pow hlow, hdiv, ← Nat.mod_eq_of_lt hlt, ← hhigh, Nat.add_mod_mod]

/-- The `k` bits from bit `a` on of the two words `t0` and `t1`. -/
theorem toNat_window {t0 t1 a b : UInt64} (ha : 0 < a.toNat) (hb : 0 < b.toNat)
    (hab : a.toNat + b.toNat = 64) (hm : m.toNat = 2 ^ k - 1) (hk : k ≤ 64) :
    ((t0 >>> a ||| t1 <<< b) &&& m).toNat =
      (t0.toNat + 2 ^ 64 * t1.toNat) / 2 ^ a.toNat % 2 ^ k := by
  rw [toNat_and_mask hm, toNat_or_shift ha hb hab, Nat.mod_mod_of_dvd _ (pow_dvd_pow 2 hk)]

/-! ## §2 Sums and products that lose no carry -/

theorem toNat_add (h : x.toNat + y.toNat < 2 ^ 64) : (x + y).toNat = x.toNat + y.toNat := by
  rw [UInt64.toNat_add, Nat.mod_eq_of_lt h]

theorem toNat_mul (h : x.toNat * y.toNat < 2 ^ 64) : (x * y).toNat = x.toNat * y.toNat := by
  rw [UInt64.toNat_mul, Nat.mod_eq_of_lt h]

theorem toNat_sub (h : y.toNat ≤ x.toNat) : (x - y).toNat = x.toNat - y.toNat :=
  UInt64.toNat_sub_of_le _ _ (UInt64.le_iff_toNat_le.2 h)

/-- A word as a word of 128 bits. -/
def wide (x : UInt64) : BitVec 128 := x.toBitVec.setWidth 128

/-- The low word. -/
def lo128 (d : BitVec 128) : UInt64 := ⟨d.setWidth 64⟩

/-- The low word of what is shifted down. -/
def shr128 (d : BitVec 128) (n : ℕ) : UInt64 := ⟨(d >>> n).setWidth 64⟩

variable {d e : BitVec 128} {n : ℕ}

@[simp] theorem toNat_wide (x : UInt64) : (wide x).toNat = x.toNat := by
  rw [wide, BitVec.toNat_setWidth_of_le (by decide), UInt64.toNat_toBitVec]

theorem toNat_wide_mul (x y : UInt64) : (wide x * wide y).toNat = x.toNat * y.toNat := by
  have h : x.toNat * y.toNat < 2 ^ 64 * 2 ^ 64 := Nat.mul_lt_mul'' x.toNat_lt y.toNat_lt
  rw [BitVec.toNat_mul, toNat_wide, toNat_wide, Nat.mod_eq_of_lt (h.trans_eq (by norm_num))]

theorem toNat_lo128 (d : BitVec 128) : (lo128 d).toNat = d.toNat % 2 ^ 64 :=
  BitVec.toNat_setWidth _ _

/-- The `k` low bits. -/
theorem toNat_lo128_and (hm : m.toNat = 2 ^ k - 1) (hk : k ≤ 64) :
    (lo128 d &&& m).toNat = d.toNat % 2 ^ k := by
  rw [toNat_and_mask hm, toNat_lo128, Nat.mod_mod_of_dvd _ (pow_dvd_pow 2 hk)]

theorem toNat_shr128 (h : d.toNat / 2 ^ n < 2 ^ 64) : (shr128 d n).toNat = d.toNat / 2 ^ n := by
  have hd : (shr128 d n).toNat = d.toNat >>> n % 2 ^ 64 := by
    show ((d >>> n).setWidth 64).toNat = _
    rw [BitVec.toNat_setWidth, BitVec.toNat_ushiftRight]
  rw [hd, Nat.shiftRight_eq_div_pow, Nat.mod_eq_of_lt h]

theorem toNat_wadd (h : d.toNat + e.toNat < 2 ^ 128) : (d + e).toNat = d.toNat + e.toNat := by
  rw [BitVec.toNat_add, Nat.mod_eq_of_lt h]

end Words
