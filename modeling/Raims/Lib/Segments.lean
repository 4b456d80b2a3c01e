import Mathlib.Algebra.Order.Ring.Nat
import Mathlib.Data.Nat.Log

/-!
# Indexes in segments that double

An array that grows without moving its elements: segment `i` has `base * 2 ^ i` of
them, so that the segments before it have `base * (2 ^ i - 1)`. Each index is in one
segment, at one place.
-/

namespace Segments

variable (base n : ℕ)

/-- The segment of an index. -/
def seg : ℕ := Nat.log 2 (n / base + 1)

/-- The first index of a segment. -/
def start (i : ℕ) : ℕ := base * (2 ^ i - 1)

/-- The place in the segment. -/
def off : ℕ := n - start base (seg base n)

variable {base n}

theorem start_succ (i : ℕ) : start base (i + 1) = start base i + base * 2 ^ i := by
  have hpos : 0 < 2 ^ i := Nat.two_pow_pos i
  rw [start, start, ← Nat.mul_add, Nat.pow_succ]
  congr 1
  omega

theorem start_le_iff (hbase : 0 < base) (i : ℕ) : start base i ≤ n ↔ i ≤ seg base n := by
  have hpos : 0 < 2 ^ i := Nat.two_pow_pos i
  rw [seg, Nat.le_log_iff_pow_le Nat.one_lt_two (Nat.succ_ne_zero _), start, Nat.mul_comm,
    ← Nat.le_div_iff_mul_le hbase]
  omega

/-- An index is not before its segment, and before the next one. -/
theorem start_seg_le (hbase : 0 < base) : start base (seg base n) ≤ n :=
  (start_le_iff hbase _).2 (Nat.le_refl _)

theorem lt_start_succ (hbase : 0 < base) : n < start base (seg base n + 1) := by
  by_contra hle
  exact Nat.not_succ_le_self _ ((start_le_iff hbase _).1 (Nat.not_lt.mp hle))

theorem seg_lt (hbase : 0 < base) {k : ℕ} (h : n < start base k) : seg base n < k := by
  by_contra hle
  exact Nat.not_le_of_lt h ((start_le_iff hbase k).2 (Nat.not_lt.mp hle))

theorem start_add_off (hbase : 0 < base) : start base (seg base n) + off base n = n :=
  Nat.add_sub_of_le (start_seg_le hbase)

theorem off_lt (hbase : 0 < base) : off base n < base * 2 ^ seg base n := by
  have hlt := lt_start_succ (n := n) hbase
  rw [start_succ] at hlt
  have hsum := start_add_off (n := n) hbase
  omega

/-- Two indexes are not at one place. -/
theorem eq_of_seg_off (hbase : 0 < base) {m : ℕ} (hseg : seg base n = seg base m)
    (hoff : off base n = off base m) : n = m := by
  rw [← start_add_off (n := n) hbase, hseg, hoff, start_add_off hbase]

end Segments
