import Mathlib.Data.Int.Init
import Mathlib.Algebra.Group.Nat.Defs
import Mathlib.Algebra.Order.Group.Unbundled.Int

/-!
# Serial numbers

Numbers that count past the end of a word, compared by the sign of the difference
of their words. A number stands for its remainder; the comparison sees no more of it,
and it is the order of the numbers as long as they are less than half of the word
apart.
-/

namespace Serial

/-- The difference of two numbers as a signed word of `w` bits. -/
def cmp (w a b : ℕ) : ℤ := Int.bmod (a - b) (2 ^ w)

variable {w a b : ℕ}

/-- The comparison depends on the words only. -/
theorem cmp_mod (w a b : ℕ) : cmp w (a % 2 ^ w) (b % 2 ^ w) = cmp w a b := by
  rw [cmp, cmp, Int.natCast_emod, Int.natCast_emod]
  rw [Int.bmod_def, Int.bmod_def, ← Int.sub_emod]

/-- Numbers less than half of the word apart have their true difference. -/
theorem cmp_eq (h : a < b + 2 ^ w) (h' : b < a + 2 ^ w) : cmp (w + 1) a b = a - b := by
  have hpow : ((2 ^ (w + 1) : ℕ) : ℤ) = 2 * (2 ^ w : ℕ) := by
    rw [Nat.pow_succ]
    omega
  rw [cmp]
  refine Int.bmod_eq_of_le_mul_two ?_ ?_
  · rw [hpow]
    omega
  · rw [hpow]
    omega

end Serial
