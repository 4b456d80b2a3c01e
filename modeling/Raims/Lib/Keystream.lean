import Mathlib.Data.List.Range
import Mathlib.Algebra.Ring.Nat

/-!
# Stream ciphers

A keystream gives a byte for each position of a stream. Enciphering XORs each byte
with that of its position, so a stream may be cut into pieces in any way, and
enciphering it twice from the same position gives it back.
-/

namespace Keystream

variable {ks : ℕ → UInt8}

/-- The bytes of a piece that starts at position `n`, enciphered. -/
def apply (ks : ℕ → UInt8) : ℕ → List UInt8 → List UInt8
  | _, [] => []
  | n, b :: l => (b ^^^ ks n) :: apply ks (n + 1) l

@[simp] theorem length_apply (n : ℕ) (l : List UInt8) : (apply ks n l).length = l.length := by
  induction l generalizing n with
  | nil => rfl
  | cons b l ih => rw [apply, List.length_cons, List.length_cons, ih]

theorem apply_append (n : ℕ) (l r : List UInt8) :
    apply ks n (l ++ r) = apply ks n l ++ apply ks (n + l.length) r := by
  induction l generalizing n with
  | nil => rfl
  | cons b l ih =>
    rw [List.cons_append, apply, apply, ih, List.cons_append, List.length_cons]
    rw [Nat.add_assoc, Nat.add_comm 1]

theorem apply_apply (n : ℕ) (l : List UInt8) : apply ks n (apply ks n l) = l := by
  induction l generalizing n with
  | nil => rfl
  | cons b l ih => rw [apply, apply, ih, UInt8.xor_assoc, UInt8.xor_self, UInt8.xor_zero]

theorem drop_apply (n m : ℕ) (l : List UInt8) :
    (apply ks n l).drop m = apply ks (n + m) (l.drop m) := by
  induction l generalizing n m with
  | nil => rw [List.drop_nil, apply, List.drop_nil, apply]
  | cons b l ih =>
    cases m with
    | zero => rfl
    | succ m =>
      rw [apply, List.drop_succ_cons, List.drop_succ_cons, ih, Nat.add_assoc, Nat.add_comm 1]

theorem take_apply (n m : ℕ) (l : List UInt8) :
    (apply ks n l).take m = apply ks n (l.take m) := by
  induction l generalizing n m with
  | nil => rw [List.take_nil, apply, List.take_nil]
  | cons b l ih =>
    cases m with
    | zero => rfl
    | succ m => rw [apply, List.take_succ_cons, List.take_succ_cons, apply, ih]

/-- The keystream from position `n` on, for `m` bytes. -/
def segment (ks : ℕ → UInt8) (n m : ℕ) : List UInt8 := (List.range' n m).map ks

@[simp] theorem length_segment (n m : ℕ) : (segment ks n m).length = m := by
  rw [segment, List.length_map, List.length_range']

theorem segment_append (n a b : ℕ) :
    segment ks n (a + b) = segment ks n a ++ segment ks (n + a) b := by
  rw [segment, segment, segment, ← List.range'_append_1, List.map_append]

theorem drop_segment (n a b : ℕ) : (segment ks n (a + b)).drop a = segment ks (n + a) b := by
  rw [segment_append]
  exact List.drop_left' (length_segment n a)

/-- A mask that covers the piece. -/
theorem zipWith_segment (n m : ℕ) (l : List UInt8) (h : l.length ≤ m) :
    List.zipWith (· ^^^ ·) l (segment ks n m) = apply ks n l := by
  induction l generalizing n m with
  | nil => rfl
  | cons b l ih =>
    cases m with
    | zero => exact absurd h (Nat.not_succ_le_zero _)
    | succ m =>
      have hstep := ih (n + 1) m (Nat.le_of_succ_le_succ h)
      rw [segment, List.range'_succ, List.map_cons, List.zipWith_cons_cons, apply]
      exact congrArg _ hstep

end Keystream
