import Mathlib.Data.List.Basic

/-!
# Input that is taken in blocks

A function of blocks is fed with input that comes in parts of any length: whole blocks
go through it, and what is left over waits for the next part. The state depends on all
of the input only, and not on where the parts end.
-/

namespace BlockFeed

variable {σ α : Type*} {n : ℕ} (f : σ → List α → σ)

/-- The state after the whole blocks of `n`, and what is left over. -/
def feed (n : ℕ) (s : σ) (l : List α) : σ × List α :=
  if 0 < n ∧ n ≤ l.length then feed n (f s (l.take n)) (l.drop n) else (s, l)
termination_by l.length
decreasing_by
  rename_i h
  rw [List.length_drop]
  omega

theorem feed_of_lt {s : σ} {l : List α} (h : l.length < n) : feed f n s l = (s, l) := by
  rw [feed, if_neg (by omega)]

theorem feed_of_le (hn : 0 < n) {s : σ} {l : List α} (h : n ≤ l.length) :
    feed f n s l = feed f n (f s (l.take n)) (l.drop n) := by
  rw [feed, if_pos ⟨hn, h⟩]

/-- A whole block first. -/
theorem feed_block_append (hn : 0 < n) {s : σ} {b l : List α} (h : b.length = n) :
    feed f n s (b ++ l) = feed f n (f s b) l := by
  have hle : n ≤ (b ++ l).length := by
    rw [List.length_append]
    omega
  rw [feed_of_le f hn hle, ← h, List.take_left, List.drop_left]

theorem feed_block (hn : 0 < n) {s : σ} {b : List α} (h : b.length = n) :
    feed f n s b = (f s b, []) := by
  have hnil := feed_block_append f hn (s := s) (l := []) h
  rw [List.append_nil] at hnil
  rw [hnil, feed_of_lt f hn]

/-- Parts of the input, one after the other. -/
theorem feed_append (hn : 0 < n) (s : σ) (l l' : List α) :
    feed f n s (l ++ l') = feed f n (feed f n s l).1 ((feed f n s l).2 ++ l') := by
  induction hk : l.length using Nat.strongRecOn generalizing s l with
  | ind k ih =>
    by_cases h : n ≤ l.length
    · have hsplit : l ++ l' = l.take n ++ (l.drop n ++ l') := by
        rw [← List.append_assoc, List.take_append_drop]
      have htake : (l.take n).length = n := by
        rw [List.length_take]
        omega
      rw [feed_of_le f hn h, hsplit, feed_block_append f hn htake]
      refine ih (l.drop n).length ?_ _ _ rfl
      rw [List.length_drop]
      omega
    · rw [feed_of_lt f (by omega : l.length < n)]

theorem length_rest (hn : 0 < n) (s : σ) (l : List α) :
    (feed f n s l).2.length = l.length % n := by
  induction hk : l.length using Nat.strongRecOn generalizing s l with
  | ind k ih =>
    by_cases h : n ≤ l.length
    · rw [feed_of_le f hn h, ih (l.drop n).length (by rw [List.length_drop]; omega) _ _ rfl,
        List.length_drop, ← hk, ← Nat.mod_eq_sub_mod h]
    · rw [feed_of_lt f (by omega), Nat.mod_eq_of_lt (by omega)]
      exact hk

end BlockFeed
