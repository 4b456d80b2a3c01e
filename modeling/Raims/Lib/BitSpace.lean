import Mathlib.Data.Finset.Lattice.Fold
import Mathlib.Data.List.Range
import Mathlib.Order.Interval.Finset.Nat
import Mathlib.Order.Lattice.Nat

/-!
# Bit sets, enumerated in ascending order

A growable bit set is a `Finset ℕ`. What a `first`/`next` loop over it visits
is `toList`: the members, each once, in ascending order. The enumeration is a
filter of a range, so that it computes.
-/

namespace BitSpace

/-- The members in the order of a `first`/`next` loop. -/
def toList (s : Finset ℕ) : List ℕ :=
  (List.range (s.sup id + 1)).filter (· ∈ s)

@[simp] theorem mem_toList {s : Finset ℕ} {i : ℕ} : i ∈ toList s ↔ i ∈ s := by
  simp only [toList, List.mem_filter, List.mem_range, decide_eq_true_eq,
    and_iff_right_iff_imp]
  intro hi
  exact Nat.lt_succ_of_le (Finset.le_sup (f := id) hi)

/-- There are no more distinct indexes than the bound they are below. -/
theorem length_le_of_lt {l : List ℕ} {n : ℕ} (h : l.Nodup) (hlt : ∀ i ∈ l, i < n) :
    l.length ≤ n := by
  have hle := h.length_le_of_subset fun i hi => List.mem_range.mpr (hlt i hi)
  rwa [List.length_range] at hle

end BitSpace
