import Mathlib.Algebra.Ring.Parity
import Mathlib.Logic.Function.Iterate

/-!
# A queue of changes that coalesces

A flag goes up and down. Each change is queued, unless the queue has the same
change already. Whoever replays the queue on the flag's old value takes the last
change it finds.
-/

namespace Coalesce

/-- A flag and the changes queued for it. -/
structure Flag where
  on : Bool
  queue : List Bool
deriving DecidableEq

/-- Queue a change, unless it is queued already. -/
def enqueue (queue : List Bool) (b : Bool) : List Bool :=
  if b ∈ queue then queue else queue ++ [b]

/-- The flag changes. -/
def toggle (f : Flag) : Flag := ⟨!f.on, enqueue f.queue (!f.on)⟩

/-- The queue applied in order to an old value. -/
def replay (queue : List Bool) (b : Bool) : Bool := queue.foldl (fun _ c => c) b

/-- The queue keeps the first two changes only, whatever comes after them. -/
theorem iterate_toggle (b : Bool) (k : ℕ) :
    toggle^[k] ⟨b, []⟩ = ⟨b ^^ decide (Odd k), [!b, b].take k⟩ := by
  induction k with
  | zero => simp
  | succ k ih =>
    rw [Function.iterate_succ_apply', ih]
    match k with
    | 0 => simp [toggle, enqueue]
    | 1 => cases b <;> decide
    | k + 2 =>
      have hparity : decide (Odd (k + 2 + 1)) = !decide (Odd (k + 2)) := by
        rw [decide_eq_decide.2 Nat.odd_add_one, decide_not]
      simp only [toggle, enqueue, hparity, List.take_succ_cons, List.take_nil]
      cases b <;> cases decide (Odd (k + 2)) <;> rfl

/-- After `k` changes the queue, replayed on the old value, gives the flag if and
only if at most two changes were made or the flag is back at its old value. -/
theorem replay_iterate_toggle_iff (b : Bool) (k : ℕ) :
    replay (toggle^[k] ⟨b, []⟩).queue b = (toggle^[k] ⟨b, []⟩).on ↔ k < 3 ∨ Even k := by
  rw [iterate_toggle]
  match k with
  | 0 => simp [replay]
  | 1 => simp [replay]
  | 2 => cases b <;> decide
  | k + 3 =>
    have hlt : ¬ k + 3 < 3 := by omega
    have hpar : ¬ Even (k + 3) ↔ Odd (k + 3) := Nat.not_even_iff_odd
    by_cases ho : Odd (k + 3)
    · simp [replay, ho, hlt, hpar.2 ho]
    · simp [replay, ho, not_not.1 (mt hpar.1 ho)]

end Coalesce
