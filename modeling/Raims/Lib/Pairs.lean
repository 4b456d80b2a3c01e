import Mathlib.Data.List.Nodup
import Mathlib.Data.List.Range

/-!
# The pairs of a list

Each element with each of those behind it. In a list without duplicates, every two elements
of it are one pair, in one of the two orders.
-/

namespace Pairs

variable {α β : Type*} {l : List α} {x y : α}

def pairs : List α → List (α × α)
  | [] => []
  | x :: l => l.map (x, ·) ++ pairs l

/-- By the index of the first element. -/
theorem flatMap_range_eq (f : α → α → β) (d : α) (l : List α) :
    ((List.range l.length).flatMap fun i => (l.drop (i + 1)).map fun y => f (l.getD i d) y) =
      (pairs l).map fun p => f p.1 p.2 := by
  induction l with
  | nil => rfl
  | cons x l ih =>
    rw [List.length_cons, List.range_succ_eq_map, List.flatMap_cons, List.flatMap_map, pairs,
      List.map_append, List.map_map, ← ih]
    rfl

theorem pairs_map (f : α → β) (l : List α) : pairs (l.map f) = (pairs l).map (Prod.map f f) := by
  induction l with
  | nil => rfl
  | cons x l ih =>
    rw [List.map_cons, pairs, pairs, ih, List.map_append, List.map_map, List.map_map]
    rfl

theorem mem_of_mem_pairs (h : (x, y) ∈ pairs l) : x ∈ l ∧ y ∈ l := by
  induction l with
  | nil => exact absurd h List.not_mem_nil
  | cons z l ih =>
    rcases List.mem_append.1 h with h | h
    · obtain ⟨w, hw, heq⟩ := List.mem_map.1 h
      obtain ⟨rfl, rfl⟩ := Prod.mk.inj heq
      exact ⟨List.mem_cons_self, List.mem_cons_of_mem _ hw⟩
    · exact ⟨List.mem_cons_of_mem z (ih h).1, List.mem_cons_of_mem z (ih h).2⟩

section Count

variable [DecidableEq α]

theorem countP_map_pair (z x y : α) (h : l.Nodup) :
    (l.map (z, ·)).countP (fun p => p = (x, y)) = if z = x ∧ y ∈ l then 1 else 0 := by
  rw [List.countP_map]
  by_cases hz : z = x
  · subst hz
    have hcount : l.countP ((fun p => decide (p = (z, y))) ∘ (z, ·)) = l.count y := by
      refine List.countP_congr fun w _ => ?_
      rw [Function.comp_apply, decide_eq_true_eq, Prod.mk.injEq, eq_self, true_and, beq_iff_eq]
    rw [hcount, h.count]
    simp only [true_and]
  · rw [if_neg fun h => hz h.1, List.countP_eq_zero]
    intro w _ hw
    rw [Function.comp_apply, decide_eq_true_eq, Prod.mk.injEq] at hw
    exact hz hw.1

/-- Every two elements are one pair. -/
theorem countP_pairs_add (h : l.Nodup) (hxy : x ≠ y) :
    (pairs l).countP (fun p => p = (x, y)) + (pairs l).countP (fun p => p = (y, x)) =
      if x ∈ l ∧ y ∈ l then 1 else 0 := by
  induction l with
  | nil => rfl
  | cons z l ih =>
    obtain ⟨hz, hl⟩ := List.nodup_cons.1 h
    rw [pairs, List.countP_append, List.countP_append, countP_map_pair z x y hl,
      countP_map_pair z y x hl, Nat.add_add_add_comm, ih hl]
    by_cases hzx : z = x
    · subst hzx
      have hne : ¬ (z = y ∧ z ∈ l) := fun h => hxy h.1
      have hnot : ¬ (z ∈ l ∧ y ∈ l) := fun h => hz h.1
      rw [if_neg hne, if_neg hnot]
      simp [hxy.symm]
    · by_cases hzy : z = y
      · subst hzy
        have hne : ¬ (z = x ∧ z ∈ l) := fun h => hz h.2
        have hnot : ¬ (x ∈ l ∧ z ∈ l) := fun h => hz h.2
        rw [if_neg hne, if_neg hnot]
        simp [hxy]
      · have hmem : ∀ w, z ≠ w → (w ∈ z :: l ↔ w ∈ l) := fun w hw =>
          List.mem_cons.trans (or_iff_right hw.symm)
        rw [if_neg fun h => hzx h.1, if_neg fun h => hzy h.1]
        simp only [hmem x hzx, hmem y hzy, Nat.zero_add]

theorem countP_pairs_self (h : l.Nodup) (x : α) :
    (pairs l).countP (fun p => p = (x, x)) = 0 := by
  induction l with
  | nil => rfl
  | cons z l ih =>
    obtain ⟨hz, hl⟩ := List.nodup_cons.1 h
    rw [pairs, List.countP_append, countP_map_pair z x x hl, ih hl, if_neg]
    rintro ⟨rfl, hx⟩
    exact hz hx

end Count

end Pairs
