import Mathlib.Data.List.Range
import Mathlib.Logic.Function.Basic

/-!
# Arrays with dead slots

An array whose slots are live or dead: the live slots of a range in order, the
search for the next live slot in both directions, and compaction, which moves the
live slots of a range to the front.
-/

namespace Slots

variable {α : Type*} {p : α → Bool} {slot slot' : ℕ → α} {a b i k : ℕ}

/-- The live slots from `a` up to `b`, without `b`. -/
def live (p : α → Bool) (slot : ℕ → α) (a b : ℕ) : List α :=
  ((List.range' a (b - a)).map slot).filter p

theorem live_of_le (h : b ≤ a) : live p slot a b = [] := by
  simp [live, Nat.sub_eq_zero_of_le h]

theorem live_append (ha : a ≤ i) (hb : i ≤ b) :
    live p slot a b = live p slot a i ++ live p slot i b := by
  have hsplit : List.range' a (b - a) = List.range' a (i - a) ++ List.range' i (b - i) := by
    have h := List.range'_append_1 (s := a) (m := i - a) (n := b - i)
    rw [Nat.add_sub_cancel' ha] at h
    rw [h]
    congr 1
    omega
  simp [live, hsplit]

theorem live_succ (i : ℕ) :
    live p slot i (i + 1) = if p (slot i) then [slot i] else [] := by
  by_cases h : p (slot i) <;> simp [live, h]

theorem live_cons (h : a < b) :
    live p slot a b = (if p (slot a) then [slot a] else []) ++ live p slot (a + 1) b := by
  rw [live_append (Nat.le_succ a) h, live_succ]

theorem live_snoc (h : a ≤ b) :
    live p slot a (b + 1) = live p slot a b ++ if p (slot b) then [slot b] else [] := by
  rw [live_append h (Nat.le_succ b), live_succ]

theorem live_congr (h : ∀ i, a ≤ i → i < b → slot' i = slot i) :
    live p slot' a b = live p slot a b := by
  have hmap : (List.range' a (b - a)).map slot' = (List.range' a (b - a)).map slot := by
    refine List.map_congr_left fun i hi => ?_
    rw [List.mem_range'_1] at hi
    exact h i hi.1 (by omega)
  rw [live, live, hmap]

theorem mem_live {x : α} :
    x ∈ live p slot a b ↔ ∃ i, a ≤ i ∧ i < b ∧ p (slot i) = true ∧ slot i = x := by
  simp only [live, List.mem_filter, List.mem_map, List.mem_range'_1]
  constructor
  · rintro ⟨⟨i, hi, rfl⟩, hp⟩
    exact ⟨i, hi.1, by omega, hp, rfl⟩
  · rintro ⟨i, ha, hb, hp, rfl⟩
    exact ⟨⟨i, ⟨ha, by omega⟩, rfl⟩, hp⟩

theorem length_live_le (p : α → Bool) (slot : ℕ → α) (a b : ℕ) :
    (live p slot a b).length ≤ b - a := by
  have h := List.length_filter_le p ((List.range' a (b - a)).map slot)
  simpa [live] using h

/-! ## The next live slot -/

/-- The first live slot from `i` on, within `fuel` slots. -/
def next (p : α → Bool) (slot : ℕ → α) : ℕ → ℕ → ℕ
  | 0, i => i
  | fuel + 1, i => if p (slot i) then i else next p slot fuel (i + 1)

theorem next_spec (fuel : ℕ) (hi : i ≤ k) (hk : k < i + fuel) (hp : p (slot k) = true) :
    i ≤ next p slot fuel i ∧ next p slot fuel i ≤ k ∧ p (slot (next p slot fuel i)) = true ∧
      live p slot i (next p slot fuel i) = [] := by
  induction fuel generalizing i with
  | zero => omega
  | succ fuel ih =>
    rw [next]
    by_cases hlive : p (slot i) = true
    · rw [if_pos hlive]
      exact ⟨le_refl i, hi, hlive, live_of_le (le_refl i)⟩
    · rw [if_neg hlive]
      have hne : i ≠ k := by
        rintro rfl
        exact hlive hp
      obtain ⟨h1, h2, h3, h4⟩ := ih (i := i + 1) (by omega) (by omega)
      refine ⟨by omega, h2, h3, ?_⟩
      rw [live_cons (by omega), if_neg hlive, List.nil_append]
      exact h4

/-- The last live slot up to `i`, within `fuel` slots. -/
def prev (p : α → Bool) (slot : ℕ → α) : ℕ → ℕ → ℕ
  | 0, i => i
  | fuel + 1, i => if p (slot i) then i else prev p slot fuel (i - 1)

theorem prev_spec (fuel : ℕ) (hi : k ≤ i) (hk : i < k + fuel) (hp : p (slot k) = true) :
    k ≤ prev p slot fuel i ∧ prev p slot fuel i ≤ i ∧ p (slot (prev p slot fuel i)) = true ∧
      live p slot (prev p slot fuel i + 1) (i + 1) = [] := by
  induction fuel generalizing i with
  | zero => omega
  | succ fuel ih =>
    rw [prev]
    by_cases hlive : p (slot i) = true
    · rw [if_pos hlive]
      exact ⟨hi, le_refl i, hlive, live_of_le (le_refl _)⟩
    · rw [if_neg hlive]
      have hne : k ≠ i := by
        rintro rfl
        exact hlive hp
      obtain ⟨h1, h2, h3, h4⟩ := ih (i := i - 1) (by omega) (by omega)
      refine ⟨h1, by omega, h3, ?_⟩
      rw [live_snoc (by omega), if_neg hlive, List.append_nil]
      rw [Nat.sub_add_cancel (by omega)] at h4
      exact h4

/-! ## Compaction -/

/-- One slot of the range, moved to the first free place if it is live. -/
def compactStep (p : α → Bool) (s : (ℕ → α) × ℕ) (i : ℕ) : (ℕ → α) × ℕ :=
  if p (s.1 i) then (Function.update s.1 s.2 (s.1 i), s.2 + 1) else s

/-- The live slots of a range moved to the front, and their number. -/
def compact (p : α → Bool) (slot : ℕ → α) (a b : ℕ) : (ℕ → α) × ℕ :=
  (List.range' a (b - a)).foldl (compactStep p) (slot, 0)

/-- After the slots up to `a + n`: what was live there is in front, the rest of the
array is as it was. -/
theorem compact_prefix (p : α → Bool) (slot : ℕ → α) (a n : ℕ) :
    let s := (List.range' a n).foldl (compactStep p) (slot, 0)
    live p s.1 0 s.2 = live p slot a (a + n) ∧ (∀ i, i < s.2 → p (s.1 i) = true) ∧
      s.2 ≤ n ∧ ∀ i, a + n ≤ i → s.1 i = slot i := by
  induction n with
  | zero =>
    refine ⟨?_, by simp, by simp, by simp⟩
    rw [live_of_le (by simp), live_of_le (by simp)]
  | succ n ih =>
    obtain ⟨hlive, hall, hlen, hrest⟩ := ih
    rw [List.range'_1_concat, List.foldl_append]
    set s := (List.range' a n).foldl (compactStep p) (slot, 0) with hs
    simp only [List.foldl_cons, List.foldl_nil]
    have hcur : s.1 (a + n) = slot (a + n) := hrest _ (le_refl _)
    rw [← Nat.add_assoc, live_snoc (Nat.le_add_right a n), ← hlive, ← hcur]
    by_cases hp : p (s.1 (a + n)) = true
    · simp only [compactStep, hp, if_true]
      have hfront : live p (Function.update s.1 s.2 (s.1 (a + n))) 0 s.2 = live p s.1 0 s.2 :=
        live_congr fun i _ hi => Function.update_of_ne (by omega) _ _
      refine ⟨?_, fun i hi => ?_, by omega, fun i hi => ?_⟩
      · rw [live_snoc (Nat.zero_le _), hfront, Function.update_self, if_pos hp]
      · by_cases hi' : i = s.2
        · rw [hi', Function.update_self]
          exact hp
        · rw [Function.update_of_ne hi']
          exact hall i (by omega)
      · rw [Function.update_of_ne (by omega)]
        exact hrest i (by omega)
    · simp only [compactStep, hp, if_false, Bool.false_eq_true, List.append_nil]
      exact ⟨trivial, hall, by omega, fun i hi => hrest i (by omega)⟩

theorem live_full {n : ℕ} (h : ∀ i, i < n → p (slot i) = true) :
    (live p slot 0 n).length = n := by
  induction n with
  | zero => simp [live]
  | succ n ih =>
    rw [live_snoc (Nat.zero_le n), if_pos (h n (Nat.lt_succ_self n)), List.length_append,
      ih fun i hi => h i (by omega)]
    rfl

/-- Compaction keeps the live slots, in order, and leaves no dead one among them. -/
theorem compact_spec (p : α → Bool) (slot : ℕ → α) (h : a ≤ b) :
    live p (compact p slot a b).1 0 (compact p slot a b).2 = live p slot a b ∧
      (∀ i, i < (compact p slot a b).2 → p ((compact p slot a b).1 i) = true) ∧
      (compact p slot a b).2 = (live p slot a b).length := by
  obtain ⟨hlive, hall, -, -⟩ := compact_prefix p slot a (b - a)
  rw [Nat.add_sub_cancel' h] at hlive
  refine ⟨hlive, hall, ?_⟩
  rw [← hlive]
  exact (live_full hall).symm

end Slots
