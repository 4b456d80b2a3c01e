import Raims.Lib.WeightedDigraph
import Mathlib.Data.List.Basic

/-!
# Least costs by labels that are corrected

A weighted digraph is its edge relation `E a b k`, and `Start a c` says that a path may begin at
`a` with the cost `c`. A search that corrects labels follows paths that meet no vertex twice
(`Trail`), and it is done when every vertex has been looked at under its last label, or could
not improve on what the target has: then no path to the target is cheaper
(`Arrives.target_le`).
-/

namespace LabelSearch

variable {α : Type*}

/-- A path that ends at a vertex, with its cost. -/
inductive Arrives (E : α → α → ℕ → Prop) (Start : α → ℕ → Prop) : α → ℕ → Prop
  | start {a : α} {c : ℕ} : Start a c → Arrives E Start a c
  | step {a b : α} {c k : ℕ} : Arrives E Start a c → E a b k → Arrives E Start b (c + k)

/-- `c` is the least cost of a path to `v`. -/
def IsLeast (E : α → α → ℕ → Prop) (Start : α → ℕ → Prop) (v : α) (c : ℕ) : Prop :=
  Arrives E Start v c ∧ ∀ c', Arrives E Start v c' → c ≤ c'

open WeightedDigraph in
/-- Paths that begin at one vertex at no cost are its walks. -/
theorem arrives_iff_walk {E : α → α → ℕ → Prop} {s v : α} {c : ℕ} :
    Arrives E (fun a c => a = s ∧ c = 0) v c ↔ Walk E s v c := by
  constructor
  · intro h
    induction h with
    | start hstart =>
      obtain ⟨rfl, rfl⟩ := hstart
      exact .nil
    | step _ hedge ih => exact ih.snoc hedge
  · intro h
    induction h with
    | nil => exact .start ⟨rfl, rfl⟩
    | snoc _ hedge ih => exact ih.step hedge

/-- A path that meets no vertex twice, the last one first, each at a cost not below its label. -/
inductive Trail (E : α → α → ℕ → Prop) (Start : α → ℕ → Prop) (label : α → ℕ) :
    List α → α → ℕ → Prop
  | start {a : α} {c : ℕ} : Start a c → label a ≤ c → Trail E Start label [a] a c
  | step {vs : List α} {a b : α} {c k : ℕ} : Trail E Start label vs a c → E a b k → b ∉ vs →
      label b ≤ c + k → Trail E Start label (b :: vs) b (c + k)

variable {E : α → α → ℕ → Prop} {Start : α → ℕ → Prop} {label label' : α → ℕ} {vs : List α}
  {v : α} {c : ℕ}

theorem Trail.arrives (h : Trail E Start label vs v c) : Arrives E Start v c := by
  induction h with
  | start hstart _ => exact .start hstart
  | step _ hedge _ _ ih => exact ih.step hedge

theorem Trail.mono (h : Trail E Start label vs v c) (hle : ∀ a, label' a ≤ label a) :
    Trail E Start label' vs v c := by
  induction h with
  | start hstart hlabel => exact .start hstart (Nat.le_trans (hle _) hlabel)
  | step _ hedge hnew hlabel ih => exact ih.step hedge hnew (Nat.le_trans (hle _) hlabel)

/-- The trail as one without labels. -/
theorem Trail.plain (h : Trail E Start label vs v c) : Trail E Start (fun _ => 0) vs v c :=
  h.mono fun _ => Nat.zero_le _

/-- A vertex on the way has a label that is not above the cost of the whole. -/
theorem Trail.label_le (h : Trail E Start label vs v c) {w : α} (hw : w ∈ vs) : label w ≤ c := by
  induction h with
  | start _ hlabel => rwa [List.mem_singleton.mp hw]
  | step _ _ _ hlabel ih =>
    rcases List.mem_cons.mp hw with rfl | hw
    · exact hlabel
    · exact Nat.le_trans (ih hw) (Nat.le_add_right _ _)

/-- The way up to a vertex that a trail meets. -/
theorem Trail.upto (h : Trail E Start label vs v c) {w : α} (hw : w ∈ vs) :
    ∃ vs' c', Trail E Start label vs' w c' ∧ c' ≤ c := by
  induction h with
  | start hstart hlabel =>
    obtain rfl := List.mem_singleton.mp hw
    exact ⟨_, _, .start hstart hlabel, le_refl _⟩
  | step htrail hedge hnew hlabel ih =>
    rcases List.mem_cons.mp hw with rfl | hw
    · exact ⟨_, _, htrail.step hedge hnew hlabel, le_refl _⟩
    · obtain ⟨vs', c', h', hle⟩ := ih hw
      exact ⟨vs', c', h', Nat.le_trans hle (Nat.le_add_right _ _)⟩

/-- No path is cheaper than all trails. -/
theorem Arrives.trail (h : Arrives E Start v c) :
    ∃ vs c', Trail E Start (fun _ => 0) vs v c' ∧ c' ≤ c := by
  induction h with
  | start hstart => exact ⟨_, _, .start hstart (Nat.zero_le _), le_refl _⟩
  | @step a b c k _ hedge ih =>
    obtain ⟨vs, c', htrail, hle⟩ := ih
    by_cases hmem : b ∈ vs
    · obtain ⟨vs', c'', h', hle'⟩ := htrail.upto hmem
      exact ⟨vs', c'', h', by omega⟩
    · exact ⟨_, _, htrail.step hedge hmem (Nat.zero_le _), by omega⟩

/-- The cost `best` of the target cannot be improved: a vertex on the way was looked at under its
label, or its label is so high that one more edge is no gain. -/
structure Closed (E : α → α → ℕ → Prop) (Start : α → ℕ → Prop) (label : α → ℕ) (target : α)
    (best : ℕ) : Prop where
  start : ∀ a c, Start a c → best ≤ c ∨ (a ≠ target ∧ label a ≤ c)
  edge : ∀ a b k, a ≠ target → E a b k →
    best ≤ label a + 1 ∨ best ≤ label a + k ∨ (b ≠ target ∧ label b ≤ label a + k)

/-- **No path to the target is cheaper.** -/
theorem Arrives.target_le {target : α} {best : ℕ} (hpos : ∀ a b k, E a b k → 1 ≤ k)
    (hclosed : Closed E Start label target best) (h : Arrives E Start target c) : best ≤ c := by
  -- along the path, the label is not above the cost, or one more edge is no gain
  have hall : ∀ v c, Arrives E Start v c →
      best ≤ c ∨ (v ≠ target ∧ (label v ≤ c ∨ best ≤ c + 1)) := by
    intro v c h
    induction h with
    | start hstart =>
      rcases hclosed.start _ _ hstart with hle | ⟨hne, hle⟩
      · exact Or.inl hle
      · exact Or.inr ⟨hne, Or.inl hle⟩
    | @step a b c k _ hedge ih =>
      have hk := hpos a b k hedge
      rcases ih with hle | ⟨hne, hle | hle⟩
      · exact Or.inl (by omega)
      · rcases hclosed.edge a b k hne hedge with hbest | hbest | ⟨hb, hbest⟩
        · exact Or.inl (by omega)
        · exact Or.inl (by omega)
        · exact Or.inr ⟨hb, Or.inl (by omega)⟩
      · exact Or.inl (by omega)
  rcases hall target c h with hle | ⟨hne, -⟩
  · exact hle
  · exact absurd rfl hne

end LabelSearch
