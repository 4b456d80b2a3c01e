import Mathlib.Data.List.Perm.Basic
import Mathlib.Data.Nat.Notation

/-!
# Lists grouped by a key

The elements of one key are a group, in their order, and the groups are in the order of
their first elements. A list is grouped by taking its first element and all others of its
key, until nothing is left.
-/

namespace Groups

variable {α κ : Type*} [DecidableEq κ] {key : α → κ} {l : List α} {x : α} {g : List α} {n : ℕ}

/-- In as many rounds as the list is long. -/
def groups (key : α → κ) : ℕ → List α → List (List α)
  | 0, _ => []
  | _ + 1, [] => []
  | n + 1, x :: l =>
    (x :: l.filter fun y => key y = key x) :: groups key n (l.filter fun y => key y ≠ key x)

theorem length_filter_le_of_cons (h : (x :: l).length ≤ n + 1) (p : α → Bool) :
    (l.filter p).length ≤ n :=
  Nat.le_trans (List.length_filter_le p l) (Nat.le_of_succ_le_succ h)

theorem filter_key_cons (x : α) (l : List α) :
    ((x :: l).filter fun y => key y = key x) = x :: l.filter fun y => key y = key x :=
  List.filter_cons_of_pos (decide_eq_true rfl)

/-- The elements of another key are among those that are left. -/
theorem filter_key_of_ne {k : κ} (hk : key x ≠ k) :
    ((x :: l).filter fun y => key y = k) =
      (l.filter fun y => key y ≠ key x).filter fun y => key y = k := by
  rw [List.filter_cons_of_neg (by simpa using hk), List.filter_filter]
  refine List.filter_congr fun y _ => ?_
  by_cases hy : key y = k
  · simp [hy, hk.symm]
  · simp [hy]

/-- A group is all elements of the key of one of them. -/
theorem mem_groups (hn : l.length ≤ n) :
    g ∈ groups key n l ↔ ∃ x ∈ l, g = l.filter fun y => key y = key x := by
  induction n generalizing l with
  | zero =>
    obtain rfl := List.length_eq_zero_iff.1 (Nat.le_zero.1 hn)
    simp [groups]
  | succ n ih =>
    cases l with
    | nil => simp [groups]
    | cons x l =>
      rw [groups, List.mem_cons, ih (length_filter_le_of_cons hn _)]
      constructor
      · rintro (rfl | ⟨y, hy, rfl⟩)
        · exact ⟨x, List.mem_cons_self, (filter_key_cons x l).symm⟩
        · rw [List.mem_filter, decide_eq_true_eq] at hy
          exact ⟨y, List.mem_cons_of_mem x hy.1, (filter_key_of_ne hy.2.symm).symm⟩
      · rintro ⟨y, hy, rfl⟩
        by_cases hkey : key y = key x
        · rw [hkey]
          exact .inl (filter_key_cons x l)
        · have hmem : y ∈ l := by
            rcases List.mem_cons.1 hy with rfl | hmem
            · exact absurd rfl hkey
            · exact hmem
          exact .inr ⟨y, List.mem_filter.2 ⟨hmem, decide_eq_true hkey⟩,
            filter_key_of_ne (Ne.symm hkey)⟩

/-- Nothing is lost and nothing is there twice. -/
theorem flatten_groups_perm (key : α → κ) (hn : l.length ≤ n) :
    (groups key n l).flatten.Perm l := by
  induction n generalizing l with
  | zero =>
    obtain rfl := List.length_eq_zero_iff.1 (Nat.le_zero.1 hn)
    exact .nil
  | succ n ih =>
    cases l with
    | nil => exact .nil
    | cons x l =>
      rw [groups, List.flatten_cons, List.cons_append]
      refine .cons x ?_
      have hrest := ih (length_filter_le_of_cons hn fun y => key y ≠ key x)
      have hsplit := List.filter_append_perm (fun y => decide (key y = key x)) l
      refine (hrest.append_left _).trans ?_
      simpa only [ne_eq, decide_not] using hsplit

/-- Whole lists are left out as their elements are. -/
theorem flatten_filter_eq {p : List α → Bool} {q : α → Bool} {gs : List (List α)}
    (h : ∀ g ∈ gs, g.filter q = if p g then g else []) :
    (gs.filter p).flatten = gs.flatten.filter q := by
  induction gs with
  | nil => rfl
  | cons g gs ih =>
    rw [List.flatten_cons, List.filter_append, h g List.mem_cons_self,
      ← ih fun g' hg' => h g' (List.mem_cons_of_mem g hg')]
    by_cases hp : p g = true
    · rw [List.filter_cons_of_pos hp, List.flatten_cons, if_pos hp]
    · rw [List.filter_cons_of_neg hp, if_neg hp, List.nil_append]

/-- The groups of some size are the elements that have as many of their key. -/
theorem flatten_filter_groups_perm (key : α → κ) (p : ℕ → Bool) (l : List α) :
    ((groups key l.length l).filter fun g => p g.length).flatten.Perm
      (l.filter fun x => p (l.countP fun y => key y = key x)) := by
  have hgroup : ∀ g ∈ groups key l.length l,
      g.filter (fun x => p (l.countP fun y => key y = key x)) = if p g.length then g else [] := by
    intro g hg
    obtain ⟨x, hx, rfl⟩ := (mem_groups (Nat.le_refl _)).1 hg
    have hall : ∀ y ∈ l.filter (fun y => decide (key y = key x)),
        p (l.countP fun z => key z = key y) =
          p (l.filter fun y => decide (key y = key x)).length := by
      intro y hy
      rw [List.mem_filter, decide_eq_true_eq] at hy
      rw [hy.2, List.countP_eq_length_filter]
    split
    · exact List.filter_eq_self.2 fun y hy => (hall y hy).trans ‹_›
    · refine List.filter_eq_nil_iff.2 fun y hy => ?_
      rw [hall y hy]
      assumption
  rw [flatten_filter_eq hgroup]
  exact (flatten_groups_perm key (Nat.le_refl _)).filter _

/-- What is made of the groups, by the key it has from its group: what is made of one group. -/
theorem filter_flatMap_groups {β : Type*} {key' : β → κ} {f : List α → List β}
    (hf : ∀ g, ∀ b ∈ f g, ∃ x ∈ g, key' b = key x) (k : κ) (hn : l.length ≤ n) :
    (((groups key n l).flatMap f).filter fun b => key' b = k) =
      f (l.filter fun x => key x = k) := by
  have hnil : f [] = [] := by
    refine List.eq_nil_iff_forall_not_mem.2 fun b hb => ?_
    obtain ⟨x, hx, -⟩ := hf [] b hb
    exact List.not_mem_nil hx
  induction n generalizing l with
  | zero =>
    obtain rfl := List.length_eq_zero_iff.1 (Nat.le_zero.1 hn)
    exact hnil.symm
  | succ n ih =>
    cases l with
    | nil => exact hnil.symm
    | cons x l =>
      have hone : ∀ b ∈ f (x :: l.filter fun y => key y = key x), key' b = key x := by
        intro b hb
        obtain ⟨y, hy, hkey⟩ := hf _ b hb
        rw [← filter_key_cons, List.mem_filter, decide_eq_true_eq] at hy
        exact hkey.trans hy.2
      have hrest := ih (length_filter_le_of_cons hn fun y => key y ≠ key x)
      rw [groups, List.flatMap_cons, List.filter_append, hrest]
      by_cases hk : key x = k
      · subst hk
        have hall : ((f (x :: l.filter fun y => key y = key x)).filter fun b => key' b = key x) =
            f (x :: l.filter fun y => key y = key x) :=
          List.filter_eq_self.2 fun b hb => decide_eq_true (hone b hb)
        have hnone : ((l.filter fun y => key y ≠ key x).filter fun y => key y = key x) = [] :=
          List.filter_eq_nil_iff.2 fun y hy => by
            rw [List.mem_filter, decide_eq_true_eq] at hy
            rw [decide_eq_true_eq]
            exact hy.2
        rw [hall, hnone, hnil, List.append_nil, filter_key_cons]
      · have hnone : ((f (x :: l.filter fun y => key y = key x)).filter fun b => key' b = k) =
            [] := List.filter_eq_nil_iff.2 fun b hb => by
          rw [decide_eq_true_eq, hone b hb]
          exact hk
        rw [hnone, List.nil_append, filter_key_of_ne hk]

end Groups
