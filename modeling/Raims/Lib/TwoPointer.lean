import Mathlib.Data.List.Perm.Basic
import Mathlib.Data.Nat.Notation

/-!
# Partition of an array by two pointers

The entries that stay left are moved to the front: the entry at the left pointer is passed
when it stays, and is swapped with the one at the right pointer when it goes. The loop ends
when the pointers meet, at an entry that was not looked at.
-/

namespace TwoPointer

variable {α β : Type*}

/-- The entries at two places change places. -/
def swap (l : List α) (i j : ℕ) : List α :=
  match l[i]?, l[j]? with
  | some x, some y => (l.set i y).set j x
  | _, _ => l

/-- The loop, by recursion on the distance of the pointers: `i` is the left one, the right
one is at `i + d`. The result has the place where they meet. -/
def partition (goes : α → Bool) : ℕ → ℕ → List α → List α × ℕ
  | 0, i, l => (l, i)
  | d + 1, i, l =>
    if l[i]?.any goes then partition goes d i (swap l i (i + (d + 1)))
    else partition goes d (i + 1) l

theorem swap_append (pre mid post : List α) (x y : α) :
    swap (pre ++ x :: (mid ++ y :: post)) pre.length (pre.length + (mid.length + 1)) =
      pre ++ y :: (mid ++ x :: post) := by
  have hi : (pre ++ x :: (mid ++ y :: post))[pre.length]? = some x := by
    rw [List.getElem?_append_right (Nat.le_refl _), Nat.sub_self]
    rfl
  have hj : (pre ++ x :: (mid ++ y :: post))[pre.length + (mid.length + 1)]? = some y := by
    rw [List.getElem?_append_right (Nat.le_add_right _ _), Nat.add_sub_cancel_left,
      List.getElem?_cons_succ, List.getElem?_append_right (Nat.le_refl _), Nat.sub_self]
    rfl
  simp only [swap, hi, hj]
  rw [List.set_append_right _ _ (Nat.le_refl _), Nat.sub_self, List.set_cons_zero,
    List.set_append_right _ _ (Nat.le_add_right _ _), Nat.add_sub_cancel_left,
    List.set_cons_succ, List.set_append_right _ _ (Nat.le_refl _), Nat.sub_self,
    List.set_cons_zero]

theorem perm_swap_append (pre mid post : List α) (x y : α) :
    (pre ++ y :: (mid ++ x :: post)).Perm (pre ++ x :: (mid ++ y :: post)) := by
  refine List.Perm.append_left pre ?_
  have hout : (y :: (mid ++ x :: post)).Perm (y :: x :: (mid ++ post)) :=
    List.Perm.cons y List.perm_middle
  have hin : (x :: y :: (mid ++ post)).Perm (x :: (mid ++ y :: post)) :=
    List.Perm.cons x List.perm_middle.symm
  exact hout.trans ((List.Perm.swap x y _).trans hin)

/-- The number of entries that stay left. -/
def stays (goes : α → Bool) (l : List α) : ℕ := l.countP fun x => !goes x

variable {goes : α → Bool} {l mid : List α} {x y : α}

theorem stays_cons (goes : α → Bool) (x : α) (l : List α) :
    stays goes (x :: l) = stays goes l + if goes x then 0 else 1 := by
  rw [stays, List.countP_cons, stays]
  cases goes x <;> rfl

theorem stays_append (goes : α → Bool) (l l' : List α) :
    stays goes (l ++ l') = stays goes l + stays goes l' :=
  List.countP_append

theorem stays_perm {l' : List α} (h : l.Perm l') : stays goes l = stays goes l' :=
  h.countP_eq _

theorem stays_of_forall_false (h : ∀ x ∈ l, goes x = false) : stays goes l = l.length :=
  List.countP_eq_length.2 fun x hx => by rw [h x hx]; rfl

theorem stays_of_forall_true (h : ∀ x ∈ l, goes x = true) : stays goes l = 0 :=
  List.countP_eq_zero.2 fun x hx => by rw [h x hx]; exact Bool.false_ne_true

theorem stays_le_length : stays goes l ≤ l.length := List.countP_le_length

/-- The entry that follows those that stay, when one that goes is swapped with the last. -/
theorem any_swap (hx : goes x = true) :
    (y :: mid)[stays goes (y :: mid)]?.any goes =
      (x :: (mid ++ [y]))[stays goes (x :: (mid ++ [y]))]?.any goes := by
  have hcount : stays goes (x :: (mid ++ [y])) = stays goes (y :: mid) := by
    have hone : stays goes [y] = if goes y then 0 else 1 :=
      (stays_cons goes y []).trans (Nat.zero_add _)
    rw [stays_cons, if_pos hx, Nat.add_zero, stays_append, hone, stays_cons]
  rw [hcount]
  cases hk : stays goes (y :: mid) with
  | zero =>
    have hy : goes y = true := by
      rw [stays_cons] at hk
      by_contra hne
      rw [if_neg hne] at hk
      omega
    rw [List.getElem?_cons_zero, List.getElem?_cons_zero, Option.any_some, Option.any_some, hx, hy]
  | succ k =>
    rw [List.getElem?_cons_succ, List.getElem?_cons_succ]
    rcases Nat.lt_or_ge k mid.length with hlt | hge
    · rw [List.getElem?_append_left hlt]
    · -- then all of them stay, the last one too
      have hle : stays goes (y :: mid) ≤ mid.length + 1 := stays_le_length
      have hall : stays goes (y :: mid) = (y :: mid).length := by
        rw [List.length_cons]
        omega
      have hy := List.countP_eq_length.1 hall y List.mem_cons_self
      have hlen : k - mid.length = 0 := by omega
      rw [List.getElem?_append_right hge, List.getElem?_eq_none hge, hlen]
      simpa using hy

/-- Where the pointers meet: what is left of it stays, what is right of it goes. -/
structure Meet (goes : α → Bool) (l : List α) (r : List α × ℕ) (left right : List α) (e : α) :
    Prop where
  eq : r = (left ++ e :: right, left.length)
  stay : ∀ x ∈ left, goes x = false
  go : ∀ x ∈ right, goes x = true
  perm : (left ++ e :: right).Perm l

/-- By induction on the distance, with the entries passed on both sides. -/
theorem partition_meet (d : ℕ) (pre mid post : List α) (hmid : mid.length = d + 1)
    (hpre : ∀ x ∈ pre, goes x = false) (hpost : ∀ x ∈ post, goes x = true) :
    ∃ left right e,
      Meet goes (pre ++ (mid ++ post)) (partition goes d pre.length (pre ++ (mid ++ post)))
        left right e ∧
      (goes e = true ↔ mid[stays goes mid]?.any goes = true) := by
  induction d generalizing pre mid post with
  | zero =>
    obtain ⟨c, rfl⟩ := List.length_eq_one_iff.1 hmid
    refine ⟨pre, post, c, ⟨rfl, hpre, hpost, List.Perm.refl _⟩, ?_⟩
    rw [stays_cons]
    cases hc : goes c with
    | true => simp [stays, hc]
    | false => simp [stays]
  | succ d ih =>
    obtain ⟨c, rest, rfl⟩ : ∃ c rest, mid = c :: rest := by
      cases mid with
      | nil => exact absurd hmid (by simp)
      | cons c rest => exact ⟨c, rest, rfl⟩
    have hrest : rest.length = d + 1 := Nat.succ.inj hmid
    have hhead : (pre ++ (c :: rest ++ post))[pre.length]? = some c := by
      rw [List.getElem?_append_right (Nat.le_refl _), Nat.sub_self]
      rfl
    cases hc : goes c with
    | false =>
      obtain ⟨left, right, e, hmeet, he⟩ := ih (pre ++ [c]) rest post hrest
        (by
          intro x hx
          rcases List.mem_append.1 hx with hx | hx
          · exact hpre x hx
          · rw [List.mem_singleton.1 hx, hc])
        hpost
      have hsplit : pre ++ [c] ++ (rest ++ post) = pre ++ (c :: rest ++ post) := by
        rw [List.append_assoc]
        rfl
      rw [hsplit, List.length_append, List.length_singleton] at hmeet
      refine ⟨left, right, e, ?_, ?_⟩
      · rwa [partition, hhead, Option.any_some, if_neg (by rw [hc]; exact Bool.false_ne_true)]
      · rw [he, stays_cons, hc, if_neg Bool.false_ne_true, List.getElem?_cons_succ]
    | true =>
      obtain ⟨rest, z, rfl⟩ : ∃ rest' z, rest = rest' ++ [z] :=
        ⟨rest.dropLast, rest.getLast (List.ne_nil_of_length_pos (by omega)),
          (List.dropLast_append_getLast _).symm⟩
      have hlen : rest.length = d := by
        rw [List.length_append, List.length_singleton] at hrest
        exact Nat.succ.inj hrest
      obtain ⟨left, right, e, hmeet, he⟩ := ih pre (z :: rest) (c :: post)
        (by rw [List.length_cons, hlen]) hpre
        (by
          intro x hx
          rcases List.mem_cons.1 hx with rfl | hx
          · exact hc
          · exact hpost x hx)
      have hsplit : pre ++ (c :: (rest ++ [z]) ++ post) = pre ++ c :: (rest ++ z :: post) := by
        rw [List.cons_append, List.append_assoc]
        rfl
      refine ⟨left, right, e, ?_, ?_⟩
      · rw [partition, hhead, Option.any_some, if_pos hc, hsplit, ← hlen, swap_append, hlen]
        exact ⟨hmeet.eq, hmeet.stay, hmeet.go,
          hmeet.perm.trans (perm_swap_append pre rest post c z)⟩
      · rw [he, any_swap hc]

/-- The entries that stay come first in the result. The pointers meet behind the last of
them when the entry at that place, before the loop, goes. -/
theorem partition_spec (goes : α → Bool) (hl : l ≠ []) :
    (partition goes (l.length - 1) 0 l).1.Perm l ∧
      (∀ k x, (partition goes (l.length - 1) 0 l).1[k]? = some x →
        (goes x = false ↔ k < stays goes l)) ∧
      ((partition goes (l.length - 1) 0 l).2 = stays goes l ↔
        l[stays goes l]?.any goes = true) := by
  have hlen : l.length = l.length - 1 + 1 := by
    have := List.length_pos_of_ne_nil hl
    omega
  obtain ⟨left, right, e, hmeet, he⟩ := partition_meet (l.length - 1) [] l [] hlen
    (List.forall_mem_nil _) (List.forall_mem_nil _)
  rw [List.nil_append, List.append_nil, List.length_nil] at hmeet
  have hcount : stays goes l = left.length + if goes e then 0 else 1 := by
    rw [← stays_perm hmeet.perm, stays_append, stays_of_forall_false hmeet.stay, stays_cons,
      stays_of_forall_true hmeet.go, Nat.zero_add]
  rw [hmeet.eq]
  refine ⟨hmeet.perm, fun k x hx => ?_, ?_⟩
  · rcases Nat.lt_trichotomy k left.length with hlt | rfl | hgt
    · rw [List.getElem?_append_left hlt] at hx
      exact iff_of_true (hmeet.stay x (List.mem_of_getElem? hx)) (by omega)
    · rw [List.getElem?_append_right (Nat.le_refl _), Nat.sub_self] at hx
      obtain rfl : e = x := Option.some.inj hx
      rw [hcount]
      cases goes e <;> simp
    · obtain ⟨n, rfl⟩ : ∃ n, k = left.length + (n + 1) := ⟨k - left.length - 1, by omega⟩
      rw [List.getElem?_append_right (Nat.le_add_right _ _), Nat.add_sub_cancel_left,
        List.getElem?_cons_succ] at hx
      refine iff_of_false ?_ ?_
      · rw [hmeet.go x (List.mem_of_getElem? hx)]
        exact Bool.noConfusion
      · rw [hcount]
        split <;> omega
  · rw [← he, hcount]
    cases goes e <;> simp

theorem swap_of_some {i j : ℕ} (hx : l[i]? = some x) (hy : l[j]? = some y) :
    swap l i j = (l.set i y).set j x := by
  rw [swap, hx, hy]

theorem swap_of_outside {i j : ℕ} (h : l.length ≤ i ∨ l.length ≤ j) : swap l i j = l := by
  rcases h with h | h
  · rw [swap, List.getElem?_eq_none h]
  · rw [swap, List.getElem?_eq_none h]
    cases l[i]? <;> rfl

theorem length_swap (l : List α) (i j : ℕ) : (swap l i j).length = l.length := by
  unfold swap
  split
  · rw [List.length_set, List.length_set]
  · rfl

/-- Two arrays of one length are swapped as one of pairs. -/
theorem zip_swap {a : List α} {b : List β} (h : a.length = b.length) (i j : ℕ) :
    (swap a i j).zip (swap b i j) = swap (a.zip b) i j := by
  have hset : ∀ (a : List α) (b : List β) (i : ℕ) (x : α) (y : β),
      (a.set i x).zip (b.set i y) = (a.zip b).set i (x, y) := by
    intro a
    induction a with
    | nil => intro b i x y; rfl
    | cons a₀ a ih =>
      intro b i x y
      cases b with
      | nil => cases i <;> rfl
      | cons b₀ b =>
        cases i with
        | zero => rfl
        | succ i =>
          rw [List.set_cons_succ, List.set_cons_succ, List.zip_cons_cons, ih, List.zip_cons_cons,
            List.set_cons_succ]
  have hzip : ∀ k (hk : k < a.length), (a.zip b)[k]? = some (a[k], b[k]) := by
    intro k hk
    rw [List.getElem?_eq_getElem (by rw [List.length_zip]; omega), List.getElem_zip]
  by_cases hin : i < a.length ∧ j < a.length
  · obtain ⟨hi, hj⟩ := hin
    rw [swap_of_some (List.getElem?_eq_getElem hi) (List.getElem?_eq_getElem hj),
      swap_of_some (List.getElem?_eq_getElem (h ▸ hi)) (List.getElem?_eq_getElem (h ▸ hj)),
      swap_of_some (hzip i hi) (hzip j hj), hset, hset]
  · have hout : a.length ≤ i ∨ a.length ≤ j := by omega
    have hzlen : (a.zip b).length = a.length := by
      rw [List.length_zip]
      omega
    rw [swap_of_outside hout, swap_of_outside (h ▸ hout), swap_of_outside (hzlen ▸ hout)]

end TwoPointer
