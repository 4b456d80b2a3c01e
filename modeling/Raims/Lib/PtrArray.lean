import Mathlib.Data.List.Count
import Mathlib.Data.Option.Basic

/-!
# Arrays of pointers

A growing array whose slots hold a pointer or null. A slot past the end is null; a
write past the end makes the array longer.
-/

namespace PtrArray

variable {α : Type*} {l : List (Option α)} {i j : ℕ} {x y : α}

def get (l : List (Option α)) (i : ℕ) : Option α := l[i]?.join

def put (l : List (Option α)) (i : ℕ) (x : α) : List (Option α) :=
  (l ++ List.replicate (i + 1 - l.length) none).set i (some x)

def clear (l : List (Option α)) (i : ℕ) : List (Option α) := l.set i none

/-- The first slot with the pointer becomes null. -/
def remove [DecidableEq α] (x : α) : List (Option α) → List (Option α)
  | [] => []
  | some y :: l => if y = x then none :: l else some y :: remove x l
  | none :: l => none :: remove x l

theorem get_put (l : List (Option α)) (i j : ℕ) (x : α) :
    get (put l i x) j = if j = i then some x else get l j := by
  have hlen : i < (l ++ List.replicate (i + 1 - l.length) none).length := by
    rw [List.length_append, List.length_replicate]
    omega
  by_cases hj : j = i
  · subst hj
    rw [get, put, List.getElem?_set_self hlen, if_pos rfl]
    rfl
  · rw [get, put, List.getElem?_set_ne (Ne.symm hj), if_neg hj, get]
    rcases Nat.lt_or_ge j l.length with hlt | hge
    · rw [List.getElem?_append_left hlt]
    · rw [List.getElem?_append_right hge, List.getElem?_eq_none hge,
        List.getElem?_replicate]
      split <;> rfl

theorem get_clear (l : List (Option α)) (i j : ℕ) :
    get (clear l i) j = if j = i then none else get l j := by
  by_cases hj : j = i
  · subst hj
    rw [get, clear, List.getElem?_set_self', if_pos rfl]
    cases l[j]? <;> rfl
  · rw [get, clear, List.getElem?_set_ne (Ne.symm hj), if_neg hj, get]

theorem put_length (l : List (Option α)) (x : α) : put l l.length x = l ++ [some x] := by
  rw [put, Nat.add_sub_cancel_left, List.replicate_one, List.set_append_right _ _ (Nat.le_refl _),
    Nat.sub_self]
  rfl

theorem mem_iff_get : some x ∈ l ↔ ∃ i, get l i = some x := by
  simp only [get, Option.join_eq_some_iff, List.mem_iff_getElem?]

section Count

variable [DecidableEq α]

theorem count_append_self (l : List (Option α)) (x : α) :
    (l ++ [some x]).count (some x) = l.count (some x) + 1 := by
  rw [List.count_append, List.count_singleton_self]

theorem count_append_of_ne (l : List (Option α)) (h : y ≠ x) :
    (l ++ [some x]).count (some y) = l.count (some y) := by
  rw [List.count_append, List.count_singleton, beq_eq_false_iff_ne.2 (by simpa using h.symm)]
  rfl

theorem count_remove_self (l : List (Option α)) (x : α) :
    (remove x l).count (some x) = l.count (some x) - 1 := by
  fun_induction remove x l with
  | case1 => rfl
  | case2 l => simp
  | case3 l y hy ih => simp [hy, ih]
  | case4 l ih => simp [ih]

theorem count_remove_of_ne (l : List (Option α)) (h : y ≠ x) :
    (remove x l).count (some y) = l.count (some y) := by
  fun_induction remove x l with
  | case1 => rfl
  | case2 l => simp [h.symm]
  | case3 l z hz ih => simp [List.count_cons, ih]
  | case4 l ih => simp [ih]

end Count

end PtrArray
