import Mathlib.Data.List.Basic

/-!
# Messages cut into parts

A stream of pieces, each a whole message, a part of one, or the last part of one, and
the messages that a reader makes of it.
-/

namespace Reassembly

inductive Kind where
  | whole | part | last
deriving DecidableEq

variable {α : Type*}

/-- The messages that are complete, and the parts of the next one. -/
abbrev Reader (α : Type*) : Type _ := List (List α) × List (List α)

def join (s : Reader α) (x : Kind × List α) : Reader α :=
  match x.1 with
  | .whole => (s.1 ++ [x.2], s.2)
  | .part => (s.1, s.2 ++ [x.2])
  | .last => (s.1 ++ [(s.2 ++ [x.2]).flatten], [])

def read (xs : List (Kind × List α)) : Reader α := xs.foldl join ([], [])

theorem read_append (xs ys : List (Kind × List α)) : read (xs ++ ys) = ys.foldl join (read xs) :=
  List.foldl_append

/-- The kinds of the pieces of one message: the last one is marked. -/
def marked : List (List α) → List (Kind × List α)
  | [] => []
  | [x] => [(.last, x)]
  | x :: xs => (.part, x) :: marked xs

theorem foldl_join_marked {xs : List (List α)} (h : xs ≠ []) (s : Reader α) :
    (marked xs).foldl join s = (s.1 ++ [(s.2 ++ xs).flatten], []) := by
  induction xs using marked.induct generalizing s with
  | case1 => exact absurd rfl h
  | case2 x => rfl
  | case3 x xs hne ih =>
    rw [marked, List.foldl_cons, ih hne]
    · simp [join]
    · exact hne

/-- A message that is complete stays. -/
theorem isPrefix_join (s : Reader α) (x : Kind × List α) : s.1 <+: (join s x).1 := by
  rw [join]
  split
  · exact List.prefix_append _ _
  · exact List.prefix_refl _
  · exact List.prefix_append _ _

theorem isPrefix_foldl_join (s : Reader α) (xs : List (Kind × List α)) :
    s.1 <+: (xs.foldl join s).1 := by
  induction xs generalizing s with
  | nil => exact List.prefix_refl _
  | cons x xs ih => exact (isPrefix_join s x).trans (ih _)

/-- The start of the stream gives the first messages. -/
theorem read_take_prefix (xs : List (Kind × List α)) (n : ℕ) :
    (read (xs.take n)).1 <+: (read xs).1 := by
  have h := isPrefix_foldl_join (read (xs.take n)) (xs.drop n)
  rwa [← read_append, List.take_append_drop] at h

end Reassembly
