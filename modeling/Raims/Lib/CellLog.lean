import Raims.Lib.RefWindow

/-!
# Values in the memory of windows

The writes to the cells of windows, the newest one first. A cell has the value that was
written to it as long as no cell that overlaps it was written after.
-/

namespace RefWindow

instance : DecidableRel Apart := fun c d =>
  inferInstanceAs (Decidable (c.window = d.window →
    c.off + c.words ≤ d.off ∨ d.off + d.words ≤ c.off))

/-- Something was written to a cell: a value, or what is none. -/
structure Write (α : Type*) where
  cell : Cell
  value : Option α

variable {α : Type*} {c : Cell} {mem ws : List (Write α)} {x : Write α}

/-- The value of a cell, if the last write that touches it was of all of it. -/
def lastWrite (mem : List (Write α)) (c : Cell) : Option α :=
  match mem.find? fun x => ¬ Apart x.cell c with
  | some x => if x.cell = c then x.value else none
  | none => none

/-- A cell that is not empty overlaps itself. -/
theorem not_apart_self (hpos : 0 < c.words) : ¬ Apart c c := by
  intro h
  rcases h rfl with hle | hle
  · omega
  · omega

theorem apart_of_window_ne {d : Cell} (hne : c.window ≠ d.window) : Apart c d :=
  fun heq => absurd heq hne

theorem lastWrite_cons_self (hpos : 0 < x.cell.words) : lastWrite (x :: mem) x.cell = x.value := by
  unfold lastWrite
  rw [List.find?_cons_of_pos (by simpa using not_apart_self hpos)]
  exact if_pos rfl

theorem lastWrite_cons_of_apart (h : Apart x.cell c) :
    lastWrite (x :: mem) c = lastWrite mem c := by
  unfold lastWrite
  rw [List.find?_cons_of_neg (by simpa using h)]

theorem lastWrite_append_of_apart (h : ∀ x ∈ ws, Apart x.cell c) :
    lastWrite (ws ++ mem) c = lastWrite mem c := by
  induction ws with
  | nil => rfl
  | cons x ws ih =>
    rw [List.cons_append, lastWrite_cons_of_apart (h x List.mem_cons_self)]
    exact ih fun y hy => h y (List.mem_cons_of_mem _ hy)

/-- Of writes that do not overlap each one is read back. -/
theorem lastWrite_append_of_mem (hpair : ws.Pairwise fun x y => Apart x.cell y.cell) (hx : x ∈ ws)
    (hpos : 0 < x.cell.words) : lastWrite (ws ++ mem) x.cell = x.value := by
  induction ws with
  | nil => cases hx
  | cons y ws ih =>
    obtain ⟨hy, hpair⟩ := List.pairwise_cons.1 hpair
    rcases List.mem_cons.1 hx with rfl | hx
    · exact lastWrite_cons_self hpos
    · rw [List.cons_append, lastWrite_cons_of_apart (hy x hx)]
      exact ih hpair hx

end RefWindow
