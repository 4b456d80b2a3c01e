import Mathlib.Data.List.Basic

/-!
# Walking with a cursor

A loop that asks a cursor for what it is at, and moves it on, until it is at nothing;
and a cursor in a list that passes over what is not wanted.
-/

namespace Cursor

variable {σ α : Type*}

/-- What the cursor is at, all along the way; none when the fuel is used up. -/
def walk (current : σ → Option α) (next : σ → σ) : ℕ → σ → Option (List α)
  | 0, _ => none
  | fuel + 1, s =>
    match current s with
    | none => some []
    | some a => (walk current next fuel (next s)).map (a :: ·)

/-- If a cursor is at the first of what is left, and the rest is left when it moves on,
the loop ends with all that was left. -/
theorem walk_eq {current : σ → Option α} {next : σ → σ} {left : σ → List α} {Ok : σ → Prop}
    (hhead : ∀ s, Ok s → current s = (left s).head?)
    (htail : ∀ s, Ok s → left s ≠ [] → Ok (next s) ∧ left (next s) = (left s).tail)
    {fuel : ℕ} {s : σ} (hs : Ok s) (hfuel : (left s).length < fuel) :
    walk current next fuel s = some (left s) := by
  induction fuel generalizing s with
  | zero => exact absurd hfuel (Nat.not_lt_zero _)
  | succ fuel ih =>
    rw [walk, hhead s hs]
    cases hleft : left s with
    | nil => rfl
    | cons a l =>
      obtain ⟨hok, hnext⟩ := htail s hs (by rw [hleft]; exact List.cons_ne_nil a l)
      rw [hleft, List.tail_cons] at hnext
      rw [hleft] at hfuel
      have hwalk := ih hok (by
        rw [hnext]
        exact Nat.lt_of_succ_lt_succ hfuel)
      rw [hnext] at hwalk
      rw [List.head?_cons]
      show (walk current next fuel (next s)).map (a :: ·) = some (a :: l)
      rw [hwalk]
      rfl

/-! ## Passing over -/

variable {p : α → Bool} {l : List α} {i fuel : ℕ}

/-- The first position from `i` on that is wanted, or behind the list. -/
def seek (p : α → Bool) (l : List α) : ℕ → ℕ → ℕ
  | 0, i => i
  | fuel + 1, i =>
    match l[i]? with
    | none => i
    | some a => if p a then i else seek p l fuel (i + 1)

/-- Nothing that is wanted was passed over. -/
theorem filter_drop_seek (hfuel : l.length ≤ i + fuel) :
    (l.drop (seek p l fuel i)).filter p = (l.drop i).filter p ∧
      ∀ a, l[seek p l fuel i]? = some a → p a = true := by
  induction fuel generalizing i with
  | zero =>
    refine ⟨rfl, fun a ha => ?_⟩
    have hle : l.length ≤ i := hfuel
    rw [seek, List.getElem?_eq_none hle] at ha
    cases ha
  | succ fuel ih =>
    rw [seek]
    cases hget : l[i]? with
    | none =>
      refine ⟨rfl, fun a ha => ?_⟩
      rw [hget] at ha
      cases ha
    | some a =>
      dsimp only
      obtain ⟨hlt, hla⟩ := List.getElem?_eq_some_iff.1 hget
      split
      · next hp =>
          refine ⟨rfl, fun b hb => ?_⟩
          rw [hget] at hb
          exact Option.some.inj hb ▸ hp
      · next hp =>
          obtain ⟨hfilter, hhead⟩ := ih (i := i + 1) (by omega)
          refine ⟨?_, hhead⟩
          rw [hfilter, List.drop_eq_getElem_cons hlt, hla, List.filter_cons_of_neg hp]

/-- A cursor that is at something wanted, or behind the list, is at the first of what is
wanted from there. -/
theorem filter_drop (hwant : ∀ a, l[i]? = some a → p a = true) :
    (l.drop i).filter p = l[i]?.toList ++ (l.drop (i + 1)).filter p := by
  cases hget : l[i]? with
  | none =>
    have hle := List.getElem?_eq_none_iff.1 hget
    rw [List.drop_eq_nil_of_le hle, List.drop_eq_nil_of_le (Nat.le_succ_of_le hle)]
    rfl
  | some a =>
    obtain ⟨hlt, rfl⟩ := List.getElem?_eq_some_iff.1 hget
    rw [List.drop_eq_getElem_cons hlt, List.filter_cons_of_pos (hwant _ hget)]
    rfl

end Cursor
