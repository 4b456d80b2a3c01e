import Mathlib.Data.List.Basic

/-!
# Runs of a deterministic machine

The states a machine goes through under any events, where `ok` says which events
may happen in which state.
-/

namespace Run

variable {σ ε : Type*} {step : σ → ε → σ} {ok : σ → ε → Prop} {s₀ : σ}

inductive Reach (step : σ → ε → σ) (ok : σ → ε → Prop) (s₀ : σ) : σ → Prop
  | start : Reach step ok s₀ s₀
  | snoc {s : σ} (e : ε) : Reach step ok s₀ s → ok s e → Reach step ok s₀ (step s e)

/-- What holds at the start and is kept by every event holds in every state. -/
theorem Reach.invariant {Inv : σ → Prop} (hstart : Inv s₀)
    (hstep : ∀ s e, Inv s → ok s e → Inv (step s e)) {s : σ}
    (h : Reach step ok s₀ s) : Inv s := by
  induction h with
  | start => exact hstart
  | snoc e _ hok ih => exact hstep _ e ih hok

/-- Every event of the list may happen when its turn comes. -/
def AllOk (step : σ → ε → σ) (ok : σ → ε → Prop) : σ → List ε → Prop
  | _, [] => True
  | s, e :: es => ok s e ∧ AllOk step ok (step s e) es

instance AllOk.decidable [∀ s e, Decidable (ok s e)] :
    ∀ (s : σ) (es : List ε), Decidable (AllOk step ok s es)
  | _, [] => inferInstanceAs (Decidable True)
  | s, e :: es =>
    have := AllOk.decidable (step s e) es
    inferInstanceAs (Decidable (ok s e ∧ AllOk step ok (step s e) es))

theorem allOk_true (s : σ) (es : List ε) : AllOk step (fun _ _ => True) s es := by
  induction es generalizing s with
  | nil => trivial
  | cons e es ih => exact ⟨trivial, ih _⟩

theorem AllOk.append {s : σ} {es es' : List ε} (h : AllOk step ok s es)
    (h' : AllOk step ok (es.foldl step s) es') : AllOk step ok s (es ++ es') := by
  induction es generalizing s with
  | nil => exact h'
  | cons e es ih => exact ⟨h.1, ih h.2 h'⟩

/-- The events before one of a run, and that one. -/
theorem AllOk.at_cons {s : σ} {pre post : List ε} {e : ε}
    (h : AllOk step ok s (pre ++ e :: post)) :
    AllOk step ok s pre ∧ ok (pre.foldl step s) e := by
  induction pre generalizing s with
  | nil => exact ⟨trivial, h.1⟩
  | cons e' pre ih => exact ⟨⟨h.1, (ih h.2).1⟩, (ih h.2).2⟩

/-- What every event does in a state of an invariant, it does all along a run. -/
theorem AllOk.imp_of_invariant {good : σ → ε → Prop} {Inv : σ → Prop}
    (hstep : ∀ s e, Inv s → ok s e → Inv (step s e))
    (hgood : ∀ s e, Inv s → ok s e → good s e) {s : σ} (hs : Inv s) {es : List ε}
    (h : AllOk step ok s es) : AllOk step good s es := by
  induction es generalizing s with
  | nil => trivial
  | cons e es ih => exact ⟨hgood s e hs h.1, ih (hstep s e hs h.1) h.2⟩

theorem Reach.foldl {s : σ} (h : Reach step ok s₀ s) {es : List ε}
    (hes : AllOk step ok s es) : Reach step ok s₀ (es.foldl step s) := by
  induction es generalizing s with
  | nil => exact h
  | cons e es ih => exact ih (h.snoc e hes.1) hes.2

/-- The events that may happen are those that keep `Good`, if an invariant that implies
it is kept by them and no other event leads to a good state. -/
theorem allOk_iff_good_of_allOk {pre : σ → ε → Prop} {Inv Good : σ → Prop}
    (hgood : ∀ s, Inv s → Good s)
    (hstep : ∀ s e, Inv s → pre s e → ok s e → Inv (step s e))
    (hbad : ∀ s e, Inv s → pre s e → Good (step s e) → ok s e) {s : σ} (hs : Inv s)
    {es : List ε} (hpre : AllOk step pre s es) :
    AllOk step ok s es ↔ ∀ k, Good ((es.take k).foldl step s) := by
  induction es generalizing s with
  | nil =>
    refine ⟨fun _ k => ?_, fun _ => trivial⟩
    rw [List.take_nil]
    exact hgood s hs
  | cons e es ih =>
    constructor
    · rintro ⟨he, hes⟩ k
      cases k with
      | zero => exact hgood s hs
      | succ k => exact (ih (hstep s e hs hpre.1 he) hpre.2).1 hes k
    · intro h
      have he : ok s e := hbad s e hs hpre.1 (h 1)
      exact ⟨he, (ih (hstep s e hs hpre.1 he) hpre.2).2 fun k => h (k + 1)⟩

theorem allOk_iff_good {Inv Good : σ → Prop} (hgood : ∀ s, Inv s → Good s)
    (hstep : ∀ s e, Inv s → ok s e → Inv (step s e))
    (hbad : ∀ s e, Inv s → Good (step s e) → ok s e) {s : σ} (hs : Inv s) (es : List ε) :
    AllOk step ok s es ↔ ∀ k, Good ((es.take k).foldl step s) :=
  allOk_iff_good_of_allOk hgood (fun s e h _ => hstep s e h) (fun s e h _ => hbad s e h) hs
    (allOk_true s es)

end Run
