import Mathlib.Data.List.Basic

/-!
# Records applied late

A log of records is applied to a state, but some records are set aside and
applied later, after newer ones. The state has caught up with the log when
applying what is set aside, in order, gives what the log applied in order gives.
Setting a record aside keeps this if a failed attempt leaves nothing that the
record itself would not overwrite; applying a record keeps it if the record
commutes with those set aside before it.
-/

namespace Deferred

variable {σ ρ : Type*} {full : σ → ρ → σ}

def Commutes (full : σ → ρ → σ) (a b : ρ) : Prop :=
  ∀ s, full (full s a) b = full (full s b) a

/-- What `attempt` does to a state is gone once `r` is applied, whatever was
applied in between. -/
def Absorbs (full : σ → ρ → σ) (r : ρ) (attempt : σ → σ) : Prop :=
  ∀ (P : List ρ) (s : σ), full (P.foldl full (attempt s)) r = full (P.foldl full s) r

theorem foldl_commutes {r : ρ} {P : List ρ} (h : ∀ a ∈ P, Commutes full a r) (s : σ) :
    P.foldl full (full s r) = full (P.foldl full s) r := by
  induction P generalizing s with
  | nil => rfl
  | cons a P ih =>
    have ha : full (full s r) a = full (full s a) r := (h a (by simp) s).symm
    rw [List.foldl_cons, List.foldl_cons, ha, ih fun b hb => h b (by simp [hb])]

/-- To absorb it is enough that the attempt's traces are carried along by every
record and removed by `r`. -/
theorem Absorbs.of_rel {r : ρ} {attempt : σ → σ} (R : σ → σ → Prop)
    (hstart : ∀ s, R (attempt s) s) (hstep : ∀ s s' q, R s s' → R (full s q) (full s' q))
    (hend : ∀ s s', R s s' → full s r = full s' r) : Absorbs full r attempt := by
  intro P s
  apply hend
  have hfold : ∀ s s', R s s' → R (P.foldl full s) (P.foldl full s') := by
    induction P with
    | nil => exact fun s s' h => h
    | cons q P ih => exact fun s s' h => ih _ _ (hstep s s' q h)
  exact hfold _ _ (hstart s)

/-- `s` has caught up with `log` from `s₀`, but for the records set aside. -/
def CaughtUp (full : σ → ρ → σ) (s₀ : σ) (log : List ρ) (s : σ) (aside : List ρ) : Prop :=
  aside.foldl full s = log.foldl full s₀

namespace CaughtUp

variable {s₀ s : σ} {log aside aside' : List ρ} {r : ρ} {attempt : σ → σ}

/-- A new record fails and is set aside. -/
theorem park (h : CaughtUp full s₀ log s aside) (hr : Absorbs full r attempt) :
    CaughtUp full s₀ (log ++ [r]) (attempt s) (aside ++ [r]) := by
  unfold CaughtUp at h ⊢
  simp only [List.foldl_append, List.foldl_cons, List.foldl_nil]
  rw [hr, h]

/-- A new record is applied before those set aside. -/
theorem overtake (h : CaughtUp full s₀ log s aside)
    (hr : ∀ a ∈ aside, Commutes full a r) :
    CaughtUp full s₀ (log ++ [r]) (full s r) aside := by
  unfold CaughtUp at h ⊢
  rw [foldl_commutes hr, h, List.foldl_append]
  rfl

/-- A record set aside is applied, before those set aside earlier. -/
theorem replay (h : CaughtUp full s₀ log s (aside ++ r :: aside'))
    (hr : ∀ a ∈ aside, Commutes full a r) :
    CaughtUp full s₀ log (full s r) (aside ++ aside') := by
  unfold CaughtUp at h ⊢
  rw [List.foldl_append, foldl_commutes hr, ← h, List.foldl_append]
  rfl

/-- A record set aside is tried again and fails. -/
theorem retry (h : CaughtUp full s₀ log s (aside ++ r :: aside'))
    (hr : Absorbs full r attempt) :
    CaughtUp full s₀ log (attempt s) (aside ++ r :: aside') := by
  unfold CaughtUp at h ⊢
  rw [← h, List.foldl_append, List.foldl_append, List.foldl_cons, List.foldl_cons, hr]

end CaughtUp

end Deferred
