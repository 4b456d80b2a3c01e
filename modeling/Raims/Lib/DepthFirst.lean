import Mathlib.Data.List.Basic
import Mathlib.Order.Nat

/-!
# The room of a depth first search

An item is looked at in a state, which may change, and gives the items that are next. A search
that keeps what waits in a stack of a fixed size looks at the same items in the same order as the
recursion does (`Explores`), so the room that it needs is that of the recursion: on the way to an
item, a place for everything that waits beside it (`exists_walk_iff`).
-/

namespace DepthFirst

variable {σ ι : Type*} (step : σ → ι → σ × List ι)

/-- The recursion: the first item, all that comes of it, and then the others. The last argument
is the room for what waits. -/
inductive Explores : σ → List ι → σ → ℕ → Prop
  | nil {s : σ} : Explores s [] s 0
  | cons {s s₁ s₂ : σ} {i : ι} {rest : List ι} {m n : ℕ} :
      Explores (step s i).1 (step s i).2 s₁ m → Explores s₁ rest s₂ n →
        Explores s (i :: rest) s₂ (max (rest.length + m) (max (rest.length + 1) n))

/-- The search with a stack of `room` items: none when they do not fit, or when the fuel is used
up. -/
def walk (room : ℕ) : ℕ → σ → List ι → Option σ
  | 0, _, _ => none
  | _ + 1, s, [] => some s
  | fuel + 1, s, i :: rest =>
    if ((step s i).2 ++ rest).length ≤ room then
      walk room fuel (step s i).1 ((step s i).2 ++ rest)
    else none

variable {step} {s s' : σ} {ws base : List ι} {n room fuel : ℕ}

/-- Whatever waits has its place. -/
theorem Explores.length_le (h : Explores step s ws s' n) : ws.length ≤ n := by
  cases h with
  | nil => exact le_refl 0
  | cons _ _ => exact Nat.le_trans (Nat.le_max_left _ _) (Nat.le_max_right _ _)

/-- There is one recursion, with one room. -/
theorem Explores.unique {s₁ s₂ : σ} {m : ℕ} (h : Explores step s ws s₁ m)
    (h' : Explores step s ws s₂ n) : s₁ = s₂ ∧ m = n := by
  induction h generalizing s₂ n with
  | nil =>
    cases h'
    exact ⟨rfl, rfl⟩
  | cons _ _ ihkids ihrest =>
    cases h' with
    | cons hkids hrest =>
      obtain ⟨rfl, rfl⟩ := ihkids hkids
      obtain ⟨rfl, rfl⟩ := ihrest hrest
      exact ⟨rfl, rfl⟩

/-- The recursion comes to an end when something gets less with each item. -/
theorem exists_explores (μ : σ → List ι → ℕ)
    (hμ : ∀ s i rest, μ (step s i).1 ((step s i).2 ++ rest) < μ s (i :: rest)) (s : σ)
    (ws base : List ι) :
    ∃ s' n, Explores step s ws s' n ∧ μ s' base ≤ μ s (ws ++ base) := by
  induction hm : μ s (ws ++ base) using Nat.strong_induction_on generalizing s ws base with
  | _ m ih =>
    cases ws with
    | nil => exact ⟨s, 0, .nil, Nat.le_of_eq hm⟩
    | cons i rest =>
      have hlt : μ (step s i).1 ((step s i).2 ++ (rest ++ base)) < m := hm ▸ hμ s i _
      obtain ⟨s₁, k, hkids, hle₁⟩ := ih _ hlt _ _ _ rfl
      obtain ⟨s₂, n, hrest, hle₂⟩ := ih _ (Nat.lt_of_le_of_lt hle₁ hlt) s₁ rest base rfl
      exact ⟨s₂, _, .cons hkids hrest, by omega⟩

/-- A stack with room for the recursion is large enough, also above other items. -/
theorem Explores.walk_append (h : Explores step s ws s' n)
    (hroom : base.length + n ≤ room) :
    ∃ k, ∀ fuel, walk step room (k + fuel) s (ws ++ base) = walk step room fuel s' base := by
  induction h generalizing base with
  | nil => exact ⟨0, fun fuel => by rw [Nat.zero_add, List.nil_append]⟩
  | @cons s s₁ s₂ i rest m n hkids hrest ihkids ihrest =>
    have hm : (rest ++ base).length + m ≤ room := by
      rw [List.length_append]
      omega
    obtain ⟨k₁, hk₁⟩ := ihkids hm
    have hn : base.length + n ≤ room := by omega
    obtain ⟨k₂, hk₂⟩ := ihrest hn
    refine ⟨k₁ + k₂ + 1, fun fuel => ?_⟩
    have hfit : ((step s i).2 ++ (rest ++ base)).length ≤ room := by
      have hlen := hkids.length_le
      rw [List.length_append]
      omega
    rw [Nat.add_right_comm, List.cons_append, walk, if_pos hfit, Nat.add_assoc, hk₁, hk₂]

/-- What a search does with the items on top of the stack is the recursion over them. -/
theorem explores_of_walk (hfit : (ws ++ base).length ≤ room)
    (h : walk step room fuel s (ws ++ base) = some s') :
    ∃ s₁ n, Explores step s ws s₁ n ∧ base.length + n ≤ room ∧
      ∃ fuel' ≤ fuel, walk step room fuel' s₁ base = some s' := by
  induction fuel using Nat.strong_induction_on generalizing s ws base with
  | _ fuel ih =>
    cases ws with
    | nil => exact ⟨s, 0, .nil, hfit, fuel, le_refl fuel, h⟩
    | cons i rest =>
      cases fuel with
      | zero => cases h
      | succ fuel =>
        rw [List.cons_append, walk] at h
        split at h
        · next hkids =>
            obtain ⟨s₁, m, hm, hroom, fuel₁, hfuel₁, hwalk₁⟩ :=
              ih fuel (Nat.lt_succ_self fuel) hkids h
            have hrest : (rest ++ base).length ≤ room :=
              Nat.le_trans (Nat.le_add_right _ _) hroom
            obtain ⟨s₂, n, hn, hroom', fuel₂, hfuel₂, hwalk₂⟩ :=
              ih fuel₁ (Nat.lt_succ_of_le hfuel₁) hrest hwalk₁
            refine ⟨s₂, _, .cons hm hn, ?_, fuel₂, by omega, hwalk₂⟩
            simp only [List.length_append, List.length_cons] at hfit hroom
            omega
        · cases h

/-- **The room that the search needs is that of the recursion.** -/
theorem exists_walk_iff (hfit : ws.length ≤ room) :
    (∃ fuel, walk step room fuel s ws = some s') ↔ ∃ n ≤ room, Explores step s ws s' n := by
  constructor
  · rintro ⟨fuel, h⟩
    rw [← List.append_nil ws] at h hfit
    obtain ⟨s₁, n, hn, hroom, fuel', -, hwalk⟩ := explores_of_walk hfit h
    cases fuel' with
    | zero => cases hwalk
    | succ fuel' =>
      cases hwalk
      rw [List.length_nil, Nat.zero_add] at hroom
      exact ⟨n, hroom, hn⟩
  · rintro ⟨n, hroom, h⟩
    have hroom' : ([] : List ι).length + n ≤ room := by simpa using hroom
    obtain ⟨k, hk⟩ := h.walk_append hroom'
    refine ⟨k + 1, ?_⟩
    have hend := hk 1
    rwa [List.append_nil] at hend

end DepthFirst
