import Mathlib.Logic.Function.Basic
import Mathlib.Data.Nat.Notation

/-!
# Values in slots of a buffer, and an index of them

A hash table gives for a key the place of its value in a buffer of cells. The index is
right when the slots of different keys lie apart and each holds the value of its key. A
slot past all of them can be written and given to a key.
-/

/-- The operations of a hash table of which a search that fails tells where the key can be
put. -/
structure HashTab (τ κ ν : Type*) where
  empty : τ
  find : τ → κ → Option ν
  pos : τ → κ → ℕ
  clearAll : τ → τ
  upsert : τ → κ → ν → τ
  set : τ → κ → ℕ → ν → τ

namespace HashTab

variable {τ κ ν : Type*} [BEq κ]

/-- A correct hash table, by the equality of its keys. -/
structure Lawful (o : HashTab τ κ ν) : Prop where
  find_empty : ∀ k, o.find o.empty k = none
  find_clearAll : ∀ t k, o.find (o.clearAll t) k = none
  find_upsert : ∀ t k v k', o.find (o.upsert t k v) k' = if k' == k then some v else o.find t k'
  find_set : ∀ t k v k', o.find t k = none →
    o.find (o.set t k (o.pos t k) v) k' = if k' == k then some v else o.find t k'

end HashTab

namespace SlotIndex

variable {κ β : Type*} {size bound off off' : ℕ} {cells : ℕ → β} {v : Fin size → β}

/-- The `size` cells at an offset. -/
def read (size : ℕ) (cells : ℕ → β) (off : ℕ) : Fin size → β := fun i => cells (off + i)

def write (cells : ℕ → β) (off : ℕ) (v : Fin size → β) : ℕ → β := fun j =>
  if h : off ≤ j ∧ j - off < size then v ⟨j - off, h.2⟩ else cells j

@[simp]
theorem read_write (cells : ℕ → β) (off : ℕ) (v : Fin size → β) :
    read size (write cells off v) off = v := by
  funext i
  have hi : off ≤ off + i ∧ off + i - off < size := by
    rw [Nat.add_sub_cancel_left]
    exact ⟨Nat.le_add_right off i, i.isLt⟩
  rw [read, write, dif_pos hi]
  congr 1
  exact Fin.ext (Nat.add_sub_cancel_left off i)

/-- Slots before the one that is written keep their cells. -/
theorem read_write_of_le (h : off + size ≤ off') :
    read size (write cells off' v) off = read size cells off := by
  funext i
  have hi : ¬ (off' ≤ off + i ∧ off + i - off' < size) := by
    rintro ⟨hle, -⟩
    have := i.isLt
    omega
  rw [read, write, dif_neg hi, read]

/-- The slots of the index end before `bound`, lie apart, and hold what `f` says. -/
structure Indexes (find : κ → Option ℕ) (cells : ℕ → β) (size bound : ℕ)
    (f : κ → Option (Fin size → β)) : Prop where
  below : ∀ {k off}, find k = some off → off + size ≤ bound
  apart : ∀ {k k' off off'}, find k = some off → find k' = some off' → k ≠ k' →
    off + size ≤ off' ∨ off' + size ≤ off
  value : ∀ {k off}, find k = some off → f k = some (read size cells off)

variable {find find' : κ → Option ℕ} {f : κ → Option (Fin size → β)} {k : κ}

/-- An empty index is right for any cells. -/
theorem Indexes.of_forall_none (h : ∀ k, find k = none) : Indexes find cells size bound f := by
  constructor
  · intro k off hk
    exact absurd hk (by simp [h k])
  · intro k k' off off' hk
    exact absurd hk (by simp [h k])
  · intro k off hk
    exact absurd hk (by simp [h k])

/-- The next slot is written and given to a key. -/
theorem Indexes.insert [DecidableEq κ] (h : Indexes find cells size bound f)
    (hfind : ∀ k', find' k' = if k' = k then some bound else find k') (hv : f k = some v) :
    Indexes find' (write cells bound v) size (bound + size) f := by
  have hcases : ∀ {k' off'}, find' k' = some off' →
      k' = k ∧ off' = bound ∨ k' ≠ k ∧ find k' = some off' := by
    intro k' off' hk'
    rw [hfind] at hk'
    by_cases hkk : k' = k
    · rw [if_pos hkk] at hk'
      exact .inl ⟨hkk, (Option.some.inj hk').symm⟩
    · rw [if_neg hkk] at hk'
      exact .inr ⟨hkk, hk'⟩
  constructor
  · intro k' off' hk'
    rcases hcases hk' with ⟨-, rfl⟩ | ⟨-, hold⟩
    · exact Nat.le_refl _
    · exact Nat.le_trans (h.below hold) (Nat.le_add_right _ _)
  · intro k₁ k₂ off₁ off₂ h₁ h₂ hne
    rcases hcases h₁ with ⟨rfl, rfl⟩ | ⟨-, hold₁⟩ <;>
      rcases hcases h₂ with ⟨rfl, rfl⟩ | ⟨-, hold₂⟩
    · exact absurd rfl hne
    · exact .inr (h.below hold₂)
    · exact .inl (h.below hold₁)
    · exact h.apart hold₁ hold₂ hne
  · intro k' off' hk'
    rcases hcases hk' with ⟨rfl, rfl⟩ | ⟨-, hold⟩
    · rw [hv, read_write]
    · rw [h.value hold, read_write_of_le (h.below hold)]

end SlotIndex
