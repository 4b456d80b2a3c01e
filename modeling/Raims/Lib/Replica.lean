import Mathlib.Data.Nat.Notation
import Mathlib.Logic.Function.Basic

/-!
# Copies of a value that is changed in numbered steps

A value has a history: what it was after the change of each number. Changes and
whole values are sent with their numbers, and may be lost, repeated and reordered.
A copy takes a change if it is the next one, and a whole value if it is not older
than what it has. It is then always a value of the history, that of its number.
-/

namespace Replica

variable {α δ : Type*}

/-- What the value was after the change of a number. -/
abbrev History (α : Type*) := ℕ → Option α

/-- A copy, and the number of the last change that is in it. -/
structure Copy (α : Type*) where
  num : ℕ
  value : α

inductive Msg (α δ : Type*) where
  | change (num : ℕ) (d : δ)
  | value (num : ℕ) (a : α)

variable (apply : δ → α → α)

def Copy.recv (c : Copy α) : Msg α δ → Copy α
  | .change num d => if num = c.num + 1 then ⟨num, apply d c.value⟩ else c
  | .value num a => if c.num ≤ num then ⟨num, a⟩ else c

/-- The copy is the value of its number. -/
def Copy.Follows (h : History α) (c : Copy α) : Prop := h c.num = some c.value

/-- A message says what happened: its change leads from the value before to the
value of its number. -/
def Msg.Tells (h : History α) : Msg α δ → Prop
  | .change num d => ∃ k a, num = k + 1 ∧ h k = some a ∧ h num = some (apply d a)
  | .value num a => h num = some a

/-- A later history, in which nothing that happened is different. -/
def Extends (h h' : History α) : Prop := ∀ n a, h n = some a → h' n = some a

variable {apply} {h h' : History α}

theorem Copy.Follows.mono {c : Copy α} (hc : c.Follows h) (hext : Extends h h') :
    c.Follows h' := hext _ _ hc

theorem Msg.Tells.mono {m : Msg α δ} (hm : m.Tells apply h) (hext : Extends h h') :
    m.Tells apply h' := by
  cases m with
  | change num d =>
    obtain ⟨k, a, hk, ha, hn⟩ := hm
    exact ⟨k, a, hk, hext _ _ ha, hext _ _ hn⟩
  | value num a => exact hext _ _ hm

/-- A copy that follows the history, and a message that tells it. -/
theorem Copy.Follows.recv {c : Copy α} (hc : c.Follows h) {m : Msg α δ} (hm : m.Tells apply h) :
    (c.recv apply m).Follows h := by
  cases m with
  | change num d =>
    rw [Copy.recv]
    split
    · rename_i hnext
      obtain ⟨k, a, hk, ha, hn⟩ := hm
      obtain rfl : k = c.num := by omega
      obtain rfl : a = c.value := Option.some.inj (ha.symm.trans hc)
      exact hn
    · exact hc
  | value num a =>
    rw [Copy.recv]
    split
    · exact hm
    · exact hc

/-- The history goes on with a change of the next number. -/
theorem extends_update {n : ℕ} (hnew : h n = none) (a : α) :
    Extends h (Function.update h n (some a)) := by
  intro k b hk
  have hne : k ≠ n := by
    rintro rfl
    rw [hnew] at hk
    exact Option.some_ne_none _ hk.symm
  rw [Function.update_of_ne hne]
  exact hk

end Replica
