import Mathlib.Data.List.Basic

/-!
# Round ciphers and the equivalent inverse

A block goes through rounds, each of which substitutes, mixes and adds the key
of the round; the last one does not mix. The inverse that runs its layers in the
same order works with the keys of the rounds taken backwards and unmixed, since
unmixing is additive.
-/

/-- The layers of a round, with what undoes them. -/
structure RoundCipher (α : Type*) where
  xor : α → α → α
  sub : α → α
  subInv : α → α
  mix : α → α
  mixInv : α → α
  xor_xor : ∀ a k, xor (xor a k) k = a
  subInv_sub : ∀ a, subInv (sub a) = a
  sub_subInv : ∀ a, sub (subInv a) = a
  mixInv_mix : ∀ a, mixInv (mix a) = a
  mix_mixInv : ∀ a, mix (mixInv a) = a
  mixInv_xor : ∀ a b, mixInv (xor a b) = xor (mixInv a) (mixInv b)

namespace RoundCipher

variable {α : Type*} (c : RoundCipher α)

def round (a k : α) : α := c.xor (c.mix (c.sub a)) k

def last (a k : α) : α := c.xor (c.sub a) k

def roundInv (a k : α) : α := c.xor (c.mixInv (c.subInv a)) k

def lastInv (a k : α) : α := c.xor (c.subInv a) k

/-- `k₀`, a round for each of `ks`, and the last round with `k₁`. -/
def encrypt (k₀ : α) (ks : List α) (k₁ a : α) : α :=
  c.last (ks.foldl c.round (c.xor a k₀)) k₁

/-- The same layers undone, with the keys backwards and unmixed. -/
def decrypt (k₀ : α) (ks : List α) (k₁ a : α) : α :=
  c.lastInv ((ks.reverse.map c.mixInv).foldl c.roundInv (c.xor a k₁)) k₀

/-- A round undone between two substitutions. -/
theorem roundInv_sub_round (a k : α) : c.roundInv (c.sub (c.round a k)) (c.mixInv k) = c.sub a := by
  rw [roundInv, c.subInv_sub, round, c.mixInv_xor, c.mixInv_mix, c.xor_xor]

theorem round_subInv_roundInv (a k : α) :
    c.round (c.subInv (c.roundInv a (c.mixInv k))) k = c.subInv a := by
  rw [round, c.sub_subInv, roundInv, ← c.mixInv_xor, c.mix_mixInv, c.xor_xor]

theorem foldl_roundInv (ks : List α) (a : α) :
    (ks.reverse.map c.mixInv).foldl c.roundInv (c.sub (ks.foldl c.round a)) = c.sub a := by
  induction ks generalizing a with
  | nil => rfl
  | cons k ks ih =>
    rw [List.reverse_cons, List.map_append, List.foldl_append, List.foldl_cons, ih]
    exact c.roundInv_sub_round a k

theorem foldl_round (ks : List α) (a : α) :
    ks.foldl c.round (c.subInv ((ks.reverse.map c.mixInv).foldl c.roundInv a)) = c.subInv a := by
  induction ks with
  | nil => rfl
  | cons k ks ih =>
    rw [List.reverse_cons, List.map_append, List.foldl_append, List.foldl_cons]
    exact (congrArg (ks.foldl c.round) (c.round_subInv_roundInv _ k)).trans ih

theorem decrypt_encrypt (k₀ : α) (ks : List α) (k₁ a : α) :
    c.decrypt k₀ ks k₁ (c.encrypt k₀ ks k₁ a) = a := by
  rw [decrypt, encrypt, last, c.xor_xor, c.foldl_roundInv, lastInv, c.subInv_sub, c.xor_xor]

theorem encrypt_decrypt (k₀ : α) (ks : List α) (k₁ a : α) :
    c.encrypt k₀ ks k₁ (c.decrypt k₀ ks k₁ a) = a := by
  rw [encrypt, decrypt, lastInv, c.xor_xor, c.foldl_round, last, c.sub_subInv, c.xor_xor]

end RoundCipher
