import Mathlib

/-!
# Words under exclusive or

Words of bits are a vector space over the field of two elements, with exclusive
or as the sum, and what shifts and reduces them is linear. So a column of words
that is mixed with the powers of one linear map is unmixed with others, whatever
the map is, when the polynomials multiply to one.
-/

/-- Words of `w` bits, added by exclusive or. -/
def XorSpace (w : ℕ) := BitVec w

namespace XorSpace

variable {w : ℕ}

instance : Add (XorSpace w) := ⟨BitVec.xor⟩

instance : Zero (XorSpace w) := ⟨(0#w : BitVec w)⟩

instance : Neg (XorSpace w) := ⟨id⟩

instance : AddCommGroup (XorSpace w) where
  add_assoc := BitVec.xor_assoc
  zero_add := fun _ => BitVec.zero_xor
  add_zero := fun _ => BitVec.xor_zero
  nsmul := nsmulRec
  zsmul := zsmulRec
  neg_add_cancel := fun _ => BitVec.xor_self
  add_comm := BitVec.xor_comm

instance : Module (ZMod 2) (XorSpace w) :=
  AddCommGroup.zmodModule fun x => (two_nsmul x).trans BitVec.xor_self

end XorSpace

namespace MixedColumn

variable {V : Type*} [AddCommGroup V] (t : V →+ V)

/-- `x · a + (x + 1) · b + c + d`, where `x` is the map. -/
def mix (a b c d : V) : V := t a + (t b + b) + c + d

/-- `(x³ + x² + x) · a + (x³ + x + 1) · b + (x³ + x² + 1) · c + (x³ + 1) · d`. -/
def unmix (a b c d : V) : V :=
  t (t (t a)) + t (t a) + t a + (t (t (t b)) + t b + b) + (t (t (t c)) + t (t c) + c) +
    (t (t (t d)) + d)

theorem unmix_add (a b c d a' b' c' d' : V) :
    unmix t (a + a') (b + b') (c + c') (d + d') = unmix t a b c d + unmix t a' b' c' d' := by
  simp only [unmix, map_add]
  abel

variable [Module (ZMod 2) V]

theorem unmix_mix (a b c d : V) :
    unmix t (mix t a b c d) (mix t b c d a) (mix t c d a b) (mix t d a b c) = a := by
  -- with the scalar in sight, coefficients are compared in the field of two elements
  refine Eq.trans ?_ (one_smul (ZMod 2) a)
  simp only [unmix, mix, map_add]
  match_scalars <;> decide

theorem mix_unmix (a b c d : V) :
    mix t (unmix t a b c d) (unmix t b c d a) (unmix t c d a b) (unmix t d a b c) = a := by
  refine Eq.trans ?_ (one_smul (ZMod 2) a)
  simp only [unmix, mix, map_add]
  match_scalars <;> decide

end MixedColumn
