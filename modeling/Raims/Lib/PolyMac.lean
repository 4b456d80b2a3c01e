import Raims.Lib.Bytes

/-!
# PolyMac: a number for a string of bytes, as the value of a polynomial

A message is cut into blocks, each block is a number with a 1 on top of its
bytes, and the numbers are the coefficients of a polynomial whose value is
taken at a secret point, modulo a prime. What a message is hashed to depends on
its bytes only, and not on how they are laid out in memory.
-/

namespace PolyMac

/-! ## §1 Little-endian numbers -/

theorem ofLe_append (l l' : List UInt8) :
    Bytes.ofLe (l ++ l') = Bytes.ofLe l + 256 ^ l.length * Bytes.ofLe l' := by
  rw [Bytes.ofLe, List.reverse_append, Bytes.ofBe, List.foldl_append, Bytes.foldl_ofBe,
    List.length_reverse, Nat.add_comm, Nat.mul_comm]
  rfl

theorem ofLe_lt (l : List UInt8) : Bytes.ofLe l < 256 ^ l.length := by
  rw [← List.length_reverse]
  exact Bytes.ofBe_lt l.reverse

@[simp] theorem ofLe_zeros (n : ℕ) : Bytes.ofLe (List.replicate n 0) = 0 := by
  induction n with
  | zero => rfl
  | succ n ih => rw [List.replicate_succ', ofLe_append, ih]; rfl

/-! ## §2 The value of a message -/

/-- The blocks of `n` bytes, of which the last may be shorter. -/
def blocks (n : ℕ) (l : List UInt8) : List (List UInt8) :=
  (List.range ((l.length + (n - 1)) / n)).map fun i => (l.drop (n * i)).take n

/-- The bytes of a block with a 1 on top. -/
def coeff (b : List UInt8) : ℕ := Bytes.ofLe (b ++ [1])

/-- One step of Horner's rule. -/
def horner (p r h : ℕ) (b : List UInt8) : ℕ := (h + coeff b) * r % p

/-- The value of the message at `r`, modulo `p`. -/
def value (p r n : ℕ) (l : List UInt8) : ℕ := (blocks n l).foldl (horner p r) 0

theorem coeff_eq (b : List UInt8) : coeff b = Bytes.ofLe b + 256 ^ b.length := by
  rw [coeff, ofLe_append]
  exact congrArg (Bytes.ofLe b + ·) (Nat.mul_one _)

@[simp] theorem blocks_nil {n : ℕ} (hn : 0 < n) : blocks n [] = [] := by
  have h : ([] : List UInt8).length + (n - 1) < n := by simp only [List.length_nil]; omega
  rw [blocks, Nat.div_eq_of_lt h]
  rfl

/-- The first block, and the blocks of what follows it. -/
theorem blocks_of_ne_nil {n : ℕ} (hn : 0 < n) {l : List UInt8} (hl : l ≠ []) :
    blocks n l = l.take n :: blocks n (l.drop n) := by
  have hlen : 0 < l.length := List.length_pos_of_ne_nil hl
  have hcount : (l.length + (n - 1)) / n = ((l.drop n).length + (n - 1)) / n + 1 := by
    rw [List.length_drop]
    rcases Nat.lt_or_ge l.length n with h | h
    · have hn1 : l.length - n + (n - 1) < n := by omega
      rw [Nat.div_eq_of_lt hn1]
      exact Nat.div_eq_of_lt_le (by omega) (by omega)
    · rw [← Nat.add_div_right _ hn]
      congr 1
      omega
  rw [blocks, hcount, List.range_succ_eq_map, List.map_cons, List.map_map, blocks]
  refine congrArg₂ _ rfl (List.map_congr_left fun i _ => ?_)
  rw [Function.comp_apply, List.drop_drop, Nat.mul_succ, Nat.add_comm n]

theorem value_lt {p : ℕ} (hp : 0 < p) (r n : ℕ) (l : List UInt8) : value p r n l < p := by
  have hfold : ∀ (bs : List (List UInt8)) (h : ℕ), h < p → bs.foldl (horner p r) h < p := by
    intro bs
    induction bs with
    | nil => exact fun h hh => hh
    | cons b bs ih => exact fun h _ => ih _ (Nat.mod_lt _ hp)
  exact hfold _ 0 hp

theorem horner_modEq {p r h h' : ℕ} (hh : h ≡ h' [MOD p]) (b : List UInt8) :
    (h + coeff b) * r ≡ horner p r h' b [MOD p] :=
  ((hh.add_right _).mul_right r).trans (Nat.mod_modEq _ _).symm

end PolyMac
