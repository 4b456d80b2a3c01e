import Raims.Lib.PolyMac
import Raims.Lib.Words
import Mathlib.Tactic.Linarith

/-!
# The one-time authenticator (`poly1305.cpp`)

`poly1305_auth_v` reads a message that lies in several buffers, 16 bytes at a
time. It keeps the accumulator in limbs of 44, 44 and 42 bits, adds a block,
multiplies by the clamped key in words of 128 bits, and carries only as far as
the next multiplication needs. The code is compared with the definition of
Poly1305: the tag is the value of the message, modulo 2^130 - 5, plus the pad.
-/

namespace Raims

namespace Poly1305

/-! ## §1 The code -/

/-- `MUL`. -/
def MUL (a b : UInt64) : BitVec 128 := Words.wide a * Words.wide b

/-- `ADDLO`. -/
def ADDLO (a : BitVec 128) (b : UInt64) : BitVec 128 := a + Words.wide b

/-- `SHR`. -/
def SHR (a : BitVec 128) (shift : ℕ) : UInt64 := Words.shr128 a shift

/-- `LO`. -/
def LO (a : BitVec 128) : UInt64 := Words.lo128 a

def MASK44 : UInt64 := 0xfffffffffff

def MASK42 : UInt64 := 0x3ffffffffff

/-- `r0`, `r1` and `r2`, and the precomputed `s1` and `s2`. -/
structure Multiplier where
  r0 : UInt64
  r1 : UInt64
  r2 : UInt64
  s1 : UInt64
  s2 : UInt64

/-- Clamp the key. -/
def Multiplier.ofKey (t0 t1 : UInt64) : Multiplier :=
  let r0 : UInt64 := t0 &&& 0xffc0fffffff
  let r1 : UInt64 := (t0 >>> 44 ||| t1 <<< 20) &&& 0xfffffc0ffff
  let r2 : UInt64 := t1 >>> 24 &&& 0x00ffffffc0f
  { r0, r1, r2, s1 := r1 * ((5 : UInt64) <<< 2), s2 := r2 * ((5 : UInt64) <<< 2) }

/-- `h0`, `h1` and `h2`. -/
structure Acc where
  h0 : UInt64
  h1 : UInt64
  h2 : UInt64

/-- `h += m`, where `t0` and `t1` are the words of the block. -/
def addBlock (hAdd t0 t1 : UInt64) (h : Acc) : Acc where
  h0 := h.h0 + (t0 &&& MASK44)
  h1 := h.h1 + ((t0 >>> 44 ||| t1 <<< 20) &&& MASK44)
  h2 := h.h2 + (t1 >>> 24 &&& MASK42 ||| hAdd)

/-- `(partial) h %= p`. -/
def reducePartial (d0 d1 d2 : BitVec 128) : Acc :=
  let c := SHR d0 44
  let h0 := LO d0 &&& MASK44
  let d1 := ADDLO d1 c
  let c := SHR d1 44
  let h1 := LO d1 &&& MASK44
  let d2 := ADDLO d2 c
  let c := SHR d2 42
  let h2 := LO d2 &&& MASK42
  let h0 := h0 + c * 5
  let c := h0 >>> 44
  { h0 := h0 &&& MASK44, h1 := h1 + c, h2 }

/-- `h *= r`. -/
def mulReduce (m : Multiplier) (h : Acc) : Acc :=
  reducePartial (MUL h.h0 m.r0 + MUL h.h1 m.s2 + MUL h.h2 m.s1)
    (MUL h.h0 m.r1 + MUL h.h1 m.r0 + MUL h.h2 m.s2)
    (MUL h.h0 m.r2 + MUL h.h1 m.r1 + MUL h.h2 m.r0)

/-- The position of the reader: the buffers from `vec[ i ]` on, and `j`. -/
structure Cursor where
  bufs : List (List UInt8)
  j : ℕ

/-- `mp` is filled from the buffers that follow. When there are none, it is padded,
and `h_add` is cleared. -/
def gather (mp : List UInt8) : List (List UInt8) → List UInt8 × Cursor × Bool
  | [] => (mp ++ 1 :: List.replicate (15 - mp.length) 0, ⟨[], 0⟩, true)
  | buf :: bufs =>
    let part := buf.take (16 - mp.length)
    if (mp ++ part).length = 16 then (mp ++ part, ⟨buf :: bufs, part.length⟩, false)
    else gather (mp ++ part) bufs

/-- The next block: in place, or gathered in `mp`. There is no `vec[ veclen ]`. -/
def nextBlock : Cursor → Option (List UInt8 × Cursor × Bool)
  | ⟨[], _⟩ => none
  | ⟨buf :: bufs, j⟩ =>
    if j + 16 ≤ buf.length then some ((buf.drop j).take 16, ⟨buf :: bufs, j + 16⟩, false)
    else some (gather (buf.drop j) bufs)

/-- `memcpy( &t, m, 8 )`. -/
def word (m : List UInt8) : UInt64 := UInt64.ofNat (Bytes.ofLe (m.take 8))

/-- The loop over the blocks: `n` is what is left of `inlen`, in blocks. -/
def authLoop (m : Multiplier) : ℕ → Cursor → UInt64 → Acc → Option Acc
  | 0, _, _, h => some h
  | n + 1, c, hAdd, h => do
    let (mp, c, padded) ← nextBlock c
    let hAdd := if padded then 0 else hAdd
    authLoop m n c hAdd (mulReduce m (addBlock hAdd (word mp) (word (mp.drop 8)) h))

/-- Carry what the loop left. -/
def carryFull (h : Acc) : Acc :=
  let c := h.h1 >>> 44
  let h1 := h.h1 &&& MASK44
  let h2 := h.h2 + c
  let c := h2 >>> 42
  let h2 := h2 &&& MASK42
  let h0 := h.h0 + c * 5
  let c := h0 >>> 44
  let h0 := h0 &&& MASK44
  let h1 := h1 + c
  let c := h1 >>> 44
  let h1 := h1 &&& MASK44
  let h2 := h2 + c
  let c := h2 >>> 42
  let h2 := h2 &&& MASK42
  let h0 := h0 + c * 5
  let c := h0 >>> 44
  { h0 := h0 &&& MASK44, h1 := h1 + c, h2 }

/-- Compute `h + -p`, and select `h` if `h < p`. -/
def selectReduced (h : Acc) : Acc :=
  let g0 := h.h0 + 5
  let c := g0 >>> 44
  let g0 := g0 &&& MASK44
  let g1 := h.h1 + c
  let c := g1 >>> 44
  let g1 := g1 &&& MASK44
  let g2 := h.h2 + c - ((1 : UInt64) <<< 42)
  let c := (g2 >>> 63) - 1
  let g0 := g0 &&& c
  let g1 := g1 &&& c
  let g2 := g2 &&& c
  let c := ~~~c
  { h0 := h.h0 &&& c ||| g0, h1 := h.h1 &&& c ||| g1, h2 := h.h2 &&& c ||| g2 }

/-- `h = (h + pad)`, and the words of it. -/
def addPad (t0 t1 : UInt64) (h : Acc) : UInt64 × UInt64 :=
  let h0 := h.h0 + (t0 &&& MASK44)
  let c := h0 >>> 44
  let h0 := h0 &&& MASK44
  let h1 := h.h1 + ((t0 >>> 44 ||| t1 <<< 20) &&& MASK44) + c
  let c := h1 >>> 44
  let h1 := h1 &&& MASK44
  let h2 := h.h2 + (t1 >>> 24 &&& MASK42) + c
  let h2 := h2 &&& MASK42
  (h0 ||| h1 <<< 44, h1 >>> 20 ||| h2 <<< 24)

/-- The words of the key: two that are clamped, and two of the pad. -/
structure Key where
  k0 : UInt64
  k1 : UInt64
  k2 : UInt64
  k3 : UInt64

/-- `poly1305_auth_v`. -/
def authV (vec : List (List UInt8)) (key : Key) : Option (UInt64 × UInt64) := do
  let inlen := (vec.map List.length).sum
  let h ← authLoop (Multiplier.ofKey key.k0 key.k1) ((inlen + 15) / 16) ⟨vec, 0⟩
    ((1 : UInt64) <<< 40) ⟨0, 0, 0⟩
  return addPad key.k2 key.k3 (selectReduced (carryFull h))

/-! ## §2 The limbs -/

/-- The prime 2^130 - 5. -/
def P : ℕ := 2 ^ 130 - 5

def Acc.val (h : Acc) : ℕ := h.h0.toNat + 2 ^ 44 * h.h1.toNat + 2 ^ 88 * h.h2.toNat

def Multiplier.val (m : Multiplier) : ℕ :=
  m.r0.toNat + 2 ^ 44 * m.r1.toNat + 2 ^ 88 * m.r2.toNat

/-- What `reducePartial` leaves: `h1` may have a bit more than its 44. -/
structure Acc.Carried (h : Acc) : Prop where
  h0 : h.h0.toNat < 2 ^ 44
  h1 : h.h1.toNat < 2 ^ 45
  h2 : h.h2.toNat < 2 ^ 42

/-- The limbs of a multiplier, with the top of the product folded into `s1` and `s2`. -/
structure Multiplier.Folds (m : Multiplier) : Prop where
  r0 : m.r0.toNat < 2 ^ 44
  r1 : m.r1.toNat < 2 ^ 44
  r2 : m.r2.toNat < 2 ^ 44
  s1 : m.s1.toNat = 20 * m.r1.toNat
  s2 : m.s2.toNat = 20 * m.r2.toNat

theorem mask44 : MASK44.toNat = 2 ^ 44 - 1 := rfl

theorem mask42 : MASK42.toNat = 2 ^ 42 - 1 := rfl

theorem toNat_dot {a b c x y z : UInt64}
    (h : a.toNat * x.toNat + b.toNat * y.toNat + c.toNat * z.toNat < 2 ^ 128) :
    (MUL a x + MUL b y + MUL c z).toNat =
      a.toNat * x.toNat + b.toNat * y.toNat + c.toNat * z.toNat := by
  have hax : (MUL a x).toNat = a.toNat * x.toNat := Words.toNat_wide_mul a x
  have hby : (MUL b y).toNat = b.toNat * y.toNat := Words.toNat_wide_mul b y
  have hcz : (MUL c z).toNat = c.toNat * z.toNat := Words.toNat_wide_mul c z
  have hab : (MUL a x + MUL b y).toNat = a.toNat * x.toNat + b.toNat * y.toNat := by
    rw [Words.toNat_wadd (by rw [hax, hby]; omega), hax, hby]
  rw [Words.toNat_wadd (by rw [hab, hcz]; omega), hab, hcz]

theorem toNat_ADDLO {d : BitVec 128} {c : UInt64} (h : d.toNat < 2 ^ 127) :
    (ADDLO d c).toNat = d.toNat + c.toNat := by
  have hc := c.toNat_lt
  rw [ADDLO, Words.toNat_wadd (by rw [Words.toNat_wide]; omega), Words.toNat_wide]

/-- The carries of one block: what is above 130 bits comes back five times. -/
theorem reducePartial_spec {d0 d1 d2 : BitVec 128} (h0 : d0.toNat < 2 ^ 98)
    (h1 : d1.toNat < 2 ^ 98) (h2 : d2.toNat < 2 ^ 98) :
    (reducePartial d0 d1 d2).Carried ∧
      (reducePartial d0 d1 d2).val ≡ d0.toNat + 2 ^ 44 * d1.toNat + 2 ^ 88 * d2.toNat [MOD P] := by
  obtain ⟨c0, hc0⟩ : ∃ c, SHR d0 44 = c := ⟨_, rfl⟩
  have tc0 : c0.toNat = d0.toNat / 2 ^ 44 := by
    rw [← hc0]
    exact Words.toNat_shr128 (by omega)
  obtain ⟨e1, he1⟩ : ∃ e, ADDLO d1 c0 = e := ⟨_, rfl⟩
  have te1 : e1.toNat = d1.toNat + c0.toNat := by rw [← he1, toNat_ADDLO (by omega)]
  obtain ⟨c1, hc1⟩ : ∃ c, SHR e1 44 = c := ⟨_, rfl⟩
  have tc1 : c1.toNat = e1.toNat / 2 ^ 44 := by
    rw [← hc1]
    exact Words.toNat_shr128 (by omega)
  obtain ⟨e2, he2⟩ : ∃ e, ADDLO d2 c1 = e := ⟨_, rfl⟩
  have te2 : e2.toNat = d2.toNat + c1.toNat := by rw [← he2, toNat_ADDLO (by omega)]
  obtain ⟨c2, hc2⟩ : ∃ c, SHR e2 42 = c := ⟨_, rfl⟩
  have tc2 : c2.toNat = e2.toNat / 2 ^ 42 := by
    rw [← hc2]
    exact Words.toNat_shr128 (by omega)
  have tl0 : (LO d0 &&& MASK44).toNat = d0.toNat % 2 ^ 44 :=
    Words.toNat_lo128_and mask44 (by decide)
  have tl1 : (LO e1 &&& MASK44).toNat = e1.toNat % 2 ^ 44 :=
    Words.toNat_lo128_and mask44 (by decide)
  have tl2 : (LO e2 &&& MASK42).toNat = e2.toNat % 2 ^ 42 :=
    Words.toNat_lo128_and mask42 (by decide)
  have tc5 : (c2 * 5).toNat = c2.toNat * 5 := Words.toNat_mul (by show c2.toNat * 5 < _; omega)
  obtain ⟨g0, hg0⟩ : ∃ g, (LO d0 &&& MASK44) + c2 * 5 = g := ⟨_, rfl⟩
  have tg0 : g0.toNat = d0.toNat % 2 ^ 44 + c2.toNat * 5 := by
    rw [← hg0, Words.toNat_add (by rw [tl0, tc5]; omega), tl0, tc5]
  have tm0 : (g0 &&& MASK44).toNat = g0.toNat % 2 ^ 44 := Words.toNat_and_mask mask44
  have tc3 : (g0 >>> 44).toNat = g0.toNat / 2 ^ 44 := Words.toNat_shiftRight (s := 44) (by decide)
  have tm1 : ((LO e1 &&& MASK44) + g0 >>> 44).toNat = e1.toNat % 2 ^ 44 + g0.toNat / 2 ^ 44 := by
    rw [Words.toNat_add (by rw [tl1, tc3]; omega), tl1, tc3]
  have hred : reducePartial d0 d1 d2 =
      ⟨g0 &&& MASK44, (LO e1 &&& MASK44) + g0 >>> 44, LO e2 &&& MASK42⟩ := by
    simp only [reducePartial, hc0, he1, hc1, he2, hc2, hg0]
  rw [hred]
  refine ⟨⟨?_, ?_, ?_⟩, ?_⟩
  · rw [tm0]; omega
  · rw [tm1]; omega
  · rw [tl2]; omega
  · -- each carry moves up by the weight of its limb, and the last one by 2^130
    have hval : Acc.val ⟨g0 &&& MASK44, (LO e1 &&& MASK44) + g0 >>> 44, LO e2 &&& MASK42⟩ +
        P * c2.toNat = d0.toNat + 2 ^ 44 * d1.toNat + 2 ^ 88 * d2.toNat := by
      simp only [Acc.val, tm0, tm1, tl2, P]
      omega
    rw [← hval]
    rw [Nat.ModEq, Nat.add_mul_mod_self_left]

/-- The limbs that `mulReduce` may be given. -/
structure Acc.Added (h : Acc) : Prop where
  h0 : h.h0.toNat < 2 ^ 45
  h1 : h.h1.toNat < 2 ^ 46
  h2 : h.h2.toNat < 2 ^ 43

/-- The product of the limbs, with 2^132 folded to 20. -/
theorem mul_modEq (a0 a1 a2 r0 r1 r2 : ℕ) :
    (a0 * r0 + a1 * (20 * r2) + a2 * (20 * r1)) +
        2 ^ 44 * (a0 * r1 + a1 * r0 + a2 * (20 * r2)) +
        2 ^ 88 * (a0 * r2 + a1 * r1 + a2 * r0) ≡
      (a0 + 2 ^ 44 * a1 + 2 ^ 88 * a2) * (r0 + 2 ^ 44 * r1 + 2 ^ 88 * r2) [MOD P] := by
  have hfold : (a0 + 2 ^ 44 * a1 + 2 ^ 88 * a2) * (r0 + 2 ^ 44 * r1 + 2 ^ 88 * r2) =
      (a0 * r0 + a1 * (20 * r2) + a2 * (20 * r1)) +
        2 ^ 44 * (a0 * r1 + a1 * r0 + a2 * (20 * r2)) +
        2 ^ 88 * (a0 * r2 + a1 * r1 + a2 * r0) +
        P * (4 * (a1 * r2 + a2 * r1 + 2 ^ 44 * (a2 * r2))) := by
    simp only [P]
    ring
  rw [hfold, Nat.ModEq, Nat.add_mul_mod_self_left]

/-- A limb of the product, of three terms that are each below 2^96. -/
theorem dot_lt {a b c x y z : ℕ} (hax : a * x < 2 ^ 96) (hby : b * y < 2 ^ 96)
    (hcz : c * z < 2 ^ 96) : a * x + b * y + c * z < 2 ^ 98 := by
  omega

theorem mulReduce_spec {m : Multiplier} (hm : m.Folds) {h : Acc} (hh : h.Added) :
    (mulReduce m h).Carried ∧ (mulReduce m h).val ≡ h.val * m.val [MOD P] := by
  have hs1 : m.s1.toNat < 2 ^ 49 := by rw [hm.s1]; have := hm.r1; omega
  have hs2 : m.s2.toNat < 2 ^ 49 := by rw [hm.s2]; have := hm.r2; omega
  have hlt : ∀ {a b : ℕ} {i j : ℕ}, a < 2 ^ i → b < 2 ^ j → i + j ≤ 96 → a * b < 2 ^ 96 := by
    intro a b i j ha hb hij
    calc a * b < 2 ^ i * 2 ^ j := Nat.mul_lt_mul'' ha hb
      _ = 2 ^ (i + j) := (pow_add 2 i j).symm
      _ ≤ 2 ^ 96 := Nat.pow_le_pow_right (by decide) hij
  have l0 := dot_lt (hlt hh.h0 hm.r0 (by decide)) (hlt hh.h1 hs2 (by decide))
    (hlt hh.h2 hs1 (by decide))
  have l1 := dot_lt (hlt hh.h0 hm.r1 (by decide)) (hlt hh.h1 hm.r0 (by decide))
    (hlt hh.h2 hs2 (by decide))
  have l2 := dot_lt (hlt hh.h0 hm.r2 (by decide)) (hlt hh.h1 hm.r1 (by decide))
    (hlt hh.h2 hm.r0 (by decide))
  have d0 := toNat_dot (l0.trans (by decide))
  have d1 := toNat_dot (l1.trans (by decide))
  have d2 := toNat_dot (l2.trans (by decide))
  obtain ⟨hcarried, hval⟩ :=
    reducePartial_spec (d0.trans_lt l0) (d1.trans_lt l1) (d2.trans_lt l2)
  refine ⟨hcarried, hval.trans ?_⟩
  rw [d0, d1, d2, hm.s1, hm.s2]
  exact mul_modEq _ _ _ _ _ _

theorem addBlock_spec {h : Acc} (hh : h.Carried) {hAdd : UInt64}
    (hadd : hAdd = 0 ∨ hAdd = (1 : UInt64) <<< 40) (t0 t1 : UInt64) :
    (addBlock hAdd t0 t1 h).Added ∧
      (addBlock hAdd t0 t1 h).val =
        h.val + (t0.toNat + 2 ^ 64 * t1.toNat + 2 ^ 88 * hAdd.toNat) := by
  obtain ⟨b0, b1, b2⟩ := hh
  have ht0 := t0.toNat_lt
  have ht1 := t1.toNat_lt
  have m0 : (t0 &&& MASK44).toNat = t0.toNat % 2 ^ 44 := Words.toNat_and_mask mask44
  have m1 : ((t0 >>> 44 ||| t1 <<< 20) &&& MASK44).toNat =
      (t0.toNat + 2 ^ 64 * t1.toNat) / 2 ^ 44 % 2 ^ 44 :=
    Words.toNat_window (a := 44) (b := 20) (by decide) (by decide) (by decide) mask44 (by decide)
  have m2 : (t1 >>> 24 &&& MASK42).toNat = t1.toNat / 2 ^ 24 := by
    have hs : (t1 >>> 24).toNat = t1.toNat / 2 ^ 24 := Words.toNat_shiftRight (s := 24) (by decide)
    rw [Words.toNat_and_mask mask42, hs]
    exact Nat.mod_eq_of_lt (by omega)
  have m2' : (t1 >>> 24 &&& MASK42 ||| hAdd).toNat = t1.toNat / 2 ^ 24 + hAdd.toNat := by
    have hmul : ∃ b, hAdd.toNat = b * 2 ^ 40 := by
      rcases hadd with rfl | rfl
      · exact ⟨0, rfl⟩
      · exact ⟨1, rfl⟩
    obtain ⟨b, hb⟩ := hmul
    rw [Words.toNat_or_of_lt (k := 40) (by rw [m2]; omega) hb, m2]
  have hle : hAdd.toNat ≤ 2 ^ 40 := by
    rcases hadd with rfl | rfl
    · exact Nat.zero_le _
    · exact Nat.le_refl _
  have s0 := Words.toNat_add (x := h.h0) (y := t0 &&& MASK44) (by rw [m0]; omega)
  have s1 := Words.toNat_add (x := h.h1) (y := (t0 >>> 44 ||| t1 <<< 20) &&& MASK44)
    (by rw [m1]; omega)
  have s2 := Words.toNat_add (x := h.h2) (y := t1 >>> 24 &&& MASK42 ||| hAdd)
    (by rw [m2']; omega)
  rw [m0] at s0
  rw [m1] at s1
  rw [m2'] at s2
  refine ⟨⟨?_, ?_, ?_⟩, ?_⟩
  · show (h.h0 + (t0 &&& MASK44)).toNat < _
    omega
  · show (h.h1 + ((t0 >>> 44 ||| t1 <<< 20) &&& MASK44)).toNat < _
    omega
  · show (h.h2 + (t1 >>> 24 &&& MASK42 ||| hAdd)).toNat < _
    omega
  · simp only [Acc.val, addBlock, s0, s1, s2]
    omega

/-- The key with the bits cleared that Poly1305 clears. -/
def clamp (r : ℕ) : ℕ := r &&& 0x0ffffffc0ffffffc0ffffffc0fffffff

theorem clamp_limbs (r : ℕ) :
    clamp r % 2 ^ 44 = r % 2 ^ 44 &&& 0xffc0fffffff ∧
      clamp r / 2 ^ 44 % 2 ^ 44 = r / 2 ^ 44 % 2 ^ 44 &&& 0xfffffc0ffff ∧
      clamp r / 2 ^ 88 = r / 2 ^ 88 &&& 0x00ffffffc0f := by
  refine ⟨?_, ?_, ?_⟩
  · rw [clamp, Nat.and_mod_two_pow]
  · rw [clamp, Nat.and_div_two_pow, Nat.and_mod_two_pow]
  · rw [clamp, Nat.and_div_two_pow]

theorem ofKey_spec (t0 t1 : UInt64) :
    (Multiplier.ofKey t0 t1).Folds ∧
      (Multiplier.ofKey t0 t1).val = clamp (t0.toNat + 2 ^ 64 * t1.toNat) := by
  have ht0 := t0.toNat_lt
  have ht1 := t1.toNat_lt
  obtain ⟨l0, l1, l2⟩ := clamp_limbs (t0.toNat + 2 ^ 64 * t1.toNat)
  have r0 : (Multiplier.ofKey t0 t1).r0.toNat = clamp (t0.toNat + 2 ^ 64 * t1.toNat) % 2 ^ 44 := by
    have hmask : (0xffc0fffffff : ℕ) = 0xffc0fffffff % 2 ^ 44 := rfl
    have hmod : (t0.toNat + 2 ^ 64 * t1.toNat) % 2 ^ 44 = t0.toNat % 2 ^ 44 := by omega
    rw [l0, hmod, hmask, ← Nat.and_mod_two_pow]
    have hand : (t0 &&& 0xffc0fffffff).toNat = t0.toNat &&& 0xffc0fffffff := UInt64.toNat_and _ _
    show (t0 &&& 0xffc0fffffff).toNat = _
    rw [hand]
    have hle : t0.toNat &&& 0xffc0fffffff ≤ 0xffc0fffffff := Nat.and_le_right
    exact (Nat.mod_eq_of_lt (by omega)).symm
  have r1 : (Multiplier.ofKey t0 t1).r1.toNat =
      clamp (t0.toNat + 2 ^ 64 * t1.toNat) / 2 ^ 44 % 2 ^ 44 := by
    have hmask : (0xfffffc0ffff : ℕ) = 0xfffffc0ffff % 2 ^ 44 := rfl
    have hshift := @Words.toNat_or_shift t0 t1 44 20 (by decide) (by decide) (by decide)
    rw [l1, hmask, ← Nat.and_mod_two_pow]
    show ((t0 >>> 44 ||| t1 <<< 20) &&& 0xfffffc0ffff).toNat = _
    rw [UInt64.toNat_and, hshift]
    have hle : (t0.toNat + 2 ^ 64 * t1.toNat) / 2 ^ 44 &&& 0xfffffc0ffff ≤ 0xfffffc0ffff :=
      Nat.and_le_right
    have hlow : (t0.toNat + 2 ^ 64 * t1.toNat) / 2 ^ (44 : UInt64).toNat % 2 ^ 64 &&&
        0xfffffc0ffff = ((t0.toNat + 2 ^ 64 * t1.toNat) / 2 ^ 44 &&& 0xfffffc0ffff) % 2 ^ 64 := by
      rw [Nat.and_mod_two_pow]
      rfl
    refine hlow.trans ?_
    rw [Nat.mod_eq_of_lt (by omega), Nat.mod_eq_of_lt (by omega)]
  have r2 : (Multiplier.ofKey t0 t1).r2.toNat =
      clamp (t0.toNat + 2 ^ 64 * t1.toNat) / 2 ^ 88 := by
    have hs : (t1 >>> 24).toNat = t1.toNat / 2 ^ 24 := Words.toNat_shiftRight (s := 24) (by decide)
    have hdiv : (t0.toNat + 2 ^ 64 * t1.toNat) / 2 ^ 88 = t1.toNat / 2 ^ 24 := by omega
    rw [l2, hdiv]
    show (t1 >>> 24 &&& 0x00ffffffc0f).toNat = _
    rw [UInt64.toNat_and, hs]
    rfl
  have hclamp : clamp (t0.toNat + 2 ^ 64 * t1.toNat) ≤ 0x0ffffffc0ffffffc0ffffffc0fffffff :=
    Nat.and_le_right
  have b0 : (Multiplier.ofKey t0 t1).r0.toNat < 2 ^ 44 := by rw [r0]; omega
  have b1 : (Multiplier.ofKey t0 t1).r1.toNat < 2 ^ 44 := by rw [r1]; omega
  have b2 : (Multiplier.ofKey t0 t1).r2.toNat < 2 ^ 44 := by rw [r2]; omega
  have h20 : ((5 : UInt64) <<< 2).toNat = 20 := rfl
  refine ⟨⟨b0, b1, b2, ?_, ?_⟩, ?_⟩
  · show ((Multiplier.ofKey t0 t1).r1 * ((5 : UInt64) <<< 2)).toNat = _
    rw [Words.toNat_mul (by rw [h20]; omega), h20, Nat.mul_comm]
  · show ((Multiplier.ofKey t0 t1).r2 * ((5 : UInt64) <<< 2)).toNat = _
    rw [Words.toNat_mul (by rw [h20]; omega), h20, Nat.mul_comm]
  · rw [Multiplier.val, r0, r1, r2]
    omega

/-! ## §3 After the last block -/

/-- The limbs without any carry left in them. -/
structure Acc.Full (h : Acc) : Prop where
  h0 : h.h0.toNat < 2 ^ 44
  h1 : h.h1.toNat < 2 ^ 44
  h2 : h.h2.toNat < 2 ^ 42

/-- One round of carries, from `h1` to `h0` and up again. -/
def carryRound (h : Acc) : Acc :=
  let c := h.h1 >>> 44
  let h1 := h.h1 &&& MASK44
  let h2 := h.h2 + c
  let c := h2 >>> 42
  let h2 := h2 &&& MASK42
  let h0 := h.h0 + c * 5
  let c := h0 >>> 44
  { h0 := h0 &&& MASK44, h1 := h1 + c, h2 }

theorem carryFull_eq (h : Acc) : carryFull h = carryRound (carryRound h) := rfl

/-- The limbs of a round, and the carries `c1`, `c2` and `c0` that move in it. -/
theorem carryRound_spec {h : Acc} (hh : h.Carried) :
    ∃ c0 c1 c2 : ℕ,
      h.h1.toNat = 2 ^ 44 * c1 + h.h1.toNat % 2 ^ 44 ∧
      h.h2.toNat + c1 = 2 ^ 42 * c2 + (carryRound h).h2.toNat ∧
      h.h0.toNat + 5 * c2 = 2 ^ 44 * c0 + (carryRound h).h0.toNat ∧
      (carryRound h).h1.toNat = h.h1.toNat % 2 ^ 44 + c0 ∧
      (carryRound h).h0.toNat < 2 ^ 44 ∧ (carryRound h).h2.toNat < 2 ^ 42 := by
  obtain ⟨b0, b1, b2⟩ := hh
  have tc1 : (h.h1 >>> 44).toNat = h.h1.toNat / 2 ^ 44 := Words.toNat_shiftRight (by decide)
  have tm1 : (h.h1 &&& MASK44).toNat = h.h1.toNat % 2 ^ 44 := Words.toNat_and_mask mask44
  obtain ⟨g2, hg2⟩ : ∃ g, h.h2 + h.h1 >>> 44 = g := ⟨_, rfl⟩
  have tg2 : g2.toNat = h.h2.toNat + h.h1.toNat / 2 ^ 44 := by
    rw [← hg2, Words.toNat_add (by rw [tc1]; omega), tc1]
  have tc2 : (g2 >>> 42).toNat = g2.toNat / 2 ^ 42 := Words.toNat_shiftRight (by decide)
  have tm2 : (g2 &&& MASK42).toNat = g2.toNat % 2 ^ 42 := Words.toNat_and_mask mask42
  have tc5 : (g2 >>> 42 * 5).toNat = g2.toNat / 2 ^ 42 * 5 := by
    rw [Words.toNat_mul (by rw [tc2]; show _ * 5 < _; omega), tc2]
    rfl
  obtain ⟨g0, hg0⟩ : ∃ g, h.h0 + g2 >>> 42 * 5 = g := ⟨_, rfl⟩
  have tg0 : g0.toNat = h.h0.toNat + g2.toNat / 2 ^ 42 * 5 := by
    rw [← hg0, Words.toNat_add (by rw [tc5]; omega), tc5]
  have tc0 : (g0 >>> 44).toNat = g0.toNat / 2 ^ 44 := Words.toNat_shiftRight (by decide)
  have tm0 : (g0 &&& MASK44).toNat = g0.toNat % 2 ^ 44 := Words.toNat_and_mask mask44
  have th1 : ((h.h1 &&& MASK44) + g0 >>> 44).toNat = h.h1.toNat % 2 ^ 44 + g0.toNat / 2 ^ 44 := by
    rw [Words.toNat_add (by rw [tm1, tc0]; omega), tm1, tc0]
  have hround : carryRound h = ⟨g0 &&& MASK44, (h.h1 &&& MASK44) + g0 >>> 44, g2 &&& MASK42⟩ := by
    simp only [carryRound, hg2, hg0]
  rw [hround]
  refine ⟨g0.toNat / 2 ^ 44, h.h1.toNat / 2 ^ 44, g2.toNat / 2 ^ 42, ?_, ?_, ?_, th1, ?_, ?_⟩
  · omega
  · rw [tm2]; omega
  · rw [tm0]; omega
  · rw [tm0]; omega
  · rw [tm2]; omega

theorem carryRound_val {h : Acc} (hh : h.Carried) : (carryRound h).val ≡ h.val [MOD P] := by
  obtain ⟨c0, c1, c2, e1, e2, e0, e1', -, -⟩ := carryRound_spec hh
  -- only `c2` leaves the 130 bits, and it comes back five times
  have hval : (carryRound h).val + P * c2 = h.val := by
    simp only [Acc.val, P]
    omega
  rw [← hval, Nat.ModEq, Nat.add_mul_mod_self_left]

/-- Two rounds are enough: the second one can only carry all the way up into a zero. -/
theorem carryFull_spec {h : Acc} (hh : h.Carried) :
    (carryFull h).Full ∧ (carryFull h).val ≡ h.val [MOD P] := by
  obtain ⟨b0, b1, b2⟩ := hh
  obtain ⟨c0, c1, c2, e1, e2, e0, e1', r0, r2⟩ := carryRound_spec ⟨b0, b1, b2⟩
  have hh' : (carryRound h).Carried := ⟨r0, by omega, r2⟩
  obtain ⟨d0, d1, d2, f1, f2, f0, f1', s0, s2⟩ := carryRound_spec hh'
  have hd1 : d1 = 0 ∨ d1 = 1 ∧ c0 = 1 := by omega
  have hd2 : d2 = 0 ∨ d2 = 1 ∧ d1 = 1 := by omega
  have hd0 : d0 = 0 := by omega
  rw [carryFull_eq]
  exact ⟨⟨s0, by omega, s2⟩, (carryRound_val hh').trans (carryRound_val ⟨b0, b1, b2⟩)⟩

theorem select_eq {c x g : UInt64} (hc : c = 0 ∨ c = -1) :
    x &&& ~~~c ||| g &&& c = if c = 0 then x else g := by
  rcases hc with rfl | rfl
  · rw [if_pos rfl]
    simp
  · rw [if_neg (by decide)]
    simp

/-- The accumulator below the prime: `h + 5` has bit 130 exactly when `h` is not below. -/
theorem selectReduced_spec {h : Acc} (hh : h.Full) :
    (selectReduced h).Full ∧ (selectReduced h).val = h.val % P := by
  obtain ⟨b0, b1, b2⟩ := hh
  obtain ⟨g0, hg0⟩ : ∃ g, h.h0 + 5 = g := ⟨_, rfl⟩
  have tg0 : g0.toNat = h.h0.toNat + 5 := by
    rw [← hg0, Words.toNat_add (by show _ + 5 < _; omega)]
    rfl
  have tc0 : (g0 >>> 44).toNat = g0.toNat / 2 ^ 44 := Words.toNat_shiftRight (by decide)
  have tm0 : (g0 &&& MASK44).toNat = g0.toNat % 2 ^ 44 := Words.toNat_and_mask mask44
  obtain ⟨g1, hg1⟩ : ∃ g, h.h1 + g0 >>> 44 = g := ⟨_, rfl⟩
  have tg1 : g1.toNat = h.h1.toNat + g0.toNat / 2 ^ 44 := by
    rw [← hg1, Words.toNat_add (by rw [tc0]; omega), tc0]
  have tc1 : (g1 >>> 44).toNat = g1.toNat / 2 ^ 44 := Words.toNat_shiftRight (by decide)
  have tm1 : (g1 &&& MASK44).toNat = g1.toNat % 2 ^ 44 := Words.toNat_and_mask mask44
  have tg2 : (h.h2 + g1 >>> 44).toNat = h.h2.toNat + g1.toNat / 2 ^ 44 := by
    rw [Words.toNat_add (by rw [tc1]; omega), tc1]
  have hone : ((1 : UInt64) <<< 42).toNat = 2 ^ 42 := rfl
  obtain ⟨g2, hg2⟩ : ∃ g, h.h2 + g1 >>> 44 - ((1 : UInt64) <<< 42) = g := ⟨_, rfl⟩
  have hsel : ∀ c, (g2 >>> 63) - 1 = c → (c = 0 ∨ c = -1) →
      selectReduced h = if c = 0 then h else ⟨g0 &&& MASK44, g1 &&& MASK44, g2⟩ := by
    intro c hc hcases
    simp only [selectReduced, hg0, hg1, hg2, hc, select_eq hcases]
    split_ifs <;> rfl
  by_cases hlt : h.h2.toNat + g1.toNat / 2 ^ 44 < 2 ^ 42
  · -- `g2` is negative
    have tg2' : g2.toNat = 2 ^ 64 + (h.h2.toNat + g1.toNat / 2 ^ 44) - 2 ^ 42 := by
      rw [← hg2, UInt64.toNat_sub, tg2, hone]
      omega
    have hc : (g2 >>> 63) - 1 = 0 := by
      have hs : (g2 >>> 63).toNat = g2.toNat / 2 ^ 63 := Words.toNat_shiftRight (by decide)
      have hone' : g2 >>> 63 = 1 := UInt64.toNat_inj.1 (by rw [hs]; show _ = 1; omega)
      rw [hone']
      rfl
    rw [hsel 0 hc (.inl rfl), if_pos rfl]
    have hval : h.val < P := by
      simp only [Acc.val, P]
      omega
    exact ⟨⟨b0, b1, b2⟩, (Nat.mod_eq_of_lt hval).symm⟩
  · have tg2' : g2.toNat = h.h2.toNat + g1.toNat / 2 ^ 44 - 2 ^ 42 := by
      rw [← hg2, Words.toNat_sub (by rw [tg2, hone]; omega), tg2, hone]
    have hc : (g2 >>> 63) - 1 = -1 := by
      have hs : (g2 >>> 63).toNat = g2.toNat / 2 ^ 63 := Words.toNat_shiftRight (by decide)
      have hzero : g2 >>> 63 = 0 := UInt64.toNat_inj.1 (by rw [hs]; show _ = 0; omega)
      rw [hzero]
      rfl
    rw [hsel (-1) hc (.inr rfl), if_neg (by decide)]
    have hval : Acc.val ⟨g0 &&& MASK44, g1 &&& MASK44, g2⟩ + P = h.val := by
      simp only [Acc.val, P, tm0, tm1]
      omega
    have hbound : Acc.val ⟨g0 &&& MASK44, g1 &&& MASK44, g2⟩ < P := by
      simp only [Acc.val, P] at hval ⊢
      omega
    refine ⟨⟨?_, ?_, ?_⟩, ?_⟩
    · show (g0 &&& MASK44).toNat < _
      rw [tm0]; omega
    · show (g1 &&& MASK44).toNat < _
      rw [tm1]; omega
    · show g2.toNat < _
      omega
    · rw [← hval, Nat.add_mod_right, Nat.mod_eq_of_lt hbound]

/-- The pad is added, and the sum is cut to 128 bits. -/
theorem addPad_spec {h : Acc} (hh : h.Full) (t0 t1 : UInt64) :
    (addPad t0 t1 h).1.toNat + 2 ^ 64 * (addPad t0 t1 h).2.toNat =
      (h.val + (t0.toNat + 2 ^ 64 * t1.toNat)) % 2 ^ 128 := by
  obtain ⟨b0, b1, b2⟩ := hh
  have ht0 := t0.toNat_lt
  have ht1 := t1.toNat_lt
  have m0 : (t0 &&& MASK44).toNat = t0.toNat % 2 ^ 44 := Words.toNat_and_mask mask44
  have m1 : ((t0 >>> 44 ||| t1 <<< 20) &&& MASK44).toNat =
      (t0.toNat + 2 ^ 64 * t1.toNat) / 2 ^ 44 % 2 ^ 44 :=
    Words.toNat_window (a := 44) (b := 20) (by decide) (by decide) (by decide) mask44 (by decide)
  have m2 : (t1 >>> 24 &&& MASK42).toNat = t1.toNat / 2 ^ 24 := by
    have hs : (t1 >>> 24).toNat = t1.toNat / 2 ^ 24 := Words.toNat_shiftRight (s := 24) (by decide)
    rw [Words.toNat_and_mask mask42, hs]
    exact Nat.mod_eq_of_lt (by omega)
  obtain ⟨g0, hg0⟩ : ∃ g, h.h0 + (t0 &&& MASK44) = g := ⟨_, rfl⟩
  have tg0 : g0.toNat = h.h0.toNat + t0.toNat % 2 ^ 44 := by
    rw [← hg0, Words.toNat_add (by rw [m0]; omega), m0]
  have tc0 : (g0 >>> 44).toNat = g0.toNat / 2 ^ 44 := Words.toNat_shiftRight (by decide)
  have tm0 : (g0 &&& MASK44).toNat = g0.toNat % 2 ^ 44 := Words.toNat_and_mask mask44
  obtain ⟨g1, hg1⟩ : ∃ g, h.h1 + ((t0 >>> 44 ||| t1 <<< 20) &&& MASK44) + g0 >>> 44 = g :=
    ⟨_, rfl⟩
  have tg1 : g1.toNat =
      h.h1.toNat + (t0.toNat + 2 ^ 64 * t1.toNat) / 2 ^ 44 % 2 ^ 44 + g0.toNat / 2 ^ 44 := by
    have hsum : (h.h1 + ((t0 >>> 44 ||| t1 <<< 20) &&& MASK44)).toNat =
        h.h1.toNat + (t0.toNat + 2 ^ 64 * t1.toNat) / 2 ^ 44 % 2 ^ 44 := by
      rw [Words.toNat_add (by rw [m1]; omega), m1]
    rw [← hg1, Words.toNat_add (by rw [hsum, tc0]; omega), hsum, tc0]
  have tc1 : (g1 >>> 44).toNat = g1.toNat / 2 ^ 44 := Words.toNat_shiftRight (by decide)
  have tm1 : (g1 &&& MASK44).toNat = g1.toNat % 2 ^ 44 := Words.toNat_and_mask mask44
  obtain ⟨g2, hg2⟩ : ∃ g, h.h2 + (t1 >>> 24 &&& MASK42) + g1 >>> 44 = g := ⟨_, rfl⟩
  have tg2 : g2.toNat = h.h2.toNat + t1.toNat / 2 ^ 24 + g1.toNat / 2 ^ 44 := by
    have hsum : (h.h2 + (t1 >>> 24 &&& MASK42)).toNat = h.h2.toNat + t1.toNat / 2 ^ 24 := by
      rw [Words.toNat_add (by rw [m2]; omega), m2]
    rw [← hg2, Words.toNat_add (by rw [hsum, tc1]; omega), hsum, tc1]
  have tm2 : (g2 &&& MASK42).toNat = g2.toNat % 2 ^ 42 := Words.toNat_and_mask mask42
  have hpad : addPad t0 t1 h =
      ((g0 &&& MASK44) ||| (g1 &&& MASK44) <<< 44,
        (g1 &&& MASK44) >>> 20 ||| (g2 &&& MASK42) <<< 24) := by
    simp only [addPad, hg0, hg1, hg2]
  have w0 : ((g0 &&& MASK44) ||| (g1 &&& MASK44) <<< 44).toNat =
      g0.toNat % 2 ^ 44 + g1.toNat % 2 ^ 20 * 2 ^ 44 := by
    have hs : ((g1 &&& MASK44) <<< 44).toNat = g1.toNat % 2 ^ 20 * 2 ^ 44 := by
      rw [Words.toNat_shiftLeft (by decide), tm1]
      show _ * 2 ^ 44 % 2 ^ 64 = _
      omega
    rw [Words.toNat_or_of_lt (k := 44) (by rw [tm0]; omega) hs, tm0, hs]
  have w1 : ((g1 &&& MASK44) >>> 20 ||| (g2 &&& MASK42) <<< 24).toNat =
      g1.toNat % 2 ^ 44 / 2 ^ 20 + g2.toNat % 2 ^ 40 * 2 ^ 24 := by
    have hr : ((g1 &&& MASK44) >>> 20).toNat = g1.toNat % 2 ^ 44 / 2 ^ 20 := by
      rw [Words.toNat_shiftRight (by decide), tm1]
      rfl
    have hs : ((g2 &&& MASK42) <<< 24).toNat = g2.toNat % 2 ^ 40 * 2 ^ 24 := by
      rw [Words.toNat_shiftLeft (by decide), tm2]
      show _ * 2 ^ 24 % 2 ^ 64 = _
      omega
    rw [Words.toNat_or_of_lt (k := 24) (by rw [hr]; omega) hs, hr, hs]
  have hwindow : t0.toNat + 2 ^ 64 * t1.toNat = t0.toNat % 2 ^ 44 +
      2 ^ 44 * ((t0.toNat + 2 ^ 64 * t1.toNat) / 2 ^ 44 % 2 ^ 44) +
      2 ^ 88 * (t1.toNat / 2 ^ 24) := by omega
  have hsum : h.val + (t0.toNat + 2 ^ 64 * t1.toNat) =
      g0.toNat % 2 ^ 44 + 2 ^ 44 * (g1.toNat % 2 ^ 44) + 2 ^ 88 * g2.toNat := by
    rw [hwindow, Acc.val]
    generalize (t0.toNat + 2 ^ 64 * t1.toNat) / 2 ^ 44 % 2 ^ 44 = p1 at tg1 ⊢
    generalize t0.toNat % 2 ^ 44 = p0 at tg0 ⊢
    omega
  rw [hpad, w0, w1, hsum]
  clear hsum hwindow tg0 tg1 tg2 w0 w1
  omega

/-! ## §4 The blocks of several buffers -/

/-- The bytes that are left. -/
def Cursor.rest (c : Cursor) : List UInt8 := c.bufs.flatten.drop c.j

/-- `j` is in the buffer that is read. -/
def Cursor.Inside (c : Cursor) : Prop :=
  match c.bufs with
  | [] => c.j = 0
  | buf :: _ => c.j ≤ buf.length

/-- What `mp` is when the bytes end. -/
def pad (b : List UInt8) : List UInt8 := b ++ 1 :: List.replicate (15 - b.length) 0

theorem gather_spec {mp : List UInt8} (hmp : mp.length < 16) (bufs : List (List UInt8)) :
    (16 ≤ (mp ++ bufs.flatten).length →
      ∃ c, gather mp bufs = ((mp ++ bufs.flatten).take 16, c, false) ∧ c.Inside ∧
        c.rest = (mp ++ bufs.flatten).drop 16) ∧
    ((mp ++ bufs.flatten).length < 16 →
      gather mp bufs = (pad (mp ++ bufs.flatten), ⟨[], 0⟩, true)) := by
  induction bufs generalizing mp with
  | nil =>
    rw [List.flatten_nil, List.append_nil]
    exact ⟨fun h => absurd h (by omega), fun _ => rfl⟩
  | cons buf bufs ih =>
    rw [gather, List.flatten_cons]
    split_ifs with hfull
    · have hlen : mp.length + (buf.take (16 - mp.length)).length = 16 := by
        rw [← List.length_append, hfull]
      have hbuf : (buf.take (16 - mp.length)).length = 16 - mp.length := by omega
      have hle : 16 - mp.length ≤ buf.length := by
        rw [List.length_take] at hbuf
        omega
      refine ⟨fun _ => ⟨_, congrArg₂ _ ?_ rfl, ?_, ?_⟩, fun h => ?_⟩
      · have hall : mp.take 16 = mp := List.take_of_length_le (by omega)
        rw [List.take_append, hall, List.take_append_of_le_length hle]
      · show (buf.take (16 - mp.length)).length ≤ buf.length
        omega
      · show (buf ++ bufs.flatten).drop (buf.take (16 - mp.length)).length = _
        have hall : mp.drop 16 = [] := List.drop_eq_nil_of_le (by omega)
        have hdrop : (mp ++ (buf ++ bufs.flatten)).drop 16 =
            (buf ++ bufs.flatten).drop (16 - mp.length) := by
          rw [List.drop_append, hall, List.nil_append]
        rw [hbuf, hdrop]
      · rw [List.length_append, List.length_append] at h
        omega
    · have hshort : buf.take (16 - mp.length) = buf := by
        refine List.take_of_length_le ?_
        by_contra hlong
        rw [List.length_append, List.length_take] at hfull
        omega
      rw [hshort] at hfull ⊢
      have hlt : (mp ++ buf).length < 16 := by
        have hle : buf.length ≤ 16 - mp.length := by
          rw [← hshort]
          exact List.length_take_le _ _
        rw [List.length_append] at hfull ⊢
        omega
      have hih := ih hlt
      rw [List.append_assoc] at hih
      exact hih

theorem nextBlock_spec {c : Cursor} (hc : c.Inside) (hpos : 0 < c.rest.length) :
    (16 ≤ c.rest.length → ∃ c', nextBlock c = some (c.rest.take 16, c', false) ∧ c'.Inside ∧
      c'.rest = c.rest.drop 16) ∧
    (c.rest.length < 16 → nextBlock c = some (pad c.rest, ⟨[], 0⟩, true)) := by
  obtain ⟨bufs, j⟩ := c
  cases bufs with
  | nil =>
    rw [Cursor.rest, List.flatten_nil, List.drop_nil, List.length_nil] at hpos
    exact absurd hpos (Nat.lt_irrefl 0)
  | cons buf bufs =>
    have hj : j ≤ buf.length := hc
    have hrest : Cursor.rest ⟨buf :: bufs, j⟩ = buf.drop j ++ bufs.flatten := by
      rw [Cursor.rest, List.flatten_cons, List.drop_append_of_le_length hj]
    rw [hrest, nextBlock]
    split_ifs with hin
    · have hdrop : 16 ≤ (buf.drop j).length := by
        rw [List.length_drop]
        omega
      refine ⟨fun _ => ⟨⟨buf :: bufs, j + 16⟩, ?_, hin, ?_⟩, fun h => ?_⟩
      · rw [List.take_append_of_le_length hdrop]
      · rw [Cursor.rest, List.flatten_cons, List.drop_append_of_le_length hin,
          List.drop_append_of_le_length hdrop, List.drop_drop]
      · rw [List.length_append] at h
        omega
    · have hlt : (buf.drop j).length < 16 := by
        rw [List.length_drop]
        omega
      obtain ⟨hfull, hend⟩ := gather_spec hlt bufs
      refine ⟨fun h => ?_, fun h => congrArg some (hend h)⟩
      obtain ⟨c', hg, hc'⟩ := hfull h
      exact ⟨c', congrArg some hg, hc'⟩

theorem toNat_word (m : List UInt8) : (word m).toNat = Bytes.ofLe (m.take 8) := by
  have hlt : Bytes.ofLe (m.take 8) < 256 ^ 8 :=
    (PolyMac.ofLe_lt _).trans_le (Nat.pow_le_pow_right (by decide) (List.length_take_le _ _))
  rw [word, UInt64.toNat_ofNat', Nat.mod_eq_of_lt (hlt.trans_eq (by norm_num))]

theorem words_eq {m : List UInt8} (hm : m.length = 16) :
    (word m).toNat + 2 ^ 64 * (word (m.drop 8)).toNat = Bytes.ofLe m := by
  have hrest : ((m.drop 8).take 8) = m.drop 8 :=
    List.take_of_length_le (by rw [List.length_drop]; omega)
  have hlen : (m.take 8).length = 8 := by
    rw [List.length_take]
    omega
  conv_rhs => rw [← List.take_append_drop 8 m, PolyMac.ofLe_append, hlen]
  rw [toNat_word, toNat_word, hrest]
  rfl

theorem ofLe_pad {b : List UInt8} (hb : b.length < 16) :
    (pad b).length = 16 ∧ Bytes.ofLe (pad b) = PolyMac.coeff b := by
  constructor
  · rw [pad, List.length_append, List.length_cons, List.length_replicate]
    omega
  · rw [pad, List.append_cons, PolyMac.ofLe_append, PolyMac.ofLe_zeros, Nat.mul_zero]
    rfl

/-- One block: the accumulator goes one step of Horner's rule. -/
theorem block_spec {m : Multiplier} (hm : m.Folds) {h : Acc} (hh : h.Carried) {hAdd : UInt64}
    (hadd : hAdd = 0 ∨ hAdd = (1 : UInt64) <<< 40) {mp b : List UInt8} (hmp : mp.length = 16)
    (hb : Bytes.ofLe mp + 2 ^ 88 * hAdd.toNat = PolyMac.coeff b) {v : ℕ} (hv : h.val ≡ v [MOD P]) :
    (mulReduce m (addBlock hAdd (word mp) (word (mp.drop 8)) h)).Carried ∧
      (mulReduce m (addBlock hAdd (word mp) (word (mp.drop 8)) h)).val ≡
        PolyMac.horner P m.val v b [MOD P] := by
  obtain ⟨hadded, hval⟩ := addBlock_spec hh hadd (word mp) (word (mp.drop 8))
  obtain ⟨hcarried, hmul⟩ := mulReduce_spec hm hadded
  rw [hval, words_eq hmp, hb] at hmul
  exact ⟨hcarried, hmul.trans (PolyMac.horner_modEq hv b)⟩

theorem authLoop_spec {m : Multiplier} (hm : m.Folds) {n : ℕ} {c : Cursor} (hc : c.Inside)
    (hn : n = (c.rest.length + 15) / 16) {h : Acc} (hh : h.Carried) {v : ℕ}
    (hv : h.val ≡ v [MOD P]) :
    ∃ h', authLoop m n c ((1 : UInt64) <<< 40) h = some h' ∧ h'.Carried ∧
      h'.val ≡ (PolyMac.blocks 16 c.rest).foldl (PolyMac.horner P m.val) v [MOD P] := by
  induction n generalizing c h v with
  | zero =>
    have hnil : c.rest = [] := List.eq_nil_of_length_eq_zero (by omega)
    rw [hnil, PolyMac.blocks_nil (by decide)]
    exact ⟨h, rfl, hh, hv⟩
  | succ n ih =>
    have hpos : 0 < c.rest.length := by omega
    obtain ⟨hfull, hend⟩ := nextBlock_spec hc hpos
    rw [PolyMac.blocks_of_ne_nil (by decide) (List.ne_nil_of_length_pos hpos), List.foldl_cons,
      authLoop]
    by_cases hlen : 16 ≤ c.rest.length
    · obtain ⟨c', hnext, hc', hrest⟩ := hfull hlen
      have htake : (c.rest.take 16).length = 16 := by
        rw [List.length_take]
        omega
      have hcoeff : Bytes.ofLe (c.rest.take 16) + 2 ^ 88 * ((1 : UInt64) <<< 40).toNat =
          PolyMac.coeff (c.rest.take 16) := by
        rw [PolyMac.coeff_eq, htake]
        rfl
      obtain ⟨hcar, hval⟩ := block_spec hm hh (.inr rfl) htake hcoeff hv
      have hn' : n = (c'.rest.length + 15) / 16 := by
        rw [hrest, List.length_drop]
        omega
      rw [hnext, ← hrest]
      exact ih hc' hn' hcar hval
    · have hlt : c.rest.length < 16 := by omega
      obtain ⟨hpad, hcoeff⟩ := ofLe_pad hlt
      have hlast : c.rest.take 16 = c.rest := List.take_of_length_le (by omega)
      have hnone : c.rest.drop 16 = [] := List.drop_eq_nil_of_le (by omega)
      have hzero : n = 0 := by omega
      rw [hend hlt, hlast, hnone, PolyMac.blocks_nil (by decide), hzero]
      exact ⟨_, rfl, block_spec hm hh (.inl rfl) hpad hcoeff hv⟩

/-! ## §5 The tag -/

/-- Poly1305: the value of the message at the clamped `r`, and `s` added to it. -/
def tag (r s : ℕ) (msg : List UInt8) : ℕ := (PolyMac.value P (clamp r) 16 msg + s) % 2 ^ 128

def Key.r (key : Key) : ℕ := key.k0.toNat + 2 ^ 64 * key.k1.toNat

def Key.s (key : Key) : ℕ := key.k2.toNat + 2 ^ 64 * key.k3.toNat

/-- However the message is cut into buffers, the code returns the tag of it. -/
theorem authV_eq_tag (vec : List (List UInt8)) (key : Key) :
    ∃ out, authV vec key = some out ∧
      out.1.toNat + 2 ^ 64 * out.2.toNat = tag key.r key.s vec.flatten := by
  obtain ⟨hfolds, hr⟩ := ofKey_spec key.k0 key.k1
  have hin : Cursor.Inside ⟨vec, 0⟩ := by
    cases vec with
    | nil => rfl
    | cons buf bufs => exact Nat.zero_le _
  have hn : ((vec.map List.length).sum + 15) / 16 =
      ((Cursor.rest ⟨vec, 0⟩).length + 15) / 16 := by
    rw [Cursor.rest, List.drop_zero, List.length_flatten]
  have hzero : Acc.Carried ⟨0, 0, 0⟩ := ⟨by decide, by decide, by decide⟩
  obtain ⟨h, hloop, hcar, hval⟩ := authLoop_spec hfolds hin hn hzero (Nat.ModEq.refl 0)
  obtain ⟨hfull, hcarry⟩ := carryFull_spec hcar
  obtain ⟨hsel, hred⟩ := selectReduced_spec hfull
  have hvalue : (selectReduced (carryFull h)).val =
      PolyMac.value P (clamp key.r) 16 vec.flatten := by
    rw [hr] at hval
    have hmod := hcarry.trans hval
    rw [hred, hmod]
    exact Nat.mod_eq_of_lt (PolyMac.value_lt (by decide) _ _ _)
  refine ⟨addPad key.k2 key.k3 (selectReduced (carryFull h)), ?_, ?_⟩
  · rw [authV, hloop]
    rfl
  · rw [addPad_spec hsel, hvalue]
    rfl

end Poly1305

end Raims
