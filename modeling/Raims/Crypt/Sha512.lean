import Raims.Lib.BlockFeed
import Raims.Lib.Bytes
import Raims.Lib.Words
import Mathlib.Data.List.GetD
import Mathlib.Data.Nat.NthRoot.Defs

/-!
# SHA-512 (`sha512.cpp`)

The context keeps the state, the bytes of a block that is not full yet and the length
of what went through `TransformFunction`. The eight registers stay where they are in a
round, and the arguments of `Sha512Round` turn.
-/

namespace Raims.Sha512

/-! ## §1 The code -/

/-- `ROR64`. -/
def ror64 (value bits : UInt64) : UInt64 := (value >>> bits) ||| (value <<< (64 - bits))

/-- `LOAD64H`. -/
def load64H (y : ℕ → UInt8) : UInt64 :=
  ((y 0).toUInt64 <<< 56) ||| ((y 1).toUInt64 <<< 48) ||| ((y 2).toUInt64 <<< 40) |||
    ((y 3).toUInt64 <<< 32) ||| ((y 4).toUInt64 <<< 24) ||| ((y 5).toUInt64 <<< 16) |||
    ((y 6).toUInt64 <<< 8) ||| (y 7).toUInt64

/-- `STORE64H`. -/
def store64H (w : UInt64) : List UInt8 :=
  [((w >>> 56) &&& 255).toUInt8, ((w >>> 48) &&& 255).toUInt8, ((w >>> 40) &&& 255).toUInt8,
    ((w >>> 32) &&& 255).toUInt8, ((w >>> 24) &&& 255).toUInt8, ((w >>> 16) &&& 255).toUInt8,
    ((w >>> 8) &&& 255).toUInt8, (w &&& 255).toUInt8]

def K : List UInt64 :=
  [0x428a2f98d728ae22, 0x7137449123ef65cd, 0xb5c0fbcfec4d3b2f, 0xe9b5dba58189dbbc,
   0x3956c25bf348b538, 0x59f111f1b605d019, 0x923f82a4af194f9b, 0xab1c5ed5da6d8118,
   0xd807aa98a3030242, 0x12835b0145706fbe, 0x243185be4ee4b28c, 0x550c7dc3d5ffb4e2,
   0x72be5d74f27b896f, 0x80deb1fe3b1696b1, 0x9bdc06a725c71235, 0xc19bf174cf692694,
   0xe49b69c19ef14ad2, 0xefbe4786384f25e3, 0x0fc19dc68b8cd5b5, 0x240ca1cc77ac9c65,
   0x2de92c6f592b0275, 0x4a7484aa6ea6e483, 0x5cb0a9dcbd41fbd4, 0x76f988da831153b5,
   0x983e5152ee66dfab, 0xa831c66d2db43210, 0xb00327c898fb213f, 0xbf597fc7beef0ee4,
   0xc6e00bf33da88fc2, 0xd5a79147930aa725, 0x06ca6351e003826f, 0x142929670a0e6e70,
   0x27b70a8546d22ffc, 0x2e1b21385c26c926, 0x4d2c6dfc5ac42aed, 0x53380d139d95b3df,
   0x650a73548baf63de, 0x766a0abb3c77b2a8, 0x81c2c92e47edaee6, 0x92722c851482353b,
   0xa2bfe8a14cf10364, 0xa81a664bbc423001, 0xc24b8b70d0f89791, 0xc76c51a30654be30,
   0xd192e819d6ef5218, 0xd69906245565a910, 0xf40e35855771202a, 0x106aa07032bbd1b8,
   0x19a4c116b8d2d0c8, 0x1e376c085141ab53, 0x2748774cdf8eeb99, 0x34b0bcb5e19b48a8,
   0x391c0cb3c5c95a63, 0x4ed8aa4ae3418acb, 0x5b9cca4f7763e373, 0x682e6ff3d6b2b8a3,
   0x748f82ee5defb2fc, 0x78a5636f43172f60, 0x84c87814a1f0ab72, 0x8cc702081a6439ec,
   0x90befffa23631e28, 0xa4506cebde82bde9, 0xbef9a3f7b2c67915, 0xc67178f2e372532b,
   0xca273eceea26619c, 0xd186b8c721c0c207, 0xeada7dd6cde0eb1e, 0xf57d4f7fee6ed178,
   0x06f067aa72176fba, 0x0a637dc5a2c898a6, 0x113f9804bef90dae, 0x1b710b35131c471b,
   0x28db77f523047d84, 0x32caab7b40c72493, 0x3c9ebe0a15c9bebc, 0x431d67c49c100d4c,
   0x4cc5d4becb3e42b6, 0x597f299cfc657e2a, 0x5fcb6fab3ad6faec, 0x6c44198c4a475817]

def BLOCK_SIZE : ℕ := 128

def ch (x y z : UInt64) : UInt64 := z ^^^ (x &&& (y ^^^ z))

def maj (x y z : UInt64) : UInt64 := ((x ||| y) &&& z) ||| (x &&& y)

def sigma0 (x : UInt64) : UInt64 := ror64 x 28 ^^^ ror64 x 34 ^^^ ror64 x 39

def sigma1 (x : UInt64) : UInt64 := ror64 x 14 ^^^ ror64 x 18 ^^^ ror64 x 41

def gamma0 (x : UInt64) : UInt64 := ror64 x 1 ^^^ ror64 x 8 ^^^ (x >>> 7)

def gamma1 (x : UInt64) : UInt64 := ror64 x 19 ^^^ ror64 x 61 ^^^ (x >>> 6)

/-- The eight words of `state`, and of `S` in `TransformFunction`. -/
abbrev Regs := Vector UInt64 8

/-- `Sha512Round` for `i`: its argument `k` is the register `k - i`, modulo 8. -/
def sha512Round (W : List UInt64) (S : Regs) (i : ℕ) : Regs :=
  let r := Fin.ofNat 8 i
  let reg k := S.get (k - r)
  let t0 := reg 7 + sigma1 (reg 4) + ch (reg 4) (reg 5) (reg 6) + K.getD i 0 + W.getD i 0
  let t1 := sigma0 (reg 0) + maj (reg 0) (reg 1) (reg 2)
  .ofFn (Function.update (Function.update S.get (3 - r) (reg 3 + t0)) (7 - r) (t0 + t1))

/-- `W[ i ]` for the next `i`. -/
def nextW (W : List UInt64) : UInt64 :=
  let i := W.length
  gamma1 (W.getD (i - 2) 0) + W.getD (i - 7) 0 + gamma0 (W.getD (i - 15) 0) + W.getD (i - 16) 0

/-- `W[ 0 .. 79 ]` for the block in `buffer`. -/
def fillW (buffer : List UInt8) : List UInt64 :=
  let W := (List.range 16).map fun i => load64H fun j => buffer.getD (8 * i + j) 0
  (List.range' 16 64).foldl (fun W _ => W ++ [nextW W]) W

/-- `TransformFunction`. -/
def transformFunction (state : Regs) (buffer : List UInt8) : Regs :=
  let S := (List.range 80).foldl (sha512Round (fillW buffer)) state
  .ofFn fun i => state.get i + S.get i

/-- `Sha512Context`; `buf` is what `curlen` counts of it. -/
structure Sha512Context where
  length : UInt64
  state : Regs
  buf : List UInt8

namespace Sha512Context

/-- `initialize`. -/
def initializeCtx : Sha512Context where
  length := 0
  state :=
    #v[0x6a09e667f3bcc908, 0xbb67ae8584caa73b, 0x3c6ef372fe94f82b, 0xa54ff53a5f1d36f1,
      0x510e527fade682d1, 0x9b05688c2b3e6c1f, 0x1f83d9abfb41bd6b, 0x5be0cd19137e2179]
  buf := []

variable (ctx : Sha512Context)

/-- A turn of the loop of `update`: the context and what is left of the buffer. -/
def updateTurn (buffer : List UInt8) : Sha512Context × List UInt8 :=
  if ctx.buf.length = 0 ∧ BLOCK_SIZE ≤ buffer.length then
    ({ ctx with
        state := transformFunction ctx.state (buffer.take BLOCK_SIZE)
        length := ctx.length + 1024 }, buffer.drop BLOCK_SIZE)
  else
    let n := min buffer.length (BLOCK_SIZE - ctx.buf.length)
    let buf := ctx.buf ++ buffer.take n
    (if buf.length = BLOCK_SIZE then
      { length := ctx.length + 1024, state := transformFunction ctx.state buf, buf := [] }
    else { ctx with buf := buf }, buffer.drop n)

/-- The loop of `update`. -/
def updateLoop : ℕ → Sha512Context → List UInt8 → Sha512Context
  | 0, ctx, _ => ctx
  | fuel + 1, ctx, buffer =>
    if 0 < buffer.length then
      let r := ctx.updateTurn buffer
      updateLoop fuel r.1 r.2
    else ctx

/-- `update`. Each turn takes a byte at least. -/
def update (buffer : List UInt8) : Sha512Context := updateLoop buffer.length ctx buffer

/-- The bit behind the message. A block that has no room for the length goes through with
zeros. -/
def makeRoom : Regs × List UInt8 :=
  let buf := ctx.buf ++ [0x80]
  if 112 < buf.length then
    (transformFunction ctx.state (buf ++ List.replicate (128 - buf.length) 0), [])
  else (ctx.state, buf)

/-- `finalize`; none when it returns without a digest. -/
def finalize : Option (List UInt8) :=
  if 128 ≤ ctx.buf.length then none
  else
    let length := ctx.length + UInt64.ofNat ctx.buf.length * 8
    let r := ctx.makeRoom
    let buf := r.2 ++ List.replicate (120 - r.2.length) 0 ++ store64H length
    some ((transformFunction r.1 buf).toList.flatMap store64H)

end Sha512Context

/-! ## §2 The standard -/

namespace Fips

/-- The primes below 410: the first eighty. -/
def primes : List ℕ :=
  (List.range' 2 408).filter fun p => (List.range' 2 (p - 2)).all fun d => p % d ≠ 0

/-- The first 64 bits of the fraction of the `k`-th root of `p`. -/
def rootFraction (k p : ℕ) : UInt64 := UInt64.ofNat (Nat.nthRoot k (p * 2 ^ (64 * k)))

/-- The constants of the rounds, of the cube roots of the first eighty primes. -/
def roundConstants : List UInt64 := primes.map (rootFraction 3)

/-- The hash value at the start, of the square roots of the first eight primes. -/
def initialHash : Regs := .ofFn fun i => rootFraction 2 (primes.getD i 0)

def rotr (n : ℕ) (x : UInt64) : UInt64 := .ofBitVec (x.toBitVec.rotateRight n)

def ch (x y z : UInt64) : UInt64 := (x &&& y) ^^^ (~~~x &&& z)

def maj (x y z : UInt64) : UInt64 := (x &&& y) ^^^ (x &&& z) ^^^ (y &&& z)

/-- `Σ₀`. -/
def bigSigma0 (x : UInt64) : UInt64 := rotr 28 x ^^^ rotr 34 x ^^^ rotr 39 x

/-- `Σ₁`. -/
def bigSigma1 (x : UInt64) : UInt64 := rotr 14 x ^^^ rotr 18 x ^^^ rotr 41 x

/-- `σ₀`. -/
def smallSigma0 (x : UInt64) : UInt64 := rotr 1 x ^^^ rotr 8 x ^^^ (x >>> 7)

/-- `σ₁`. -/
def smallSigma1 (x : UInt64) : UInt64 := rotr 19 x ^^^ rotr 61 x ^^^ (x >>> 6)

/-- Word `t` of the message schedule. -/
def word (M : ℕ → UInt64) (t : ℕ) : UInt64 :=
  if t < 16 then M t
  else smallSigma1 (word M (t - 2)) + word M (t - 7) + smallSigma0 (word M (t - 15)) +
    word M (t - 16)
termination_by t

/-- One step on the working variables `a` to `h`. -/
def step (M : ℕ → UInt64) (w : Regs) (t : ℕ) : Regs :=
  let T1 := w[7] + bigSigma1 w[4] + ch w[4] w[5] w[6] + roundConstants.getD t 0 + word M t
  let T2 := bigSigma0 w[0] + maj w[0] w[1] w[2]
  #v[T1 + T2, w[0], w[1], w[2], w[3] + T1, w[4], w[5], w[6]]

/-- The hash value after a block, whose words are big-endian. -/
def compress (H : Regs) (block : List UInt8) : Regs :=
  let M i := UInt64.ofNat (Bytes.ofBe ((block.drop (8 * i)).take 8))
  let w := (List.range 80).foldl (step M) H
  .ofFn fun i => H.get i + w.get i

/-- A one, zeros up to the last 16 bytes of a block, and there the length in bits. -/
def pad (m : List UInt8) : List UInt8 :=
  m ++ [0x80] ++ List.replicate ((239 - m.length % 128) % 128) 0 ++ Bytes.be 16 (8 * m.length)

def hash (m : List UInt8) : List UInt8 :=
  (BlockFeed.feed compress 128 initialHash (pad m)).1.toList.flatMap fun w => Bytes.be 8 w.toNat

end Fips

/-! ## §3 Words -/

theorem K_eq : K = Fips.roundConstants := by decide +kernel

theorem state_initializeCtx : Sha512Context.initializeCtx.state = Fips.initialHash := by
  decide +kernel

theorem ror64_eq (x : UInt64) {n : UInt64} (h0 : 0 < n.toNat) (h : n.toNat < 64) :
    ror64 x n = Fips.rotr n.toNat x := by
  have hle : n ≤ 64 := UInt64.le_iff_toNat_le.2 h.le
  have hsub : (64 - n).toNat = 64 - n.toNat := UInt64.toNat_sub_of_le _ _ hle
  have hrotr : (Fips.rotr n.toNat x).toNat =
      (x.toBitVec >>> (n.toNat % 64) ||| x.toBitVec <<< (64 - n.toNat % 64)).toNat := by
    rw [← BitVec.rotateRight_def]
    rfl
  refine UInt64.toNat_inj.1 ?_
  rw [hrotr, ror64, UInt64.toNat_or, Words.toNat_shiftRight h, Words.toNat_shiftLeft (by omega),
    hsub, BitVec.toNat_or, BitVec.toNat_ushiftRight, BitVec.toNat_shiftLeft, Nat.mod_eq_of_lt h,
    Nat.shiftRight_eq_div_pow, Nat.shiftLeft_eq]
  rfl

theorem ch_eq (x y z : UInt64) : ch x y z = Fips.ch x y z := by
  refine UInt64.toBitVec_inj.1 (BitVec.eq_of_getLsbD_eq fun i hi => ?_)
  simp only [ch, Fips.ch, UInt64.toBitVec_xor, UInt64.toBitVec_and, UInt64.toBitVec_not,
    BitVec.getLsbD_xor, BitVec.getLsbD_and, BitVec.getLsbD_not, hi, decide_true, Bool.true_and]
  cases x.toBitVec.getLsbD i <;> cases y.toBitVec.getLsbD i <;> cases z.toBitVec.getLsbD i <;> rfl

theorem maj_eq (x y z : UInt64) : maj x y z = Fips.maj x y z := by
  refine UInt64.toBitVec_inj.1 (BitVec.eq_of_getLsbD_eq fun i _ => ?_)
  simp only [maj, Fips.maj, UInt64.toBitVec_xor, UInt64.toBitVec_and, UInt64.toBitVec_or,
    BitVec.getLsbD_xor, BitVec.getLsbD_and, BitVec.getLsbD_or]
  cases x.toBitVec.getLsbD i <;> cases y.toBitVec.getLsbD i <;> simp

theorem sigma0_eq (x : UInt64) : sigma0 x = Fips.bigSigma0 x := by
  rw [sigma0, ror64_eq x (by decide) (by decide), ror64_eq x (by decide) (by decide),
    ror64_eq x (by decide) (by decide)]
  rfl

theorem sigma1_eq (x : UInt64) : sigma1 x = Fips.bigSigma1 x := by
  rw [sigma1, ror64_eq x (by decide) (by decide), ror64_eq x (by decide) (by decide),
    ror64_eq x (by decide) (by decide)]
  rfl

theorem gamma0_eq (x : UInt64) : gamma0 x = Fips.smallSigma0 x := by
  rw [gamma0, ror64_eq x (by decide) (by decide), ror64_eq x (by decide) (by decide)]
  rfl

theorem gamma1_eq (x : UInt64) : gamma1 x = Fips.smallSigma1 x := by
  rw [gamma1, ror64_eq x (by decide) (by decide), ror64_eq x (by decide) (by decide)]
  rfl

/-- A byte is put under those that are there. -/
theorem or_byte {a b : ℕ} (hb : b < 256) (k : ℕ) :
    a * 2 ^ (k + 8) ||| b * 2 ^ k = (a * 256 + b) * 2 ^ k := by
  have hlt : b * 2 ^ k < 2 ^ (k + 8) := by
    rw [Nat.pow_add, Nat.mul_comm]
    exact Nat.mul_lt_mul_of_pos_left hb (Nat.two_pow_pos k)
  rw [Nat.or_comm, Words.or_mul_two_pow hlt, Nat.pow_add]
  ring

theorem toNat_byte_shift (b : UInt8) {k : UInt64} (hk : k.toNat ≤ 56) :
    (b.toUInt64 <<< k).toNat = b.toNat * 2 ^ k.toNat := by
  have hb := b.toNat_lt
  have hpow : 2 ^ k.toNat ≤ 2 ^ 56 := Nat.pow_le_pow_right (by omega) hk
  have hlt : b.toNat * 2 ^ k.toNat < 2 ^ 64 := by
    calc b.toNat * 2 ^ k.toNat ≤ b.toNat * 2 ^ 56 := Nat.mul_le_mul_left _ hpow
      _ < 2 ^ 64 := by omega
  rw [Words.toNat_shiftLeft (by omega), UInt8.toNat_toUInt64, Nat.mod_eq_of_lt hlt]

theorem load64H_eq (y : ℕ → UInt8) :
    load64H y = UInt64.ofNat (Bytes.ofBe ((List.range 8).map y)) := by
  have h0 : ((y 0).toUInt64 <<< 56).toNat = (y 0).toNat * 2 ^ (48 + 8) :=
    toNat_byte_shift _ (by decide)
  have h1 : ((y 1).toUInt64 <<< 48).toNat = (y 1).toNat * 2 ^ 48 := toNat_byte_shift _ (by decide)
  have h2 : ((y 2).toUInt64 <<< 40).toNat = (y 2).toNat * 2 ^ 40 := toNat_byte_shift _ (by decide)
  have h3 : ((y 3).toUInt64 <<< 32).toNat = (y 3).toNat * 2 ^ 32 := toNat_byte_shift _ (by decide)
  have h4 : ((y 4).toUInt64 <<< 24).toNat = (y 4).toNat * 2 ^ 24 := toNat_byte_shift _ (by decide)
  have h5 : ((y 5).toUInt64 <<< 16).toNat = (y 5).toNat * 2 ^ 16 := toNat_byte_shift _ (by decide)
  have h6 : ((y 6).toUInt64 <<< 8).toNat = (y 6).toNat * 2 ^ 8 := toNat_byte_shift _ (by decide)
  have h7 : (y 7).toUInt64.toNat = (y 7).toNat * 2 ^ 0 := by
    rw [UInt8.toNat_toUInt64, Nat.pow_zero, Nat.mul_one]
  have hlt (i : ℕ) : (y i).toNat < 256 := (y i).toNat_lt
  have hnat : (load64H y).toNat = Bytes.ofBe ((List.range 8).map y) := by
    simp only [load64H, UInt64.toNat_or, h0, h1, h2, h3, h4, h5, h6, h7]
    rw [or_byte (hlt 1) 48, or_byte (hlt 2) 40, or_byte (hlt 3) 32, or_byte (hlt 4) 24,
      or_byte (hlt 5) 16, or_byte (hlt 6) 8, or_byte (hlt 7) 0, Nat.pow_zero, Nat.mul_one]
    show _ = List.foldl _ 0 [y 0, y 1, y 2, y 3, y 4, y 5, y 6, y 7]
    simp only [List.foldl_cons, List.foldl_nil, Nat.zero_mul, Nat.zero_add]
  rw [← hnat, UInt64.ofNat_toNat]

theorem store64H_eq (w : UInt64) : store64H w = Bytes.be 8 w.toNat := by
  have hbyte (k : UInt64) (hk : k.toNat < 64) :
      ((w >>> k) &&& 255).toUInt8 = UInt8.ofNat (w.toNat / 2 ^ k.toNat) := by
    refine UInt8.toNat_inj.1 ?_
    have hmask : ((w >>> k) &&& 255).toNat = (w >>> k).toNat % 2 ^ 8 :=
      Words.toNat_and_mask rfl
    rw [UInt64.toNat_toUInt8, hmask, Words.toNat_shiftRight hk, UInt8.toNat_ofNat', Nat.mod_mod]
  have hlast : (w &&& 255).toUInt8 = UInt8.ofNat w.toNat := by
    refine UInt8.toNat_inj.1 ?_
    have hmask : (w &&& 255).toNat = w.toNat % 2 ^ 8 := Words.toNat_and_mask rfl
    rw [UInt64.toNat_toUInt8, hmask, UInt8.toNat_ofNat', Nat.mod_mod]
  rw [store64H, hbyte 56 (by decide), hbyte 48 (by decide), hbyte 40 (by decide),
    hbyte 32 (by decide), hbyte 24 (by decide), hbyte 16 (by decide), hbyte 8 (by decide), hlast]
  simp only [Bytes.be, Nat.pow_zero, Nat.div_one]
  rfl

/-! ## §4 A block -/

/-- The words of a block. -/
def words (block : List UInt8) (i : ℕ) : UInt64 :=
  UInt64.ofNat (Bytes.ofBe ((block.drop (8 * i)).take 8))

theorem load64H_block {block : List UInt8} (hlen : block.length = 128) {i : ℕ} (hi : i < 16) :
    load64H (fun j => block.getD (8 * i + j) 0) = words block i := by
  have hbytes : (List.range 8).map (fun j => block.getD (8 * i + j) 0) =
      (block.drop (8 * i)).take 8 := by
    refine List.ext_getElem ?_ fun j hj hj' => ?_
    · rw [List.length_map, List.length_range, List.length_take, List.length_drop, hlen]
      omega
    · have hj : j < 8 := by simpa using hj
      have hin : 8 * i + j < block.length := by omega
      rw [List.getElem_map, List.getElem_range, List.getElem_take, List.getElem_drop,
        List.getD_eq_getElem _ _ hin]
  rw [load64H_eq, hbytes, words]

/-- After `k` turns of the loop of `W[ 16 .. 79 ]`. -/
theorem fillW_loop {block : List UInt8} (hlen : block.length = 128) (k : ℕ) :
    let W := (List.range' 16 k).foldl (fun W _ => W ++ [nextW W])
      ((List.range 16).map fun i => load64H fun j => block.getD (8 * i + j) 0)
    W.length = 16 + k ∧ ∀ t < 16 + k, W.getD t 0 = Fips.word (words block) t := by
  induction k with
  | zero =>
    refine ⟨by simp, fun t ht => ?_⟩
    have ht : t < 16 := ht
    rw [List.range'_zero, List.foldl_nil, Fips.word, if_pos ht, List.getD_eq_getElem _ _ (by simpa),
      List.getElem_map, List.getElem_range, load64H_block hlen ht]
  | succ k ih =>
    obtain ⟨hW, hword⟩ := ih
    rw [List.range'_1_concat, List.foldl_append, List.foldl_cons, List.foldl_nil]
    generalize (List.range' 16 k).foldl (fun W _ => W ++ [nextW W]) _ = W at hW hword
    refine ⟨by rw [List.length_append, hW]; rfl, fun t ht => ?_⟩
    by_cases hlast : t < 16 + k
    · rw [List.getD_append _ _ _ _ (by omega), hword t hlast]
    · have ht : t = 16 + k := by omega
      have hnext : (W ++ [nextW W]).getD t 0 = nextW W := by
        rw [ht, ← hW, List.getD_append_right _ _ _ _ (Nat.le_refl _), Nat.sub_self]
        rfl
      have hge : ¬ 16 + k < 16 := by omega
      rw [hnext, nextW, hW, hword (16 + k - 2) (by omega), hword (16 + k - 7) (by omega),
        hword (16 + k - 15) (by omega), hword (16 + k - 16) (by omega), gamma1_eq, gamma0_eq, ht,
        Fips.word.eq_def (words block) (16 + k), if_neg hge]

theorem fillW_getD {block : List UInt8} (hlen : block.length = 128) {t : ℕ} (ht : t < 80) :
    (fillW block).getD t 0 = Fips.word (words block) t :=
  (fillW_loop hlen 64).2 t ht

/-- The registers by the arguments that they are in round `i`. -/
def view (S : Regs) (i : ℕ) : Regs := .ofFn fun k => S.get (k - Fin.ofNat 8 i)

theorem get_ofFn (f : Fin 8 → UInt64) (k : Fin 8) : (Vector.ofFn f).get k = f k :=
  Vector.getElem_ofFn k.isLt

/-- Only the registers that are `d` and `h` in round `i` change. -/
theorem get_sha512Round (W : List UInt64) (S : Regs) (i : ℕ) (j : Fin 8) :
    let w := view S i
    let t0 := w.get 7 + sigma1 (w.get 4) + ch (w.get 4) (w.get 5) (w.get 6) + K.getD i 0 +
      W.getD i 0
    (sha512Round W S i).get (j - Fin.ofNat 8 i) =
      if j = 7 then t0 + (sigma0 (w.get 0) + maj (w.get 0) (w.get 1) (w.get 2))
      else if j = 3 then w.get 3 + t0 else w.get j := by
  intro w t0
  have hw (k : Fin 8) : w.get k = S.get (k - Fin.ofNat 8 i) := get_ofFn _ k
  have hsub : ∀ r j k : Fin 8, j - r = k - r ↔ j = k := by decide
  rw [sha512Round, get_ofFn, Function.update_apply, Function.update_apply]
  simp only [hsub, t0, hw]

/-- A round moves no register, and is a step on what the arguments are. -/
theorem view_sha512Round {block : List UInt8} (hlen : block.length = 128) (S : Regs) {i : ℕ}
    (hi : i < 80) :
    view (sha512Round (fillW block) S i) (i + 1) = Fips.step (words block) (view S i) i := by
  have hturn : Fin.ofNat 8 (i + 1) = Fin.ofNat 8 i + 1 := by
    refine Fin.ext ?_
    show (i + 1) % 8 = (i % 8 + 1 % 8) % 8
    omega
  have hsub : ∀ r k : Fin 8, k - (r + 1) = k - 1 - r := by decide
  have hget (k : Fin 8) : (view (sha512Round (fillW block) S i) (i + 1)).get k =
      (sha512Round (fillW block) S i).get (k - 1 - Fin.ofNat 8 i) := by
    rw [view, get_ofFn, hturn, hsub]
  have hround := get_sha512Round (fillW block) S i
  simp only [fillW_getD hlen hi, sigma1_eq, sigma0_eq, ch_eq, maj_eq, K_eq] at hround
  refine Vector.ext fun k hk => ?_
  have hk' := (hget ⟨k, hk⟩).trans (hround _)
  refine hk'.trans ?_
  obtain rfl | rfl | rfl | rfl | rfl | rfl | rfl | rfl :
      k = 0 ∨ k = 1 ∨ k = 2 ∨ k = 3 ∨ k = 4 ∨ k = 5 ∨ k = 6 ∨ k = 7 := by omega
  all_goals rfl

theorem view_rounds {block : List UInt8} (hlen : block.length = 128) (S : Regs) {k : ℕ}
    (hk : k ≤ 80) :
    view ((List.range k).foldl (sha512Round (fillW block)) S) k =
      (List.range k).foldl (Fips.step (words block)) S := by
  induction k with
  | zero =>
    refine Vector.ext fun j hj => ?_
    have h0 : ∀ j : Fin 8, j - Fin.ofNat 8 0 = j := by decide
    rw [view, Vector.getElem_ofFn, List.range_zero, List.foldl_nil, List.foldl_nil, h0]
    rfl
  | succ k ih =>
    rw [List.range_succ, List.foldl_append, List.foldl_append, ← ih (by omega)]
    exact view_sha512Round hlen _ (by omega)

theorem transformFunction_eq {block : List UInt8} (hlen : block.length = 128) (H : Regs) :
    transformFunction H block = Fips.compress H block := by
  have hrounds := view_rounds hlen H (Nat.le_refl 80)
  -- after 80 rounds every register is back in its place
  have hback (S : Regs) : view S 80 = S := by
    have h80 : ∀ j : Fin 8, j - Fin.ofNat 8 80 = j := by decide
    refine Vector.ext fun j hj => ?_
    rw [view, Vector.getElem_ofFn, h80]
    rfl
  rw [hback] at hrounds
  rw [transformFunction, Fips.compress, hrounds]
  rfl

/-! ## §5 The message in parts -/

/-- The hash value after the whole blocks of `m`, and what is left over. -/
def fed (m : List UInt8) : Regs × List UInt8 :=
  BlockFeed.feed Fips.compress 128 Fips.initialHash m

/-- The context is where it is after the bytes `m`. -/
structure Holds (ctx : Sha512Context) (m : List UInt8) : Prop where
  state : ctx.state = (fed m).1
  buf : ctx.buf = (fed m).2
  length : ctx.length = UInt64.ofNat (8 * (m.length - m.length % 128))

theorem length_rest (m : List UInt8) : (fed m).2.length = m.length % 128 :=
  BlockFeed.length_rest _ (by omega) _ m

theorem Holds.length_buf {ctx : Sha512Context} {m : List UInt8} (h : Holds ctx m) :
    ctx.buf.length = m.length % 128 := by
  rw [h.buf, length_rest]

theorem holds_initializeCtx : Holds Sha512Context.initializeCtx [] := by
  have hfed : fed [] = (Fips.initialHash, []) := BlockFeed.feed_of_lt _ (by decide)
  exact ⟨by rw [hfed, state_initializeCtx], by rw [hfed]; rfl, rfl⟩

/-- Bytes that do not fill the block wait. -/
theorem Holds.keep {ctx : Sha512Context} {m l : List UInt8} (h : Holds ctx m)
    (hlt : ctx.buf.length + l.length < 128) :
    Holds { ctx with buf := ctx.buf ++ l } (m ++ l) := by
  have hmod := h.length_buf
  have hfed : fed (m ++ l) = ((fed m).1, (fed m).2 ++ l) := by
    rw [fed, BlockFeed.feed_append _ (by omega)]
    refine BlockFeed.feed_of_lt _ ?_
    rw [List.length_append]
    show (fed m).2.length + l.length < 128
    rw [length_rest]
    omega
  refine ⟨by rw [hfed]; exact h.state, by rw [hfed, h.buf], ?_⟩
  rw [List.length_append]
  refine h.length.trans (congrArg (fun n => UInt64.ofNat (8 * n)) ?_)
  omega

/-- Bytes that fill the block go through `TransformFunction` with those that wait. -/
theorem Holds.fill {ctx : Sha512Context} {m l : List UInt8} (h : Holds ctx m)
    (heq : ctx.buf.length + l.length = 128) :
    Holds { length := ctx.length + 1024, state := transformFunction ctx.state (ctx.buf ++ l),
            buf := [] } (m ++ l) := by
  have hmod := h.length_buf
  have hblock : (ctx.buf ++ l).length = 128 := by
    rw [List.length_append]
    exact heq
  have hfed : fed (m ++ l) = (Fips.compress ctx.state (ctx.buf ++ l), []) := by
    rw [fed, BlockFeed.feed_append _ (by omega), h.state, h.buf]
    rw [h.buf] at hblock
    exact BlockFeed.feed_block _ (by omega) hblock
  refine ⟨by rw [hfed, transformFunction_eq hblock], by rw [hfed], ?_⟩
  have hlen : 8 * ((m ++ l).length - (m ++ l).length % 128) =
      8 * (m.length - m.length % 128) + 1024 := by
    rw [List.length_append]
    omega
  rw [hlen, UInt64.ofNat_add, ← h.length]
  rfl

theorem Holds.updateTurn {ctx : Sha512Context} {m buffer : List UInt8} (h : Holds ctx m)
    (hpos : 0 < buffer.length) :
    ∃ taken, buffer = taken ++ (ctx.updateTurn buffer).2 ∧ 0 < taken.length ∧
      Holds (ctx.updateTurn buffer).1 (m ++ taken) := by
  have hbuf : ctx.buf.length < 128 := by
    rw [h.length_buf]
    exact Nat.mod_lt _ (by omega)
  have hsize : BLOCK_SIZE = 128 := rfl
  rw [Sha512Context.updateTurn]
  split_ifs with hwhole
  · have htake : (buffer.take 128).length = 128 := by
      rw [List.length_take]
      omega
    have hnil : ctx.buf = [] := List.eq_nil_of_length_eq_zero hwhole.1
    refine ⟨buffer.take 128, (List.take_append_drop _ _).symm, by omega, ?_⟩
    have hfill := h.fill (l := buffer.take 128) (by omega)
    rw [hnil, List.nil_append] at hfill
    show Holds ⟨_, _, ctx.buf⟩ _
    rw [hnil]
    exact hfill
  · have htake : (buffer.take (min buffer.length (BLOCK_SIZE - ctx.buf.length))).length =
        min buffer.length (BLOCK_SIZE - ctx.buf.length) := by
      rw [List.length_take]
      omega
    refine ⟨_, (List.take_append_drop _ _).symm, by omega, ?_⟩
    show Holds (if _ then _ else _) _
    split_ifs with hfull
    · rw [List.length_append] at hfull
      exact h.fill (by omega)
    · rw [List.length_append] at hfull
      exact h.keep (by omega)

theorem Holds.updateLoop {fuel : ℕ} {ctx : Sha512Context} {m buffer : List UInt8}
    (h : Holds ctx m) (hfuel : buffer.length ≤ fuel) :
    Holds (ctx.updateLoop fuel buffer) (m ++ buffer) := by
  induction fuel generalizing ctx m buffer with
  | zero =>
    have hnil : buffer = [] := List.eq_nil_of_length_eq_zero (by omega)
    rw [hnil, List.append_nil]
    exact h
  | succ fuel ih =>
    rw [Sha512Context.updateLoop]
    split_ifs with hpos
    · obtain ⟨taken, hsplit, htaken, hturn⟩ := h.updateTurn hpos
      have hlen := congrArg List.length hsplit
      rw [List.length_append] at hlen
      have hrest : (ctx.updateTurn buffer).2.length ≤ fuel := by omega
      have hloop := ih hturn hrest
      rw [List.append_assoc, ← hsplit] at hloop
      exact hloop
    · have hnil : buffer = [] := List.eq_nil_of_length_eq_zero (by omega)
      rw [hnil, List.append_nil]
      exact h

theorem Holds.update {ctx : Sha512Context} {m : List UInt8} (h : Holds ctx m)
    (buffer : List UInt8) : Holds (ctx.update buffer) (m ++ buffer) :=
  h.updateLoop (Nat.le_refl _)

theorem holds_updates (parts : List (List UInt8)) :
    Holds (parts.foldl Sha512Context.update .initializeCtx) parts.flatten := by
  have hfold (ctx : Sha512Context) (m : List UInt8) (h : Holds ctx m) :
      Holds (parts.foldl Sha512Context.update ctx) (m ++ parts.flatten) := by
    induction parts generalizing ctx m with
    | nil =>
      rw [List.flatten_nil, List.append_nil]
      exact h
    | cons part parts ih =>
      rw [List.flatten_cons, ← List.append_assoc]
      exact ih _ _ (h.update part)
  exact hfold _ [] holds_initializeCtx

/-! ## §6 The digest -/

/-- A length below `2^64` has no upper half. -/
theorem be_16 {n : ℕ} (h : n < 2 ^ 64) : Bytes.be 16 n = List.replicate 8 0 ++ Bytes.be 8 n := by
  have hzero (k : ℕ) (hk : 8 ≤ k) : n / 256 ^ k = 0 := by
    refine Nat.div_eq_of_lt (Nat.lt_of_lt_of_le h ?_)
    calc 2 ^ 64 = 256 ^ 8 := by norm_num
      _ ≤ 256 ^ k := Nat.pow_le_pow_right (by omega) hk
  simp only [Bytes.be, hzero 15 (by omega), hzero 14 (by omega), hzero 13 (by omega),
    hzero 12 (by omega), hzero 11 (by omega), hzero 10 (by omega), hzero 9 (by omega),
    hzero 8 (by omega)]
  rfl

/-- The bytes behind `m` in the padded message. -/
theorem fed_pad (m : List UInt8) :
    (fed (Fips.pad m)).1 = (BlockFeed.feed Fips.compress 128 (fed m).1
      ((fed m).2 ++ ([0x80] ++ List.replicate ((239 - m.length % 128) % 128) 0 ++
        Bytes.be 16 (8 * m.length)))).1 := by
  rw [Fips.pad, List.append_assoc, List.append_assoc, fed, BlockFeed.feed_append _ (by omega)]
  rfl

/-- The length field when the last bytes are counted. -/
theorem Holds.length_bits {ctx : Sha512Context} {m : List UInt8} (h : Holds ctx m) :
    ctx.length + UInt64.ofNat ctx.buf.length * 8 = UInt64.ofNat (8 * m.length) := by
  have height : (8 : UInt64) = UInt64.ofNat 8 := rfl
  rw [h.length, h.length_buf, height, ← UInt64.ofNat_mul, ← UInt64.ofNat_add]
  exact congrArg UInt64.ofNat (by omega)

theorem Holds.finalize {ctx : Sha512Context} {m : List UInt8} (h : Holds ctx m)
    (hbits : 8 * m.length < 2 ^ 64) : ctx.finalize = some (Fips.hash m) := by
  have hlen : ctx.buf.length = m.length % 128 := h.length_buf
  have hlt : ctx.buf.length < 128 := by
    rw [hlen]
    exact Nat.mod_lt _ (by omega)
  have hbe : store64H (ctx.length + UInt64.ofNat ctx.buf.length * 8) =
      Bytes.be 8 (8 * m.length) := by
    rw [h.length_bits, store64H_eq, UInt64.toNat_ofNat_of_lt' hbits]
  have hstore : store64H = fun w => Bytes.be 8 w.toNat := funext store64H_eq
  have hone : (ctx.buf ++ [0x80]).length = ctx.buf.length + 1 := List.length_append
  rw [Sha512Context.finalize, if_neg (by omega)]
  dsimp only
  rw [hbe, hstore, Fips.hash]
  refine congrArg (fun H : Regs => some (H.toList.flatMap fun w => Bytes.be 8 w.toNat)) ?_
  show _ = (fed (Fips.pad m)).1
  rw [fed_pad, ← h.state, ← h.buf, ← hlen, be_16 hbits, Sha512Context.makeRoom]
  split_ifs with hlong
  · -- the length goes into a block of its own
    have hzeros : (239 - ctx.buf.length) % 128 = (128 - (ctx.buf ++ [0x80]).length) + 112 := by
      omega
    have hfirst : (ctx.buf ++ [(0x80 : UInt8)] ++
        List.replicate (128 - (ctx.buf ++ [0x80]).length) (0 : UInt8)).length = 128 := by
      rw [List.length_append, List.length_replicate]
      omega
    have hlast : ([] ++ List.replicate (120 - ([] : List UInt8).length) (0 : UInt8) ++
        Bytes.be 8 (8 * m.length)).length = 128 := by
      rw [List.length_append, Bytes.length_be]
      rfl
    have hsplit : ctx.buf ++ ([(0x80 : UInt8)] ++ List.replicate ((239 - ctx.buf.length) % 128) 0 ++
          (List.replicate 8 (0 : UInt8) ++ Bytes.be 8 (8 * m.length))) =
        (ctx.buf ++ [0x80] ++ List.replicate (128 - (ctx.buf ++ [0x80]).length) 0) ++
          ([] ++ List.replicate (120 - ([] : List UInt8).length) 0 ++
            Bytes.be 8 (8 * m.length)) := by
      have h120 : List.replicate (120 - ([] : List UInt8).length) (0 : UInt8) =
          List.replicate 112 0 ++ List.replicate 8 0 := rfl
      rw [hzeros, List.replicate_add, h120]
      simp only [List.append_assoc, List.nil_append]
    rw [hsplit, BlockFeed.feed_block_append _ (by omega) hfirst,
      BlockFeed.feed_block _ (by omega) hlast, transformFunction_eq hfirst,
      transformFunction_eq hlast]
  · have hzeros : 120 - (ctx.buf ++ [0x80]).length = (239 - ctx.buf.length) % 128 + 8 := by omega
    have hlast : (ctx.buf ++ [(0x80 : UInt8)] ++
        List.replicate (120 - (ctx.buf ++ [0x80]).length) (0 : UInt8) ++
          Bytes.be 8 (8 * m.length)).length = 128 := by
      rw [List.length_append, List.length_append, List.length_replicate, Bytes.length_be]
      omega
    have hsplit : ctx.buf ++ ([(0x80 : UInt8)] ++ List.replicate ((239 - ctx.buf.length) % 128) 0 ++
          (List.replicate 8 (0 : UInt8) ++ Bytes.be 8 (8 * m.length))) =
        ctx.buf ++ [0x80] ++ List.replicate (120 - (ctx.buf ++ [0x80]).length) 0 ++
          Bytes.be 8 (8 * m.length) := by
      rw [hzeros, List.replicate_add]
      simp only [List.append_assoc]
    rw [hsplit, BlockFeed.feed_block _ (by omega) hlast, transformFunction_eq hlast]

/-- The digest is the one of the standard, wherever the message is cut. -/
theorem finalize_updates (parts : List (List UInt8)) (hbits : 8 * parts.flatten.length < 2 ^ 64) :
    (parts.foldl Sha512Context.update .initializeCtx).finalize =
      some (Fips.hash parts.flatten) :=
  (holds_updates parts).finalize hbits

/-- 500 bytes: the third piece ends a block and begins the next, the last spans two more, and
there is no room for the count behind its end. -/
def longParts : List (List UInt8) :=
  [List.replicate 100 0x61, [], List.replicate 60 0x62, List.replicate 340 0x63]

theorem finalize_updates_longParts :
    longParts.flatten.length = 500 ∧
      (longParts.foldl Sha512Context.update .initializeCtx).finalize =
        some (Fips.hash longParts.flatten) := by
  have hlen : longParts.flatten.length = 500 := by
    rw [List.length_flatten, longParts]
    simp only [List.map_cons, List.map_nil, List.length_replicate, List.length_nil]
    rfl
  refine ⟨hlen, finalize_updates longParts ?_⟩
  rw [hlen]
  decide

/-- The digest of "abc". -/
example : (Sha512Context.initializeCtx.update [0x61, 0x62, 0x63]).finalize = some
    [0xdd, 0xaf, 0x35, 0xa1, 0x93, 0x61, 0x7a, 0xba, 0xcc, 0x41, 0x73, 0x49, 0xae, 0x20, 0x41, 0x31,
     0x12, 0xe6, 0xfa, 0x4e, 0x89, 0xa9, 0x7e, 0xa2, 0x0a, 0x9e, 0xee, 0xe6, 0x4b, 0x55, 0xd3, 0x9a,
     0x21, 0x92, 0x99, 0x2a, 0x27, 0x4f, 0xc1, 0xa8, 0x36, 0xba, 0x3c, 0x23, 0xa3, 0xfe, 0xeb, 0xbd,
     0x45, 0x4d, 0x44, 0x23, 0x64, 0x3c, 0xe8, 0x0e, 0x2a, 0x9a, 0xc9, 0x4f, 0xa5, 0x4c, 0xa4, 0x9f] :=
  by decide +kernel

end Raims.Sha512
