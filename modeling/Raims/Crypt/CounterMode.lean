import Raims.Lib.Bytes
import Raims.Lib.Keystream
import Mathlib.Data.BitVec

/-!
# AES in counter mode (`aes.cpp`, `CounterMode_AES`)

`encrypt_ctr` enciphers consecutive values of a 128-bit counter, eight blocks at a
time while the lower half of the counter does not wrap, and one at a time
otherwise. `CounterMode_AES` keeps a mask of 16 blocks of this and XORs it into the
bytes it is given, from where the last call stopped. What a round of AES does is
left open.
-/

namespace Raims

/-- `kv_bswap64`. -/
def bswap (x : ℕ) : ℕ := Bytes.ofBe (Bytes.le 8 x)

/-- The rounds of AES, and the key schedule. -/
structure AES128 where
  /-- `_mm_aesenc_si128` -/
  aesenc : BitVec 128 → BitVec 128 → BitVec 128
  /-- `_mm_aesenclast_si128` -/
  aesenclast : BitVec 128 → BitVec 128 → BitVec 128
  keySched : ℕ → BitVec 128

namespace AES128

def BLOCK_SIZE : ℕ := 16

/-- `_mm_set_epi64x`. -/
def setEpi64x (hi lo : ℕ) : BitVec 128 := BitVec.ofNat 128 (hi * 2 ^ 64 + lo)

/-- `_mm_storeu_si128`. -/
def storeu (x : BitVec 128) : List UInt8 := Bytes.le 16 x.toNat

variable (aes : AES128)

/-- `encrypt`. -/
def encrypt (plain : BitVec 128) : BitVec 128 :=
  let mix := plain ^^^ aes.keySched 0
  let mix := (List.range' 1 9).foldl (fun mix i => aes.aesenc mix (aes.keySched i)) mix
  aes.aesenclast mix (aes.keySched 10)

/-- The eight lanes of `encrypt_ctr`, which go through the rounds together. -/
def encryptLanes (mix : List (BitVec 128)) : List (BitVec 128) :=
  let mix := mix.map (· ^^^ aes.keySched 0)
  let mix := (List.range' 1 9).foldl (fun mix k => mix.map (aes.aesenc · (aes.keySched k))) mix
  mix.map (aes.aesenclast · (aes.keySched 10))

/-- The locals of `encrypt_ctr`: `i` and `j`, the blocks left, and what is written. -/
structure CtrLoop where
  i : ℕ
  j : ℕ
  outBlocks : ℕ
  out : List UInt8

/-- `j = bswap( bswap( j ) + 1 )`. -/
def carry (j : ℕ) : ℕ := bswap ((bswap j + 1) % 2 ^ 64)

def bulkRound (s : CtrLoop) : CtrLoop :=
  let mix := (List.range 8).map fun k => setEpi64x (bswap ((s.i + k) % 2 ^ 64)) s.j
  { s with
    i := (s.i + 8) % 2 ^ 64
    outBlocks := s.outBlocks - 8
    out := s.out ++ (aes.encryptLanes mix).flatMap storeu }

/-- The loop over eight blocks. -/
def bulkLoop : ℕ → CtrLoop → CtrLoop
  | 0, s => s
  | fuel + 1, s => if 8 ≤ s.outBlocks then bulkLoop fuel (aes.bulkRound s) else s

def tailRound (s : CtrLoop) : CtrLoop :=
  let i := (s.i + 1) % 2 ^ 64
  { i := i
    j := if i = 0 then carry s.j else s.j
    outBlocks := s.outBlocks - 1
    out := s.out ++ storeu (aes.encrypt (setEpi64x (bswap s.i) s.j)) }

/-- The loop over one block. -/
def tailLoop : ℕ → CtrLoop → CtrLoop
  | 0, s => s
  | fuel + 1, s => if 0 < s.outBlocks then tailLoop fuel (aes.tailRound s) else s

def ctrStart (ctr : UInt64 × UInt64) (outBlocks : ℕ) : CtrLoop :=
  ⟨bswap ctr.2.toNat, ctr.1.toNat, outBlocks, []⟩

/-- `ctr[ 0 ] = j, ctr[ 1 ] = bswap( i )`. -/
def ctrEnd (s : CtrLoop) : List UInt8 × (UInt64 × UInt64) :=
  (s.out, UInt64.ofNat s.j, UInt64.ofNat (bswap s.i))

/-- `encrypt_ctr`. -/
def encryptCtr (ctr : UInt64 × UInt64) (outBlocks : ℕ) : List UInt8 × (UInt64 × UInt64) :=
  let s := ctrStart ctr outBlocks
  let s :=
    if (outBlocks + (2 ^ 64 - 1)) % 2 ^ 64 ≤ 2 ^ 64 - 1 - s.i ∧ 8 ≤ outBlocks then
      let s := aes.bulkLoop outBlocks s
      if s.i = 0 then { s with j := carry s.j } else s
    else s
  ctrEnd (aes.tailLoop s.outBlocks s)

/-- `encrypt_ctr` without the loop over eight blocks. -/
def encryptCtrOne (ctr : UInt64 × UInt64) (outBlocks : ℕ) : List UInt8 × (UInt64 × UInt64) :=
  ctrEnd (aes.tailLoop outBlocks (ctrStart ctr outBlocks))

/-! ## XOR -/

def xorBytes (inp out : List UInt8) : List UInt8 := List.zipWith (· ^^^ ·) out inp

/-- The loop of `block_xor` over one block. -/
def blockXorOne : ℕ → List UInt8 → List UInt8 → List UInt8
  | 0, _, out => out
  | blocks + 1, inp, out =>
    xorBytes (inp.take 16) (out.take 16) ++ blockXorOne blocks (inp.drop 16) (out.drop 16)

/-- `block_xor`: four blocks at a time, then one. -/
def blockXor : ℕ → ℕ → List UInt8 → List UInt8 → List UInt8
  | 0, _, _, out => out
  | fuel + 1, blocks, inp, out =>
    if 4 ≤ blocks then
      xorBytes (inp.take 64) (out.take 64) ++
        blockXor fuel (blocks - 4) (inp.drop 64) (out.drop 64)
    else blockXorOne blocks inp out

/-- `byte_xor`: blocks, then a word, then bytes. -/
def byteXor (inp out : List UInt8) (bytes : ℕ) : List UInt8 :=
  let blocks := bytes / 16
  let done := (blockXor (blocks + 1) blocks inp out).take (16 * blocks)
  let inp := inp.drop (16 * blocks)
  let out := out.drop (16 * blocks)
  let bytes := bytes % 16
  let word := if 8 ≤ bytes then 8 else 0
  done ++ xorBytes (inp.take word) (out.take word) ++
    xorBytes ((inp.drop word).take (bytes - word)) ((out.drop word).take (bytes - word)) ++
    out.drop bytes

end AES128

/-- `CounterMode_AES`. -/
structure CounterModeAES where
  ctr : UInt64 × UInt64
  mask : List UInt8
  avail : ℕ

namespace CounterModeAES

/-- `sizeof( mask )`. -/
def MASK_SIZE : ℕ := AES128.BLOCK_SIZE * 16

variable (aes : AES128)

/-- A new mask. -/
def refill (ctr : UInt64 × UInt64) : CounterModeAES :=
  let r := aes.encryptCtr ctr (MASK_SIZE / AES128.BLOCK_SIZE)
  ⟨r.2, r.1, MASK_SIZE⟩

/-- The loop of `crypt`. -/
def cryptLoop : ℕ → CounterModeAES → ℕ → List UInt8 → Option (CounterModeAES × List UInt8)
  | 0, _, _, _ => none
  | fuel + 1, s, moff, buf =>
    let n := if s.avail < buf.length then s.avail else buf.length
    let buf := if 0 < n then AES128.byteXor (s.mask.drop moff) buf n else buf
    let s := { s with avail := s.avail - n }
    if 0 < n ∧ buf.length - n = 0 then some (s, buf)
    else
      (cryptLoop fuel (refill aes s.ctr) 0 (buf.drop n)).map fun t => (t.1, buf.take n ++ t.2)

/-- `crypt`. The loop does not end if there are no bytes. -/
def crypt (s : CounterModeAES) (buf : List UInt8) : Option (CounterModeAES × List UInt8) :=
  cryptLoop aes (buf.length + 1) s (MASK_SIZE - s.avail) buf

/-- One call for each piece. -/
def cryptAll : CounterModeAES → List (List UInt8) → Option (CounterModeAES × List UInt8)
  | s, [] => some (s, [])
  | s, buf :: bufs => do
      let (s, out) ← crypt aes s buf
      let (s, outs) ← cryptAll s bufs
      return (s, out ++ outs)

end CounterModeAES

/-! ## `encrypt_ctr` -/

theorem bswap_lt (x : ℕ) : bswap x < 2 ^ 64 := by
  have h := Bytes.ofBe_lt (Bytes.le 8 x)
  rw [Bytes.length_le] at h
  exact h

theorem bswap_bswap {x : ℕ} (h : x < 2 ^ 64) : bswap (bswap x) = x := by
  have hbytes : Bytes.be 8 (bswap x) = Bytes.le 8 x := by
    have := Bytes.be_ofBe (Bytes.le 8 x)
    rw [Bytes.length_le] at this
    exact this
  rw [bswap, Bytes.le, hbytes, Bytes.le, List.reverse_reverse]
  exact Bytes.ofBe_be h

namespace AES128

variable {aes : AES128}

theorem encryptLanes_eq (mix : List (BitVec 128)) :
    aes.encryptLanes mix = mix.map aes.encrypt := by
  have hrounds : ∀ (ks : List ℕ) (mix : List (BitVec 128)),
      ks.foldl (fun mix k => mix.map (aes.aesenc · (aes.keySched k))) mix =
        mix.map fun x => ks.foldl (fun x k => aes.aesenc x (aes.keySched k)) x := by
    intro ks
    induction ks with
    | nil =>
      intro mix
      exact (List.map_id mix).symm
    | cons k ks ih =>
      intro mix
      rw [List.foldl_cons, ih, List.map_map]
      rfl
  unfold encryptLanes
  dsimp only
  rw [hrounds, List.map_map, List.map_map]
  rfl

/-- The value of the counter at `i` and `j`. -/
def CtrLoop.value (s : CtrLoop) : ℕ := bswap s.j * 2 ^ 64 + s.i

/-- The block of the 128-bit counter `v`: its bytes, the most significant first,
enciphered. -/
def ctrBlock (aes : AES128) (v : ℕ) : List UInt8 :=
  storeu (aes.encrypt (setEpi64x (bswap (v % 2 ^ 64)) (bswap (v / 2 ^ 64 % 2 ^ 64))))

/-- The blocks of `n` values from `v` on. -/
def ctrBlocks (aes : AES128) (v n : ℕ) : List UInt8 :=
  (List.range' v n).flatMap aes.ctrBlock

theorem ctrBlocks_add (v a b : ℕ) :
    aes.ctrBlocks v (a + b) = aes.ctrBlocks v a ++ aes.ctrBlocks (v + a) b := by
  rw [ctrBlocks, ctrBlocks, ctrBlocks, ← List.range'_append_1, List.flatMap_append]

theorem ctrBlock_mod (v : ℕ) : aes.ctrBlock (v % 2 ^ 128) = aes.ctrBlock v := by
  have hlo : v % 2 ^ 128 % 2 ^ 64 = v % 2 ^ 64 := Nat.mod_mod_of_dvd v (by decide)
  have hhi : v % 2 ^ 128 / 2 ^ 64 % 2 ^ 64 = v / 2 ^ 64 % 2 ^ 64 := by omega
  rw [ctrBlock, hlo, hhi, ctrBlock]

/-- The block at `i` and `j`, and those behind it until `i` wraps. -/
theorem ctrBlock_value {s : CtrLoop} (hj : s.j < 2 ^ 64) {k : ℕ} (hk : s.i + k < 2 ^ 64) :
    aes.ctrBlock (s.value + k) =
      storeu (aes.encrypt (setEpi64x (bswap (s.i + k)) s.j)) := by
  have hlt := bswap_lt s.j
  have hlo : (s.value + k) % 2 ^ 64 = s.i + k := by
    unfold CtrLoop.value
    omega
  have hhi : (s.value + k) / 2 ^ 64 % 2 ^ 64 = bswap s.j := by
    unfold CtrLoop.value
    omega
  rw [ctrBlock, hlo, hhi, bswap_bswap hj]

/-- After `k` of the blocks from `v` on. -/
structure CtrLoop.Done (aes : AES128) (v k n : ℕ) (s : CtrLoop) : Prop where
  i_lt : s.i < 2 ^ 64
  j_lt : s.j < 2 ^ 64
  value : s.value = (v + k) % 2 ^ 128
  left : s.outBlocks + k = n
  out : s.out = aes.ctrBlocks v k

theorem CtrLoop.Done.block {v k n m : ℕ} {s : CtrLoop} (h : s.Done aes v k n)
    (hm : s.i + m < 2 ^ 64) :
    aes.ctrBlock (v + k + m) = storeu (aes.encrypt (setEpi64x (bswap (s.i + m)) s.j)) := by
  rw [← ctrBlock_value h.j_lt hm, h.value, ← ctrBlock_mod, ← ctrBlock_mod ((v + k) % 2 ^ 128 + m),
    Nat.mod_add_mod]

theorem bswap_carry (j : ℕ) : bswap (carry j) = (bswap j + 1) % 2 ^ 64 :=
  bswap_bswap (Nat.mod_lt _ (Nat.two_pow_pos 64))

/-- The carry out of the lower half. -/
theorem carry_value {b i w : ℕ} (hi : i < 2 ^ 64) (hw : b * 2 ^ 64 + i = w % 2 ^ 128)
    (hzero : (i + 1) % 2 ^ 64 = 0) :
    (b + 1) % 2 ^ 64 * 2 ^ 64 + (i + 1) % 2 ^ 64 = (w + 1) % 2 ^ 128 := by
  have hi : i + 1 = 2 ^ 64 := by omega
  have hsucc : (w + 1) % 2 ^ 128 = (b + 1) * 2 ^ 64 % 2 ^ 128 := by
    rw [← Nat.mod_add_mod, ← hw, Nat.add_assoc, hi, Nat.succ_mul]
  rw [hzero, hsucc, Nat.add_zero, show (2 : ℕ) ^ 128 = 2 ^ 64 * 2 ^ 64 from rfl,
    Nat.mul_mod_mul_right]

/-- One block, with the carry into the upper half. -/
theorem CtrLoop.Done.tailRound {v k n : ℕ} {s : CtrLoop} (h : s.Done aes v k n)
    (hleft : 0 < s.outBlocks) : (aes.tailRound s).Done aes v (k + 1) n := by
  have hblock := h.block (show s.i + 0 < 2 ^ 64 from h.i_lt)
  obtain ⟨hi, hj, hvalue, hn, hout⟩ := h
  refine ⟨Nat.mod_lt _ (Nat.two_pow_pos 64), ?_, ?_, ?_, ?_⟩
  · show (if (s.i + 1) % 2 ^ 64 = 0 then carry s.j else s.j) < 2 ^ 64
    split
    · exact bswap_lt _
    · exact hj
  · have hlt := bswap_lt s.j
    show bswap (if (s.i + 1) % 2 ^ 64 = 0 then carry s.j else s.j) * 2 ^ 64 + (s.i + 1) % 2 ^ 64 = _
    unfold CtrLoop.value at hvalue
    split
    · next hzero =>
        rw [bswap_carry]
        exact carry_value hi hvalue hzero
    · omega
  · show s.outBlocks - 1 + (k + 1) = n
    omega
  · show s.out ++ storeu (aes.encrypt (setEpi64x (bswap s.i) s.j)) = _
    rw [ctrBlocks_add, hout, ← Nat.add_zero s.i, ← hblock]
    simp [ctrBlocks]

theorem CtrLoop.Done.tailLoop {v k n fuel : ℕ} {s : CtrLoop} (h : s.Done aes v k n)
    (hfuel : s.outBlocks ≤ fuel) : (aes.tailLoop fuel s).Done aes v n n := by
  induction fuel generalizing s k with
  | zero =>
    have hk : k = n := by
      have := h.left
      omega
    subst hk
    exact h
  | succ fuel ih =>
    rw [AES128.tailLoop]
    split
    · next hpos =>
        refine ih (h.tailRound hpos) ?_
        show s.outBlocks - 1 ≤ fuel
        omega
    · next hzero =>
        have hk : k = n := by
          have := h.left
          omega
        subst hk
        exact h

/-- The loop over eight blocks keeps `j`: with `i` not wrapped, `hi` is its value, and
may be `2 ^ 64` at the end. -/
structure CtrLoop.Bulk (aes : AES128) (v k n hi : ℕ) (s : CtrLoop) : Prop where
  i_eq : s.i = hi % 2 ^ 64
  j_lt : s.j < 2 ^ 64
  room : hi + s.outBlocks ≤ 2 ^ 64
  le_hi : k ≤ hi
  value : (bswap s.j * 2 ^ 64 + hi) % 2 ^ 128 = (v + k) % 2 ^ 128
  left : s.outBlocks + k = n
  out : s.out = aes.ctrBlocks v k

theorem CtrLoop.Bulk.bulkRound {v k n hi : ℕ} {s : CtrLoop} (h : s.Bulk aes v k n hi)
    (hleft : 8 ≤ s.outBlocks) : (aes.bulkRound s).Bulk aes v (k + 8) n (hi + 8) := by
  obtain ⟨hi_eq, hj, hroom, hle, hvalue, hn, hout⟩ := h
  have hlanes : ((List.range 8).map fun m => setEpi64x (bswap ((s.i + m) % 2 ^ 64)) s.j).flatMap
      (fun x => storeu (aes.encrypt x)) = aes.ctrBlocks (v + k) 8 := by
    rw [ctrBlocks, List.range'_eq_map_range, List.flatMap_map, List.flatMap_map]
    refine List.flatMap_congr fun m hm => ?_
    have hm : m < 8 := List.mem_range.mp hm
    have hi : s.i = hi := by omega
    have hsum : s.i + m < 2 ^ 64 := by omega
    rw [Nat.mod_eq_of_lt hsum, ← ctrBlock_value hj hsum]
    rw [← ctrBlock_mod (v + k + m), Nat.add_mod (v + k), ← hvalue, ← Nat.add_mod, ctrBlock_mod]
    rw [CtrLoop.value, hi]
  refine ⟨?_, hj, ?_, Nat.add_le_add_right hle 8, ?_, ?_, ?_⟩
  · show (s.i + 8) % 2 ^ 64 = (hi + 8) % 2 ^ 64
    omega
  · show hi + 8 + (s.outBlocks - 8) ≤ 2 ^ 64
    omega
  · show (bswap s.j * 2 ^ 64 + (hi + 8)) % 2 ^ 128 = (v + (k + 8)) % 2 ^ 128
    omega
  · show s.outBlocks - 8 + (k + 8) = n
    omega
  · show s.out ++ (aes.encryptLanes _).flatMap storeu = _
    rw [encryptLanes_eq, List.flatMap_map, ctrBlocks_add, hout, ← hlanes]

theorem CtrLoop.Bulk.bulkLoop {v k n hi : ℕ} {s : CtrLoop} (h : s.Bulk aes v k n hi)
    (fuel : ℕ) : ∃ k' hi', k ≤ k' ∧ (aes.bulkLoop fuel s).Bulk aes v k' n hi' := by
  induction fuel generalizing s k hi with
  | zero => exact ⟨k, hi, le_refl k, h⟩
  | succ fuel ih =>
    rw [AES128.bulkLoop]
    split
    · next hleft =>
        obtain ⟨k', hi', hk, h'⟩ := ih (h.bulkRound hleft)
        exact ⟨k', hi', le_trans (Nat.le_add_right k 8) hk, h'⟩
    · exact ⟨k, hi, le_refl k, h⟩

/-- After the loop over eight blocks `i` is zero only if it wrapped. -/
theorem CtrLoop.Bulk.done {v k n hi : ℕ} {s : CtrLoop} (h : s.Bulk aes v k n hi) (hk : 0 < k) :
    (if s.i = 0 then { s with j := carry s.j } else s).Done aes v k n := by
  obtain ⟨hi_eq, hj, hroom, hle, hvalue, hn, hout⟩ := h
  have hlt := bswap_lt s.j
  split
  · next hzero =>
      have hhi : hi = 2 ^ 64 := by omega
      refine ⟨?_, bswap_lt _, ?_, hn, hout⟩
      · show s.i < 2 ^ 64
        rw [hzero]
        exact Nat.two_pow_pos 64
      · show bswap (carry s.j) * 2 ^ 64 + s.i = _
        rw [← hvalue, hhi, bswap_carry, hzero, Nat.add_zero, ← Nat.succ_mul,
          show (2 : ℕ) ^ 128 = 2 ^ 64 * 2 ^ 64 from rfl, Nat.mul_mod_mul_right]
  · refine ⟨by omega, hj, ?_, hn, hout⟩
    unfold CtrLoop.value
    omega

/-- `ctr` as a number: its bytes, the most significant first. -/
def ctrValue (ctr : UInt64 × UInt64) : ℕ := bswap ctr.1.toNat * 2 ^ 64 + bswap ctr.2.toNat

/-- The two words of a counter. -/
def ctrWords (v : ℕ) : UInt64 × UInt64 :=
  (UInt64.ofNat (bswap (v / 2 ^ 64)), UInt64.ofNat (bswap (v % 2 ^ 64)))

theorem ctrValue_ctrWords {v : ℕ} (h : v < 2 ^ 128) : ctrValue (ctrWords v) = v := by
  unfold ctrValue ctrWords
  rw [UInt64.toNat_ofNat_of_lt' (bswap_lt _), UInt64.toNat_ofNat_of_lt' (bswap_lt _),
    bswap_bswap (by omega), bswap_bswap (Nat.mod_lt _ (Nat.two_pow_pos 64))]
  omega

theorem ctrEnd_of_done {v n : ℕ} {s : CtrLoop} (h : s.Done aes v n n) :
    ctrEnd s = (aes.ctrBlocks v n, ctrWords ((v + n) % 2 ^ 128)) := by
  obtain ⟨hi, hj, hvalue, -, hout⟩ := h
  have hlo : (v + n) % 2 ^ 128 % 2 ^ 64 = s.i := by
    rw [← hvalue]
    unfold CtrLoop.value
    omega
  have hhi : (v + n) % 2 ^ 128 / 2 ^ 64 = bswap s.j := by
    rw [← hvalue]
    unfold CtrLoop.value
    omega
  rw [ctrWords, hlo, hhi, bswap_bswap hj, ctrEnd, hout]

theorem ctrStart_done (ctr : UInt64 × UInt64) (n : ℕ) :
    (ctrStart ctr n).Done aes (ctrValue ctr) 0 n := by
  refine ⟨bswap_lt _, ctr.1.toNat_lt, ?_, Nat.add_zero n, rfl⟩
  have hhi := bswap_lt ctr.1.toNat
  have hlo := bswap_lt ctr.2.toNat
  show bswap ctr.1.toNat * 2 ^ 64 + bswap ctr.2.toNat = _
  rw [Nat.add_zero, ctrValue, Nat.mod_eq_of_lt (by omega)]

theorem encryptCtrOne_eq (ctr : UInt64 × UInt64) (n : ℕ) :
    aes.encryptCtrOne ctr n =
      (aes.ctrBlocks (ctrValue ctr) n, ctrWords ((ctrValue ctr + n) % 2 ^ 128)) :=
  ctrEnd_of_done ((ctrStart_done ctr n).tailLoop (le_refl n))

/-- **`encrypt_ctr`** writes the blocks of the counter and adds their number to it. -/
theorem encryptCtr_eq (ctr : UInt64 × UInt64) {n : ℕ} (hn : n < 2 ^ 64) :
    aes.encryptCtr ctr n =
      (aes.ctrBlocks (ctrValue ctr) n, ctrWords ((ctrValue ctr + n) % 2 ^ 128)) := by
  have hstart : (ctrStart ctr n).Done aes (ctrValue ctr) 0 n := ctrStart_done ctr n
  have hmain : ∃ k, (if (n + (2 ^ 64 - 1)) % 2 ^ 64 ≤ 2 ^ 64 - 1 - (ctrStart ctr n).i ∧ 8 ≤ n then
      if (aes.bulkLoop n (ctrStart ctr n)).i = 0 then
        { aes.bulkLoop n (ctrStart ctr n) with j := carry (aes.bulkLoop n (ctrStart ctr n)).j }
      else aes.bulkLoop n (ctrStart ctr n)
    else ctrStart ctr n).Done aes (ctrValue ctr) k n := by
    split
    · next hbulk =>
        obtain ⟨hroom, hn8⟩ := hbulk
        have hi := hstart.i_lt
        have hb : (ctrStart ctr n).Bulk aes (ctrValue ctr) 0 n (ctrStart ctr n).i := by
          refine ⟨(Nat.mod_eq_of_lt hi).symm, hstart.j_lt, ?_, Nat.zero_le _, ?_, Nat.add_zero n,
            rfl⟩
          · show (ctrStart ctr n).i + n ≤ 2 ^ 64
            omega
          · exact congrArg (· % 2 ^ 128) hstart.value |>.trans (Nat.mod_mod _ _)
        obtain ⟨m, rfl⟩ := Nat.exists_eq_add_of_le hn8
        rw [show 8 + m = (7 + m) + 1 by omega] at hb ⊢
        rw [bulkLoop, if_pos (show 8 ≤ (ctrStart ctr (7 + m + 1)).outBlocks from
          show 8 ≤ 7 + m + 1 by omega)]
        obtain ⟨k, hi', hk, hloop⟩ :=
          (hb.bulkRound (show 8 ≤ 7 + m + 1 by omega)).bulkLoop (7 + m)
        exact ⟨k, hloop.done (by omega)⟩
    · exact ⟨0, hstart⟩
  obtain ⟨k, hdone⟩ := hmain
  exact ctrEnd_of_done (hdone.tailLoop (le_refl _))

/-! ## `byte_xor` -/

/-- The first `n` bytes of `out`, XORed. -/
def xorFirst (n : ℕ) (inp out : List UInt8) : List UInt8 :=
  xorBytes (inp.take n) (out.take n) ++ out.drop n

theorem xorFirst_add {a b : ℕ} {inp out : List UInt8} (hin : a ≤ inp.length)
    (hout : a ≤ out.length) : xorFirst (a + b) inp out =
      xorBytes (inp.take a) (out.take a) ++ xorFirst b (inp.drop a) (out.drop a) := by
  unfold xorFirst xorBytes
  rw [List.take_add, List.take_add, List.zipWith_append, List.append_assoc, List.drop_drop]
  rw [List.length_take, List.length_take, Nat.min_eq_left hin, Nat.min_eq_left hout]

theorem blockXorOne_eq {blocks : ℕ} {inp out : List UInt8} (hin : 16 * blocks ≤ inp.length)
    (hout : 16 * blocks ≤ out.length) :
    blockXorOne blocks inp out = xorFirst (16 * blocks) inp out := by
  induction blocks generalizing inp out with
  | zero => rfl
  | succ blocks ih =>
    rw [blockXorOne, Nat.mul_succ, Nat.add_comm, xorFirst_add (by omega) (by omega)]
    rw [ih (by rw [List.length_drop]; omega) (by rw [List.length_drop]; omega)]

theorem blockXor_eq {fuel blocks : ℕ} {inp out : List UInt8} (hfuel : blocks < fuel)
    (hin : 16 * blocks ≤ inp.length) (hout : 16 * blocks ≤ out.length) :
    blockXor fuel blocks inp out = xorFirst (16 * blocks) inp out := by
  induction fuel generalizing blocks inp out with
  | zero => exact absurd hfuel (Nat.not_lt_zero _)
  | succ fuel ih =>
    rw [blockXor]
    split
    · rw [show 16 * blocks = 64 + 16 * (blocks - 4) by omega,
        xorFirst_add (by omega) (by omega)]
      rw [ih (by omega) (by rw [List.length_drop]; omega) (by rw [List.length_drop]; omega)]
    · exact blockXorOne_eq hin hout

theorem byteXor_eq {bytes : ℕ} {inp out : List UInt8} (hin : bytes ≤ inp.length)
    (hout : bytes ≤ out.length) : byteXor inp out bytes = xorFirst bytes inp out := by
  have hblocks : 16 * (bytes / 16) ≤ bytes := Nat.mul_div_le bytes 16
  have hlen : (xorBytes (inp.take (16 * (bytes / 16)))
      (out.take (16 * (bytes / 16)))).length = 16 * (bytes / 16) := by
    rw [xorBytes, List.length_zipWith, List.length_take, List.length_take]
    omega
  unfold byteXor
  extract_lets blocks done inp' out' rest word
  have hdone : done = xorBytes (inp.take (16 * (bytes / 16))) (out.take (16 * (bytes / 16))) := by
    show (blockXor (bytes / 16 + 1) (bytes / 16) inp out).take (16 * (bytes / 16)) = _
    rw [blockXor_eq (Nat.lt_succ_self _) (by omega) (by omega)]
    exact List.take_left' hlen
  have hword : word ≤ rest := by
    show (if 8 ≤ rest then 8 else 0) ≤ rest
    split
    · assumption
    · exact Nat.zero_le _
  have hin' : rest ≤ inp'.length := by
    show bytes % 16 ≤ (inp.drop _).length
    rw [List.length_drop]
    omega
  have hout' : rest ≤ out'.length := by
    show bytes % 16 ≤ (out.drop _).length
    rw [List.length_drop]
    omega
  have hbytes : xorFirst bytes inp out = done ++ xorFirst rest inp' out' := by
    rw [hdone, ← xorFirst_add (by omega) (by omega)]
    congr 1
    exact (Nat.div_add_mod bytes 16).symm
  have hrest : xorFirst rest inp' out' = xorBytes (inp'.take word) (out'.take word) ++
      xorFirst (rest - word) (inp'.drop word) (out'.drop word) := by
    rw [← xorFirst_add (by omega) (by omega), Nat.add_sub_cancel' hword]
  have hdrop : (out'.drop word).drop (rest - word) = out'.drop rest :=
    (List.drop_drop ..).trans (congrArg (List.drop · out') (Nat.add_sub_cancel' hword))
  rw [hbytes, hrest, xorFirst, hdrop]
  simp only [List.append_assoc]

/-! ## The keystream -/

/-- Byte `n` of the keystream from the counter `v` on: block `k` is that of `v + k`. -/
def keystream (aes : AES128) (v n : ℕ) : UInt8 := (aes.ctrBlock (v + n / 16)).getD (n % 16) 0

theorem length_ctrBlock (v : ℕ) : (aes.ctrBlock v).length = 16 := Bytes.length_le 16 _

theorem segment_keystream (v k : ℕ) :
    Keystream.segment (aes.keystream v) (16 * k) 16 = aes.ctrBlock (v + k) := by
  apply List.ext_getElem
  · rw [Keystream.length_segment, length_ctrBlock]
  · intro i hi hi'
    rw [Keystream.length_segment] at hi
    have hdiv : (16 * k + i) / 16 = k := by omega
    have hmod : (16 * k + i) % 16 = i := by omega
    simp [Keystream.segment, keystream, hdiv, hmod, List.getD_eq_getElem?_getD, hi']

theorem ctrBlocks_keystream (v k n : ℕ) :
    aes.ctrBlocks (v + k) n = Keystream.segment (aes.keystream v) (16 * k) (16 * n) := by
  induction n with
  | zero => rfl
  | succ n ih =>
    have hone : aes.ctrBlocks (v + k + n) 1 = aes.ctrBlock (v + (k + n)) := by
      simp [ctrBlocks, Nat.add_assoc]
    rw [ctrBlocks_add, ih, hone, ← segment_keystream, Nat.mul_succ, Keystream.segment_append,
      Nat.mul_add]

theorem ctrBlocks_mod (v n : ℕ) : aes.ctrBlocks (v % 2 ^ 128) n = aes.ctrBlocks v n := by
  rw [ctrBlocks, ctrBlocks, List.range'_eq_map_range, List.range'_eq_map_range, List.flatMap_map,
    List.flatMap_map]
  refine List.flatMap_congr fun i _ => ?_
  rw [← ctrBlock_mod, Nat.mod_add_mod, ctrBlock_mod]

end AES128

/-! ## `crypt` -/

namespace CounterModeAES

variable {aes : AES128} {v off : ℕ} {s : CounterModeAES}

/-- The next byte is number `off` of the stream: the end of the mask is the keystream
from there on, and the counter is that of the block behind it. -/
structure At (aes : AES128) (v off : ℕ) (s : CounterModeAES) : Prop where
  avail_le : s.avail ≤ MASK_SIZE
  mask : s.mask.drop (MASK_SIZE - s.avail) = Keystream.segment (aes.keystream v) off s.avail
  ctr : ∃ k, off + s.avail = 16 * k ∧ AES128.ctrValue s.ctr = (v + k) % 2 ^ 128

@[simp] theorem avail_refill (ctr : UInt64 × UInt64) : (refill aes ctr).avail = MASK_SIZE := rfl

theorem refill_pos {ctr : UInt64 × UInt64} : 0 < (refill aes ctr).avail := by
  rw [avail_refill]
  decide

/-- A new mask, when the old one is used up. -/
theorem At.refill (h : s.At aes v off) (hs : s.avail = 0) :
    At aes v off (refill aes s.ctr) := by
  obtain ⟨-, -, k, hoff, hctr⟩ := h
  have hn : MASK_SIZE / AES128.BLOCK_SIZE = 16 := rfl
  rw [hs, Nat.add_zero] at hoff
  unfold CounterModeAES.refill
  rw [hn, AES128.encryptCtr_eq s.ctr (by decide), hctr, AES128.ctrBlocks_mod]
  refine ⟨le_refl _, ?_, k + 16, ?_, ?_⟩
  · show (aes.ctrBlocks (v + k) 16).drop (MASK_SIZE - MASK_SIZE) = _
    rw [Nat.sub_self, List.drop_zero, AES128.ctrBlocks_keystream, hoff]
    rfl
  · show off + MASK_SIZE = _
    rw [hoff, Nat.mul_add]
    rfl
  · show AES128.ctrValue (AES128.ctrWords _) = _
    rw [AES128.ctrValue_ctrWords (Nat.mod_lt _ (Nat.two_pow_pos 128)), Nat.mod_add_mod,
      Nat.add_assoc]

/-- The mask that is left after `n` of its bytes. -/
theorem At.take (h : s.At aes v off) {n : ℕ} (hn : n ≤ s.avail) :
    At aes v (off + n) { s with avail := s.avail - n } := by
  obtain ⟨hle, hmask, k, hoff, hctr⟩ := h
  refine ⟨le_trans (Nat.sub_le _ _) hle, ?_, k, ?_, hctr⟩
  · show s.mask.drop (MASK_SIZE - (s.avail - n)) = _
    have hdrop : MASK_SIZE - (s.avail - n) = MASK_SIZE - s.avail + n := by omega
    rw [hdrop, ← List.drop_drop, hmask]
    have hsplit : s.avail = n + (s.avail - n) := by omega
    conv_lhs => rw [hsplit]
    exact Keystream.drop_segment off n (s.avail - n)
  · show off + n + (s.avail - n) = 16 * k
    omega

theorem At.byteXor (h : s.At aes v off) {n : ℕ} (hn : n ≤ s.avail) {buf : List UInt8}
    (hbuf : n ≤ buf.length) :
    AES128.byteXor (s.mask.drop (MASK_SIZE - s.avail)) buf n =
      Keystream.apply (aes.keystream v) off (buf.take n) ++ buf.drop n := by
  rw [h.mask, AES128.byteXor_eq (by rw [Keystream.length_segment]; exact hn) hbuf, AES128.xorFirst]
  congr 1
  have htake : (Keystream.segment (aes.keystream v) off s.avail).take n =
      Keystream.segment (aes.keystream v) off n := by
    obtain ⟨m, hm⟩ := Nat.exists_eq_add_of_le hn
    rw [hm, Keystream.segment_append]
    exact List.take_left' (Keystream.length_segment off n)
  rw [htake]
  exact Keystream.zipWith_segment off n _ (by rw [List.length_take]; exact Nat.min_le_left _ _)

/-- The loop with some of the mask left: each round uses a byte, so there are at most
as many rounds as bytes. -/
theorem At.cryptLoop_of_pos (h : s.At aes v off) (hpos : 0 < s.avail) {fuel : ℕ}
    {buf : List UInt8} (hbuf : buf ≠ []) (hfuel : buf.length ≤ fuel) :
    ∃ s', cryptLoop aes fuel s (MASK_SIZE - s.avail) buf =
        some (s', Keystream.apply (aes.keystream v) off buf) ∧
      At aes v (off + buf.length) s' := by
  induction fuel generalizing s off buf with
  | zero => exact absurd (List.length_eq_zero_iff.mp (Nat.le_zero.mp hfuel)) hbuf
  | succ fuel ih =>
    have hlen : 0 < buf.length := List.length_pos_iff.mpr hbuf
    rw [cryptLoop]
    by_cases hlt : s.avail < buf.length
    · -- the whole rest of the mask, and a new one for the rest of the bytes
      have hxor := h.byteXor (le_refl _) hlt.le
      have hrest : buf.drop s.avail ≠ [] := by
        rw [← List.length_pos_iff, List.length_drop]
        omega
      have hnext : At aes v (off + s.avail) (CounterModeAES.refill aes s.ctr) :=
        (h.take (le_refl s.avail)).refill (Nat.sub_self _)
      obtain ⟨s', hs', hat⟩ := ih hnext refill_pos hrest (by
        rw [List.length_drop]
        omega)
      have hlen' : (Keystream.apply (aes.keystream v) off (buf.take s.avail)).length =
          s.avail := by
        rw [Keystream.length_apply, List.length_take, Nat.min_eq_left hlt.le]
      have hnot : ¬ (0 < s.avail ∧ (Keystream.apply (aes.keystream v) off (buf.take s.avail) ++
          buf.drop s.avail).length - s.avail = 0) := by
        rintro ⟨-, hzero⟩
        rw [List.length_append, hlen', List.length_drop] at hzero
        omega
      refine ⟨s', ?_, ?_⟩
      · simp only [hlt, if_true, hpos, hxor]
        rw [if_neg (by simpa [hpos] using hnot), List.drop_left' hlen', List.take_left' hlen']
        rw [avail_refill, Nat.sub_self] at hs'
        rw [hs', Option.map_some]
        conv_rhs => rw [← List.take_append_drop s.avail buf, Keystream.apply_append,
          List.length_take, Nat.min_eq_left hlt.le]
      · rw [List.length_drop, Nat.add_assoc, Nat.add_sub_cancel' hlt.le] at hat
        exact hat
    · have hle : buf.length ≤ s.avail := Nat.not_lt.mp hlt
      have hxor := h.byteXor hle (le_refl _)
      rw [List.take_length, List.drop_length, List.append_nil] at hxor
      refine ⟨_, ?_, h.take hle⟩
      simp only [hlt, if_false, hlen, if_true, hxor, Keystream.length_apply, Nat.sub_self,
        and_self]

/-- **`crypt`** enciphers the next bytes of the stream. -/
theorem At.crypt (h : s.At aes v off) {buf : List UInt8} (hbuf : buf ≠ []) :
    ∃ s', crypt aes s buf = some (s', Keystream.apply (aes.keystream v) off buf) ∧
      At aes v (off + buf.length) s' := by
  have hlen : 0 < buf.length := List.length_pos_iff.mpr hbuf
  unfold CounterModeAES.crypt
  by_cases hpos : 0 < s.avail
  · exact h.cryptLoop_of_pos hpos hbuf (Nat.le_succ _)
  · have hzero : s.avail = 0 := Nat.eq_zero_of_not_pos hpos
    have hnext := h.refill hzero
    obtain ⟨s', hs', hat⟩ := hnext.cryptLoop_of_pos refill_pos hbuf (le_refl _)
    refine ⟨s', ?_, hat⟩
    rw [cryptLoop]
    simp only [hzero, hlen, if_true, Nat.lt_irrefl, if_false, false_and, List.drop_zero,
      List.take_zero, List.nil_append]
    rw [avail_refill, Nat.sub_self] at hs'
    rw [hs', Option.map_some]

/-- A state that has used no byte of the stream from the counter `ctr` on. -/
theorem at_start {mask : List UInt8} (hmask : mask.length = MASK_SIZE) (ctr : UInt64 × UInt64) :
    At aes (AES128.ctrValue ctr) 0 ⟨ctr, mask, 0⟩ := by
  refine ⟨Nat.zero_le _, ?_, 0, rfl, ?_⟩
  · show mask.drop (MASK_SIZE - 0) = _
    rw [Nat.sub_zero, ← hmask, List.drop_length]
    rfl
  · have hhi := bswap_lt ctr.1.toNat
    have hlo := bswap_lt ctr.2.toNat
    show AES128.ctrValue ctr = _
    rw [Nat.add_zero, AES128.ctrValue, Nat.mod_eq_of_lt (by omega)]

theorem At.cryptAll (h : s.At aes v off) {bufs : List (List UInt8)} (hbufs : ∀ b ∈ bufs, b ≠ []) :
    ∃ s', cryptAll aes s bufs =
        some (s', Keystream.apply (aes.keystream v) off bufs.flatten) ∧
      At aes v (off + bufs.flatten.length) s' := by
  induction bufs generalizing s off with
  | nil => exact ⟨s, rfl, h⟩
  | cons buf bufs ih =>
    obtain ⟨s₁, h₁, hat₁⟩ := h.crypt (hbufs buf List.mem_cons_self)
    obtain ⟨s₂, h₂, hat₂⟩ := ih hat₁ fun b hb => hbufs b (List.mem_cons_of_mem buf hb)
    refine ⟨s₂, ?_, ?_⟩
    · rw [CounterModeAES.cryptAll, h₁]
      simp only [Option.bind_eq_bind, Option.bind_some, h₂]
      rw [List.flatten_cons, Keystream.apply_append]
      rfl
    · rw [List.flatten_cons, List.length_append, ← Nat.add_assoc]
      exact hat₂

/-- **Any cut of the stream is enciphered and deciphered alike**: the sender XORs it
with the keystream of the counter, the receiver gets the stream back, and the
blocks written eight at a time are those written one at a time. -/
theorem crypt_any_cut (aes : AES128) (ctr : UInt64 × UInt64) {mask mask' : List UInt8}
    (hmask : mask.length = MASK_SIZE) (hmask' : mask'.length = MASK_SIZE)
    {plain : List (List UInt8)} (hplain : ∀ b ∈ plain, b ≠ []) :
    (∃ s cipher, cryptAll aes ⟨ctr, mask, 0⟩ plain = some (s, cipher) ∧
      cipher = Keystream.apply (aes.keystream (AES128.ctrValue ctr)) 0 plain.flatten ∧
      ∀ recv : List (List UInt8), (∀ b ∈ recv, b ≠ []) → recv.flatten = cipher →
        ∃ s', cryptAll aes ⟨ctr, mask', 0⟩ recv = some (s', plain.flatten)) ∧
    ∀ (c : UInt64 × UInt64) (n : ℕ), n < 2 ^ 64 → aes.encryptCtr c n = aes.encryptCtrOne c n := by
  constructor
  · have hsend : At aes (AES128.ctrValue ctr) 0 ⟨ctr, mask, 0⟩ := at_start hmask ctr
    obtain ⟨s, hs, -⟩ := hsend.cryptAll hplain
    refine ⟨s, _, hs, rfl, fun recv hrecv hcut => ?_⟩
    have hstart : At aes (AES128.ctrValue ctr) 0 ⟨ctr, mask', 0⟩ := at_start hmask' ctr
    obtain ⟨s', hs', -⟩ := hstart.cryptAll hrecv
    rw [hcut, Keystream.apply_apply] at hs'
    exact ⟨s', hs'⟩
  · intro c n hn
    rw [AES128.encryptCtr_eq c hn, AES128.encryptCtrOne_eq]

/-- Rounds that only add the key. -/
def addRoundKey : AES128 := ⟨fun x k => x ^^^ k, fun x k => x ^^^ k, fun i => BitVec.ofNat 128 i⟩

/-- 541 bytes, of which the second piece and the last go into the next mask. -/
def longPlain : List (List UInt8) :=
  [List.replicate 100 1, List.replicate 300 2, List.replicate 141 3]

/-- The counter goes over 64 bits at the second block, and the other side cuts at the end of a
mask. -/
theorem crypt_any_cut_longPlain :
    ∃ s cipher, cryptAll addRoundKey ⟨(7, 0xffffffffffffffff), List.replicate 256 0, 0⟩
        longPlain = some (s, cipher) ∧
      cipher.length = 541 ∧
      ∃ s', cryptAll addRoundKey ⟨(7, 0xffffffffffffffff), List.replicate 256 1, 0⟩
          [cipher.take 255, (cipher.drop 255).take 1, (cipher.drop 256).take 3, cipher.drop 259] =
        some (s', longPlain.flatten) := by
  obtain ⟨⟨s, cipher, hs, hcipher, hrecv⟩, -⟩ :=
    crypt_any_cut addRoundKey (7, 0xffffffffffffffff)
      (show (List.replicate 256 (0 : UInt8)).length = MASK_SIZE from List.length_replicate)
      (show (List.replicate 256 (1 : UInt8)).length = MASK_SIZE from List.length_replicate)
      (show ∀ b ∈ longPlain, b ≠ [] by decide)
  have hlen : cipher.length = 541 := by
    rw [hcipher, Keystream.length_apply, List.length_flatten, longPlain]
    simp only [List.map_cons, List.map_nil, List.length_replicate]
    rfl
  refine ⟨s, cipher, hs, hlen, hrecv _ ?_ ?_⟩
  · intro b hb
    apply List.ne_nil_of_length_pos
    simp only [List.mem_cons, List.not_mem_nil, or_false] at hb
    rcases hb with rfl | rfl | rfl | rfl
    all_goals
      simp only [List.length_take, List.length_drop, hlen]
      decide
  · have hthird : (cipher.drop 256).take 3 ++ cipher.drop 259 = cipher.drop 256 := by
      have hdrop : (cipher.drop 256).drop 3 = cipher.drop 259 := by rw [List.drop_drop]
      rw [← hdrop, List.take_append_drop]
    have hsecond : (cipher.drop 255).take 1 ++ cipher.drop 256 = cipher.drop 255 := by
      have hdrop : (cipher.drop 255).drop 1 = cipher.drop 256 := by rw [List.drop_drop]
      rw [← hdrop, List.take_append_drop]
    simp only [List.flatten_cons, List.flatten_nil, List.append_nil]
    rw [hthird, hsecond, List.take_append_drop]

end CounterModeAES

end Raims
