import Raims.Crypt.CounterMode
import Raims.Lib.RoundCipher
import Raims.Lib.XorSpace
import Mathlib.Data.List.GetD

/-!
# AES-128 (`aes.cpp`)

`expand_key` fills the schedule that `encrypt` and `decrypt` read: the keys of the
ten rounds, made with `aeskeygenassist`, and after them those of rounds 9 to 1 through
`aesimc`. The instructions are those of the processor's manual, on a state of 16
bytes with four to a column, the lowest byte first.
-/

namespace Raims.AES128

/-! ## §1 The state -/

/-- The bytes of a block, in the order they are loaded. -/
abbrev State := Fin 16 → BitVec 8

def bytes (x : BitVec 128) : State := fun i => x.extractLsb' (8 * i) 8

def ofBytes (s : State) : BitVec 128 :=
  (List.range 16).foldl (fun x i => x ||| (s (Fin.ofNat 16 i)).setWidth 128 <<< (8 * i)) 0

/-- The S-box, a row of 16 bytes a number. -/
def sboxRows : List ℕ :=
  [0x637c777bf26b6fc53001672bfed7ab76, 0xca82c97dfa5947f0add4a2af9ca472c0,
   0xb7fd9326363ff7cc34a5e5f171d83115, 0x04c723c31896059a071280e2eb27b275,
   0x09832c1a1b6e5aa0523bd6b329e32f84, 0x53d100ed20fcb15b6acbbe394a4c58cf,
   0xd0efaafb434d338545f9027f503c9fa8, 0x51a3408f929d38f5bcb6da2110fff3d2,
   0xcd0c13ec5f974417c4a77e3d645d1973, 0x60814fdc222a908846eeb814de5e0bdb,
   0xe0323a0a4906245cc2d3ac629195e479, 0xe7c8376d8dd54ea96c56f4ea657aae08,
   0xba78252e1ca6b4c6e8dd741f4bbd8b8a, 0x703eb5664803f60e613557b986c11d9e,
   0xe1f8981169d98e949b1e87e9ce5528df, 0x8ca1890dbfe6426841992d0fb054bb16]

/-- The inverse S-box. -/
def invSboxRows : List ℕ :=
  [0x52096ad53036a538bf40a39e81f3d7fb, 0x7ce339829b2fff87348e4344c4dee9cb,
   0x547b9432a6c2233dee4c950b42fac34e, 0x082ea16628d924b2765ba2496d8bd125,
   0x72f8f66486689816d4a45ccc5d65b692, 0x6c704850fdedb9da5e154657a78d9d84,
   0x90d8ab008cbcd30af7e45805b8b34506, 0xd02c1e8fca3f0f02c1afbd0301138a6b,
   0x3a9111414f67dcea97f2cfcef0b4e673, 0x96ac7422e7ad3585e2f937e81c75df6e,
   0x47f11a711d29c5896fb7620eaa18be1b, 0xfc563e4bc6d279209adbc0fe78cd5af4,
   0x1fdda8338807c731b11210592780ec5f, 0x60517fa919b54a0d2de57a9f93c99cef,
   0xa0e03b4dae2af5b0c8ebbb3c83539961, 0x172b047eba77d626e169146355210c7d]

def lookup (rows : List ℕ) (b : BitVec 8) : BitVec 8 :=
  BitVec.ofNat 8 (rows.getD (b.toNat / 16) 0 >>> (8 * (15 - b.toNat % 16)))

def sbox (b : BitVec 8) : BitVec 8 := lookup sboxRows b

def invSbox (b : BitVec 8) : BitVec 8 := lookup invSboxRows b

def subBytes (s : State) : State := fun i => sbox (s i)

def invSubBytes (s : State) : State := fun i => invSbox (s i)

/-- Row `r` turns by `r` columns. -/
def shiftRows (s : State) : State := fun i => s (i + 4 * (i % 4))

def invShiftRows (s : State) : State := fun i => s (i - 4 * (i % 4))

/-- The byte `k` rows under `i` in its column. -/
def down (k i : Fin 16) : Fin 16 := i - i % 4 + (i + k) % 4

/-- Times `{02}`. -/
def xtime (b : BitVec 8) : BitVec 8 := (b <<< 1) ^^^ (if b.msb then 0x1b else 0)

def mixColumns (s : State) : State := fun i =>
  xtime (s i) ^^^ (xtime (s (down 1 i)) ^^^ s (down 1 i)) ^^^ s (down 2 i) ^^^ s (down 3 i)

/-- Times `{09}`. -/
def nine (b : BitVec 8) : BitVec 8 := xtime (xtime (xtime b)) ^^^ b

/-- Times `{0b}`. -/
def eleven (b : BitVec 8) : BitVec 8 := xtime (xtime (xtime b)) ^^^ xtime b ^^^ b

/-- Times `{0d}`. -/
def thirteen (b : BitVec 8) : BitVec 8 := xtime (xtime (xtime b)) ^^^ xtime (xtime b) ^^^ b

/-- Times `{0e}`. -/
def fourteen (b : BitVec 8) : BitVec 8 :=
  xtime (xtime (xtime b)) ^^^ xtime (xtime b) ^^^ xtime b

def invMixColumns (s : State) : State := fun i =>
  fourteen (s i) ^^^ eleven (s (down 1 i)) ^^^ thirteen (s (down 2 i)) ^^^ nine (s (down 3 i))

/-! ## §2 The instructions -/

/-- `_mm_aesenc_si128`. -/
def mmAesenc (a k : BitVec 128) : BitVec 128 :=
  ofBytes (mixColumns (subBytes (shiftRows (bytes a)))) ^^^ k

/-- `_mm_aesenclast_si128`. -/
def mmAesenclast (a k : BitVec 128) : BitVec 128 := ofBytes (subBytes (shiftRows (bytes a))) ^^^ k

/-- `_mm_aesdec_si128`. -/
def mmAesdec (a k : BitVec 128) : BitVec 128 :=
  ofBytes (invMixColumns (invSubBytes (invShiftRows (bytes a)))) ^^^ k

/-- `_mm_aesdeclast_si128`. -/
def mmAesdeclast (a k : BitVec 128) : BitVec 128 :=
  ofBytes (invSubBytes (invShiftRows (bytes a))) ^^^ k

/-- `_mm_aesimc_si128`. -/
def mmAesimc (a : BitVec 128) : BitVec 128 := ofBytes (invMixColumns (bytes a))

def dword (x : BitVec 128) (i : ℕ) : BitVec 32 := x.extractLsb' (32 * i) 32

def ofDwords (d3 d2 d1 d0 : BitVec 32) : BitVec 128 := d3 ++ d2 ++ d1 ++ d0

/-- The S-box on the four bytes of a word. -/
def subWord (w : BitVec 32) : BitVec 32 :=
  sbox (w.extractLsb' 24 8) ++ sbox (w.extractLsb' 16 8) ++ sbox (w.extractLsb' 8 8) ++
    sbox (w.extractLsb' 0 8)

/-- The bytes of a word one place on; the first is the lowest. -/
def rotWord (w : BitVec 32) : BitVec 32 := w.rotateRight 8

/-- `_mm_aeskeygenassist_si128`. -/
def mmAeskeygenassist (a : BitVec 128) (rcon : BitVec 32) : BitVec 128 :=
  ofDwords (rotWord (subWord (dword a 3)) ^^^ rcon) (subWord (dword a 3))
    (rotWord (subWord (dword a 1)) ^^^ rcon) (subWord (dword a 1))

/-- `_mm_shuffle_epi32( a, _MM_SHUFFLE( 3, 3, 3, 3 ) )`. -/
def mmShuffle3 (a : BitVec 128) : BitVec 128 :=
  ofDwords (dword a 3) (dword a 3) (dword a 3) (dword a 3)

/-- `_mm_slli_si128( a, 4 )`. -/
def mmSlli4 (a : BitVec 128) : BitVec 128 := a <<< 32

/-! ## §3 The key schedule, and the two directions -/

/-- `key_expansion_128`. -/
def keyExpansion128 (key gen : BitVec 128) : BitVec 128 :=
  let gen := mmShuffle3 gen
  let tmp := mmSlli4 key
  let key := key ^^^ tmp
  let tmp := mmSlli4 tmp
  let key := key ^^^ tmp
  let tmp := mmSlli4 tmp
  let key := key ^^^ tmp
  key ^^^ gen

/-- What `aeskeygenassist` is given for the rounds 1 to 10. -/
def rcons : List (BitVec 32) := [0x1, 0x2, 0x4, 0x8, 0x10, 0x20, 0x40, 0x80, 0x1b, 0x36]

/-- `sched[ 0 .. 10 ]`. -/
def roundKeys (key : BitVec 128) : List (BitVec 128) :=
  rcons.scanl (fun k rcon => keyExpansion128 k (mmAeskeygenassist k rcon)) key

/-- `key_sched`: the loop puts what `aesimc` makes of `sched[ 9 .. 1 ]` behind it. -/
def sched (key : BitVec 128) : List (BitVec 128) :=
  roundKeys key ++ (List.range' 1 9).map fun i => mmAesimc ((roundKeys key).getD (10 - i) 0)

/-- `expand_key`. -/
def expandKey (key : BitVec 128) : AES128 where
  aesenc := mmAesenc
  aesenclast := mmAesenclast
  keySched := fun i => (sched key).getD i 0

/-- `decrypt`. -/
def decrypt (aes : AES128) (cipher : BitVec 128) : BitVec 128 :=
  let mix := cipher ^^^ aes.keySched 10
  let mix := (List.range' 11 9).foldl (fun mix i => mmAesdec mix (aes.keySched i)) mix
  mmAesdeclast mix (aes.keySched 0)

/-! ## §4 The layers undo each other -/

theorem invSbox_sbox : ∀ b, invSbox (sbox b) = b := by decide +kernel

theorem sbox_invSbox : ∀ b, sbox (invSbox b) = b := by decide +kernel

theorem getLsbD_ofBytes_loop (s : State) (n j : ℕ) (hj : j < 128) :
    ((List.range n).foldl (fun x i => x ||| (s (Fin.ofNat 16 i)).setWidth 128 <<< (8 * i))
      (0 : BitVec 128)).getLsbD j =
      (decide (j < 8 * n) && (s (Fin.ofNat 16 (j / 8))).getLsbD (j % 8)) := by
  induction n with
  | zero => simp
  | succ n ih =>
    rw [List.range_succ, List.foldl_append, List.foldl_cons, List.foldl_nil, BitVec.getLsbD_or, ih,
      BitVec.getLsbD_shiftLeft, BitVec.getLsbD_setWidth]
    by_cases hlow : j < 8 * n
    · have hlt : j < 8 * (n + 1) := by omega
      simp [hlow, hlt]
    · by_cases hhigh : j < 8 * (n + 1)
      · have hdiv : j / 8 = n := by omega
        have hmod : j - 8 * n = j % 8 := by omega
        have hlt : j % 8 < 128 := by omega
        simp [hlow, hhigh, hj, hdiv, hmod, hlt]
      · have hbig : 8 ≤ j - 8 * n := by omega
        simp [hlow, hhigh, BitVec.getLsbD_of_ge _ _ hbig]

theorem getLsbD_ofBytes (s : State) {j : ℕ} (hj : j < 128) :
    (ofBytes s).getLsbD j = (s (Fin.ofNat 16 (j / 8))).getLsbD (j % 8) := by
  rw [ofBytes, getLsbD_ofBytes_loop s 16 j hj, decide_eq_true (by omega : j < 8 * 16),
    Bool.true_and]

theorem bytes_ofBytes (s : State) : bytes (ofBytes s) = s := by
  funext i
  refine BitVec.eq_of_getLsbD_eq fun k hk => ?_
  have hi : i.val < 16 := i.isLt
  have hdiv : (8 * i.val + k) / 8 = i.val := by omega
  have hmod : (8 * i.val + k) % 8 = k := by omega
  have hin : Fin.ofNat 16 i.val = i := Fin.ext (Nat.mod_eq_of_lt hi)
  rw [bytes, BitVec.getLsbD_extractLsb', decide_eq_true hk, Bool.true_and,
    getLsbD_ofBytes s (by omega), hdiv, hmod, hin]

theorem ofBytes_bytes (x : BitVec 128) : ofBytes (bytes x) = x := by
  refine BitVec.eq_of_getLsbD_eq fun j hj => ?_
  have hin : (Fin.ofNat 16 (j / 8)).val = j / 8 := Nat.mod_eq_of_lt (by omega)
  have hlt : j % 8 < 8 := by omega
  rw [getLsbD_ofBytes _ hj, bytes, BitVec.getLsbD_extractLsb', decide_eq_true hlt, Bool.true_and,
    hin, Nat.div_add_mod]

theorem bytes_xor (x y : BitVec 128) : bytes (x ^^^ y) = fun i => bytes x i ^^^ bytes y i := by
  funext i
  refine BitVec.eq_of_getLsbD_eq fun k hk => ?_
  simp [bytes, hk]

theorem shiftRows_invShiftRows (s : State) : shiftRows (invShiftRows s) = s := by
  have h : ∀ i : Fin 16, i + 4 * (i % 4) - 4 * ((i + 4 * (i % 4)) % 4) = i := by decide
  exact funext fun i => congrArg s (h i)

theorem invShiftRows_shiftRows (s : State) : invShiftRows (shiftRows s) = s := by
  have h : ∀ i : Fin 16, i - 4 * (i % 4) + 4 * ((i - 4 * (i % 4)) % 4) = i := by decide
  exact funext fun i => congrArg s (h i)

theorem xtime_xor (a b : BitVec 8) : xtime (a ^^^ b) = xtime a ^^^ xtime b := by
  rw [xtime, xtime, xtime, BitVec.shiftLeft_xor_distrib, BitVec.msb_xor]
  cases a.msb <;> cases b.msb <;> simp only [Bool.xor_self, Bool.false_xor, Bool.xor_false]
  · simp
  · simp [BitVec.xor_assoc]
  · show a <<< 1 ^^^ b <<< 1 ^^^ 27#8 = a <<< 1 ^^^ 27#8 ^^^ (b <<< 1 ^^^ 0#8)
    rw [BitVec.xor_zero, BitVec.xor_assoc, BitVec.xor_assoc, BitVec.xor_comm (27#8)]
  · show a <<< 1 ^^^ b <<< 1 ^^^ 0#8 = a <<< 1 ^^^ 27#8 ^^^ (b <<< 1 ^^^ 27#8)
    rw [BitVec.xor_zero, BitVec.xor_assoc, BitVec.xor_comm (b <<< 1) (27#8),
      ← BitVec.xor_assoc (27#8), BitVec.xor_self, BitVec.zero_xor]

/-- `xtime` on bytes under exclusive or. -/
def xtimeHom : XorSpace 8 →+ XorSpace 8 := AddMonoidHom.mk' xtime xtime_xor

theorem down_down : ∀ i : Fin 16, down 1 (down 1 i) = down 2 i ∧ down 1 (down 2 i) = down 3 i ∧
    down 1 (down 3 i) = i ∧ down 2 (down 1 i) = down 3 i ∧ down 2 (down 2 i) = i ∧
    down 2 (down 3 i) = down 1 i ∧ down 3 (down 1 i) = i ∧ down 3 (down 2 i) = down 1 i ∧
    down 3 (down 3 i) = down 2 i := by decide

theorem invMixColumns_mixColumns (s : State) : invMixColumns (mixColumns s) = s := by
  funext i
  obtain ⟨h11, h12, h13, h21, h22, h23, h31, h32, h33⟩ := down_down i
  simp only [invMixColumns, mixColumns, h11, h12, h13, h21, h22, h23, h31, h32, h33]
  exact MixedColumn.unmix_mix xtimeHom (s i) (s (down 1 i)) (s (down 2 i)) (s (down 3 i))

theorem mixColumns_invMixColumns (s : State) : mixColumns (invMixColumns s) = s := by
  funext i
  obtain ⟨h11, h12, h13, h21, h22, h23, h31, h32, h33⟩ := down_down i
  simp only [invMixColumns, mixColumns, h11, h12, h13, h21, h22, h23, h31, h32, h33]
  exact MixedColumn.mix_unmix xtimeHom (s i) (s (down 1 i)) (s (down 2 i)) (s (down 3 i))

theorem invMixColumns_xor (s t : State) :
    invMixColumns (fun i => s i ^^^ t i) = fun i => invMixColumns s i ^^^ invMixColumns t i :=
  funext fun i => MixedColumn.unmix_add xtimeHom (s i) (s (down 1 i)) (s (down 2 i)) (s (down 3 i))
    (t i) (t (down 1 i)) (t (down 2 i)) (t (down 3 i))

theorem ofBytes_xor (s t : State) : ofBytes (fun i => s i ^^^ t i) = ofBytes s ^^^ ofBytes t := by
  rw [← ofBytes_bytes (ofBytes s ^^^ ofBytes t), bytes_xor, bytes_ofBytes, bytes_ofBytes]

/-! ## §5 Decryption undoes encryption -/

/-- The layers of the instructions. -/
def layers : RoundCipher (BitVec 128) where
  xor := BitVec.xor
  sub := fun a => ofBytes (subBytes (shiftRows (bytes a)))
  subInv := fun a => ofBytes (invSubBytes (invShiftRows (bytes a)))
  mix := fun a => ofBytes (mixColumns (bytes a))
  mixInv := mmAesimc
  xor_xor := fun a k => by
    show a ^^^ k ^^^ k = a
    rw [BitVec.xor_assoc, BitVec.xor_self, BitVec.xor_zero]
  subInv_sub := fun a => by
    have hsub (s : State) : invSubBytes (invShiftRows (subBytes s)) = invShiftRows s :=
      funext fun i => invSbox_sbox _
    rw [bytes_ofBytes, hsub, invShiftRows_shiftRows, ofBytes_bytes]
  sub_subInv := fun a => by
    have hsub (s : State) : subBytes (shiftRows (invSubBytes s)) = shiftRows s :=
      funext fun i => sbox_invSbox _
    rw [bytes_ofBytes, hsub, shiftRows_invShiftRows, ofBytes_bytes]
  mixInv_mix := fun a => by
    rw [mmAesimc, bytes_ofBytes, invMixColumns_mixColumns, ofBytes_bytes]
  mix_mixInv := fun a => by
    rw [mmAesimc, bytes_ofBytes, mixColumns_invMixColumns, ofBytes_bytes]
  mixInv_xor := fun a b => by
    show mmAesimc (a ^^^ b) = mmAesimc a ^^^ mmAesimc b
    rw [mmAesimc, bytes_xor, invMixColumns_xor, ofBytes_xor]
    rfl

theorem layers_round (a k : BitVec 128) : layers.round a k = mmAesenc a k := by
  show ofBytes (mixColumns (bytes (ofBytes (subBytes (shiftRows (bytes a)))))) ^^^ k = _
  rw [bytes_ofBytes, mmAesenc]

theorem layers_roundInv (a k : BitVec 128) : layers.roundInv a k = mmAesdec a k := by
  show ofBytes (invMixColumns (bytes (ofBytes (invSubBytes (invShiftRows (bytes a)))))) ^^^ k = _
  rw [bytes_ofBytes, mmAesdec]

/-- The keys of the rounds 1 to 9. -/
def innerKeys (key : BitVec 128) : List (BitVec 128) :=
  (List.range' 1 9).map fun i => (sched key).getD i 0

theorem encrypt_expandKey (key plain : BitVec 128) :
    (expandKey key).encrypt plain =
      layers.encrypt ((sched key).getD 0 0) (innerKeys key) ((sched key).getD 10 0) plain := by
  have hround : layers.round = mmAesenc := funext₂ layers_round
  rw [RoundCipher.encrypt, innerKeys, List.foldl_map, hround]
  rfl

/-- Behind the round keys stand those of `decrypt`, backwards and unmixed. -/
theorem sched_dec (key : BitVec 128) :
    (List.range' 11 9).map (fun i => (sched key).getD i 0) =
      (innerKeys key).reverse.map mmAesimc := rfl

theorem decrypt_expandKey (key cipher : BitVec 128) :
    (expandKey key).decrypt cipher =
      layers.decrypt ((sched key).getD 0 0) (innerKeys key) ((sched key).getD 10 0) cipher := by
  have hround : layers.roundInv = mmAesdec := funext₂ layers_roundInv
  have hdec : (innerKeys key).reverse.map layers.mixInv =
      (List.range' 11 9).map fun i => (sched key).getD i 0 := (sched_dec key).symm
  rw [RoundCipher.decrypt, hdec, List.foldl_map, hround]
  rfl

theorem decrypt_encrypt (key x : BitVec 128) :
    (expandKey key).decrypt ((expandKey key).encrypt x) = x := by
  rw [encrypt_expandKey, decrypt_expandKey, RoundCipher.decrypt_encrypt]

theorem encrypt_decrypt (key x : BitVec 128) :
    (expandKey key).encrypt ((expandKey key).decrypt x) = x := by
  rw [decrypt_expandKey, encrypt_expandKey, RoundCipher.encrypt_decrypt]

/-! ## §6 The standard cipher -/

/-- Round constant `i`, from 1. -/
def rcon (i : ℕ) : BitVec 32 := rcons.getD (i - 1) 0

/-- Word `i` of the key expansion. -/
def expandedWord (key : BitVec 128) (i : ℕ) : BitVec 32 :=
  if i < 4 then dword key i
  else if i % 4 = 0 then
    expandedWord key (i - 4) ^^^ (subWord (rotWord (expandedWord key (i - 1))) ^^^ rcon (i / 4))
  else expandedWord key (i - 4) ^^^ expandedWord key (i - 1)
termination_by i

/-- The key of round `r`. -/
def roundKey (key : BitVec 128) (r : ℕ) : BitVec 128 :=
  ofDwords (expandedWord key (4 * r + 3)) (expandedWord key (4 * r + 2))
    (expandedWord key (4 * r + 1)) (expandedWord key (4 * r))

def addRoundKey (key : BitVec 128) (r : ℕ) (s : State) : State :=
  fun i => s i ^^^ bytes (roundKey key r) i

/-- The cipher on the state, with the layers in the order of the standard. -/
def cipher (key : BitVec 128) (s : State) : State :=
  let s := (List.range' 1 9).foldl
    (fun s r => addRoundKey key r (mixColumns (shiftRows (subBytes s)))) (addRoundKey key 0 s)
  addRoundKey key 10 (shiftRows (subBytes s))

theorem dword_xor (a b : BitVec 128) (i : ℕ) : dword (a ^^^ b) i = dword a i ^^^ dword b i := by
  refine BitVec.eq_of_getLsbD_eq fun k hk => ?_
  simp [dword, hk]

theorem dword_mmSlli4_zero (a : BitVec 128) : dword (mmSlli4 a) 0 = 0#32 := by
  refine BitVec.eq_of_getLsbD_eq fun k hk => ?_
  simp [dword, mmSlli4, hk]

theorem dword_mmSlli4_succ (a : BitVec 128) {i : ℕ} (hi : i < 3) :
    dword (mmSlli4 a) (i + 1) = dword a i := by
  refine BitVec.eq_of_getLsbD_eq fun k hk => ?_
  have hin : 32 * (i + 1) + k < 128 := by omega
  have hoff : 32 * (i + 1) + k - 32 = 32 * i + k := by omega
  have hge : ¬ 32 * (i + 1) + k < 32 := by omega
  rw [dword, dword, mmSlli4, BitVec.getLsbD_extractLsb', BitVec.getLsbD_extractLsb',
    BitVec.getLsbD_shiftLeft, hoff, decide_eq_true hin, decide_eq_false hge]
  simp

theorem getLsbD_ofDwords (d3 d2 d1 d0 : BitVec 32) (j : ℕ) :
    (ofDwords d3 d2 d1 d0).getLsbD j =
      if j < 32 then d0.getLsbD j
      else if j - 32 < 32 then d1.getLsbD (j - 32)
      else if j - 32 - 32 < 32 then d2.getLsbD (j - 32 - 32)
      else d3.getLsbD (j - 32 - 32 - 32) := by
  refine (BitVec.getLsbD_append (x := d3 ++ d2 ++ d1) (y := d0) (i := j)).trans ?_
  rw [BitVec.getLsbD_append, BitVec.getLsbD_append]

theorem dword_ofDwords (d3 d2 d1 d0 : BitVec 32) :
    dword (ofDwords d3 d2 d1 d0) 0 = d0 ∧ dword (ofDwords d3 d2 d1 d0) 1 = d1 ∧
      dword (ofDwords d3 d2 d1 d0) 2 = d2 ∧ dword (ofDwords d3 d2 d1 d0) 3 = d3 := by
  have hbit (i k : ℕ) (hk : k < 32) : (dword (ofDwords d3 d2 d1 d0) i).getLsbD k =
      (ofDwords d3 d2 d1 d0).getLsbD (32 * i + k) := by
    rw [dword, BitVec.getLsbD_extractLsb', decide_eq_true hk, Bool.true_and]
  refine ⟨?_, ?_, ?_, ?_⟩ <;> refine BitVec.eq_of_getLsbD_eq fun k hk => ?_ <;>
    rw [hbit _ _ hk, getLsbD_ofDwords]
  · rw [if_pos (by omega), Nat.mul_zero, Nat.zero_add]
  · rw [if_neg (by omega), if_pos (by omega)]
    exact congrArg _ (by omega)
  · rw [if_neg (by omega), if_neg (by omega), if_pos (by omega)]
    exact congrArg _ (by omega)
  · rw [if_neg (by omega), if_neg (by omega), if_neg (by omega)]
    exact congrArg _ (by omega)

/-- A block is the words it is cut into. -/
theorem ofDwords_dword (x : BitVec 128) :
    ofDwords (dword x 3) (dword x 2) (dword x 1) (dword x 0) = x := by
  refine BitVec.eq_of_getLsbD_eq fun j hj => ?_
  have hbit (i k : ℕ) (hk : k < 32) : (dword x i).getLsbD k = x.getLsbD (32 * i + k) := by
    rw [dword, BitVec.getLsbD_extractLsb', decide_eq_true hk, Bool.true_and]
  rw [getLsbD_ofDwords]
  split_ifs with h0 h1 h2
  · rw [hbit 0 j h0, Nat.mul_zero, Nat.zero_add]
  · rw [hbit 1 _ h1]
    exact congrArg _ (by omega)
  · rw [hbit 2 _ h2]
    exact congrArg _ (by omega)
  · rw [hbit 3 _ (by omega)]
    exact congrArg _ (by omega)

theorem byte_subWord (w : BitVec 32) {i : ℕ} (hi : i < 4) :
    (subWord w).extractLsb' (8 * i) 8 = sbox (w.extractLsb' (8 * i) 8) := by
  refine BitVec.eq_of_getLsbD_eq fun k hk => ?_
  rw [BitVec.getLsbD_extractLsb', decide_eq_true hk, Bool.true_and, subWord,
    BitVec.getLsbD_append, BitVec.getLsbD_append, BitVec.getLsbD_append]
  obtain rfl | rfl | rfl | rfl : i = 0 ∨ i = 1 ∨ i = 2 ∨ i = 3 := by omega
  · rw [if_pos (by omega), Nat.mul_zero, Nat.zero_add]
  · rw [if_neg (by omega), if_pos (by omega)]
    exact congrArg _ (by omega)
  · rw [if_neg (by omega), if_neg (by omega), if_pos (by omega)]
    exact congrArg _ (by omega)
  · rw [if_neg (by omega), if_neg (by omega), if_neg (by omega)]
    exact congrArg _ (by omega)

theorem byte_rotWord (w : BitVec 32) {i : ℕ} (hi : i < 4) :
    (rotWord w).extractLsb' (8 * i) 8 = w.extractLsb' (8 * ((i + 1) % 4)) 8 := by
  refine BitVec.eq_of_getLsbD_eq fun k hk => ?_
  rw [BitVec.getLsbD_extractLsb', BitVec.getLsbD_extractLsb', rotWord, BitVec.getLsbD_rotateRight]
  by_cases h : 8 * i + k < 32 - 8 % 32
  · have hoff : 8 % 32 + (8 * i + k) = 8 * ((i + 1) % 4) + k := by omega
    rw [decide_eq_true h, hoff]
    rfl
  · have hin : 8 * i + k < 32 := by omega
    have hoff : 8 * i + k - (32 - 8 % 32) = 8 * ((i + 1) % 4) + k := by omega
    rw [decide_eq_false h, hoff, decide_eq_true hin]
    rfl

/-- The S-box goes byte by byte, so turning the word first makes no difference. -/
theorem subWord_rotWord (w : BitVec 32) : subWord (rotWord w) = rotWord (subWord w) := by
  refine BitVec.eq_of_getLsbD_eq fun j hj => ?_
  have hbyte (a : BitVec 32) : a.getLsbD j = (a.extractLsb' (8 * (j / 8)) 8).getLsbD (j % 8) := by
    have hlt : j % 8 < 8 := by omega
    rw [BitVec.getLsbD_extractLsb', decide_eq_true hlt, Bool.true_and, Nat.div_add_mod]
  have hi : j / 8 < 4 := by omega
  rw [hbyte, hbyte (rotWord _), byte_subWord _ hi, byte_rotWord _ hi, byte_rotWord _ hi,
    byte_subWord _ (by omega)]

theorem roundKeys_succ (key : BitVec 128) {r : ℕ} (hr : r < 10) :
    (roundKeys key).getD (r + 1) 0 =
      keyExpansion128 ((roundKeys key).getD r 0)
        (mmAeskeygenassist ((roundKeys key).getD r 0) (rcons.getD r 0)) := by
  have hlen : (roundKeys key).length = 11 := List.length_scanl
  have hrcons : rcons.length = 10 := rfl
  rw [List.getD_eq_getElem _ _ (by omega), List.getD_eq_getElem _ _ (by omega),
    List.getD_eq_getElem _ _ (by omega)]
  exact List.getElem_succ_scanl _

/-- The four words of the next round key, each from the one before it. -/
theorem dword_keyExpansion128 (k : BitVec 128) (rc : BitVec 32) :
    let k' := keyExpansion128 k (mmAeskeygenassist k rc)
    dword k' 0 = dword k 0 ^^^ (subWord (rotWord (dword k 3)) ^^^ rc) ∧
      dword k' 1 = dword k 1 ^^^ dword k' 0 ∧
      dword k' 2 = dword k 2 ^^^ dword k' 1 ∧
      dword k' 3 = dword k 3 ^^^ dword k' 2 := by
  intro k'
  have hgen (i : ℕ) (hi : i < 4) : dword (mmShuffle3 (mmAeskeygenassist k rc)) i =
      subWord (rotWord (dword k 3)) ^^^ rc := by
    obtain ⟨-, -, -, h3⟩ := dword_ofDwords (rotWord (subWord (dword k 3)) ^^^ rc)
      (subWord (dword k 3)) (rotWord (subWord (dword k 1)) ^^^ rc) (subWord (dword k 1))
    obtain ⟨g0, g1, g2, g3⟩ := dword_ofDwords (dword (mmAeskeygenassist k rc) 3)
      (dword (mmAeskeygenassist k rc) 3) (dword (mmAeskeygenassist k rc) 3)
      (dword (mmAeskeygenassist k rc) 3)
    rw [subWord_rotWord, ← h3]
    obtain rfl | rfl | rfl | rfl : i = 0 ∨ i = 1 ∨ i = 2 ∨ i = 3 := by omega
    · exact g0
    · exact g1
    · exact g2
    · exact g3
  have hk (i : ℕ) (hi : i < 4) : dword k' i = dword k i ^^^ dword (mmSlli4 k) i ^^^
      dword (mmSlli4 (mmSlli4 k)) i ^^^ dword (mmSlli4 (mmSlli4 (mmSlli4 k))) i ^^^
      (subWord (rotWord (dword k 3)) ^^^ rc) := by
    show dword (keyExpansion128 k (mmAeskeygenassist k rc)) i = _
    rw [keyExpansion128, dword_xor, dword_xor, dword_xor, dword_xor, hgen i hi]
  have h01 (a : BitVec 128) : dword (mmSlli4 a) 1 = dword a 0 := dword_mmSlli4_succ a (by omega)
  have h12 (a : BitVec 128) : dword (mmSlli4 a) 2 = dword a 1 := dword_mmSlli4_succ a (by omega)
  have h23 (a : BitVec 128) : dword (mmSlli4 a) 3 = dword a 2 := dword_mmSlli4_succ a (by omega)
  rw [hk 0 (by omega), hk 1 (by omega), hk 2 (by omega), hk 3 (by omega)]
  simp only [h01, h12, h23, dword_mmSlli4_zero, BitVec.xor_zero, BitVec.xor_assoc, true_and]

theorem rounds_words (key : BitVec 128) {r : ℕ} (hr : r < 11) :
    ∀ j < 4, dword ((roundKeys key).getD r 0) j = expandedWord key (4 * r + j) := by
  induction r with
  | zero =>
    intro j hj
    rw [expandedWord, if_pos (by omega), Nat.mul_zero, Nat.zero_add]
    rfl
  | succ r ih =>
    have ih := ih (by omega)
    obtain ⟨h0, h1, h2, h3⟩ :=
      dword_keyExpansion128 ((roundKeys key).getD r 0) (rcons.getD r 0)
    rw [← roundKeys_succ key (by omega)] at h0 h1 h2 h3
    have hlast : 4 * (r + 1) - 1 = 4 * r + 3 := by omega
    have hfour (j : ℕ) : 4 * (r + 1) + j - 4 = 4 * r + j := by omega
    have hdiv : 4 * (r + 1) / 4 - 1 = r := by omega
    have hw0 : dword ((roundKeys key).getD (r + 1) 0) 0 = expandedWord key (4 * (r + 1)) := by
      rw [expandedWord, if_neg (by omega), if_pos (by omega), rcon, hdiv, hlast, ← ih 3 (by omega),
        show 4 * (r + 1) - 4 = 4 * r + 0 by omega, ← ih 0 (by omega)]
      exact h0
    -- every other word of the round is one of the last round and the word before it
    have hnext (j : ℕ) (hj : j < 3)
        (hd : dword ((roundKeys key).getD (r + 1) 0) (j + 1) =
          dword ((roundKeys key).getD r 0) (j + 1) ^^^ dword ((roundKeys key).getD (r + 1) 0) j)
        (hw : dword ((roundKeys key).getD (r + 1) 0) j = expandedWord key (4 * (r + 1) + j)) :
        dword ((roundKeys key).getD (r + 1) 0) (j + 1) =
          expandedWord key (4 * (r + 1) + (j + 1)) := by
      rw [expandedWord, if_neg (by omega), if_neg (by omega), hfour, ← ih (j + 1) (by omega), hd,
        hw, show 4 * (r + 1) + (j + 1) - 1 = 4 * (r + 1) + j by omega]
    have hw1 := hnext 0 (by omega) h1 hw0
    have hw2 := hnext 1 (by omega) h2 hw1
    have hw3 := hnext 2 (by omega) h3 hw2
    intro j hj
    obtain rfl | rfl | rfl | rfl : j = 0 ∨ j = 1 ∨ j = 2 ∨ j = 3 := by omega
    · exact hw0
    · exact hw1
    · exact hw2
    · exact hw3

theorem roundKeys_eq (key : BitVec 128) {r : ℕ} (hr : r < 11) :
    (roundKeys key).getD r 0 = roundKey key r := by
  have hw := rounds_words key hr
  rw [← ofDwords_dword ((roundKeys key).getD r 0), hw 3 (by omega), hw 2 (by omega),
    hw 1 (by omega), hw 0 (by omega)]
  rfl

theorem sched_eq (key : BitVec 128) {r : ℕ} (hr : r < 11) :
    (sched key).getD r 0 = roundKey key r := by
  have hlen : (roundKeys key).length = 11 := List.length_scanl
  rw [sched, List.getD_append _ _ _ _ (by omega), roundKeys_eq key hr]

/-- A round of the instructions, on the bytes of the block. -/
theorem bytes_mmAesenc (x : BitVec 128) (key : BitVec 128) (r : ℕ) :
    bytes (mmAesenc x (roundKey key r)) =
      addRoundKey key r (mixColumns (shiftRows (subBytes (bytes x)))) := by
  rw [mmAesenc, bytes_xor, bytes_ofBytes]
  rfl

theorem bytes_mmAesenclast (x : BitVec 128) (key : BitVec 128) (r : ℕ) :
    bytes (mmAesenclast x (roundKey key r)) =
      addRoundKey key r (shiftRows (subBytes (bytes x))) := by
  rw [mmAesenclast, bytes_xor, bytes_ofBytes]
  rfl

theorem bytes_rounds (key x : BitVec 128) {rs : List ℕ} (hrs : ∀ r ∈ rs, r < 11) :
    bytes (rs.foldl (fun mix i => mmAesenc mix ((sched key).getD i 0)) x) =
      rs.foldl (fun s r => addRoundKey key r (mixColumns (shiftRows (subBytes s)))) (bytes x) := by
  induction rs generalizing x with
  | nil => rfl
  | cons r rs ih =>
    rw [List.foldl_cons, List.foldl_cons, ih _ fun r' hr' => hrs r' (List.mem_cons_of_mem _ hr'),
      sched_eq key (hrs r List.mem_cons_self), bytes_mmAesenc]

theorem bytes_encrypt (key plain : BitVec 128) :
    bytes ((expandKey key).encrypt plain) = cipher key (bytes plain) := by
  have hrs : ∀ r ∈ List.range' 1 9, r < 11 := by
    intro r hr
    rw [List.mem_range'_1] at hr
    omega
  have hkeySched (i : ℕ) : (expandKey key).keySched i = (sched key).getD i 0 := rfl
  show bytes (mmAesenclast ((List.range' 1 9).foldl
    (fun mix i => mmAesenc mix ((sched key).getD i 0)) (plain ^^^ (sched key).getD 0 0))
      ((sched key).getD 10 0)) = _
  rw [sched_eq key (by omega : 10 < 11), bytes_mmAesenclast, bytes_rounds _ _ hrs,
    sched_eq key (by omega : 0 < 11), bytes_xor]
  rfl

/-- Whatever the key, `encrypt` is the standard cipher, and `decrypt` gives the block back. -/
theorem expandKey_cipher_iff (key plain c : BitVec 128) :
    bytes ((expandKey key).encrypt plain) = cipher key (bytes plain) ∧
      ((expandKey key).decrypt c = plain ↔ bytes c = cipher key (bytes plain)) := by
  refine ⟨bytes_encrypt key plain, ?_, ?_⟩
  · rintro rfl
    rw [← bytes_encrypt, encrypt_decrypt]
  · intro h
    rw [← bytes_encrypt] at h
    have hc : c = (expandKey key).encrypt plain := by
      rw [← ofBytes_bytes c, h, ofBytes_bytes]
    rw [hc, decrypt_encrypt]

end Raims.AES128
