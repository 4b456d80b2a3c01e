import Raims.Crypt.CounterMode
import Raims.User.Signatures

/-!
# Which blocks of the keystream are used (`HashDigest::encrypt_hmac`)

Within one text the counter is added to the IV at each block, and is itself counted
up: the blocks of a text that starts at `ctr` are `ctr`, `2 ctr + 1`, `3 ctr + 3` and
so on after the IV. From one text to the next the callers count the blocks of the
text alone. The two do not fit together.
-/

namespace Raims

/-- `HashDigest`: the key schedule of its first half, its second half, and
`PolyHmacDigest` with it as the key. -/
structure HashDigest where
  aes : AES128
  iv : UInt64 × UInt64
  polyHmac : List UInt8 → List UInt8
  length_polyHmac : ∀ l, (polyHmac l).length = HMAC_SIZE

namespace HashDigest

/-- The loop of `encrypt_hmac` and `decrypt_hmac`: `iv[ 1 ]` at each block, and the
bytes of the block. -/
def hmacLoop : ℕ → UInt64 → UInt64 → List UInt8 → List (UInt64 × List UInt8)
  | 0, iv, ctr, data => [(iv + ctr, data)]
  | fuel + 1, iv, ctr, data =>
    let iv := iv + ctr
    if data.length ≤ 16 then [(iv, data)]
    else (iv, data.take 16) :: hmacLoop fuel iv (ctr + 1) (data.drop 16)

variable (d : HashDigest)

/-- `aes.encrypt( iv, tmp )`. -/
def tmp (iv : UInt64) : List UInt8 :=
  AES128.storeu (d.aes.encrypt (AES128.setEpi64x iv.toNat d.iv.1.toNat))

/-- The blocks of a text that starts at `ctr`. -/
def blocks (data : List UInt8) (ctr : UInt64) : List (UInt64 × List UInt8) :=
  hmacLoop data.length d.iv.2 ctr data

def xorBlocks (bs : List (UInt64 × List UInt8)) : List UInt8 :=
  bs.flatMap fun b => AES128.xorBytes (d.tmp b.1) b.2

def encryptHmac (data : List UInt8) (ctr : UInt64) : List UInt8 :=
  let cipher := d.xorBlocks (d.blocks data ctr)
  d.polyHmac cipher ++ cipher

def decryptHmac (data : List UInt8) (ctr : UInt64) : Option (List UInt8) :=
  let cipher := data.drop HMAC_SIZE
  if data.take HMAC_SIZE ≠ d.polyHmac cipher then none
  else some (d.xorBlocks (d.blocks cipher ctr))

/-! ## Deciphering -/

variable {d}

@[simp] theorem length_tmp (iv : UInt64) : (d.tmp iv).length = 16 := Bytes.length_le 16 _

theorem length_xorBytes_tmp (d : HashDigest) (iv : UInt64) {l : List UInt8} (h : l.length ≤ 16) :
    (AES128.xorBytes (d.tmp iv) l).length = l.length := by
  rw [AES128.xorBytes, List.length_zipWith, length_tmp, Nat.min_eq_left h]

theorem xorBytes_xorBytes {t l : List UInt8} (h : l.length ≤ t.length) :
    AES128.xorBytes t (AES128.xorBytes t l) = l := by
  induction l generalizing t with
  | nil => rfl
  | cons b l ih =>
    cases t with
    | nil => exact absurd h (Nat.not_succ_le_zero _)
    | cons a t =>
      have hrest := ih (Nat.le_of_succ_le_succ h)
      show ((b ^^^ a) ^^^ a) :: AES128.xorBytes t (AES128.xorBytes t l) = b :: l
      rw [hrest, UInt8.xor_assoc, UInt8.xor_self, UInt8.xor_zero]

/-- The same blocks of the keystream, so that reuse is not seen. -/
theorem xorBlocks_xorBlocks (d : HashDigest) {fuel : ℕ} (iv ctr : UInt64) {data : List UInt8}
    (h : data.length ≤ fuel) :
    (d.xorBlocks (hmacLoop fuel iv ctr data)).length = data.length ∧
      d.xorBlocks (hmacLoop fuel iv ctr (d.xorBlocks (hmacLoop fuel iv ctr data))) = data := by
  induction fuel generalizing iv ctr data with
  | zero =>
    obtain rfl := List.length_eq_zero_iff.mp (Nat.le_zero.mp h)
    exact ⟨rfl, rfl⟩
  | succ fuel ih =>
    have hlast : ∀ l : List UInt8, d.xorBlocks [(iv + ctr, l)] =
        AES128.xorBytes (d.tmp (iv + ctr)) l := fun l => List.append_nil _
    by_cases hlen : data.length ≤ 16
    · have hxor := length_xorBytes_tmp d (iv + ctr) hlen
      rw [hmacLoop, if_pos hlen, hlast]
      refine ⟨hxor, ?_⟩
      rw [hmacLoop, if_pos (by rw [hxor]; exact hlen), hlast]
      exact xorBytes_xorBytes (by rw [length_tmp]; exact hlen)
    · have hhead : (data.take 16).length = 16 := by
        rw [List.length_take]
        omega
      have hxor : (AES128.xorBytes (d.tmp (iv + ctr)) (data.take 16)).length = 16 := by
        rw [length_xorBytes_tmp d _ (by rw [hhead]), hhead]
      have hfuel : (data.drop 16).length ≤ fuel := by
        rw [List.length_drop]
        omega
      obtain ⟨hrestlen, hrest⟩ := ih (iv + ctr) (ctr + 1) hfuel
      have hcipher : d.xorBlocks (hmacLoop (fuel + 1) iv ctr data) =
          AES128.xorBytes (d.tmp (iv + ctr)) (data.take 16) ++
            d.xorBlocks (hmacLoop fuel (iv + ctr) (ctr + 1) (data.drop 16)) := by
        rw [hmacLoop, if_neg hlen]
        rfl
      have hcipherlen : (d.xorBlocks (hmacLoop (fuel + 1) iv ctr data)).length = data.length := by
        rw [hcipher, List.length_append, hxor, hrestlen, List.length_drop]
        omega
      refine ⟨hcipherlen, ?_⟩
      rw [hmacLoop, if_neg (by rw [hcipherlen]; exact hlen), hcipher, List.take_left' hxor,
        List.drop_left' hxor]
      show AES128.xorBytes _ (AES128.xorBytes _ (data.take 16)) ++ d.xorBlocks _ = data
      rw [xorBytes_xorBytes (by rw [hhead, length_tmp]), hrest, List.take_append_drop]

theorem decryptHmac_encryptHmac (data : List UInt8) (ctr : UInt64) :
    d.decryptHmac (d.encryptHmac data ctr) ctr = some data := by
  unfold encryptHmac decryptHmac blocks
  dsimp only
  obtain ⟨hlen, hdata⟩ := xorBlocks_xorBlocks d d.iv.2 ctr (le_refl data.length)
  rw [List.drop_left' (d.length_polyHmac _), List.take_left' (d.length_polyHmac _),
    if_neg (not_not.mpr rfl), hlen, hdata]

/-! ## The words that are enciphered -/

/-- `iv[ 1 ]` at each of `n` blocks. -/
def ivWords : ℕ → UInt64 → UInt64 → List UInt64
  | 0, _, _ => []
  | n + 1, iv, ctr => (iv + ctr) :: ivWords n (iv + ctr) (ctr + 1)

theorem ivWords_add (n : ℕ) (iv off ctr : UInt64) :
    ivWords n (iv + off) ctr = (ivWords n off ctr).map (iv + ·) := by
  induction n generalizing off ctr with
  | zero => rfl
  | succ n ih => rw [ivWords, ivWords, List.map_cons, UInt64.add_assoc, ih]

theorem map_fst_hmacLoop {fuel : ℕ} {iv ctr : UInt64} {data : List UInt8}
    (h : data.length ≤ 16 * (fuel + 1)) :
    (hmacLoop fuel iv ctr data).map Prod.fst = ivWords ((data.length - 1) / 16 + 1) iv ctr := by
  have hone : data.length ≤ 16 → (data.length - 1) / 16 + 1 = 1 := by
    intro hlen
    omega
  induction fuel generalizing iv ctr data with
  | zero =>
    rw [hone (by omega)]
    rfl
  | succ fuel ih =>
    rw [hmacLoop]
    by_cases hlen : data.length ≤ 16
    · rw [if_pos hlen, hone hlen]
      rfl
    · have hdrop : (data.drop 16).length = data.length - 16 := List.length_drop
      have hcount : (data.length - 1) / 16 + 1 = ((data.drop 16).length - 1) / 16 + 1 + 1 := by
        rw [hdrop]
        omega
      rw [if_neg hlen, List.map_cons, hcount, ivWords, ih]
      · rw [hdrop]
        omega
      · intro hle
        omega

theorem map_fst_blocks (data : List UInt8) (ctr : UInt64) :
    (d.blocks data ctr).map Prod.fst =
      (ivWords ((data.length - 1) / 16 + 1) 0 ctr).map (d.iv.2 + ·) := by
  rw [← ivWords_add, UInt64.add_zero]
  exact map_fst_hmacLoop (by omega)

end HashDigest

/-! ## The keys and signatures of a service -/

/-- `dsa_tag`. -/
def dsaTag : List UInt8 := [68, 83, 65, 49]
/-- `sig_tag`. -/
def sigTag : List UInt8 := [83, 73, 71, 49]

/-- The bytes of a key (`copy_to`) and of a signature. -/
structure SecretBytes where
  pk : ℕ → List UInt8
  sk : ℕ → List UInt8
  sig : ℕ → UserDigest → List UInt8
  length_pk : ∀ key, (pk key).length = DSA_KEY_LEN
  length_sk : ∀ key, (sk key).length = DSA_KEY_LEN
  length_sig : ∀ key digest, (sig key digest).length = DSA_SIGN_LEN

/-- What `HmacEncrypt::encrypt` enciphers: the bytes and the tag. -/
def SecretBytes.plain (enc : SecretBytes) : Secret → List UInt8
  | .pk key => enc.pk key ++ dsaTag
  | .sk key => enc.sk key ++ dsaTag
  | .sig key digest => enc.sig key digest ++ sigTag
  | .badSig => sigTag
  | .garbled secret _ _ => enc.plain secret

/-- The values of `iv[ 1 ]` that are enciphered for a text. -/
def HmacCipher.ivs (digest : Kdf → HashDigest) (enc : SecretBytes) (c : HmacCipher) :
    List UInt64 :=
  ((digest c.kdf).blocks (enc.plain c.plain) (UInt64.ofNat c.ctr)).map Prod.fst

/-- The two keys. -/
def UserBuf.ciphers (u : UserBuf) : List HmacCipher := u.pub.toList ++ u.pri.toList

/-- The signature of a user and that of the revocation. -/
def UserElem.sigs (u : UserElem) : List HmacCipher := u.sig.toList ++ u.revoke.join.toList

/-- The two keys and all the signatures. -/
def ServiceBuf.ciphers (s : ServiceBuf) : List HmacCipher :=
  s.pub.toList ++ s.pri.toList ++ s.users.flatMap UserElem.sigs

section Blocks

variable (digest : Kdf → HashDigest) (enc : SecretBytes)

theorem ivs_key {kdf : Kdf} {ctr : ℕ} {plain : Secret}
    (h : (enc.plain plain).length = DSA_KEY_LEN + CIPHER_TAG_SIZE) :
    HmacCipher.ivs digest enc ⟨kdf, ctr, plain⟩ =
      (HashDigest.ivWords 3 0 (UInt64.ofNat ctr)).map ((digest kdf).iv.2 + ·) := by
  unfold HmacCipher.ivs
  rw [HashDigest.map_fst_blocks, h]
  rfl

theorem ivs_pk (kdf : Kdf) (ctr key : ℕ) : HmacCipher.ivs digest enc ⟨kdf, ctr, .pk key⟩ =
    (HashDigest.ivWords 3 0 (UInt64.ofNat ctr)).map ((digest kdf).iv.2 + ·) := by
  apply ivs_key
  rw [SecretBytes.plain, List.length_append, enc.length_pk]
  rfl

theorem ivs_sk (kdf : Kdf) (ctr key : ℕ) : HmacCipher.ivs digest enc ⟨kdf, ctr, .sk key⟩ =
    (HashDigest.ivWords 3 0 (UInt64.ofNat ctr)).map ((digest kdf).iv.2 + ·) := by
  apply ivs_key
  rw [SecretBytes.plain, List.length_append, enc.length_sk]
  rfl

theorem ivs_sig (kdf : Kdf) (ctr key : ℕ) (dig : UserDigest) :
    HmacCipher.ivs digest enc ⟨kdf, ctr, .sig key dig⟩ =
      (HashDigest.ivWords 5 0 (UInt64.ofNat ctr)).map ((digest kdf).iv.2 + ·) := by
  unfold HmacCipher.ivs
  rw [HashDigest.map_fst_blocks, SecretBytes.plain, List.length_append, enc.length_sig]
  rfl

/-- The two keys of a user have blocks of their own. -/
theorem UserBuf.putDsa_ivs_nodup (u : UserBuf) (pwd : Str) (key : ℕ) :
    ((u.putDsa pwd (DSA.genKey key) true).ciphers.flatMap
      (HmacCipher.ivs digest enc)).Nodup := by
  show (HmacCipher.ivs digest enc _ ++ (HmacCipher.ivs digest enc _ ++ [])).Nodup
  rw [List.append_nil]
  show (HmacCipher.ivs digest enc ⟨u.kdf pwd, 0, .pk key⟩ ++
    HmacCipher.ivs digest enc ⟨u.kdf pwd, aesCtrOff DSA_CIPHER_KEY_LEN, .sk key⟩).Nodup
  rw [ivs_pk, ivs_sk, ← List.map_append]
  refine List.Nodup.map (fun x y => (UInt64.add_right_inj _).mp) ?_
  decide

/-- Every signature is enciphered with the key of the service. -/
theorem ServiceBuf.signLoop_kdf {kdf : Kdf} {pwd : Str} {dsa : DSA} {ctr : ℕ}
    {us us' : List UserElem} (h : signLoop kdf pwd dsa ctr us = some us') :
    ∀ c ∈ us'.flatMap UserElem.sigs, c.kdf = kdf := by
  induction us generalizing ctr us' with
  | nil =>
    obtain rfl : [] = us' := Option.some.inj h
    simp
  | cons u us ih =>
    rw [signLoop] at h
    simp only [Option.bind_eq_bind, Option.bind_eq_some_iff] at h
    obtain ⟨pk, -, rest, hrest, heq⟩ := h
    obtain rfl := Option.some.inj heq
    intro c hc
    rw [List.flatMap_cons, List.mem_append] at hc
    rcases hc with hc | hc
    · unfold UserElem.sigs at hc
      cases hr : u.revoke with
      | none =>
        simp [hr, hmacEncrypt] at hc
        rw [hc]
      | some r =>
        simp [hr, hmacEncrypt] at hc
        rcases hc with rfl | rfl <;> rfl
    · exact ih hrest c hc

/-- The first signature. -/
theorem ServiceBuf.signLoop_head {kdf : Kdf} {pwd : Str} {key ctr : ℕ} {us us' : List UserElem}
    (h : signLoop kdf pwd (DSA.genKey key) ctr us = some us') (hne : us ≠ []) :
    ∃ dig cs, us'.flatMap UserElem.sigs = ⟨kdf, ctr, .sig key dig⟩ :: cs := by
  cases us with
  | nil => exact absurd rfl hne
  | cons u us =>
    rw [signLoop] at h
    simp only [Option.bind_eq_bind, Option.bind_eq_some_iff] at h
    obtain ⟨pk, -, rest, -, heq⟩ := h
    obtain rfl := Option.some.inj heq
    exact ⟨u.user.userHmac pk, _, rfl⟩

end Blocks

namespace Service

variable (digest : Kdf → HashDigest) (enc : SecretBytes)

/-- **A service that signs no user has a block of the keystream for each block it
enciphers**, and no other service has: the second block of the first signature and the
third of the private key are both the ninth after the IV. The keys of a user never meet. -/
theorem keystream_once_iff (s : Service) (kv : UserSort) (fresh : UserBuf → Str × ℕ) (pwd : Str)
    {s' : ServiceBuf} (h : s.signUsers kv fresh pwd = some s') :
    (∀ c ∈ s'.ciphers, c.kdf = s.kdf pwd) ∧
      ((s'.ciphers.flatMap (HmacCipher.ivs digest enc)).Nodup ↔ s.users = []) ∧
      ∀ (u : UserBuf) (pwd : Str) (key : ℕ),
        (∀ c ∈ (u.putDsa pwd (DSA.genKey key) true).ciphers, c.kdf = u.kdf pwd) ∧
          ((u.putDsa pwd (DSA.genKey key) true).ciphers.flatMap
            (HmacCipher.ivs digest enc)).Nodup := by
  obtain ⟨key, us, hpub, hpri, hsign, rfl⟩ := s.signUsers_cases h
  have hciphers : ServiceBuf.ciphers { s.toServiceBuf with users := us } =
      [⟨s.kdf pwd, 0, .pk key⟩, ⟨s.kdf pwd, aesCtrOff DSA_KEY_LEN, .sk key⟩] ++
        us.flatMap UserElem.sigs := by
    show s.pub.toList ++ s.pri.toList ++ us.flatMap UserElem.sigs = _
    rw [hpub, hpri]
    rfl
  rw [hciphers]
  refine ⟨?_, ?_, ?_⟩
  · intro c hc
    rw [List.mem_append] at hc
    rcases hc with hc | hc
    · simp only [List.mem_cons, List.not_mem_nil, or_false] at hc
      rcases hc with rfl | rfl <;> rfl
    · exact ServiceBuf.signLoop_kdf hsign c hc
  · have hkeys : [(⟨s.kdf pwd, 0, .pk key⟩ : HmacCipher),
        ⟨s.kdf pwd, aesCtrOff DSA_KEY_LEN, .sk key⟩].flatMap (HmacCipher.ivs digest enc) =
        (HashDigest.ivWords 3 0 0 ++ HashDigest.ivWords 3 0 2).map
          ((digest (s.kdf pwd)).iv.2 + ·) := by
      rw [List.flatMap_cons, List.flatMap_singleton, ivs_pk, ivs_sk, ← List.map_append]
      rfl
    rw [List.flatMap_append, hkeys]
    constructor
    · intro hnodup
      by_contra hne
      have hne' : ServiceBuf.genKeys fresh pwd (kv.sort s.users) ≠ [] := by
        intro hnil
        have hsort := List.map_eq_nil_iff.mp hnil
        have hperm := kv.perm s.users
        rw [hsort] at hperm
        exact hne hperm.symm.eq_nil
      obtain ⟨dig, cs, hcs⟩ := ServiceBuf.signLoop_head hsign hne'
      rw [hcs, List.flatMap_cons, ivs_sig, ← List.append_assoc, ← List.map_append] at hnodup
      -- nine blocks after the IV, twice
      have hlist := (List.nodup_append.mp hnodup).1.of_map
      exact absurd hlist (by decide)
    · intro hnil
      have hsort : kv.sort s.users = [] := by
        rw [hnil]
        exact (kv.perm []).eq_nil
      rw [hsort] at hsign
      obtain rfl : [] = us := Option.some.inj hsign
      rw [List.flatMap_nil, List.flatMap_nil, List.append_nil]
      exact List.Nodup.map (fun x y => (UInt64.add_right_inj _).mp) (by decide)
  · intro u pwd key
    refine ⟨?_, u.putDsa_ivs_nodup digest enc pwd key⟩
    intro c hc
    simp only [UserBuf.ciphers, UserBuf.putDsa, if_true, hmacEncrypt, Option.toList_some,
      List.cons_append, List.nil_append, List.mem_cons, List.not_mem_nil, or_false] at hc
    rcases hc with rfl | rfl <;> rfl

/-- Keys of the length they have, all zero. -/
def zeroBytes : SecretBytes where
  pk _ := List.replicate DSA_KEY_LEN (0 : UInt8)
  sk _ := List.replicate DSA_KEY_LEN (0 : UInt8)
  sig _ _ := List.replicate DSA_SIGN_LEN (0 : UInt8)
  length_pk _ := List.length_replicate
  length_sk _ := List.length_replicate
  length_sig _ _ := List.length_replicate

/-- One digest for all, with an HMAC that is zero. -/
def zeroDigest (_ : Kdf) : HashDigest where
  aes := CounterModeAES.addRoundKey
  iv := (0, 0)
  polyHmac _ := List.replicate HMAC_SIZE (0 : UInt8)
  length_polyHmac _ := List.length_replicate

theorem keystream_once_iff_noUsers :
    ∃ s', (ofUsers [7] []).signUsers UserSort.insertion freshKeys [7] = some s' ∧
      (s'.ciphers.flatMap (HmacCipher.ivs zeroDigest zeroBytes)).Nodup := by
  refine ⟨_, rfl, ?_⟩
  exact ((keystream_once_iff zeroDigest zeroBytes (ofUsers [7] []) UserSort.insertion freshKeys
    [7] rfl).2.1).mpr rfl

/-- With one user the private key and the signature share a block. -/
theorem oneUser_shares_block :
    ¬ ∀ (s : Service) (kv : UserSort) (fresh : UserBuf → Str × ℕ) (pwd : Str) (s' : ServiceBuf),
      s.signUsers kv fresh pwd = some s' →
        (s'.ciphers.flatMap (HmacCipher.ivs zeroDigest zeroBytes)).Nodup := by
  intro h
  have h := h (ofUsers [7] [([97], [3])]) UserSort.insertion freshKeys [7] _ rfl
  exact absurd h (by decide)

end Service

end Raims
