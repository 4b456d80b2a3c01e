import Raims.Lib.Base64
import Raims.User.EncryptHmac

/-!
# What `HmacDecrypt::decrypt` accepts

The plain text is enciphered with a tag after it, and the HMAC is that of the cipher. It
covers neither the position nor the tag: a cipher that is deciphered at another position
than it was enciphered at is garbage with a valid HMAC. The tag would tell, but a tag that
does not match is only printed.
-/

namespace Raims

/-- What raikv has for base64. -/
structure Base64Kv where
  /-- `KV_BASE64_SIZE` -/
  size : ℕ → ℕ
  /-- `KV_BASE64_BIN_SIZE` -/
  binSize : ℕ → ℕ
  /-- `bin_to_base64`, without padding -/
  ofBin : List UInt8 → List UInt8
  /-- `base64_to_bin` -/
  toBin : List UInt8 → List UInt8
  toBin_ofBin : ∀ bin, toBin (ofBin bin) = bin

/-- Base64 as it is documented. -/
def Base64Kv.noPadding : Base64Kv :=
  ⟨Base64.size, Base64.binSize, Base64.encode, Base64.decode, Base64.decode_encode⟩

/-- `char tag[ CIPHER_TAG_SIZE ]`. -/
abbrev CipherTag := { l : List UInt8 // l.length = CIPHER_TAG_SIZE }

/-- `HmacKdf` with the tag, and the template parameter of `HmacEncrypt` and `HmacDecrypt`. -/
structure HmacKdf where
  kdfPwd : HashDigest
  ctr : UInt64
  tag : CipherTag
  maxPlainLen : ℕ
  maxPlainLen_lt : maxPlainLen + (HMAC_SIZE + CIPHER_TAG_SIZE) < 2 ^ 64

/-- The plain text after `HmacDecrypt::decrypt`, and whether no tag was printed that does
not match. -/
structure Deciphered where
  plain : List UInt8
  plainLen : UInt64
  tagMatches : Bool

namespace HmacKdf

variable (k : HmacKdf) (kv : Base64Kv)

/-- `MAX_CIPHER_LEN`, as the callers give it. -/
def maxCipherLen : ℕ := k.maxPlainLen + (HMAC_SIZE + CIPHER_TAG_SIZE)

/-- `HmacEncrypt::encrypt`, of `plain_len` bytes. -/
def encrypt (plain : List UInt8) (outSize : ℕ) : Option (List UInt8) :=
  if k.maxPlainLen + CIPHER_TAG_SIZE < plain.length + CIPHER_TAG_SIZE then none
  else
    let cipher := k.kdfPwd.encryptHmac (plain ++ k.tag.1) k.ctr
    if outSize < kv.size (plain.length + (HMAC_SIZE + CIPHER_TAG_SIZE)) then none
    else some (kv.ofBin cipher)

/-- `HmacDecrypt::decrypt`. -/
def decrypt (b64 : List UInt8) : Option Deciphered :=
  if k.maxCipherLen < kv.binSize b64.length then none
  else
    let cipher := kv.toBin b64
    if cipher.length < HMAC_SIZE ∨ k.maxCipherLen < cipher.length then none
    else
      match k.kdfPwd.decryptHmac cipher k.ctr with
      | none => none
      | some plain =>
        -- below 20 bytes the length wraps, and what is compared is not of `plain`
        let plainLen := UInt64.ofNat cipher.length - UInt64.ofNat (HMAC_SIZE + CIPHER_TAG_SIZE)
        let tag := (plain.drop plainLen.toNat).take CIPHER_TAG_SIZE
        some ⟨plain, plainLen, decide (tag = k.tag.1)⟩

/-- The text is one of a cipher that `encrypt` makes, with the same key, position and tag,
and `r` is what was enciphered. -/
def EncryptedAs (b64 : List UInt8) (r : Deciphered) : Prop :=
  ∃ plain outSize out, k.encrypt kv plain outSize = some out ∧ kv.toBin b64 = kv.toBin out ∧
    r.plainLen.toNat = plain.length ∧ r.plain.take r.plainLen.toNat = plain

/-- The text is of a size that is looked at, and its HMAC is that of its cipher. -/
def Accepts (b64 : List UInt8) : Prop :=
  kv.binSize b64.length ≤ k.maxCipherLen ∧ HMAC_SIZE ≤ (kv.toBin b64).length ∧
    (kv.toBin b64).length ≤ k.maxCipherLen ∧
    (kv.toBin b64).take HMAC_SIZE = k.kdfPwd.polyHmac ((kv.toBin b64).drop HMAC_SIZE)

end HmacKdf

/-! ## The keystream -/

namespace HashDigest

variable (d : HashDigest)

/-- What is xored to the `n` bytes of a text that starts at `ctr`, and more. -/
def keystream (ctr : UInt64) (n : ℕ) : List UInt8 := (ivWords (n + 1) d.iv.2 ctr).flatMap d.tmp

theorem le_length_keystream (iv ctr : UInt64) (n : ℕ) :
    n ≤ ((ivWords n iv ctr).flatMap d.tmp).length := by
  induction n generalizing iv ctr with
  | zero => exact Nat.zero_le _
  | succ n ih =>
    have hrest := ih (iv + ctr) (ctr + 1)
    rw [ivWords, List.flatMap_cons, List.length_append, length_tmp]
    omega

theorem xorBytes_append_of_le {t r l : List UInt8} (h : l.length ≤ t.length) :
    AES128.xorBytes (t ++ r) l = AES128.xorBytes t l := by
  induction l generalizing t with
  | nil => rfl
  | cons b l ih =>
    cases t with
    | nil => exact absurd h (Nat.not_succ_le_zero _)
    | cons a t =>
      have hrest := ih (Nat.le_of_succ_le_succ h)
      show (b ^^^ a) :: AES128.xorBytes (t ++ r) l = (b ^^^ a) :: AES128.xorBytes t l
      rw [hrest]

theorem xorBlocks_eq_xorBytes {fuel : ℕ} (iv ctr : UInt64) {data : List UInt8}
    (h : data.length ≤ fuel) :
    d.xorBlocks (hmacLoop fuel iv ctr data) =
      AES128.xorBytes ((ivWords (fuel + 1) iv ctr).flatMap d.tmp) data := by
  induction fuel generalizing iv ctr data with
  | zero =>
    obtain rfl := List.length_eq_zero_iff.1 (Nat.le_zero.1 h)
    rfl
  | succ fuel ih =>
    rw [hmacLoop, ivWords, List.flatMap_cons]
    split
    · next hlen =>
        rw [xorBytes_append_of_le (by rw [length_tmp]; exact hlen)]
        exact List.append_nil _
    · next hlen =>
        have hhead : (data.take 16).length = (d.tmp (iv + ctr)).length := by
          rw [List.length_take, length_tmp]
          omega
        have hdrop : (data.drop 16).length ≤ fuel := by
          rw [List.length_drop]
          omega
        have hrest := ih (iv + ctr) (ctr + 1) hdrop
        calc d.xorBlocks ((iv + ctr, data.take 16) ::
                hmacLoop fuel (iv + ctr) (ctr + 1) (data.drop 16))
            = AES128.xorBytes (d.tmp (iv + ctr)) (data.take 16) ++
                d.xorBlocks (hmacLoop fuel (iv + ctr) (ctr + 1) (data.drop 16)) :=
              List.flatMap_cons
          _ = AES128.xorBytes (d.tmp (iv + ctr) ++
                (ivWords (fuel + 1) (iv + ctr) (ctr + 1)).flatMap d.tmp)
                (data.take 16 ++ data.drop 16) := by
              rw [hrest]
              exact (List.zipWith_append hhead).symm
          _ = _ := by rw [List.take_append_drop]

theorem xorBlocks_blocks (data : List UInt8) (ctr : UInt64) :
    d.xorBlocks (d.blocks data ctr) = AES128.xorBytes (d.keystream ctr data.length) data :=
  d.xorBlocks_eq_xorBytes d.iv.2 ctr (Nat.le_refl _)

theorem length_keystream (ctr : UInt64) (n : ℕ) : n ≤ (d.keystream ctr n).length :=
  Nat.le_trans (Nat.le_succ n) (d.le_length_keystream d.iv.2 ctr (n + 1))

theorem length_xorBytes_keystream (ctr : UInt64) (data : List UInt8) :
    (AES128.xorBytes (d.keystream ctr data.length) data).length = data.length := by
  have hle := d.length_keystream ctr data.length
  rw [AES128.xorBytes, List.length_zipWith, Nat.min_eq_left hle]

/-- What ends with the tag is enciphered to what ends with the tag in its place. -/
theorem drop_xorBytes_eq_iff {ks tag data : List UInt8} {n : ℕ} (hks : data.length ≤ ks.length)
    (htag : n + tag.length = data.length) :
    (AES128.xorBytes ks data).drop n = tag ↔ data.drop n = AES128.xorBytes (ks.drop n) tag := by
  have hdrop : (AES128.xorBytes ks data).drop n = AES128.xorBytes (ks.drop n) (data.drop n) :=
    List.drop_zipWith
  have hdata : (data.drop n).length ≤ (ks.drop n).length := by
    rw [List.length_drop, List.length_drop]
    omega
  have htag' : tag.length ≤ (ks.drop n).length := by
    rw [List.length_drop]
    omega
  rw [hdrop]
  constructor
  · rintro rfl
    exact (xorBytes_xorBytes hdata).symm
  · intro heq
    rw [heq]
    exact xorBytes_xorBytes htag'

end HashDigest

/-! ## The tag -/

namespace HmacKdf

variable {k : HmacKdf} {kv : Base64Kv} {b64 : List UInt8} {r : Deciphered}

/-- The last bytes of the cipher are the tag, enciphered where they are. -/
def TagInPlace (k : HmacKdf) (cipher : List UInt8) : Prop :=
  CIPHER_TAG_SIZE ≤ cipher.length ∧
    cipher.drop (cipher.length - CIPHER_TAG_SIZE) =
      AES128.xorBytes ((k.kdfPwd.keystream k.ctr cipher.length).drop
        (cipher.length - CIPHER_TAG_SIZE)) k.tag.1

theorem decrypt_eq_some : k.decrypt kv b64 = some r ↔
    k.Accepts kv b64 ∧
      let cipher := (kv.toBin b64).drop HMAC_SIZE
      let plain := AES128.xorBytes (k.kdfPwd.keystream k.ctr cipher.length) cipher
      let plainLen := UInt64.ofNat (kv.toBin b64).length -
        UInt64.ofNat (HMAC_SIZE + CIPHER_TAG_SIZE)
      r = ⟨plain, plainLen,
        decide ((plain.drop plainLen.toNat).take CIPHER_TAG_SIZE = k.tag.1)⟩ := by
  rw [decrypt, Accepts]
  dsimp only
  by_cases hbin : k.maxCipherLen < kv.binSize b64.length
  · rw [if_pos hbin]
    exact ⟨fun h => (Option.some_ne_none r h.symm).elim,
      fun h => absurd h.1.1 (Nat.not_le_of_lt hbin)⟩
  · rw [if_neg hbin, and_iff_right (Nat.not_lt.1 hbin)]
    by_cases hlen : (kv.toBin b64).length < HMAC_SIZE ∨ k.maxCipherLen < (kv.toBin b64).length
    · rw [if_pos hlen]
      refine ⟨fun h => (Option.some_ne_none r h.symm).elim, fun h => ?_⟩
      rcases hlen with hlt | hlt
      · exact absurd h.1.1 (Nat.not_le_of_lt hlt)
      · exact absurd h.1.2.1 (Nat.not_le_of_lt hlt)
    · obtain ⟨hmin, hmax⟩ := not_or.1 hlen
      rw [if_neg hlen, and_iff_right (Nat.not_lt.1 hmin), and_iff_right (Nat.not_lt.1 hmax),
        HashDigest.decryptHmac]
      by_cases hmac : (kv.toBin b64).take HMAC_SIZE =
          k.kdfPwd.polyHmac ((kv.toBin b64).drop HMAC_SIZE)
      · rw [if_neg (not_not.2 hmac), and_iff_right hmac, HashDigest.xorBlocks_blocks]
        exact ⟨fun h => (Option.some.inj h).symm, fun h => congrArg some h.symm⟩
      · rw [if_pos hmac]
        exact ⟨fun h => (Option.some_ne_none r h.symm).elim, fun h => absurd h.1 hmac⟩

theorem encrypt_eq_some {plain out : List UInt8} {outSize : ℕ} :
    k.encrypt kv plain outSize = some out ↔ plain.length ≤ k.maxPlainLen ∧
      kv.size (plain.length + (HMAC_SIZE + CIPHER_TAG_SIZE)) ≤ outSize ∧
      kv.ofBin (k.kdfPwd.encryptHmac (plain ++ k.tag.1) k.ctr) = out := by
  simp only [encrypt, Nat.add_lt_add_iff_right]
  split
  · next hlen =>
      exact ⟨fun h => (Option.some_ne_none out h.symm).elim,
        fun h => absurd h.1 (Nat.not_le_of_lt hlen)⟩
  · next hlen =>
      rw [and_iff_right (Nat.not_lt.1 hlen)]
      split
      · next hsize =>
          exact ⟨fun h => (Option.some_ne_none out h.symm).elim,
            fun h => absurd h.1 (Nat.not_le_of_lt hsize)⟩
      · next hsize =>
          rw [and_iff_right (Nat.not_lt.1 hsize)]
          exact ⟨Option.some.inj, congrArg some⟩

theorem encryptHmac_eq (d : HashDigest) (ctr : UInt64) (data : List UInt8) :
    d.encryptHmac data ctr = d.polyHmac (AES128.xorBytes (d.keystream ctr data.length) data) ++
      AES128.xorBytes (d.keystream ctr data.length) data := by
  rw [HashDigest.encryptHmac, HashDigest.xorBlocks_blocks]

/-- What decipher gives is what was enciphered if the tag is in its place. -/
theorem encryptedAs_iff (h : k.decrypt kv b64 = some r) :
    k.EncryptedAs kv b64 r ↔ k.TagInPlace ((kv.toBin b64).drop HMAC_SIZE) := by
  obtain ⟨⟨-, hmin, hmax, hmac⟩, hr⟩ := decrypt_eq_some.1 h
  have htag : k.tag.1.length = CIPHER_TAG_SIZE := k.tag.2
  constructor
  · rintro ⟨plain, outSize, out, hencrypt, hbin, -, -⟩
    obtain ⟨-, -, rfl⟩ := encrypt_eq_some.1 hencrypt
    have hlen : (plain ++ k.tag.1).length = plain.length + CIPHER_TAG_SIZE := by
      rw [List.length_append, htag]
    have hcipher : (kv.toBin b64).drop HMAC_SIZE =
        AES128.xorBytes (k.kdfPwd.keystream k.ctr (plain ++ k.tag.1).length)
          (plain ++ k.tag.1) := by
      rw [hbin, kv.toBin_ofBin, encryptHmac_eq]
      exact List.drop_left' (k.kdfPwd.length_polyHmac _)
    have hcipherLen := k.kdfPwd.length_xorBytes_keystream k.ctr (plain ++ k.tag.1)
    have hoff : (plain ++ k.tag.1).length - CIPHER_TAG_SIZE = plain.length := by
      rw [hlen, Nat.add_sub_cancel]
    rw [TagInPlace, hcipher, hcipherLen, hoff]
    refine ⟨by rw [hlen]; exact Nat.le_add_left _ _, ?_⟩
    have hdrop : (plain ++ k.tag.1).drop plain.length = k.tag.1 := List.drop_left
    rw [AES128.xorBytes, List.drop_zipWith, hdrop, AES128.xorBytes]
  · rintro ⟨hle, hend⟩
    set cipher := (kv.toBin b64).drop HMAC_SIZE with hcipher
    set ks := k.kdfPwd.keystream k.ctr cipher.length with hks
    have hlen : cipher.length = (kv.toBin b64).length - HMAC_SIZE := List.length_drop
    have hksLen : cipher.length ≤ ks.length := k.kdfPwd.length_keystream k.ctr cipher.length
    have hdata : (AES128.xorBytes ks cipher).length = cipher.length :=
      k.kdfPwd.length_xorBytes_keystream k.ctr cipher
    have hplainLen : cipher.length - CIPHER_TAG_SIZE + k.tag.1.length = cipher.length := by
      rw [htag, Nat.sub_add_cancel hle]
    have hplain : (AES128.xorBytes ks cipher).take (cipher.length - CIPHER_TAG_SIZE) ++ k.tag.1 =
        AES128.xorBytes ks cipher := by
      rw [← (HashDigest.drop_xorBytes_eq_iff hksLen hplainLen).2 hend, List.take_append_drop]
    have hbin : k.kdfPwd.encryptHmac (AES128.xorBytes ks cipher) k.ctr = kv.toBin b64 := by
      rw [encryptHmac_eq, hdata, ← hks, HashDigest.xorBytes_xorBytes hksLen, ← hmac,
        hcipher, List.take_append_drop]
    have hwrap : r.plainLen.toNat = cipher.length - CIPHER_TAG_SIZE := by
      have hlt := k.maxPlainLen_lt
      have hmax' : (kv.toBin b64).length ≤ k.maxPlainLen + (HMAC_SIZE + CIPHER_TAG_SIZE) := hmax
      have h20 : (UInt64.ofNat (HMAC_SIZE + CIPHER_TAG_SIZE)).toNat =
        HMAC_SIZE + CIPHER_TAG_SIZE := rfl
      have hL : (UInt64.ofNat (kv.toBin b64).length).toNat = (kv.toBin b64).length :=
        UInt64.toNat_ofNat_of_lt (Nat.lt_of_le_of_lt hmax' hlt)
      have hge : HMAC_SIZE + CIPHER_TAG_SIZE ≤ (kv.toBin b64).length := by omega
      rw [hr]
      dsimp only
      rw [UInt64.toNat_sub_of_le _ _ (by rw [UInt64.le_iff_toNat_le, h20, hL]; exact hge), h20, hL]
      omega
    have htakeLen : ((AES128.xorBytes ks cipher).take (cipher.length - CIPHER_TAG_SIZE)).length =
        cipher.length - CIPHER_TAG_SIZE := by
      rw [List.length_take, hdata]
      exact Nat.min_eq_left (Nat.sub_le _ _)
    refine ⟨_, _, _, encrypt_eq_some.2 ⟨?_, Nat.le_refl _, rfl⟩, ?_, hwrap.trans htakeLen.symm, ?_⟩
    · have hmax' : (kv.toBin b64).length ≤ k.maxPlainLen + (HMAC_SIZE + CIPHER_TAG_SIZE) := hmax
      rw [htakeLen]
      omega
    · rw [hplain, kv.toBin_ofBin, hbin]
    · rw [hwrap, hr]

/-- `decrypt` **returns what was enciphered at the same position with the same tag** exactly
when what it accepts has the tag in its place. -/
theorem decrypt_encryptedAs_iff (k : HmacKdf) (kv : Base64Kv) (b64 : List UInt8) :
    (∀ r, k.decrypt kv b64 = some r → k.EncryptedAs kv b64 r) ↔
      (k.Accepts kv b64 → k.TagInPlace ((kv.toBin b64).drop HMAC_SIZE)) := by
  constructor
  · intro h haccepts
    have hdecrypt := decrypt_eq_some.2 ⟨haccepts, rfl⟩
    exact (encryptedAs_iff hdecrypt).1 (h _ hdecrypt)
  · intro h r hdecrypt
    exact (encryptedAs_iff hdecrypt).2 (h (decrypt_eq_some.1 hdecrypt).1)

instance (cipher : List UInt8) : Decidable (k.TagInPlace cipher) :=
  inferInstanceAs (Decidable (_ ∧ _))

theorem length_zeroHmac (_ : List UInt8) :
    (List.replicate HMAC_SIZE (0 : UInt8)).length = HMAC_SIZE :=
  List.length_replicate

/-- Rounds that turn the block and add the key, and an HMAC that is zero. -/
def turnDigest : HashDigest where
  aes := ⟨fun x k => x.rotateLeft 8 ^^^ k, fun x k => x.rotateLeft 8 ^^^ k, BitVec.ofNat 128⟩
  iv := (0, 0)
  polyHmac _ := List.replicate HMAC_SIZE (0 : UInt8)
  length_polyHmac := length_zeroHmac

/-- The private key of a service. -/
def priKey : HmacKdf where
  kdfPwd := turnDigest
  ctr := UInt64.ofNat (aesCtrOff DSA_KEY_LEN)
  tag := ⟨dsaTag, rfl⟩
  maxPlainLen := DSA_KEY_LEN
  maxPlainLen_lt := by decide

/-- A public key that is read as the private key is not refused. -/
theorem moved_key_accepted :
    ¬ ∀ (k : HmacKdf) (kv : Base64Kv) (b64 : List UInt8) (r : Deciphered),
      k.decrypt kv b64 = some r → k.EncryptedAs kv b64 r := by
  intro h
  let cipher := priKey.kdfPwd.encryptHmac (List.replicate DSA_KEY_LEN 0 ++ dsaTag) 0
  have hbin : Base64Kv.noPadding.toBin (Base64.encode cipher) = cipher :=
    Base64.decode_encode cipher
  have hlen : cipher.length = DSA_CIPHER_KEY_LEN := by decide
  have haccepts : priKey.Accepts Base64Kv.noPadding (Base64.encode cipher) := by
    rw [Accepts, hbin, Base64.length_encode, hlen]
    exact ⟨by decide, by decide, by decide, by decide⟩
  have hdecrypt := decrypt_eq_some.2 ⟨haccepts, rfl⟩
  have htag := (encryptedAs_iff hdecrypt).1 (h priKey Base64Kv.noPadding _ _ hdecrypt)
  rw [hbin] at htag
  exact absurd htag (by decide)

end HmacKdf

end Raims
