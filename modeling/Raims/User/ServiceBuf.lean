import Mathlib.Data.List.Sort
import Mathlib.Algebra.Ring.Nat

/-!
# Services, users and their signatures (`user.cpp`)

A service has a key pair and a list of users, each with a key pair of its own. The
service signs what identifies a user and, if the user is revoked, the revocation.
Keys and signatures are kept enciphered with the password: in counter mode, at a
position that `ctr` gives, with an HMAC of the cipher in front.

The cryptography is symbolic. Keys that are derived from different data differ, a
cipher opens with the key it was made with, a signature verifies for the key and
the digest it was made for, and what is deciphered at another position than it was
enciphered at is neither.
-/

namespace Raims

/-- The bytes of a name or a time. -/
abbrev Str := List UInt8

/-- `kdf_user_pwd` and `kdf_svc_pwd`. -/
inductive Kdf where
  | user (user service create expires pwd : Str)
  | svc (service create pwd : Str)
deriving DecidableEq

/-- `user_hmac` and `revoke_hmac`, keyed with the public key of the user. -/
inductive UserDigest where
  | user (pubKey : ℕ) (user service create expires : Str)
  | revoke (pubKey : ℕ) (user service create expires revoke : Str)
  /-- a digest keyed with something that is not a public key -/
  | other
deriving DecidableEq

/-- What is enciphered. A key pair has a number. -/
inductive Secret where
  | pk (key : ℕ)
  | sk (key : ℕ)
  | sig (key : ℕ) (digest : UserDigest)
  /-- a signature with something that is not a secret key -/
  | badSig
  /-- enciphered at one position and deciphered at another -/
  | garbled (secret : Secret) (ctr ctr' : ℕ)
deriving DecidableEq

/-- `hmac( kdf, aes( kdf, plain ) ) + aes( kdf, plain )`, from position `ctr` on. -/
structure HmacCipher where
  kdf : Kdf
  ctr : ℕ
  plain : Secret
deriving DecidableEq

/-- `HmacDecrypt::decrypt`; the empty text is too short. -/
def hmacDecrypt (kdf : Kdf) (ctr : ℕ) : Option HmacCipher → Option Secret
  | none => none
  | some c =>
    if c.kdf = kdf then
      some (if c.ctr = ctr then c.plain else .garbled c.plain c.ctr ctr)
    else none

/-- `HmacEncrypt::encrypt`. -/
def hmacEncrypt (kdf : Kdf) (ctr : ℕ) (plain : Secret) : Option HmacCipher :=
  some ⟨kdf, ctr, plain⟩

def HMAC_SIZE : ℕ := 16
def CIPHER_TAG_SIZE : ℕ := 4
def DSA_KEY_LEN : ℕ := 32
def DSA_SIGN_LEN : ℕ := 64
def DSA_CIPHER_KEY_LEN : ℕ := DSA_KEY_LEN + HMAC_SIZE + CIPHER_TAG_SIZE

def aesCtrOff (len : ℕ) : ℕ := (len + 15) / 16

/-- `DSA`. -/
structure DSA where
  pk : Secret
  sk : Secret

def DSA.genKey (key : ℕ) : DSA := ⟨.pk key, .sk key⟩

def DSA.sign (dsa : DSA) (digest : UserDigest) : Secret :=
  match dsa.sk with
  | .sk key => .sig key digest
  | _ => .badSig

def DSA.verify (pk : Secret) (digest : UserDigest) (sig : Secret) : Bool :=
  match pk with
  | .pk key => sig = .sig key digest
  | _ => false

/-! ## Users -/

/-- `UserBuf`. No text for a key that is not there. -/
structure UserBuf where
  user : Str
  service : Str
  create : Str
  expires : Str
  revoke : Str
  pri : Option HmacCipher
  pub : Option HmacCipher

namespace UserBuf

variable (u : UserBuf)

def kdf (pwd : Str) : Kdf := .user u.user u.service u.create u.expires pwd

/-- `put_dsa`, of the public key and, if there is one, of the private key. -/
def putDsa (pwd : Str) (dsa : DSA) (hasPri : Bool) : UserBuf :=
  let u' := { u with pub := hmacEncrypt (u.kdf pwd) 0 dsa.pk }
  if hasPri then
    { u' with pri := hmacEncrypt (u.kdf pwd) (aesCtrOff DSA_CIPHER_KEY_LEN) dsa.sk }
  else u'

/-- `get_dsa( DO_PUB )`. -/
def getPub (pwd : Str) : Option Secret := hmacDecrypt (u.kdf pwd) 0 u.pub

/-- `get_dsa( DO_PRI )`. -/
def getPri (pwd : Str) : Option Secret :=
  hmacDecrypt (u.kdf pwd) (0 + aesCtrOff DSA_CIPHER_KEY_LEN) u.pri

/-- `gen_key`; the time and the key pair are new. -/
def genKey (create : Str) (key : ℕ) (pwd : Str) : UserBuf :=
  { u with create := create }.putDsa pwd (DSA.genKey key) true

/-- `change_pass`. -/
def changePass (oldPwd newPwd : Str) : Option UserBuf := do
  let pk ← u.getPub oldPwd
  if u.pri.isSome then
    let sk ← u.getPri oldPwd
    return u.putDsa newPwd ⟨pk, sk⟩ true
  else return u.putDsa newPwd ⟨pk, .badSig⟩ false

/-- `user_hmac` of `UserHmacData`. -/
def userHmac : Secret → UserDigest
  | .pk key => .user key u.user u.service u.create u.expires
  | _ => .other

/-- `revoke_hmac` of `UserHmacData`. -/
def revokeHmac : Secret → UserDigest
  | .pk key => .revoke key u.user u.service u.create u.expires u.revoke
  | _ => .other

end UserBuf

/-- `UserElem`. The signature of the revocation is that of its `RevokeElem`. -/
structure UserElem where
  user : UserBuf
  sig : Option HmacCipher
  revoke : Option (Option HmacCipher)

/-- `UserElem( u )`, and a `RevokeElem` if the user is revoked. -/
def UserElem.new (u : UserBuf) : UserElem :=
  ⟨u, none, if u.revoke.length ≠ 0 then some none else none⟩

/-! ## The order of users -/

/-- `cmp_bytes`. -/
def cmpBytes : Str → Str → Ordering
  | [], [] => .eq
  | [], _ :: _ => .lt
  | _ :: _, [] => .gt
  | x :: s, y :: t => if x < y then .lt else if y < x then .gt else cmpBytes s t

/-- `cmp_user_create`. -/
def cmpUserCreate (x y : UserBuf) : Ordering :=
  (cmpBytes x.user y.user).then (cmpBytes x.create y.create)

/-- A sort of a list by `cmp_user_create`, in whatever order it leaves equal ones. -/
structure UserSort where
  sort : List UserElem → List UserElem
  perm : ∀ l, (sort l).Perm l
  sorted : ∀ l, (sort l).Pairwise fun x y => cmpUserCreate x.user y.user ≠ .gt

/-! ## Services -/

/-- `ServiceBuf`. The list `revoke` is that of the users with a `RevokeElem`; it is
sorted when the users are, and the same way. -/
structure ServiceBuf where
  service : Str
  create : Str
  pri : Option HmacCipher
  pub : Option HmacCipher
  users : List UserElem

namespace ServiceBuf

variable (s : ServiceBuf)

def kdf (pwd : Str) : Kdf := .svc s.service s.create pwd

def putDsa (pwd : Str) (dsa : DSA) (hasPri : Bool) : ServiceBuf :=
  let s' := { s with pub := hmacEncrypt (s.kdf pwd) 0 dsa.pk }
  if hasPri then { s' with pri := hmacEncrypt (s.kdf pwd) (aesCtrOff DSA_KEY_LEN) dsa.sk }
  else s'

def getPub (pwd : Str) : Option Secret := hmacDecrypt (s.kdf pwd) 0 s.pub

def getPri (pwd : Str) : Option Secret := hmacDecrypt (s.kdf pwd) (0 + aesCtrOff DSA_KEY_LEN) s.pri

/-- Where the signatures start. -/
def sigCtr : ℕ := aesCtrOff DSA_KEY_LEN + aesCtrOff DSA_KEY_LEN

/-- The loop of `sign_users` that signs, from position `ctr` on. -/
def signLoop (kdf : Kdf) (pwd : Str) (dsa : DSA) : ℕ → List UserElem → Option (List UserElem)
  | _, [] => some []
  | ctr, u :: us => do
      let pk ← u.user.getPub pwd
      let sig := hmacEncrypt kdf ctr (dsa.sign (u.user.userHmac pk))
      let ctr := ctr + aesCtrOff DSA_SIGN_LEN
      let revoke := u.revoke.map fun _ => hmacEncrypt kdf ctr (dsa.sign (u.user.revokeHmac pk))
      let ctr := if u.revoke.isSome then ctr + aesCtrOff DSA_SIGN_LEN else ctr
      let us ← signLoop kdf pwd dsa ctr us
      return ⟨u.user, sig, revoke⟩ :: us

/-- The loop of `sign_users` that makes the keys that are missing; `fresh` has the time
and the key pair for each. -/
def genKeys (fresh : UserBuf → Str × ℕ) (pwd : Str) (us : List UserElem) : List UserElem :=
  us.map fun u =>
    if u.user.pub.isNone then
      { u with user := u.user.genKey (fresh u.user).1 (fresh u.user).2 pwd }
    else u

/-- `sign_users`, with the key pair of the service. -/
def signUsers (kv : UserSort) (fresh : UserBuf → Str × ℕ) (pwd : Str) : Option ServiceBuf := do
  let pk ← s.getPub pwd
  let sk ← s.getPri pwd
  let users := genKeys fresh pwd (kv.sort s.users)
  let users ← signLoop (s.kdf pwd) pwd ⟨pk, sk⟩ sigCtr users
  return { s with users := users }

/-- The loop of `check_signatures`. -/
def checkLoop (kdf : Kdf) (pwd : Str) (svcPk : Secret) : ℕ → List UserElem → Bool
  | _, [] => true
  | ctr, u :: us =>
    match u.user.getPub pwd, hmacDecrypt kdf ctr u.sig with
    | some pk, some sig =>
      if DSA.verify svcPk (u.user.userHmac pk) sig then
        let ctr := ctr + aesCtrOff DSA_SIGN_LEN
        match u.revoke with
        | none => checkLoop kdf pwd svcPk ctr us
        | some r =>
          match hmacDecrypt kdf ctr r with
          | some rsig =>
            if DSA.verify svcPk (u.user.revokeHmac pk) rsig then
              checkLoop kdf pwd svcPk (ctr + aesCtrOff DSA_SIGN_LEN) us
            else false
          | none => false
      else false
    | _, _ => false

def checkSignatures (pwd : Str) : Bool :=
  match s.getPub pwd with
  | some pk => checkLoop (s.kdf pwd) pwd pk sigCtr s.users
  | none => false

/-- The part of `change_pass` for a `RevokeElem`, and the position after it. -/
def changeRevoke (oldKdf newKdf : Kdf) (ctr : ℕ) :
    Option (Option HmacCipher) → Option (Option (Option HmacCipher) × ℕ)
  | none => some (none, ctr)
  | some r => (hmacDecrypt oldKdf ctr r).map fun plain =>
    (some (hmacEncrypt newKdf ctr plain), ctr + aesCtrOff DSA_SIGN_LEN)

/-- The loop of `change_pass`. -/
def changeLoop (oldKdf newKdf : Kdf) (oldPwd newPwd : Str) :
    ℕ → List UserElem → Option (List UserElem)
  | _, [] => some []
  | ctr, u :: us => do
      let plain ← hmacDecrypt oldKdf ctr u.sig
      let sig := hmacEncrypt newKdf ctr plain
      let (revoke, ctr) ← changeRevoke oldKdf newKdf (ctr + aesCtrOff DSA_SIGN_LEN) u.revoke
      let user ← u.user.changePass oldPwd newPwd
      let us ← changeLoop oldKdf newKdf oldPwd newPwd ctr us
      return ⟨user, sig, revoke⟩ :: us

def changePass (oldPwd newPwd : Str) : Option ServiceBuf := do
  let pk ← s.getPub oldPwd
  let sk ← if s.pri.isSome then s.getPri oldPwd else some .badSig
  let users ← changeLoop (s.kdf oldPwd) (s.kdf newPwd) oldPwd newPwd sigCtr s.users
  return { s with users := users }.putDsa newPwd ⟨pk, sk⟩ s.pri.isSome

/-! ### The configuration -/

/-- `ConfigTree::User`. -/
structure ConfigUser where
  isTemp : Bool
  user : UserBuf

/-- `ConfigTree::Service`: the signatures are kept by the name of the user. -/
structure ConfigService where
  svc : Str
  create : Str
  pri : Option HmacCipher
  pub : Option HmacCipher
  users : List (Str × Option HmacCipher)
  revoke : List (Str × Option HmacCipher)

/-- `print_yaml`: what is written of a service. -/
def toConfig : ConfigService where
  svc := s.service
  create := s.create
  pri := s.pri
  pub := s.pub
  users := s.users.map fun u => (u.user.user, u.sig)
  revoke := s.users.filterMap fun u => u.revoke.map fun r => (u.user.user, r)

/-- The first user for which `p` holds, changed. -/
def updateFirst (p : UserElem → Bool) (f : UserElem → UserElem) : List UserElem → List UserElem
  | [] => []
  | u :: us => if p u then f u :: us else u :: updateFirst p f us

/-- A pair of `users`: the signature is for the user that `UserList::find` finds. -/
def loadSig (us : List UserElem) (p : Str × Option HmacCipher) : List UserElem :=
  updateFirst (fun u => u.user.user = p.1) (fun u => { u with sig := p.2 }) us

/-- A pair of `revoke`, for the one that `RevokeList::find` finds. -/
def loadRevoke (us : List UserElem) (p : Str × Option HmacCipher) : List UserElem :=
  updateFirst (fun u => u.revoke.isSome ∧ u.user.user = p.1)
    (fun u => { u with revoke := some p.2 }) us

/-- `load_service`. -/
def loadService (kv : UserSort) (tree : List ConfigUser) (c : ConfigService) : ServiceBuf :=
  let users := (tree.filter fun u => !u.isTemp ∧ u.user.service = c.svc).map
    fun u => UserElem.new u.user
  let users :=
    if users.length = 0 then users
    else c.revoke.foldl loadRevoke (c.users.foldl loadSig (kv.sort users))
  ⟨c.svc, c.create, c.pri, c.pub, users⟩

end ServiceBuf

/-! ## What the code keeps -/

/-- Keys as `put_dsa` writes them: of one pair, with one password. -/
def PutKeys (kdf : Str → Kdf) (off : ℕ) (pub pri : Option HmacCipher) : Prop :=
  ∃ pwd key, (pub = none ∨ pub = some ⟨kdf pwd, 0, .pk key⟩) ∧
    (pri = none ∨ pri = some ⟨kdf pwd, off, .sk key⟩)

/-- A service whose keys, and those of its users, were put by `put_dsa`, whose users are
of the service, and have a `RevokeElem` if they are revoked. -/
structure Service extends ServiceBuf where
  keys : PutKeys (ServiceBuf.kdf toServiceBuf) (aesCtrOff DSA_KEY_LEN) pub pri
  userKeys : ∀ u ∈ users,
    PutKeys u.user.kdf (aesCtrOff DSA_CIPHER_KEY_LEN) u.user.pub u.user.pri
  ofService : ∀ u ∈ users, u.user.service = service
  revoked : ∀ u ∈ users, u.revoke.isSome = decide (u.user.revoke.length ≠ 0)

end Raims
