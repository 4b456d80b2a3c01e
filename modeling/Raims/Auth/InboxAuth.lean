import Mathlib.Data.List.Basic
import Mathlib.Order.Lattice
import Mathlib.Tactic.MkIffOfInductiveProp

/-!
# The auth message of the inbox (`auth.cpp`)

A peer is authenticated by a challenge: the session key of the sender, encrypted with
what both sides can derive, comes in the message that it is to verify. The fields of
the peer are written as the message is read, before it is verified.
-/

namespace Raims

/-! ## The model -/

namespace AuthStage

def fromHello : ℕ := 1
def fromHandshake : ℕ := 2
def trust : ℕ := 3

end AuthStage

/-- `StageAuth`. -/
structure StageAuth (ν : Type) where
  time : ℕ
  seqno : ℕ
  cnonce : ν
deriving DecidableEq

/-- The fields that `test_4` wants in a challenge. -/
structure AuthFields (ν π : Type) where
  cnonce : ν
  authTime : ℕ
  authSeqno : ℕ
  pubkey : π
deriving DecidableEq

/-- A `U_INBOX_AUTH` message that is decoded, without its signature. -/
structure AuthContent (ν κ π : Type) where
  seqno : ℕ
  time : ℕ
  stage : Option ℕ
  /-- none if one of the fields is missing -/
  fields : Option (AuthFields ν π)
  /-- `FID_AUTH_KEY` -/
  authKey : Option κ
  start : Option ℕ
deriving DecidableEq

/-- A `U_INBOX_AUTH` message, with its digest and its signature. -/
structure AuthMsg (ν κ π β : Type) extends AuthContent ν κ π where
  body : β

/-- The nonces (`ν`), digests (`κ`), public keys (`π`), secrets (`σ`), DSA keys (`δ`) and
signatures (`β`) of the cryptography, and its functions. -/
structure AuthCrypt (ν κ π σ δ β : Type) where
  zeroNonce : ν
  /-- what is read for the key of a message that has none -/
  unreadKey : κ
  /-- `calc_secret_hmac`: my private and hello key, the public and hello key of the peer -/
  calcSecretHmac : π → κ → π → κ → σ
  /-- `kdf_challenge_secret`: the nonces of the one challenged and of the challenger, the
  two `cnonce`, the seqno and the time, the stage -/
  kdfChallengeSecret : σ → ν → ν → ν → ν → ℕ → ℕ → ℕ → κ
  encryptHash : κ → κ → κ
  decryptHash : κ → κ → κ
  /-- `sign_dsa` and `sign`: with my session key, my hello key and a DSA key -/
  sign : κ → κ → δ → AuthContent ν κ π → β
  verifySig : κ → δ → AuthContent ν κ π → β → Bool
  verify : κ → AuthContent ν κ π → β → Bool

/-- `UserDB`, as far as it authenticates. -/
structure AuthDB (ν κ π δ : Type) where
  /-- `bridge_id.nonce` -/
  nonce : ν
  sessionKey : κ
  helloKey : κ
  /-- `hb_keypair` -/
  pri : π
  pub : π
  /-- the key that this node signs with -/
  dsa : δ
  svcDsa : δ
  startTime : ℕ

/-- The heartbeats of a transport: the last one and those before it. -/
structure HbHistory (ν : Type) where
  hb : StageAuth ν
  /-- `rte.auth` -/
  auth : List (StageAuth ν)

/-- `UserBridge`, as far as it is authenticated. -/
structure AuthBridge (ν κ π δ : Type) where
  /-- `bridge_id.nonce` -/
  nonce : ν
  peerKey : κ
  peerHello : κ
  /-- `peer.dsa` -/
  dsa : δ
  hbPubkey : π
  /-- `hb_time`, `hb_seqno` and `hb_cnonce` -/
  hb : StageAuth ν
  auth0 : StageAuth ν
  auth1 : StageAuth ν
  /-- `inbox_recv` of `U_INBOX_AUTH` -/
  recvSeqno : ℕ
  /-- `inbox` of `U_INBOX_AUTH`, what was sent -/
  sendSeqno : ℕ
  challengeCount : ℕ
  authenticated : Bool
  challengeState : Bool
  /-- `ZOMBIE_STATE` with a last auth type of `BYE_BYE` -/
  byeBye : Bool

variable {ν κ π σ δ β : Type}

namespace StageAuth

/-- `copy_from_hb`, and whether there is such a heartbeat. -/
def copyFromHb (zero : ν) (f : AuthFields ν π) (rte : HbHistory ν) : StageAuth ν × Bool :=
  if rte.hb.time = f.authTime ∧ rte.hb.seqno = f.authSeqno then
    (⟨f.authTime, f.authSeqno, rte.hb.cnonce⟩, true)
  else
    match (rte.auth.takeWhile fun a => a.time ≠ 0).find? fun a =>
        a.time = f.authTime ∧ a.seqno = f.authSeqno with
    | some a => (⟨f.authTime, f.authSeqno, a.cnonce⟩, true)
    | none => (⟨f.authTime, f.authSeqno, zero⟩, false)

/-- `copy_from_auth`. -/
def copyFromAuth (f : AuthFields ν π) (auth : StageAuth ν) : Option (StageAuth ν) :=
  if auth.time = f.authTime ∧ auth.seqno = f.authSeqno then
    some ⟨f.authTime, f.authSeqno, auth.cnonce⟩
  else none

end StageAuth

namespace AuthBridge

variable (c : AuthCrypt ν κ π σ δ β) (db : AuthDB ν κ π δ) (rte : HbHistory ν)
  (n : AuthBridge ν κ π δ) (m : AuthMsg ν κ π β)

/-- What `send_challenge` says. -/
def challengeContent (stage : ℕ) : AuthContent ν κ π where
  seqno := n.auth1.seqno
  time := n.auth1.time
  stage := some stage
  fields := some ⟨n.auth1.cnonce, n.auth0.time, n.auth0.seqno, db.pub⟩
  authKey := some (c.encryptHash
    (c.kdfChallengeSecret (c.calcSecretHmac db.pri db.helloKey n.hbPubkey n.peerHello)
      n.nonce db.nonce n.auth0.cnonce n.auth1.cnonce n.auth0.seqno n.auth0.time stage)
    db.sessionKey)
  start := some db.startTime

/-- `send_challenge`: the message. -/
def sendChallenge (stage : ℕ) : AuthMsg ν κ π β where
  toAuthContent := n.challengeContent c db stage
  body := c.sign db.sessionKey db.helloKey db.dsa (n.challengeContent c db stage)

/-- One of the two keys verifies the signature. -/
def sigOk : Bool :=
  c.verifySig n.peerHello db.svcDsa m.toAuthContent m.body ||
    c.verifySig n.peerHello n.dsa m.toAuthContent m.body

/-- The key that a challenge carries, with `auth[ 0 ]` of the peer. -/
def carriedKey (f : AuthFields ν π) (auth0 : StageAuth ν) (stage : ℕ) : κ :=
  c.decryptHash
    (c.kdfChallengeSecret (c.calcSecretHmac db.pri db.helloKey f.pubkey n.peerHello)
      db.nonce n.nonce auth0.cnonce f.cnonce auth0.seqno auth0.time stage)
    (m.authKey.getD c.unreadKey)

/-- `recv_challenge`. -/
def recvChallenge (f : AuthFields ν π) (stage : ℕ) : AuthBridge ν κ π δ × Bool :=
  let key := n.carriedKey c db m f n.auth0 stage
  let n := { n with hbPubkey := f.pubkey }
  if n.sigOk c db m = false then ({ n with peerKey := key }, false)
  -- here the key that was saved is put back
  else if c.verify key m.toAuthContent m.body = false then (n, false)
  else ({ n with peerKey := key }, true)

/-- `auth[ 1 ].construct` with the next number. -/
def nextAuth (now : ℕ) (cnonce : ν) : AuthBridge ν κ π δ :=
  { n with auth1 := ⟨now, n.sendSeqno + 1, cnonce⟩, sendSeqno := n.sendSeqno + 1 }

/-- `add_authenticated`, from a challenge. -/
def addAuthenticated : AuthBridge ν κ π δ :=
  if n.byeBye then n else { n with authenticated := true, byeBye := false }

/-- A handshake that is no reply to a challenge of this node starts over. -/
def retries : Bool := (m.start.any fun start => db.startTime < start) && n.challengeCount < 5

/-- The part of `on_inbox_auth` after `recv_challenge` did verify the message. -/
def challenged (f : AuthFields ν π) (stage now : ℕ) (cnonce : ν) :
    AuthBridge ν κ π δ × Option (AuthMsg ν κ π β) :=
  let n := if n.authenticated then n else n.addAuthenticated
  let n := { n with auth0 := ⟨m.time, m.seqno, f.cnonce⟩ }.nextAuth now cnonce
  if stage = AuthStage.fromHello then
    (if n.challengeState then n
      else { n with challengeState := true, challengeCount := n.challengeCount + 1 },
      some (n.sendChallenge c db AuthStage.fromHandshake))
  else (n, none)

/-- `recv_challenge` for the bridge whose `auth[ 0 ]` is set, and what follows. -/
def challenge (f : AuthFields ν π) (stage now : ℕ) (cnonce : ν) :
    AuthBridge ν κ π δ × Option (AuthMsg ν κ π β) :=
  let r := n.recvChallenge c db m f stage
  if r.2 then r.1.challenged c db m f stage now cnonce else (r.1, none)

/-- `on_inbox_auth`: the bridge and the challenge that is sent. A trust message changes
nothing of the bridge here. -/
def onInboxAuth (now : ℕ) (cnonce : ν) : AuthBridge ν κ π δ × Option (AuthMsg ν κ π β) :=
  match m.stage, m.fields with
  | some 1, some f =>
    let r := StageAuth.copyFromHb c.zeroNonce f rte
    let n := { n with auth0 := r.1 }
    if r.2 then n.challenge c db m f AuthStage.fromHello now cnonce else (n, none)
  | some 2, some f =>
    match StageAuth.copyFromAuth f n.auth1 with
    | some auth0 => { n with auth0 := auth0 }.challenge c db m f AuthStage.fromHandshake now cnonce
    | none =>
      if n.retries db m then
        let n := { n with auth0 := n.hb }.nextAuth now cnonce
        ({ n with challengeCount := n.challengeCount + 1 },
          some (n.sendChallenge c db AuthStage.fromHello))
      else (n, none)
  | _, _ => (n, none)

/-- `on_msg` for an auth message: the window is moved first. -/
def onMsg (now : ℕ) (cnonce : ν) : AuthBridge ν κ π δ × Option (AuthMsg ν κ π β) :=
  { n with recvSeqno := max n.recvSeqno m.seqno }.onInboxAuth c db rte m now cnonce

/-! ## Messages that do not verify -/

/-- `auth[ 0 ]` with which a challenge is verified, and its stage. -/
def found : Option (AuthFields ν π × StageAuth ν × ℕ) :=
  match m.stage, m.fields with
  | some 1, some f =>
    let r := StageAuth.copyFromHb c.zeroNonce f rte
    if r.2 then some (f, r.1, AuthStage.fromHello) else none
  | some 2, some f =>
    (StageAuth.copyFromAuth f n.auth1).map fun auth0 => (f, auth0, AuthStage.fromHandshake)
  | _, _ => none

/-- The signature of the message and its mac verify. -/
def verified : Bool :=
  (n.found c rte m).any fun x =>
    n.sigOk c db m && c.verify (n.carriedKey c db m x.1 x.2.1 x.2.2) m.toAuthContent m.body

/-- The fields of the bridge that a message which does not verify must not touch. -/
@[mk_iff]
structure Kept (n n' : AuthBridge ν κ π δ) : Prop where
  peerKey : n'.peerKey = n.peerKey
  hbPubkey : n'.hbPubkey = n.hbPubkey
  auth0 : n'.auth0.time = n.auth0.time ∧ n'.auth0.seqno = n.auth0.seqno
  auth1 : n'.auth1.time = n.auth1.time ∧ n'.auth1.seqno = n.auth1.seqno
  recvSeqno : n'.recvSeqno = n.recvSeqno
  authenticated : n'.authenticated = n.authenticated

/-- The bridge has the public key of the message, and the key that it carries unless the
signature is right: then the old key is put back. -/
def HasKeys (f : AuthFields ν π) (auth0 : StageAuth ν) (stage : ℕ) : Prop :=
  n.hbPubkey = f.pubkey ∧
    (n.sigOk c db m = false → n.peerKey = n.carriedKey c db m f auth0 stage)

/-- All that the message writes is there already. -/
def Harmless (now : ℕ) : Prop :=
  m.seqno ≤ n.recvSeqno ∧
    match m.stage, m.fields with
    | some 1, some f =>
      (n.auth0.time = f.authTime ∧ n.auth0.seqno = f.authSeqno) ∧
        ∀ x ∈ n.found c rte m, n.HasKeys c db m f x.2.1 x.2.2
    | some 2, some f =>
      (∀ x ∈ n.found c rte m, (n.auth0.time = f.authTime ∧ n.auth0.seqno = f.authSeqno) ∧
        n.HasKeys c db m f x.2.1 x.2.2) ∧
      (n.found c rte m = none → n.retries db m = true →
        (n.auth0.time = n.hb.time ∧ n.auth0.seqno = n.hb.seqno) ∧
          n.auth1.time = now ∧ n.auth1.seqno = n.sendSeqno + 1)
    | _, _ => True

section

variable {c db rte n m}

/-- `recv_challenge` that does not verify: the public key is written, and the key if the
signature is wrong. -/
theorem recvChallenge_rejected (f : AuthFields ν π) (stage : ℕ)
    (h : (n.sigOk c db m && c.verify (n.carriedKey c db m f n.auth0 stage)
      m.toAuthContent m.body) = false) :
    n.recvChallenge c db m f stage =
      ({ n with
          hbPubkey := f.pubkey
          peerKey := if n.sigOk c db m = false then n.carriedKey c db m f n.auth0 stage
            else n.peerKey }, false) := by
  have hsig : ({ n with hbPubkey := f.pubkey } : AuthBridge ν κ π δ).sigOk c db m =
      n.sigOk c db m := rfl
  simp only [recvChallenge, hsig]
  by_cases hok : n.sigOk c db m = false
  · rw [if_pos hok, if_pos hok]
  · rw [if_neg hok, if_neg hok]
    rw [Bool.not_eq_false] at hok
    rw [hok, Bool.true_and] at h
    rw [if_pos h]

/-- A challenge that does not verify. -/
theorem kept_challenge {f : AuthFields ν π} {auth0 : StageAuth ν} {stage now : ℕ} {cnonce : ν}
    (h : (n.sigOk c db m && c.verify (n.carriedKey c db m f auth0 stage)
      m.toAuthContent m.body) = false) :
    n.Kept ({ n with recvSeqno := max n.recvSeqno m.seqno, auth0 := auth0 }.challenge
        c db m f stage now cnonce).1 ↔
      m.seqno ≤ n.recvSeqno ∧ (n.auth0.time = auth0.time ∧ n.auth0.seqno = auth0.seqno) ∧
        n.HasKeys c db m f auth0 stage := by
  have hrec := recvChallenge_rejected f stage
    (n := { n with recvSeqno := max n.recvSeqno m.seqno, auth0 := auth0 }) h
  have hsig : ({ n with recvSeqno := max n.recvSeqno m.seqno, auth0 := auth0 } :
      AuthBridge ν κ π δ).sigOk c db m = n.sigOk c db m := rfl
  have hkey : ({ n with recvSeqno := max n.recvSeqno m.seqno, auth0 := auth0 } :
      AuthBridge ν κ π δ).carriedKey c db m f auth0 stage = n.carriedKey c db m f auth0 stage := rfl
  simp only [challenge, hrec, Bool.false_eq_true, if_false]
  rw [kept_iff]
  simp only [hsig, hkey, HasKeys, and_self, true_and, and_true, sup_eq_left]
  constructor
  · rintro ⟨hpeer, hpub, ⟨htime, hseqno⟩, hrecv⟩
    refine ⟨hrecv, ⟨htime.symm, hseqno.symm⟩, hpub.symm, fun hsig => ?_⟩
    rw [if_pos hsig] at hpeer
    exact hpeer.symm
  · rintro ⟨hrecv, ⟨htime, hseqno⟩, hpub, hpeer⟩
    refine ⟨?_, hpub.symm, ⟨htime.symm, hseqno.symm⟩, hrecv⟩
    split
    · rename_i hsig
      exact (hpeer hsig).symm
    · rfl

theorem kept_hello {f : AuthFields ν π} (hstage : m.stage = some 1) (hfields : m.fields = some f)
    (h : n.verified c db rte m = false) (now : ℕ) (cnonce : ν) :
    n.Kept (n.onMsg c db rte m now cnonce).1 ↔ n.Harmless c db rte m now := by
  simp only [verified, found, hstage, hfields] at h
  simp only [onMsg, onInboxAuth, Harmless, found, hstage, hfields]
  have hauth : (StageAuth.copyFromHb c.zeroNonce f rte).1.time = f.authTime ∧
      (StageAuth.copyFromHb c.zeroNonce f rte).1.seqno = f.authSeqno := by
    rw [StageAuth.copyFromHb]
    split
    · exact ⟨rfl, rfl⟩
    · split
      · exact ⟨rfl, rfl⟩
      · exact ⟨rfl, rfl⟩
  cases hfound : (StageAuth.copyFromHb c.zeroNonce f rte).2 with
  | true =>
    simp only [hfound, if_true, Option.any_some] at h
    simp only [if_true, Option.mem_some, forall_eq']
    rw [kept_challenge h, hauth.1, hauth.2]
  | false =>
    simp only [Bool.false_eq_true, if_false, Option.mem_def, reduceCtorEq, false_implies,
      implies_true, and_true]
    rw [kept_iff]
    simp only [hauth.1, hauth.2, and_self, true_and, and_true, sup_eq_left]
    constructor
    · rintro ⟨⟨htime, hseqno⟩, hrecv⟩
      exact ⟨hrecv, htime.symm, hseqno.symm⟩
    · rintro ⟨hrecv, htime, hseqno⟩
      exact ⟨⟨htime.symm, hseqno.symm⟩, hrecv⟩

theorem kept_handshake {f : AuthFields ν π} (hstage : m.stage = some 2)
    (hfields : m.fields = some f) (h : n.verified c db rte m = false) (now : ℕ) (cnonce : ν) :
    n.Kept (n.onMsg c db rte m now cnonce).1 ↔ n.Harmless c db rte m now := by
  simp only [verified, found, hstage, hfields] at h
  simp only [onMsg, onInboxAuth, Harmless, found, hstage, hfields]
  cases hfound : StageAuth.copyFromAuth f n.auth1 with
  | some auth0 =>
    have hauth : auth0.time = f.authTime ∧ auth0.seqno = f.authSeqno := by
      rw [StageAuth.copyFromAuth] at hfound
      split at hfound
      · cases hfound
        exact ⟨rfl, rfl⟩
      · cases hfound
    simp only [hfound, Option.map_some, Option.any_some] at h
    simp only [Option.map_some, Option.mem_some, forall_eq', reduceCtorEq, false_implies,
      and_true]
    rw [kept_challenge h, hauth.1, hauth.2]
  | none =>
    have hretries : ({ n with recvSeqno := max n.recvSeqno m.seqno } :
        AuthBridge ν κ π δ).retries db m = n.retries db m := rfl
    simp only [Option.map_none, Option.mem_def, reduceCtorEq, false_implies, implies_true,
      true_and, forall_const, hretries]
    cases n.retries db m with
    | true =>
      simp only [if_true, forall_const]
      rw [kept_iff]
      simp only [nextAuth, true_and, and_true, sup_eq_left]
      constructor
      · rintro ⟨⟨htime, hseqno⟩, ⟨htime', hseqno'⟩, hrecv⟩
        exact ⟨hrecv, ⟨htime.symm, hseqno.symm⟩, htime'.symm, hseqno'.symm⟩
      · rintro ⟨hrecv, ⟨htime, hseqno⟩, htime', hseqno'⟩
        exact ⟨⟨htime.symm, hseqno.symm⟩, ⟨htime'.symm, hseqno'.symm⟩, hrecv⟩
    | false =>
      simp only [Bool.false_eq_true, if_false, false_implies, and_true]
      rw [kept_iff]
      simp only [and_self, true_and, and_true, sup_eq_left]

/-- A message that is turned down before anything but the window is written. -/
theorem kept_other {now : ℕ} {cnonce : ν}
    (h : { n with recvSeqno := max n.recvSeqno m.seqno }.onInboxAuth c db rte m now cnonce =
      ({ n with recvSeqno := max n.recvSeqno m.seqno }, none)) :
    n.Kept (n.onMsg c db rte m now cnonce).1 ↔ m.seqno ≤ n.recvSeqno := by
  rw [onMsg, h, kept_iff]
  simp only [and_self, true_and, and_true, sup_eq_left]

theorem recvChallenge_authenticated (n : AuthBridge ν κ π δ) (f : AuthFields ν π) (stage : ℕ) :
    (n.recvChallenge c db m f stage).1.authenticated = n.authenticated := by
  simp only [recvChallenge]
  split
  · rfl
  · split
    · rfl
    · rfl

/-- `recv_challenge` that verifies. -/
theorem recvChallenge_verified {f : AuthFields ν π} {stage : ℕ}
    (h : (n.recvChallenge c db m f stage).2 = true) :
    c.verify (n.carriedKey c db m f n.auth0 stage) m.toAuthContent m.body = true ∧
      (n.recvChallenge c db m f stage).1.peerKey = n.carriedKey c db m f n.auth0 stage := by
  simp only [recvChallenge] at h ⊢
  split at h
  · cases h
  · split at h
    · cases h
    · rename_i hsig hver
      rw [if_neg hsig, if_neg hver]
      exact ⟨Bool.not_eq_false _ ▸ hver, rfl⟩

theorem challenged_peerKey (n : AuthBridge ν κ π δ) (f : AuthFields ν π) (stage now : ℕ)
    (cnonce : ν) : (n.challenged c db m f stage now cnonce).1.peerKey = n.peerKey := by
  have hadd : (if n.authenticated then n else n.addAuthenticated).peerKey = n.peerKey := by
    split
    · rfl
    · rw [addAuthenticated]
      split
      · rfl
      · rfl
  simp only [challenged]
  generalize (if n.authenticated then n else n.addAuthenticated) = n₁ at hadd
  split
  · dsimp only
    split
    · exact hadd
    · exact hadd
  · exact hadd

/-- A challenge that marks the peer authenticated did verify. -/
theorem challenge_marks {f : AuthFields ν π} {stage now : ℕ} {cnonce : ν}
    (h' : (n.challenge c db m f stage now cnonce).1.authenticated = true)
    (h : n.authenticated = false) :
    c.verify (n.carriedKey c db m f n.auth0 stage) m.toAuthContent m.body = true ∧
      (n.challenge c db m f stage now cnonce).1.peerKey = n.carriedKey c db m f n.auth0 stage := by
  simp only [challenge] at h' ⊢
  split at h'
  · rename_i hrec
    rw [if_pos hrec, challenged_peerKey]
    exact recvChallenge_verified hrec
  · rw [recvChallenge_authenticated, h] at h'
    cases h'

/-- A message that marks the peer authenticated did verify, with an `auth[ 0 ]` that was
found. -/
theorem onMsg_marks {now : ℕ} {cnonce : ν} (h : n.authenticated = false)
    (h' : (n.onMsg c db rte m now cnonce).1.authenticated = true) :
    ∃ x ∈ n.found c rte m,
      c.verify (n.carriedKey c db m x.1 x.2.1 x.2.2) m.toAuthContent m.body = true ∧
        (n.onMsg c db rte m now cnonce).1.peerKey = n.carriedKey c db m x.1 x.2.1 x.2.2 := by
  simp only [onMsg, onInboxAuth, found] at h' ⊢
  split at h'
  · rename_i f hstage hfields
    cases hfound : (StageAuth.copyFromHb c.zeroNonce f rte).2 with
    | false =>
      simp only [hfound, Bool.false_eq_true, if_false] at h'
      rw [h] at h'
      cases h'
    | true =>
      simp only [hfound, if_true] at h' ⊢
      exact ⟨_, rfl, challenge_marks h' h⟩
  · rename_i f hstage hfields
    split at h'
    · rename_i auth0 hfound
      rw [show StageAuth.copyFromAuth f n.auth1 = some auth0 from hfound, Option.map_some]
      exact ⟨_, rfl, challenge_marks h' h⟩
    · split at h'
      · rw [show _ = false from h] at h'
        cases h'
      · rw [h] at h'
        cases h'
  · rw [h] at h'
    cases h'

end

/-- A message that does not verify leaves the bridge as it was if and only if all that it
writes is there already. -/
theorem kept_iff_harmless (c : AuthCrypt ν κ π σ δ β) (db : AuthDB ν κ π δ) (rte : HbHistory ν)
    (n : AuthBridge ν κ π δ) (m : AuthMsg ν κ π β) (now : ℕ) (cnonce : ν)
    (h : n.verified c db rte m = false) :
    n.Kept (n.onMsg c db rte m now cnonce).1 ↔ n.Harmless c db rte m now := by
  rcases hfields : m.fields with _ | f
  · rw [kept_other (by simp [onInboxAuth, hfields])]
    simp [Harmless, hfields]
  · rcases hstage : m.stage with _ | _ | _ | _ | k
    · rw [kept_other (by simp [onInboxAuth, hstage])]
      simp [Harmless, hstage]
    · rw [kept_other (by simp [onInboxAuth, hstage])]
      simp [Harmless, hstage]
    · exact kept_hello hstage hfields h now cnonce
    · exact kept_handshake hstage hfields h now cnonce
    · rw [kept_other (by simp [onInboxAuth, hstage])]
      simp [Harmless, hstage]

end AuthBridge

/-! ## Symbolic cryptography -/

/-- Keys as terms: what is derived from different things is different, and what is not
decrypted with its own key is no other key. Nodes, nonces and key pairs are numbers. -/
inductive SymKey where
  | zero
  | session (node : ℕ)
  | hello (node : ℕ)
  | secret (shared : ℕ × ℕ) (lo hi : SymKey)
  | challenge (secret : SymKey) (dest src cnonce0 cnonce1 seqno time stage : ℕ)
  | enc (key x : SymKey)
  | dec (key x : SymKey)
deriving DecidableEq

namespace SymKey

def owner : SymKey → ℕ
  | .hello node => node
  | _ => 0

/-- Both sides of a key exchange have the same secret. -/
def secretOf (pri : ℕ) (helloKey : SymKey) (pub : ℕ) (peerHello : SymKey) : SymKey :=
  let shared := (min pri pub, max pri pub)
  if owner peerHello < owner helloKey then .secret shared peerHello helloKey
  else .secret shared helloKey peerHello

def decrypt (key : SymKey) : SymKey → SymKey
  | .enc key' x => if key = key' then x else .dec key (.enc key' x)
  | x => .dec key x

end SymKey

/-- What is signed, and with which keys. -/
structure SymBody where
  session : SymKey
  hello : SymKey
  dsa : ℕ
  content : AuthContent ℕ SymKey ℕ
deriving DecidableEq

def symCrypt : AuthCrypt ℕ SymKey ℕ SymKey ℕ SymBody where
  zeroNonce := 0
  unreadKey := .zero
  calcSecretHmac := SymKey.secretOf
  kdfChallengeSecret := SymKey.challenge
  encryptHash := SymKey.enc
  decryptHash := SymKey.decrypt
  sign session hello dsa m := ⟨session, hello, dsa, m⟩
  verifySig hello dsa m body := hello = body.hello && dsa = body.dsa && m = body.content
  verify key m body := key = body.session && m = body.content

namespace AuthBridge

/-- The node 1, and its bridge to the node 2 after it was authenticated. -/
def symDB : AuthDB ℕ SymKey ℕ ℕ := ⟨1, .session 1, .hello 1, 1, 1, 1, 0, 100⟩

def symBridge : AuthBridge ℕ SymKey ℕ ℕ :=
  ⟨2, .session 2, .hello 2, 2, 2, ⟨200, 7, 72⟩, ⟨201, 3, 73⟩, ⟨202, 4, 74⟩, 3, 4, 1, true, false,
    false⟩

def symHistory : HbHistory ℕ := ⟨⟨300, 9, 79⟩, [⟨290, 8, 78⟩, ⟨280, 7, 77⟩, ⟨270, 6, 76⟩]⟩

/-- A challenge in the name of node 2 by one who has not its keys. -/
def forged (seqno : ℕ) (f : AuthFields ℕ ℕ) : AuthMsg ℕ SymKey ℕ SymBody :=
  let content : AuthContent ℕ SymKey ℕ := ⟨seqno, 300, some 1, some f, some .zero, none⟩
  ⟨content, symCrypt.sign .zero .zero 0 content⟩

/-- A forged challenge that names no heartbeat, with numbers that the bridge has. -/
theorem kept_iff_harmless_forged :
    symBridge.verified symCrypt symDB symHistory (forged 3 ⟨80, 201, 3, 5⟩) = false ∧
      symBridge.Kept
        (symBridge.onMsg symCrypt symDB symHistory (forged 3 ⟨80, 201, 3, 5⟩) 400 81).1 := by
  refine ⟨by decide, (kept_iff_harmless symCrypt symDB symHistory symBridge _ 400 81
    (by decide)).2 ⟨by decide, ⟨rfl, rfl⟩, fun x hx => ?_⟩⟩
  have hfound : symBridge.found symCrypt symHistory (forged 3 ⟨80, 201, 3, 5⟩) = none := by rfl
  rw [hfound] at hx
  cases hx

/-- A forged challenge that names the last heartbeat of this node replaces the session key
of the peer. -/
theorem forged_replaces_key :
    ¬ ∀ (db : AuthDB ℕ SymKey ℕ ℕ) (rte : HbHistory ℕ) (n : AuthBridge ℕ SymKey ℕ ℕ)
      (m : AuthMsg ℕ SymKey ℕ SymBody) (now cnonce : ℕ),
      n.verified symCrypt db rte m = false → n.Kept (n.onMsg symCrypt db rte m now cnonce).1 := by
  intro h
  have hkept := h symDB symHistory symBridge (forged 5 ⟨80, 300, 9, 5⟩) 400 81 (by decide)
  exact absurd hkept.peerKey (by decide)

end AuthBridge

end Raims
