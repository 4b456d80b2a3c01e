import Raims.Crypt.Aes
import Raims.Lib.Run
import Raims.User.PeerKeys

/-!
# Session keys passed on (`make_peer_sync_msg`, `decode_peer_msg`)

A node has the session key of a peer from its challenge, or from another peer that
has it: this one puts it into a reply, enciphered with what both can derive, their
own key among it. So the keys spread over a mesh in which most nodes never talked to
each other. Messages are lost, repeated and late, and some were made by others. A
challenge is tested twice, by its signature and by the key that it brings, and only the
second test puts the key back that was there before.

What a digest says is here whether two keys are the same, and `kdf_peer_nonce` and
the hash table are parameters.
-/

namespace Raims

namespace PeerKeys

/-! ## §1 Digests under AES -/

instance : NeZero digestSize := ⟨by decide⟩

/-- The 16 bytes of a digest that start at `16 i`, as they are loaded. -/
def loadu (d : Digest) (i : ℕ) : BitVec 128 :=
  AES128.ofBytes fun k => (d (Fin.ofNat digestSize (16 * i + k))).toBitVec

/-- A digest of four blocks that are stored one behind the other. -/
def storeu (block : ℕ → BitVec 128) : Digest := fun j =>
  UInt8.ofBitVec (AES128.bytes (block (j.val / 16)) ⟨j.val % 16, Nat.mod_lt _ (by decide)⟩)

/-- `encrypt_hash` -/
def encryptHash (challenge hash : Digest) : Digest :=
  storeu fun i => (AES128.expandKey (loadu challenge i)).encrypt (loadu hash i)

/-- `decrypt_hash` -/
def decryptHash (challenge hash : Digest) : Digest :=
  storeu fun i => (AES128.expandKey (loadu challenge i)).decrypt (loadu hash i)

/-- `encrypt_key_nonce` -/
def encryptKeyNonce (keyHash : Digest) (keyNonce : Nonce) (hash : Digest) : Digest :=
  storeu fun i => (AES128.expandKey (keyNonce ^^^ loadu keyHash i)).encrypt (loadu hash i)

/-- `decrypt_key_nonce` -/
def decryptKeyNonce (keyHash : Digest) (keyNonce : Nonce) (hash : Digest) : Digest :=
  storeu fun i => (AES128.expandKey (keyNonce ^^^ loadu keyHash i)).decrypt (loadu hash i)

theorem loadu_storeu (block : ℕ → BitVec 128) {i : ℕ} (hi : i < 4) :
    loadu (storeu block) i = block i := by
  rw [loadu, ← AES128.ofBytes_bytes (block i)]
  congr 1
  funext k
  have hk : k.val < 16 := k.isLt
  have hval : (Fin.ofNat digestSize (16 * i + k)).val = 16 * i + k := by
    show (16 * i + k) % 64 = 16 * i + k
    omega
  have hdiv : (16 * i + k.val) / 16 = i := by omega
  have hmod : Fin.ofNat 16 (16 * i + k.val) = k := by
    refine Fin.ext ?_
    show (16 * i + k.val) % 16 = k.val
    omega
  show AES128.bytes (block ((Fin.ofNat digestSize (16 * i + k)).val / 16))
    (Fin.ofNat 16 (Fin.ofNat digestSize (16 * i + k)).val) = _
  rw [hval, hdiv, hmod]

theorem storeu_loadu (d : Digest) : storeu (loadu d) = d := by
  funext j
  have hj : j.val < 64 := j.isLt
  have hval : Fin.ofNat digestSize (16 * (j.val / 16) + j.val % 16) = j := by
    refine Fin.ext ?_
    show (16 * (j.val / 16) + j.val % 16) % 64 = j.val
    omega
  rw [storeu, loadu, AES128.bytes_ofBytes]
  exact congrArg d hval

theorem storeu_congr {f g : ℕ → BitVec 128} (h : ∀ i < 4, f i = g i) : storeu f = storeu g := by
  funext j
  have hj : j.val < 64 := j.isLt
  rw [storeu, storeu, h (j.val / 16) (by omega)]

theorem decryptHash_encryptHash (challenge hash : Digest) :
    decryptHash challenge (encryptHash challenge hash) = hash := by
  refine (storeu_congr fun i hi => ?_).trans (storeu_loadu hash)
  rw [encryptHash, loadu_storeu _ hi, AES128.decrypt_encrypt]

theorem decryptKeyNonce_encryptKeyNonce (keyHash : Digest) (keyNonce : Nonce) (hash : Digest) :
    decryptKeyNonce keyHash keyNonce (encryptKeyNonce keyHash keyNonce hash) = hash := by
  refine (storeu_congr fun i hi => ?_).trans (storeu_loadu hash)
  rw [encryptKeyNonce, loadu_storeu _ hi, AES128.decrypt_encrypt]

end PeerKeys

namespace PeerSession

open PeerKeys

/-! ## §2 A node -/

/-- `UserBridge`, as far as its key is concerned. -/
structure Peer where
  peerKey : Digest
  /-- `bridge_id.nonce` -/
  nonce : Nonce
  /-- `AUTHENTICATED_STATE` -/
  authenticated : Bool
  /-- `ZOMBIE_STATE` -/
  zombie : Bool
  /-- `last_auth_type` is `BYE_BYE` -/
  byeBye : Bool

/-- What `make_user_bridge` zeroes. -/
def noKey : Digest := fun _ => 0

def Peer.new (nonce : Nonce) : Peer := ⟨noKey, nonce, false, false, false⟩

/-- `UserDB`; the tables map bridge ids to uids. -/
structure NodeDB (τ : Type*) where
  nodeHt : Nonce → Option UInt32
  zombieHt : Nonce → Option UInt32
  bridgeTab : UInt32 → Option Peer
  nextUid : ℕ
  keys : KeyDB τ

/-- A message about the peer `session` (`FID_SESSION` or `FID_SYNC_BRIDGE`) that `src`
signed. `FID_SESS_KEY` and `FID_CNONCE` are in the reply to a sync request only. -/
structure PeerMsg where
  src : Nonce
  session : Nonce
  sessKey : Option (Digest × Nonce)
  /-- the key that it is signed with -/
  signed : Digest

/-- `_I.<nonce>.auth` of the stages 1 and 2, as far as the key depends on it. -/
structure Challenge where
  src : Nonce
  /-- `FID_AUTH_KEY` -/
  authKey : Digest
  /-- it verifies with the key of the service or of the user -/
  verifySig : Bool
  /-- the key that its digest is made with -/
  signed : Digest

/-- `send_challenge` of the node `src`, with the challenge `theirs`. -/
def sendChallenge (src : Nonce) (theirs sessionKey : Digest) : Challenge :=
  ⟨src, encryptHash theirs sessionKey, true, sessionKey⟩

namespace NodeDB

variable {τ : Type*} (db : NodeDB τ)

def find (nonce : Nonce) : Option UInt32 := (db.nodeHt nonce).or (db.zombieHt nonce)

def put (uid : UInt32) (n : Peer) : NodeDB τ :=
  { db with bridgeTab := Function.update db.bridgeTab uid (some n) }

/-- `add_user`. Uids are not given out twice. -/
def addUser (nonce : Nonce) : NodeDB τ × Option UInt32 :=
  if db.nextUid < 2 ^ 32 then
    let uid := UInt32.ofNat db.nextUid
    ({ db.put uid (Peer.new nonce) with
        nextUid := db.nextUid + 1
        nodeHt := Function.update db.nodeHt nonce (some uid) }, some uid)
  else (db, none)

/-- `lookup_user`: the peer of a heartbeat. -/
def lookupUser (nonce : Nonce) : NodeDB τ :=
  match db.find nonce with
  | some _ => db
  | none => (db.addUser nonce).1

/-- `add_authenticated`; `early` says that a zombie comes back too soon. -/
def addAuthenticated (uid : UInt32) (early : Bool) : NodeDB τ :=
  match db.bridgeTab uid with
  | none => db
  | some n =>
    if n.zombie && (n.byeBye || early) then db
    else
      let db := db.put uid { n with authenticated := true, zombie := false, byeBye := false }
      if n.zombie then
        { db with
          zombieHt := Function.update db.zombieHt n.nonce none
          nodeHt := Function.update db.nodeHt n.nonce (some uid) }
      else db

/-- `remove_authenticated` -/
def removeAuthenticated (uid : UInt32) (byeBye : Bool) : NodeDB τ :=
  match db.bridgeTab uid with
  | none => db
  | some n =>
    { db.put uid { n with authenticated := false, zombie := true, byeBye := byeBye } with
      nodeHt := Function.update db.nodeHt n.nonce none
      zombieHt :=
        if n.zombie then db.zombieHt else Function.update db.zombieHt n.nonce (some uid) }

/-- `peer_key = key` -/
def setKey (uid : UInt32) (key : Digest) : NodeDB τ :=
  match db.bridgeTab uid with
  | none => db
  | some n => db.put uid { n with peerKey := key }

/-- What `get_peer_key` reads, at the node `me`. -/
def peers (me : Nonce) (sessionKey : Digest) : Peers where
  sessionKey := sessionKey
  nonce := me
  bridgeTab uid := (db.bridgeTab uid).map fun n => ⟨n.peerKey, n.nonce⟩

/-- `recv_challenge`: the key is deciphered with the challenge `mine` of this node and
written. It stays when the signature is wrong; when the digest is wrong, the one from
before is put back. -/
def recvChallenge (c : Challenge) (mine : Digest) (early : Bool) : NodeDB τ :=
  match db.find c.src with
  | none => db
  | some uid =>
    match db.bridgeTab uid with
    | none => db
    | some n =>
      let key := decryptHash mine c.authKey
      let keyed := db.setKey uid key
      if !c.verifySig then keyed
      else if key ≠ c.signed then keyed.setKey uid n.peerKey
      else if n.authenticated then keyed
      else keyed.addAuthenticated uid early

section Keys

variable (o : HashTab τ PeerKeyHash ℕ) (kdf : Digest → Nonce → Nonce → Digest)

/-- `recv_sync_request` and `make_peer_sync_msg`: the reply about the peer `session`. -/
def recvSyncRequest (me : Nonce) (sessionKey : Digest) (session cnonce : Nonce) :
    NodeDB τ × Option PeerMsg :=
  match db.nodeHt session with
  | none => (db, none)
  | some uid =>
    match db.bridgeTab uid with
    | none => (db, none)
    | some n =>
      if n.authenticated then
        match getPeerKey o kdf (db.peers me sessionKey) db.keys ⟨myUid, uid⟩ with
        | none => (db, none)
        | some (tmp, keys) =>
          ({ db with keys := keys },
            some ⟨me, n.nonce, some (encryptKeyNonce tmp cnonce n.peerKey, cnonce), sessionKey⟩)
      else (db, none)

/-- `decode_peer_msg`: the key in a message of the peer `from_n`, unless the one that is
known differs. -/
def decodePeerMsg (fromN : Peer) (m : PeerMsg) (sess : Digest × Nonce) (userN : Option Peer) :
    Option Digest :=
  let key := decryptKeyNonce (kdf fromN.peerKey fromN.nonce m.session) sess.2 sess.1
  match userN with
  | some n => if (n.authenticated || n.zombie) && n.peerKey != key then none else some key
  | none => some key

/-- `make_peer_session`: the user that is found or added, with the key. -/
def makePeerSession (fromN : Peer) (m : PeerMsg) (sess : Digest × Nonce) (uid : Option UInt32) :
    NodeDB τ × Option UInt32 :=
  match decodePeerMsg kdf fromN m sess (uid.bind db.bridgeTab) with
  | none => (db, uid)
  | some key =>
    match uid with
    | some uid => (db.setKey uid key, some uid)
    | none =>
      match db.addUser m.session with
      | (db, some uid) => (db.setKey uid key, some uid)
      | (db, none) => (db, none)

/-- The end of `recv_peer_add`: a zombie comes back, and so does a peer whose key came. -/
def joinUp (uid : Option UInt32) (keyed early : Bool) : NodeDB τ :=
  match uid with
  | none => db
  | some uid =>
    match db.bridgeTab uid with
    | none => db
    | some n =>
      if !n.authenticated && (n.zombie || keyed) then db.addAuthenticated uid early else db

/-- `recv_peer_add`, of a message that the peer at `from_uid` sent. -/
def recvPeerAdd (fromN : Peer) (m : PeerMsg) (early : Bool) : NodeDB τ :=
  let known := db.find m.session
  let userN := known.bind db.bridgeTab
  if known = some myUid then db
  else if userN.any (·.byeBye) then db
  else if userN.any (·.authenticated) then db
  else
    match m.sessKey with
    | some sess =>
      let r := db.makePeerSession kdf fromN m sess (userN.bind fun _ => known)
      r.1.joinUp r.2 true early
    | none => db.joinUp (userN.bind fun _ => known) false early

/-- A message is handed on when it verifies with the key of an authenticated sender. -/
def onMsg (m : PeerMsg) (early : Bool) : NodeDB τ :=
  match (db.nodeHt m.src).bind db.bridgeTab with
  | none => db
  | some fromN =>
    if fromN.authenticated && m.signed == fromN.peerKey then db.recvPeerAdd kdf fromN m early
    else db

end Keys

end NodeDB

/-! ## §3 The mesh -/

/-- The nodes by their bridge ids, and every message that was ever sent. -/
structure Mesh (τ : Type*) where
  node : Nonce → NodeDB τ
  sent : List PeerMsg

inductive Event where
  /-- node `i` hears a heartbeat of `j` -/
  | heartbeat (i j : Nonce)
  /-- node `i` reads a challenge, one that a node sent or that the network made -/
  | challenge (i : Nonce) (c : Challenge) (mine : Digest) (early : Bool)
  | remove (i : Nonce) (uid : UInt32) (byeBye : Bool)
  | syncRequest (i session cnonce : Nonce)
  /-- `send_peer_add` -/
  | peerAdd (i session : Nonce)
  /-- the network makes a message of its own -/
  | inject (m : PeerMsg)
  /-- a message that was sent some time reaches node `i` -/
  | deliver (i : Nonce) (k : ℕ) (early : Bool)

section Run

variable {τ : Type*} (o : HashTab τ PeerKeyHash ℕ) (kdf : Digest → Nonce → Nonce → Digest)
  (sessionKey : Nonce → Digest)

/-- `UserDB::init` -/
def NodeDB.init (me : Nonce) : NodeDB τ where
  nodeHt := Function.update (fun _ => none) me (some myUid)
  zombieHt := fun _ => none
  bridgeTab := fun _ => none
  nextUid := 1
  keys := KeyDB.init o fun _ => 0

def Mesh.init : Mesh τ := ⟨NodeDB.init o, []⟩

def Mesh.set (s : Mesh τ) (i : Nonce) (db : NodeDB τ) : Mesh τ :=
  { s with node := Function.update s.node i db }

def step (s : Mesh τ) : Event → Mesh τ
  | .heartbeat i j => s.set i ((s.node i).lookupUser j)
  | .challenge i c mine early => s.set i ((s.node i).recvChallenge c mine early)
  | .remove i uid byeBye => s.set i ((s.node i).removeAuthenticated uid byeBye)
  | .syncRequest i session cnonce =>
    let r := (s.node i).recvSyncRequest o kdf i (sessionKey i) session cnonce
    { s.set i r.1 with sent := s.sent ++ r.2.toList }
  | .peerAdd i session => { s with sent := s.sent ++ [⟨i, session, none, sessionKey i⟩] }
  | .inject m => { s with sent := s.sent ++ [m] }
  | .deliver i k early =>
    match s.sent[k]? with
    | none => s
    | some m => s.set i ((s.node i).onMsg kdf m early)

def run (es : List Event) : Mesh τ := es.foldl (step o kdf sessionKey) (Mesh.init o)

/-- What is not made by a node is signed with no session key, nor with the zeros that a
peer verifies with before it has a key; and a challenge verifies by its signature only if
the node that it names made it. -/
def Event.Unforged : Event → Prop
  | .inject m => m.signed ≠ noKey ∧ ∀ i, m.signed ≠ sessionKey i
  | .challenge _ c _ _ => c.verifySig = true → c.signed = sessionKey c.src
  | _ => True

/-- The key is the one of the peer, or there is none yet. -/
def Sound (nonce : Nonce) (key : Digest) : Prop := key = sessionKey nonce ∨ key = noKey

/-- No challenge of a known peer brings a wrong key with a wrong signature. -/
def Event.Harmless (s : Mesh τ) : Event → Prop
  | .challenge i c mine _ => c.verifySig = true ∨
      ∀ uid n, (s.node i).find c.src = some uid → (s.node i).bridgeTab uid = some n →
        Sound sessionKey n.nonce (decryptHash mine c.authKey)
  | _ => True

/-- Every bridge of every node has the key of its peer, or none yet. -/
def Mesh.AllSound (s : Mesh τ) : Prop :=
  ∀ i uid n, (s.node i).bridgeTab uid = some n → Sound sessionKey n.nonce n.peerKey

end Run

/-! ## §4 What holds of a node -/

section Proofs

variable {τ : Type*} (o : HashTab τ PeerKeyHash ℕ) (kdf : Digest → Nonce → Nonce → Digest)
  (sessionKey : Nonce → Digest)

/-- The peers without their keys, which is what the cached keys depend on. -/
def NodeDB.names (db : NodeDB τ) (me : Nonce) : Peers where
  sessionKey := sessionKey me
  nonce := me
  bridgeTab uid := (db.bridgeTab uid).map fun n => ⟨noKey, n.nonce⟩

structure NodeInv (me : Nonce) (db : NodeDB τ) : Prop where
  sound : ∀ {uid n}, db.bridgeTab uid = some n →
    Sound sessionKey n.nonce n.peerKey
  below : ∀ {uid n}, db.bridgeTab uid = some n → uid.toNat < db.nextUid
  listed : ∀ {nonce uid}, db.nodeHt nonce = some uid ∨ db.zombieHt nonce = some uid →
    uid.toNat < db.nextUid
  named : ∀ {nonce uid n}, db.nodeHt nonce = some uid ∨ db.zombieHt nonce = some uid →
    db.bridgeTab uid = some n → n.nonce = nonce
  kept : Kept o kdf (db.names sessionKey me) db.keys

variable {o kdf sessionKey} {me : Nonce} {db : NodeDB τ}

theorem put_self (uid : UInt32) (n : Peer) : (db.put uid n).bridgeTab uid = some n :=
  Function.update_self ..

theorem put_of_ne {u uid : UInt32} (n : Peer) (h : u ≠ uid) :
    (db.put uid n).bridgeTab u = db.bridgeTab u := Function.update_of_ne h ..

theorem put_cases {u uid : UInt32} {n m : Peer} (h : (db.put uid n).bridgeTab u = some m) :
    (u = uid ∧ m = n) ∨ (u ≠ uid ∧ db.bridgeTab u = some m) := by
  by_cases hu : u = uid
  · subst hu
    exact .inl ⟨rfl, Option.some.inj (h.symm.trans (put_self u n))⟩
  · exact .inr ⟨hu, (put_of_ne n hu).symm.trans h⟩

/-- An entry of a table after a write. -/
theorem update_cases {t : Nonce → Option UInt32} {nonce x : Nonce} {v : Option UInt32} {u : UInt32}
    (h : Function.update t nonce v x = some u) :
    (x = nonce ∧ v = some u) ∨ (x ≠ nonce ∧ t x = some u) := by
  by_cases hx : x = nonce
  · rw [hx, Function.update_self] at h
    exact .inl ⟨hx, h⟩
  · rw [Function.update_of_ne hx] at h
    exact .inr ⟨hx, h⟩

theorem keyOf_names (h : PeerKeyHash) :
    keyOf kdf (db.names sessionKey me) h =
      (db.bridgeTab h.destUid).bind fun n =>
        if h.srcUid = myUid then some (kdf (sessionKey me) me n.nonce)
        else (db.bridgeTab h.srcUid).map fun n' => kdf noKey n'.nonce n.nonce := by
  show ((db.bridgeTab h.destUid).map _).bind _ = _
  cases db.bridgeTab h.destUid with
  | none => rfl
  | some n =>
    show getPeerKey2 kdf (db.names sessionKey me) h.srcUid n.nonce = if _ then _ else _
    rw [getPeerKey2]
    show (if _ then _ else ((db.bridgeTab h.srcUid).map _).map _) = _
    rw [Option.map_map]
    rfl

/-- Cached keys stay right while peers are added and none changes its bridge id. -/
theorem kept_of_extends {db' : NodeDB τ} {keys : KeyDB τ}
    (h : Kept o kdf (db.names sessionKey me) keys)
    (hext : ∀ uid n, db.bridgeTab uid = some n → ∃ n', db'.bridgeTab uid = some n' ∧
      n'.nonce = n.nonce) :
    Kept o kdf (db'.names sessionKey me) keys where
  off_dvd := h.off_dvd
  off_le := h.off_le
  indexes :=
    { below := h.indexes.below
      apart := h.indexes.apart
      value := by
        intro k off hoff
        have hval := h.indexes.value hoff
        rw [keyOf_names] at hval ⊢
        obtain ⟨n, hn, hkey⟩ := Option.bind_eq_some_iff.1 hval
        obtain ⟨n', hn', hnonce⟩ := hext _ _ hn
        rw [hn', Option.bind_some, hnonce]
        split_ifs at hkey ⊢ with hmy
        · exact hkey
        · obtain ⟨b, hb, hval⟩ := Option.map_eq_some_iff.1 hkey
          obtain ⟨b', hb', hnonce'⟩ := hext _ _ hb
          rw [hb', Option.map_some, hnonce', hval] }

theorem NodeInv.find_named (h : NodeInv o kdf sessionKey me db) {nonce : Nonce} {uid : UInt32}
    {n : Peer} (hfind : db.find nonce = some uid) (hn : db.bridgeTab uid = some n) :
    n.nonce = nonce := by
  rcases Option.or_eq_some_iff.1 hfind with hnode | ⟨-, hzombie⟩
  · exact h.named (.inl hnode) hn
  · exact h.named (.inr hzombie) hn

/-- A peer is written over, with its bridge id and with a key that is right. -/
theorem NodeInv.put (h : NodeInv o kdf sessionKey me db) {uid : UInt32} {n n' : Peer}
    (hn : db.bridgeTab uid = some n) (hnonce : n'.nonce = n.nonce)
    (hs : Sound sessionKey n'.nonce n'.peerKey) :
    NodeInv o kdf sessionKey me (db.put uid n') where
  sound := by
    intro u m hm
    rcases put_cases hm with ⟨rfl, rfl⟩ | ⟨-, hm⟩
    · exact hs
    · exact h.sound hm
  below := by
    intro u m hm
    rcases put_cases hm with ⟨rfl, rfl⟩ | ⟨-, hm⟩
    · exact h.below hn
    · exact h.below hm
  listed := h.listed
  named := by
    intro nonce u m hu hm
    rcases put_cases hm with ⟨rfl, rfl⟩ | ⟨-, hm⟩
    · exact hnonce.trans (h.named hu hn)
    · exact h.named hu hm
  kept := by
    refine kept_of_extends h.kept fun u m hm => ?_
    by_cases hu : u = uid
    · subst hu
      obtain rfl := Option.some.inj (hn.symm.trans hm)
      exact ⟨n', put_self u n', hnonce⟩
    · exact ⟨m, (put_of_ne n' hu).trans hm, rfl⟩

/-- The tables may change when what they name is a peer of that bridge id. -/
theorem NodeInv.tables (h : NodeInv o kdf sessionKey me db)
    {nodeHt zombieHt : Nonce → Option UInt32}
    (htab : ∀ nonce uid, nodeHt nonce = some uid ∨ zombieHt nonce = some uid →
      (db.nodeHt nonce = some uid ∨ db.zombieHt nonce = some uid) ∨
        ∃ n, db.bridgeTab uid = some n ∧ n.nonce = nonce) :
    NodeInv o kdf sessionKey me { db with nodeHt := nodeHt, zombieHt := zombieHt } where
  sound := h.sound
  below := h.below
  listed := by
    intro nonce uid huid
    rcases htab nonce uid huid with hold | ⟨n, hn, -⟩
    · exact h.listed hold
    · exact h.below hn
  named := by
    intro nonce uid m huid hm
    rcases htab nonce uid huid with hold | ⟨n, hn, hnonce⟩
    · exact h.named hold hm
    · obtain rfl := Option.some.inj (hn.symm.trans hm)
      exact hnonce
  kept := h.kept

theorem NodeInv.setKey (h : NodeInv o kdf sessionKey me db) {uid : UInt32} {key : Digest}
    (hkey : ∀ n, db.bridgeTab uid = some n → Sound sessionKey n.nonce key) :
    NodeInv o kdf sessionKey me (db.setKey uid key) := by
  rw [NodeDB.setKey]
  cases hn : db.bridgeTab uid with
  | none => exact h
  | some n => exact h.put hn rfl (hkey n hn)

theorem NodeInv.addUser (h : NodeInv o kdf sessionKey me db) (nonce : Nonce) :
    NodeInv o kdf sessionKey me (db.addUser nonce).1 ∧
      ∀ uid, (db.addUser nonce).2 = some uid →
        (db.addUser nonce).1.bridgeTab uid = some (Peer.new nonce) := by
  rw [NodeDB.addUser]
  split_ifs with hlt
  swap
  · refine ⟨h, fun uid huid => ?_⟩
    cases huid
  have htoNat : (UInt32.ofNat db.nextUid).toNat = db.nextUid := UInt32.toNat_ofNat_of_lt' hlt
  -- nothing has the new uid yet
  have hfresh {u : UInt32} (hu : u.toNat < db.nextUid) : u ≠ UInt32.ofNat db.nextUid := by
    rintro rfl
    exact absurd hu (by omega)
  refine ⟨⟨?_, ?_, ?_, ?_, ?_⟩, ?_⟩
  · intro u m hm
    rcases put_cases hm with ⟨rfl, rfl⟩ | ⟨-, hm⟩
    · exact .inr rfl
    · exact h.sound hm
  · intro u m hm
    rcases put_cases hm with ⟨rfl, rfl⟩ | ⟨-, hm⟩
    · show (UInt32.ofNat db.nextUid).toNat < db.nextUid + 1
      omega
    · exact Nat.lt_succ_of_lt (h.below hm)
  · rintro x u (hu | hu)
    · rcases update_cases hu with ⟨-, hv⟩ | ⟨-, hu⟩
      · obtain rfl := Option.some.inj hv
        show (UInt32.ofNat db.nextUid).toNat < db.nextUid + 1
        omega
      · exact Nat.lt_succ_of_lt (h.listed (.inl hu))
    · exact Nat.lt_succ_of_lt (h.listed (.inr hu))
  · intro x u m hx hm
    rcases put_cases hm with ⟨rfl, rfl⟩ | ⟨hu, hm⟩
    · rcases hx with hx | hx
      · rcases update_cases hx with ⟨rfl, -⟩ | ⟨-, hx⟩
        · rfl
        · exact absurd rfl (hfresh (h.listed (.inl hx)))
      · exact absurd rfl (hfresh (h.listed (.inr hx)))
    · rcases hx with hx | hx
      · rcases update_cases hx with ⟨-, hv⟩ | ⟨-, hx⟩
        · exact absurd (Option.some.inj hv).symm hu
        · exact h.named (.inl hx) hm
      · exact h.named (.inr hx) hm
  · refine kept_of_extends h.kept fun u m hm => ?_
    exact ⟨m, (put_of_ne _ (hfresh (h.below hm))).trans hm, rfl⟩
  · intro uid huid
    obtain rfl := Option.some.inj huid
    exact put_self _ _

theorem NodeInv.addAuthenticated (h : NodeInv o kdf sessionKey me db) (uid : UInt32)
    (early : Bool) : NodeInv o kdf sessionKey me (db.addAuthenticated uid early) := by
  rw [NodeDB.addAuthenticated]
  cases hn : db.bridgeTab uid with
  | none => exact h
  | some n =>
    have hs : Sound sessionKey n.nonce n.peerKey := h.sound hn
    have hput : NodeInv o kdf sessionKey me
        (db.put uid { n with authenticated := true, zombie := false, byeBye := false }) :=
      h.put hn rfl hs
    dsimp only
    split_ifs with hearly hz
    · exact h
    · refine hput.tables fun x u hx => ?_
      rcases hx with hx | hx
      · rcases update_cases hx with ⟨rfl, hv⟩ | ⟨-, hx⟩
        · obtain rfl := Option.some.inj hv
          exact .inr ⟨_, put_self _ _, rfl⟩
        · exact .inl (.inl hx)
      · rcases update_cases hx with ⟨-, hv⟩ | ⟨-, hx⟩
        · exact absurd hv (Option.some_ne_none u).symm
        · exact .inl (.inr hx)
    · exact hput

theorem NodeInv.removeAuthenticated (h : NodeInv o kdf sessionKey me db) (uid : UInt32)
    (byeBye : Bool) : NodeInv o kdf sessionKey me (db.removeAuthenticated uid byeBye) := by
  rw [NodeDB.removeAuthenticated]
  cases hn : db.bridgeTab uid with
  | none => exact h
  | some n =>
    have hs : Sound sessionKey n.nonce n.peerKey := h.sound hn
    have hput : NodeInv o kdf sessionKey me
        (db.put uid { n with authenticated := false, zombie := true, byeBye := byeBye }) :=
      h.put hn rfl hs
    refine hput.tables fun x u hx => ?_
    rcases hx with hx | hx
    · rcases update_cases hx with ⟨-, hv⟩ | ⟨-, hx⟩
      · exact absurd hv (Option.some_ne_none u).symm
      · exact .inl (.inl hx)
    · by_cases hz : n.zombie
      · rw [if_pos hz] at hx
        exact .inl (.inr hx)
      · rw [if_neg hz] at hx
        rcases update_cases hx with ⟨rfl, hv⟩ | ⟨-, hx⟩
        · obtain rfl := Option.some.inj hv
          exact .inr ⟨_, put_self _ _, rfl⟩
        · exact .inl (.inr hx)

theorem NodeInv.lookupUser (h : NodeInv o kdf sessionKey me db) (nonce : Nonce) :
    NodeInv o kdf sessionKey me (db.lookupUser nonce) := by
  rw [NodeDB.lookupUser]
  cases db.find nonce with
  | some uid => exact h
  | none => exact (h.addUser nonce).1

theorem setKey_self {uid : UInt32} {n : Peer} (h : db.bridgeTab uid = some n) (key : Digest) :
    (db.setKey uid key).bridgeTab uid = some { n with peerKey := key } := by
  rw [NodeDB.setKey, h]
  exact put_self _ _

theorem setKey_setKey {uid : UInt32} {n : Peer} (h : db.bridgeTab uid = some n) (key : Digest) :
    (db.setKey uid key).setKey uid n.peerKey = db := by
  rw [NodeDB.setKey, setKey_self h, NodeDB.setKey, h]
  show { db with bridgeTab := Function.update (Function.update db.bridgeTab uid _) uid (some n) } =
    db
  rw [Function.update_idem, ← h, Function.update_eq_self]

/-- What the four ends of `recv_challenge` leave. -/
theorem recvChallenge_cases {uid : UInt32} {n : Peer} {c : Challenge}
    (hfind : db.find c.src = some uid) (hn : db.bridgeTab uid = some n) (mine : Digest)
    (early : Bool) :
    (c.verifySig = false ∧
        db.recvChallenge c mine early = db.setKey uid (decryptHash mine c.authKey)) ∨
      db.recvChallenge c mine early = db ∨
      (c.verifySig = true ∧ decryptHash mine c.authKey = c.signed ∧
        (db.recvChallenge c mine early = db.setKey uid c.signed ∨
          db.recvChallenge c mine early =
            (db.setKey uid c.signed).addAuthenticated uid early)) := by
  rw [NodeDB.recvChallenge, hfind]
  dsimp only
  rw [hn]
  dsimp only
  cases hsig : c.verifySig with
  | false => exact .inl ⟨rfl, rfl⟩
  | true =>
    refine .inr ?_
    rw [if_neg (by decide)]
    by_cases hkey : decryptHash mine c.authKey = c.signed
    · rw [if_neg (not_not.2 hkey), hkey]
      refine .inr ⟨rfl, rfl, ?_⟩
      cases n.authenticated with
      | true => exact .inl rfl
      | false => exact .inr rfl
    · rw [if_pos hkey]
      exact .inl (setKey_setKey hn _)

theorem NodeInv.recvChallenge (h : NodeInv o kdf sessionKey me db) {c : Challenge} {mine : Digest}
    (early : Bool) (hc : c.verifySig = true → c.signed = sessionKey c.src)
    (hharm : c.verifySig = true ∨ ∀ uid n, db.find c.src = some uid →
      db.bridgeTab uid = some n → Sound sessionKey n.nonce (decryptHash mine c.authKey)) :
    NodeInv o kdf sessionKey me (db.recvChallenge c mine early) := by
  cases hfind : db.find c.src with
  | none =>
    rw [NodeDB.recvChallenge, hfind]
    exact h
  | some uid =>
    cases hn : db.bridgeTab uid with
    | none =>
      rw [NodeDB.recvChallenge, hfind]
      dsimp only
      rw [hn]
      exact h
    | some n =>
      rcases recvChallenge_cases hfind hn mine early with ⟨hsig, heq⟩ | heq | ⟨hsig, -, heq⟩
      · rw [heq]
        refine h.setKey fun n' hn' => ?_
        obtain rfl := Option.some.inj (hn.symm.trans hn')
        exact hharm.resolve_left (by rw [hsig]; exact Bool.false_ne_true) uid n hfind hn
      · rw [heq]
        exact h
      · have hkeyed : NodeInv o kdf sessionKey me (db.setKey uid c.signed) := by
          refine h.setKey fun n' hn' => .inl ?_
          rw [hc hsig, h.find_named hfind hn']
        rcases heq with heq | heq <;> rw [heq]
        · exact hkeyed
        · exact hkeyed.addAuthenticated uid early

/-- A wrong key stays where the signature is wrong. -/
theorem harmless_of_sound {c : Challenge} {mine : Digest} (early : Bool)
    (h : ∀ uid n, (db.recvChallenge c mine early).bridgeTab uid = some n →
      Sound sessionKey n.nonce n.peerKey) :
    c.verifySig = true ∨ ∀ uid n, db.find c.src = some uid → db.bridgeTab uid = some n →
      Sound sessionKey n.nonce (decryptHash mine c.authKey) := by
  cases hsig : c.verifySig with
  | true => exact .inl rfl
  | false =>
    refine .inr fun uid n hfind hn => ?_
    have hkeyed : db.recvChallenge c mine early =
        db.setKey uid (decryptHash mine c.authKey) := by
      rw [NodeDB.recvChallenge, hfind]
      dsimp only
      rw [hn, hsig]
      rfl
    rw [hkeyed] at h
    exact h uid _ (setKey_self hn _)

/-! ## §5 What holds of a message -/

variable (kdf sessionKey) in
/-- The message was made by the node that it names: the key in it, enciphered for the peers
of that node, is the one of `session`, or is not there yet. -/
structure Genuine (m : PeerMsg) : Prop where
  signed : m.signed = sessionKey m.src
  key : ∀ sess, m.sessKey = some sess → ∃ key,
    Sound sessionKey m.session key ∧
      sess.1 = encryptKeyNonce (kdf (sessionKey m.src) m.src m.session) sess.2 key

variable (kdf sessionKey) in
def Sent (m : PeerMsg) : Prop :=
  Genuine kdf sessionKey m ∨ m.signed ≠ noKey ∧ ∀ i, m.signed ≠ sessionKey i

/-- The key that is used for a reply comes from the cache or not, and is the same. -/
theorem getPeerKey_peers (uid : UInt32) :
    getPeerKey o kdf (db.peers me (sessionKey me)) db.keys ⟨myUid, uid⟩ =
      getPeerKey o kdf (db.names sessionKey me) db.keys ⟨myUid, uid⟩ := by
  have hkey : keyOf kdf (db.peers me (sessionKey me)) ⟨myUid, uid⟩ =
      keyOf kdf (db.names sessionKey me) ⟨myUid, uid⟩ := by
    show ((db.bridgeTab uid).map _).bind _ = ((db.bridgeTab uid).map _).bind _
    cases db.bridgeTab uid <;> rfl
  rw [getPeerKey, getPeerKey, hkey]

theorem NodeInv.recvSyncRequest (ho : o.Lawful) (h : NodeInv o kdf sessionKey me db)
    (session cnonce : Nonce) :
    NodeInv o kdf sessionKey me
        (db.recvSyncRequest o kdf me (sessionKey me) session cnonce).1 ∧
      ∀ m ∈ (db.recvSyncRequest o kdf me (sessionKey me) session cnonce).2,
        Genuine kdf sessionKey m := by
  rw [NodeDB.recvSyncRequest]
  have hnone : NodeInv o kdf sessionKey me ((db, none) : NodeDB τ × Option PeerMsg).1 ∧
      ∀ m ∈ ((db, none) : NodeDB τ × Option PeerMsg).2, Genuine kdf sessionKey m :=
    ⟨h, fun m hm => nomatch hm⟩
  cases hnode : db.nodeHt session with
  | none => exact hnone
  | some uid =>
  dsimp only
  cases hn : db.bridgeTab uid with
  | none => exact hnone
  | some n =>
  dsimp only
  split_ifs with hauth
  swap
  · exact hnone
  rw [getPeerKey_peers]
  obtain ⟨hkey, hkept⟩ := getPeerKey_spec ho h.kept ⟨myUid, uid⟩
  cases hget : getPeerKey o kdf (db.names sessionKey me) db.keys ⟨myUid, uid⟩ with
  | none => exact hnone
  | some r =>
    have htmp : r.1 = kdf (sessionKey me) me n.nonce := by
      rw [hget, keyOf_names, hn] at hkey
      exact Option.some.inj hkey
    refine ⟨⟨h.sound, h.below, h.listed, h.named, hkept r hget⟩, fun m hm => ?_⟩
    obtain rfl := Option.some.inj hm
    refine ⟨rfl, fun sess hsess => ?_⟩
    obtain rfl := Option.some.inj hsess
    refine ⟨n.peerKey, h.sound hn, ?_⟩
    show encryptKeyNonce r.1 cnonce n.peerKey = encryptKeyNonce (kdf (sessionKey me) me n.nonce)
      cnonce n.peerKey
    rw [htmp]

/-- What is deciphered with the key of the sender is the key that was enciphered. -/
theorem decodePeerMsg_sound {fromN : Peer} {m : PeerMsg} {sess : Digest × Nonce}
    {userN : Option Peer} {key : Digest} (hm : Genuine kdf sessionKey m)
    (hsess : m.sessKey = some sess) (hsrc : fromN.nonce = m.src)
    (hfrom : fromN.peerKey = sessionKey m.src)
    (hdec : NodeDB.decodePeerMsg kdf fromN m sess userN = some key) :
    Sound sessionKey m.session key := by
  obtain ⟨key', hkey', henc⟩ := hm.key sess hsess
  have hdecrypt : decryptKeyNonce (kdf fromN.peerKey fromN.nonce m.session) sess.2 sess.1 =
      key' := by
    rw [hfrom, hsrc, henc, decryptKeyNonce_encryptKeyNonce]
  have hkey : key = key' := by
    unfold NodeDB.decodePeerMsg at hdec
    cases userN with
    | none => exact (Option.some.inj hdec).symm.trans hdecrypt
    | some n =>
      dsimp only at hdec
      split_ifs at hdec
      exact (Option.some.inj hdec).symm.trans hdecrypt
  rw [hkey]
  exact hkey'

theorem NodeInv.makePeerSession (h : NodeInv o kdf sessionKey me db) {fromN : Peer} {m : PeerMsg}
    {sess : Digest × Nonce} {uid : Option UInt32} (hm : Genuine kdf sessionKey m)
    (hsess : m.sessKey = some sess) (hsrc : fromN.nonce = m.src)
    (hfrom : fromN.peerKey = sessionKey m.src)
    (huid : ∀ u ∈ uid, db.find m.session = some u) :
    NodeInv o kdf sessionKey me (db.makePeerSession kdf fromN m sess uid).1 := by
  rw [NodeDB.makePeerSession]
  cases hdec : NodeDB.decodePeerMsg kdf fromN m sess (uid.bind db.bridgeTab) with
  | none => exact h
  | some key =>
    have hkey := decodePeerMsg_sound hm hsess hsrc hfrom hdec
    cases uid with
    | some u =>
      refine h.setKey fun n hn => ?_
      rw [h.find_named (huid u rfl) hn]
      exact hkey
    | none =>
      obtain ⟨hadd, hnew⟩ := h.addUser m.session
      dsimp only
      rcases hu : db.addUser m.session with ⟨db', _ | u⟩
      · rw [hu] at hadd
        exact hadd
      · rw [hu] at hadd hnew
        refine hadd.setKey fun n hn => ?_
        obtain rfl := Option.some.inj ((hnew u rfl).symm.trans hn)
        exact hkey

theorem NodeInv.joinUp (h : NodeInv o kdf sessionKey me db) (uid : Option UInt32)
    (keyed early : Bool) : NodeInv o kdf sessionKey me (db.joinUp uid keyed early) := by
  unfold NodeDB.joinUp
  cases uid with
  | none => exact h
  | some u =>
    dsimp only
    cases db.bridgeTab u with
    | none => exact h
    | some n =>
      dsimp only
      split_ifs
      · exact h.addAuthenticated u early
      · exact h

theorem NodeInv.recvPeerAdd (h : NodeInv o kdf sessionKey me db) {fromN : Peer} {m : PeerMsg}
    (early : Bool) (hm : Genuine kdf sessionKey m) (hsrc : fromN.nonce = m.src)
    (hfrom : fromN.peerKey = sessionKey m.src) :
    NodeInv o kdf sessionKey me (db.recvPeerAdd kdf fromN m early) := by
  rw [NodeDB.recvPeerAdd]
  dsimp only
  split_ifs with hmy hbye hauth
  · exact h
  · exact h
  · exact h
  · cases hsess : m.sessKey with
    | none => exact h.joinUp _ _ _
    | some sess =>
      refine NodeInv.joinUp (h.makePeerSession hm hsess hsrc hfrom fun u hu => ?_) _ _ _
      obtain ⟨n, -, hu⟩ := Option.bind_eq_some_iff.1 hu
      exact hu

/-- Only what the named node made passes the test of the signature. -/
theorem NodeInv.onMsg (h : NodeInv o kdf sessionKey me db) {m : PeerMsg} (early : Bool)
    (hm : Sent kdf sessionKey m) : NodeInv o kdf sessionKey me (db.onMsg kdf m early) := by
  rw [NodeDB.onMsg]
  cases hfrom : (db.nodeHt m.src).bind db.bridgeTab with
  | none => exact h
  | some fromN =>
    dsimp only
    split_ifs with hverify
    swap
    · exact h
    obtain ⟨-, hsigned⟩ := (Bool.and_eq_true _ _).mp hverify
    have hsigned : m.signed = fromN.peerKey := eq_of_beq hsigned
    obtain ⟨uid, huid, hn⟩ := Option.bind_eq_some_iff.1 hfrom
    have hsrc : fromN.nonce = m.src := h.named (.inl huid) hn
    rcases hm with hgen | ⟨hzero, hforeign⟩
    · exact h.recvPeerAdd early hgen hsrc (hsigned.symm.trans hgen.signed)
    · rcases h.sound hn with hkey | hkey
      · exact absurd (hsigned.trans hkey) (hforeign _)
      · exact absurd (hsigned.trans hkey) hzero

/-! ## §6 Runs -/

variable (o kdf sessionKey) in
structure MeshInv (s : Mesh τ) : Prop where
  node : ∀ i, NodeInv o kdf sessionKey i (s.node i)
  sent : ∀ m ∈ s.sent, Sent kdf sessionKey m

theorem MeshInv.set {s : Mesh τ} (h : MeshInv o kdf sessionKey s) {i : Nonce} {db : NodeDB τ}
    (hdb : NodeInv o kdf sessionKey i db) : MeshInv o kdf sessionKey (s.set i db) where
  node := by
    intro j
    show NodeInv o kdf sessionKey j (Function.update s.node i db j)
    by_cases hj : j = i
    · subst hj
      rw [Function.update_self]
      exact hdb
    · rw [Function.update_of_ne hj]
      exact h.node j
  sent := h.sent

theorem MeshInv.send {s : Mesh τ} (h : MeshInv o kdf sessionKey s) {ms : List PeerMsg}
    (hms : ∀ m ∈ ms, Sent kdf sessionKey m) :
    MeshInv o kdf sessionKey { s with sent := s.sent ++ ms } where
  node := h.node
  sent := by
    intro m hm
    rcases List.mem_append.1 hm with hm | hm
    · exact h.sent m hm
    · exact hms m hm

theorem meshInv_init (ho : o.Lawful) : MeshInv o kdf sessionKey (Mesh.init o) where
  node i :=
    { sound := fun h => nomatch h
      below := fun h => nomatch h
      listed := by
        intro nonce uid h
        have h : Function.update (fun _ => none) i (some myUid) nonce = some uid :=
          h.resolve_right fun h => nomatch h
        rcases update_cases h with ⟨-, h⟩ | ⟨-, h⟩
        · obtain rfl := Option.some.inj h
          exact Nat.one_pos
        · cases h
      named := fun _ h => nomatch h
      kept := kept_init ho _ }
  sent := fun m hm => nomatch hm

theorem MeshInv.step (ho : o.Lawful) {s : Mesh τ} (h : MeshInv o kdf sessionKey s) {e : Event}
    (he : e.Unforged sessionKey) (hharm : e.Harmless sessionKey s) :
    MeshInv o kdf sessionKey (step o kdf sessionKey s e) := by
  cases e with
  | heartbeat i j => exact h.set ((h.node i).lookupUser j)
  | challenge i c mine early => exact h.set ((h.node i).recvChallenge early he hharm)
  | remove i uid byeBye => exact h.set ((h.node i).removeAuthenticated uid byeBye)
  | syncRequest i session cnonce =>
    obtain ⟨hnode, hmsg⟩ := (h.node i).recvSyncRequest ho session cnonce
    exact (h.set hnode).send fun m hm => .inl (hmsg m (Option.mem_toList.1 hm))
  | peerAdd i session =>
    refine h.send fun m hm => .inl ?_
    obtain rfl := List.mem_singleton.1 hm
    exact ⟨rfl, fun sess hsess => nomatch hsess⟩
  | inject m =>
    refine h.send fun m' hm' => .inr ?_
    obtain rfl := List.mem_singleton.1 hm'
    exact he
  | deliver i k early =>
    show MeshInv o kdf sessionKey (match s.sent[k]? with | none => s | some m => _)
    cases hk : s.sent[k]? with
    | none => exact h
    | some m => exact h.set ((h.node i).onMsg early (h.sent m (List.mem_of_getElem? hk)))

theorem MeshInv.allSound {s : Mesh τ} (h : MeshInv o kdf sessionKey s) : s.AllSound sessionKey :=
  fun i _ _ hn => (h.node i).sound hn

/-- However keys spread, and whatever the network repeats, loses, delays or makes up: no node
ever has a wrong key of a peer, exactly as long as none comes in a challenge with a wrong
signature. -/
theorem no_wrong_key (ho : o.Lawful) {es : List Event} (hes : ∀ e ∈ es, e.Unforged sessionKey) :
    Run.AllOk (step o kdf sessionKey) (Event.Harmless sessionKey) (Mesh.init o) es ↔
      ∀ k, (run o kdf sessionKey (es.take k)).AllSound sessionKey := by
  have hpre : ∀ s : Mesh τ,
      Run.AllOk (step o kdf sessionKey) (fun _ e => e.Unforged sessionKey) s es := by
    induction es with
    | nil => exact fun _ => trivial
    | cons e es ih =>
      exact fun s => ⟨hes e List.mem_cons_self,
        ih (fun e' he' => hes e' (List.mem_cons_of_mem _ he')) _⟩
  have hbad : ∀ (s : Mesh τ) e, MeshInv o kdf sessionKey s → e.Unforged sessionKey →
      (step o kdf sessionKey s e).AllSound sessionKey → e.Harmless sessionKey s := by
    intro s e h he hgood
    cases e with
    | challenge i c mine early =>
      refine harmless_of_sound early fun uid n hn => hgood i uid n ?_
      show (Function.update s.node i _ i).bridgeTab uid = some n
      rw [Function.update_self]
      exact hn
    | _ => trivial
  exact Run.allOk_iff_good_of_allOk (fun s h => MeshInv.allSound h)
    (fun s e h he hharm => h.step ho he hharm) hbad (meshInv_init ho) (hpre _)

end Proofs

def nonceKey (i : Nonce) : Digest := fun _ => UInt8.ofNat i.toNat

/-- A challenge that is deciphered with the same digest brings the key. -/
theorem recvChallenge_sendChallenge {τ : Type*} {db : NodeDB τ} {src : Nonce} {uid : UInt32}
    {n : Peer} (hfind : db.find src = some uid) (hn : db.bridgeTab uid = some n)
    (hauth : n.authenticated = false) (c key : Digest) (early : Bool) :
    db.recvChallenge (sendChallenge src c key) c early =
      (db.setKey uid key).addAuthenticated uid early := by
  have hverified : ∀ m : Challenge, m.src = src → m.verifySig = true →
      decryptHash c m.authKey = m.signed →
      db.recvChallenge m c early = (db.setKey uid m.signed).addAuthenticated uid early := by
    rintro m rfl hsig hkey
    rw [NodeDB.recvChallenge, hfind]
    dsimp only
    rw [hn]
    dsimp only
    rw [hsig, if_neg (by decide), if_neg (not_not.2 hkey), hauth, hkey]
    rfl
  exact hverified _ rfl rfl (decryptHash_encryptHash c key)

/-- The nodes 1 and 3 read challenges of 2 and 1, after one that is made up. -/
def challenged (c : Digest) : List Event :=
  [.challenge 1 ⟨9, c, false, c⟩ c false, .heartbeat 1 2,
    .challenge 1 (sendChallenge 2 c (nonceKey 2)) c false, .heartbeat 3 1,
    .challenge 3 (sendChallenge 1 c (nonceKey 1)) c false]

/-- Node 1 tells node 3 of node 2, with the key; node 3 loses it and is told again, without. -/
def passedOn : List Event :=
  [.syncRequest 1 2 5, .peerAdd 1 2, .inject ⟨1, 2, none, fun k => UInt8.ofNat k⟩,
    .deliver 3 2 false, .deliver 3 0 false, .remove 3 2 false, .deliver 3 1 false]

/-- Node `i` with the key of the peer `j` at uid 1. -/
def keyed (i j : Nonce) : NodeDB (PeerKeyHash → Option ℕ) :=
  (((NodeDB.init funTab i).lookupUser j).setKey 1 (nonceKey j)).addAuthenticated 1 false

theorem passedOn_bridge (c : Digest) :
    ((run funTab (fun k _ _ => k) nonceKey (challenged c ++ passedOn)).node 3).bridgeTab 2 =
      some ⟨nonceKey 2, 2, true, false, false⟩ := by
  rw [run, List.foldl_append]
  have hkeyed : (challenged c).foldl (step funTab (fun k _ _ => k) nonceKey) (Mesh.init funTab) =
      ((Mesh.init funTab).set 1 (keyed 1 2)).set 3 (keyed 3 1) := by
    simp only [challenged, List.foldl_cons, List.foldl_nil, step]
    rw [recvChallenge_sendChallenge rfl rfl rfl, recvChallenge_sendChallenge rfl rfl rfl]
    simp only [Mesh.set, Function.update_idem]
    rfl
  rw [hkeyed]
  show some (Peer.mk (decryptKeyNonce (nonceKey 1) 5
    (encryptKeyNonce (nonceKey 1) 5 (nonceKey 2))) 2 true false false) = _
  rw [decryptKeyNonce_encryptKeyNonce]

theorem no_wrong_key_passedOn :
    (∀ k, (run funTab (fun k _ _ => k) nonceKey
        ((challenged noKey ++ passedOn).take k)).AllSound nonceKey) ∧
      ((run funTab (fun k _ _ => k) nonceKey (challenged noKey ++ passedOn)).node 3).bridgeTab 2 =
        some ⟨nonceKey 2, 2, true, false, false⟩ := by
  have hmade : ∀ key : UInt8, (fun k => UInt8.ofNat k : Digest) ≠ fun _ => key := by
    intro key h
    have h0 : (0 : UInt8) = key := congrFun h 0
    have h1 : (1 : UInt8) = key := congrFun h 1
    exact absurd (h0.trans h1.symm) (by decide)
  have hes : ∀ e ∈ challenged noKey ++ passedOn, e.Unforged nonceKey := by
    refine List.forall_mem_append.2 ⟨?_, ?_⟩
    · simp only [challenged, List.forall_mem_cons]
      exact ⟨fun h => absurd h (by decide), trivial, fun _ => rfl, trivial, fun _ => rfl,
        List.forall_mem_nil _⟩
    · simp only [passedOn, List.forall_mem_cons]
      exact ⟨trivial, trivial, ⟨hmade 0, fun i => hmade _⟩, trivial, trivial, trivial, trivial,
        List.forall_mem_nil _⟩
  refine ⟨(no_wrong_key lawful_funTab hes).1 ?_, passedOn_bridge noKey⟩
  exact ⟨.inr fun _ _ h => (nomatch h), trivial, .inl rfl, trivial, .inl rfl, trivial, trivial,
    trivial, trivial, trivial, trivial, trivial, trivial⟩

end PeerSession
end Raims
