import Mathlib.Algebra.BigOperators.Group.Finset.Basic
import Mathlib.Data.BitVec
import Raims.LinkState.AdjacencyChange

/-!
# Who is a member (`UserDB`)

The peers of a node and what the node keeps about all of them: the checksum, the
count and the set of the authenticated ones, the two tables from bridge ids to
uids, the count of the ones that sent a heartbeat, and the sums of the seqnos.
Each is updated on its own, by a different line of the source. Heartbeats carry
them, so a node whose summary is off never agrees with its peers again.
-/

namespace Raims

/-! ## Peers -/

/-- `UserNonceState`, each a bit of `state`. -/
inductive UserNonceState where
  | challenge | authenticated | inboxRoute | inRouteList | sentZadd | inHbQueue
  | subsRequest | adjacencyRequest | ping | zombie | dead | ucastUrl | ucastUrlSrc
  | meshUrl | hasHb | isInit | isValid | directLink | meshRequest
deriving DecidableEq

/-- `AuthStage`, in the order of its values. -/
inductive AuthType where
  | none | fromHello | fromHandshake | trust
  | byeHbTimeout | byeBye | byeOrphaned | byeSource | byeDropped | byePing | byeConsole
  | fromAdjResult | fromPeerAdd | fromAddRoute | fromSyncResult
deriving DecidableEq

namespace AuthType

/-- `stage >= AUTH_FROM_ADJ_RESULT` -/
def isIndirect : AuthType → Bool
  | fromAdjResult | fromPeerAdd | fromAddRoute | fromSyncResult => true
  | _ => false

/-- `stage <= AUTH_TRUST` -/
def isKeyExchange : AuthType → Bool
  | none | fromHello | fromHandshake | trust => true
  | _ => false

end AuthType

/-- `UserBridge`, as far as its membership is concerned. -/
structure Member where
  nonce : Nonce
  state : Finset UserNonceState
  lastAuthType : AuthType
  authCount : ℕ
  authMonoTime : ℕ
  removeAuthMono : ℕ
  subSeqno : BitVec 64
  linkStateSeqno : BitVec 64

namespace Member

/-- The bridge that `make_user_bridge` zeroes. -/
def new (nonce : Nonce) : Member := ⟨nonce, ∅, .none, 0, 0, 0, 0, 0⟩

def isSet (n : Member) (s : UserNonceState) : Bool := s ∈ n.state

def set (n : Member) (s : UserNonceState) : Member := { n with state := insert s n.state }

def clear (n : Member) (s : UserNonceState) : Member := { n with state := n.state.erase s }

def secToNs (sec : ℕ) : ℕ := sec * 1000000000

/-- The early returns of `add_authenticated`: a zombie that said bye, or one that is
told of again too soon after it was removed. -/
def refuses (n : Member) (stage : AuthType) (curMono : ℕ) : Bool :=
  n.isSet .zombie &&
    (n.lastAuthType = .byeBye ||
      (stage.isIndirect && decide (0 < n.authMonoTime) &&
        let countdown :=
          if n.removeAuthMono + secToNs 15 > curMono then min 8 n.authCount else 0
        decide (n.authMonoTime + secToNs (countdown * 2) > curMono)))

/-- `last_auth_type`, `auth_count` and `auth_mono_time` of an accepted authentication. -/
def noteAuth (n : Member) (stage : AuthType) (curMono : ℕ) : Member :=
  { n with
    lastAuthType := stage
    authCount := (if stage.isKeyExchange then 0 else n.authCount) + 1
    authMonoTime :=
      if curMono - n.authMonoTime ≥ secToNs 1 then curMono else n.authMonoTime }

@[simp]
theorem isSet_set_self (n : Member) (s : UserNonceState) : (n.set s).isSet s = true :=
  decide_eq_true (Finset.mem_insert_self s n.state)

@[simp]
theorem isSet_clear_self (n : Member) (s : UserNonceState) : (n.clear s).isSet s = false :=
  decide_eq_false (Finset.notMem_erase s n.state)

@[simp]
theorem isSet_set_of_ne (n : Member) {s t : UserNonceState} (h : t ≠ s) :
    (n.set s).isSet t = n.isSet t := by
  simp [set, isSet, h]

@[simp]
theorem isSet_clear_of_ne (n : Member) {s t : UserNonceState} (h : t ≠ s) :
    (n.clear s).isSet t = n.isSet t := by
  simp [clear, isSet, h]

/-- What the peer contributes to the checksum, to the number of those with the bit. -/
def csum (n : Member) : Nonce := if n.isSet .authenticated then n.nonce else 0

def count (n : Member) (s : UserNonceState) : ℕ := if n.isSet s then 1 else 0

end Member

/-! ## The database -/

/-- `UserDB` and the seqnos of `SubDB`. Uids count up from 1; 0 is the node itself. -/
structure MemberDB where
  /-- `bridge_id.nonce` -/
  nonce : Nonce
  nodeHt : UidTable
  zombieHt : UidTable
  bridgeTab : ℕ → Option Member
  nextUid : ℕ
  uidCsum : Nonce
  uidAuthCount : ℕ
  uidHbCount : ℕ
  uidAuthenticated : Finset ℕ
  linkStateSeqno : BitVec 64
  linkStateSum : BitVec 64
  subSeqno : BitVec 64
  subSeqnoSum : BitVec 64

namespace MemberDB

/-- `init` -/
def init (nonce : Nonce) : MemberDB where
  nonce := nonce
  nodeHt := Function.update (fun _ => none) nonce (some 0)
  zombieHt := fun _ => none
  bridgeTab := fun _ => none
  nextUid := 1
  uidCsum := nonce
  uidAuthCount := 0
  uidHbCount := 0
  uidAuthenticated := ∅
  linkStateSeqno := 0
  linkStateSum := 0
  subSeqno := 0
  subSeqnoSum := 0

/-- A write to the bridge of `uid`. -/
def put (db : MemberDB) (uid : ℕ) (n : Member) : MemberDB :=
  { db with bridgeTab := Function.update db.bridgeTab uid (some n) }

/-- `add_user`, `add_user2` -/
def addUser (db : MemberDB) (nonce : Nonce) : MemberDB :=
  { db.put db.nextUid (Member.new nonce) with
    nextUid := db.nextUid + 1
    nodeHt := Function.update db.nodeHt nonce (some db.nextUid) }

/-- `lookup_user`; `peer` says that the message has the fields of a new user and
`find_peer` finds its entry. -/
def lookupUser (db : MemberDB) (nonce : Nonce) (peer : Bool) : MemberDB :=
  match db.nodeHt nonce with
  | some _ => db
  | none =>
    match db.zombieHt nonce with
    | some _ => db
    | none => if peer then db.addUser nonce else db

/-- The user that `decode_peer_msg` finds for the bridge id, `none` when it returns
false. -/
def decodePeerMsg (db : MemberDB) (userN : Option ℕ) (nonce : Nonce) : Option (Option ℕ) :=
  match userN with
  | some uid => some (some uid)
  | none =>
    match (db.nodeHt nonce).or (db.zombieHt nonce) with
    | none => some none
    | some uid =>
      match db.bridgeTab uid with
      | some n => if n.lastAuthType = .byeBye then none else some (some uid)
      | none => if uid = 0 then none else some none

/-- `make_peer_session`; `decoded` says that the rest of `decode_peer_msg` accepts the
message. -/
def makePeerSession (db : MemberDB) (userN : Option ℕ) (nonce : Nonce)
    (decoded : Bool) : MemberDB :=
  match db.decodePeerMsg userN nonce with
  | some none => if decoded then db.addUser nonce else db
  | _ => db

/-- `on_name_svc`; `verified` says that the hello verifies and `find_peer` finds an
entry. -/
def onNameSvc (db : MemberDB) (nonce : Nonce) (verified : Bool) : MemberDB :=
  match (db.nodeHt nonce).or (db.zombieHt nonce) with
  | some _ => db
  | none => if verified then db.addUser nonce else db

/-- `update_link_state_seqno( n.link_state_seqno, .. )`, whose new value has 32 bits. -/
def updateLinkStateSeqno (db : MemberDB) (uid : ℕ) (seqno : BitVec 32) : MemberDB :=
  match db.bridgeTab uid with
  | none => db
  | some n =>
    { db.put uid { n with linkStateSeqno := seqno.setWidth 64 } with
      linkStateSum := db.linkStateSum - n.linkStateSeqno + seqno.setWidth 64 }

/-- `update_sub_seqno( n.sub_seqno, .. )` -/
def updateSubSeqno (db : MemberDB) (uid : ℕ) (seqno : BitVec 32) : MemberDB :=
  match db.bridgeTab uid with
  | none => db
  | some n =>
    { db.put uid { n with subSeqno := seqno.setWidth 64 } with
      subSeqnoSum := db.subSeqnoSum - n.subSeqno + seqno.setWidth 64 }

/-- `update_link_state_seqno( this->link_state_seqno, this->link_state_seqno + 1 )` of
`send_adjacency_change` -/
def nextLinkStateSeqno (db : MemberDB) : MemberDB :=
  let seqno := ((db.linkStateSeqno + 1).setWidth 32).setWidth 64
  { db with
    linkStateSum := db.linkStateSum - db.linkStateSeqno + seqno
    linkStateSeqno := seqno }

/-- `update_sub_seqno( this->sub_seqno, this->sub_seqno + 1 )` of the subscriptions and
patterns that start or stop here. -/
def nextSubSeqno (db : MemberDB) : MemberDB :=
  let seqno := ((db.subSeqno + 1).setWidth 32).setWidth 64
  { db with
    subSeqnoSum := db.subSeqnoSum - db.subSeqno + seqno
    subSeqno := seqno }

/-- Applies `f` to the bridge of `uid`, when there is one. -/
def withBridge (db : MemberDB) (uid : ℕ) (f : MemberDB → ℕ → Member → MemberDB) : MemberDB :=
  match db.bridgeTab uid with
  | none => db
  | some n => f db uid n

/-- The zombie of `add_authenticated` that is a peer again. -/
def reanimate (db : MemberDB) (uid : ℕ) (n : Member) : MemberDB :=
  if n.isSet .zombie then
    { db.put uid (n.clear .zombie) with
      zombieHt := Function.update db.zombieHt n.nonce none
      nodeHt := Function.update db.nodeHt n.nonce (some uid) }
  else db

/-- The part of `add_authenticated` under `! n.test_set( AUTHENTICATED_STATE )`. -/
def authenticate (db : MemberDB) (uid : ℕ) (n : Member) : MemberDB :=
  if n.isSet .authenticated then db
  else
    { db.put uid (n.set .authenticated) with
      uidCsum := db.uidCsum ^^^ n.nonce
      uidAuthenticated := insert uid db.uidAuthenticated
      uidAuthCount := db.uidAuthCount + 1 }

/-- `add_authenticated`. `synced` are the link states that `add_unknown_adjacency`
brings up to date, `change` says that `adjacency_change` is sent. -/
def addAuthenticated (db : MemberDB) (uid : ℕ) (stage : AuthType) (curMono : ℕ)
    (synced : List (ℕ × BitVec 32)) (change : Bool) : MemberDB :=
  match db.bridgeTab uid with
  | none => db
  | some n =>
    if n.refuses stage curMono then db
    else
      let db := db.put uid (n.noteAuth stage curMono)
      let db := db.withBridge uid reanimate
      let db := db.withBridge uid authenticate
      let db := synced.foldl (fun db p => db.updateLinkStateSeqno p.1 p.2) db
      if change then db.nextLinkStateSeqno else db

/-- The part of `remove_authenticated` under `n.test_clear( AUTHENTICATED_STATE )`. -/
def deauthenticate (db : MemberDB) (uid : ℕ) (n : Member) (curMono : ℕ) : MemberDB :=
  if n.isSet .authenticated then
    { db.put uid { n.clear .authenticated with removeAuthMono := curMono } with
      uidAuthenticated := db.uidAuthenticated.erase uid
      uidAuthCount := db.uidAuthCount - 1
      uidCsum := db.uidCsum ^^^ n.nonce }
  else db

/-- `n.test_clear( HAS_HB_STATE )` -/
def clearHb (db : MemberDB) (uid : ℕ) (n : Member) : MemberDB :=
  if n.isSet .hasHb then
    { db.put uid (n.clear .hasHb) with uidHbCount := db.uidHbCount - 1 }
  else db

/-- The tables and the state at the end of `remove_authenticated`. -/
def bury (db : MemberDB) (uid : ℕ) (n : Member) : MemberDB :=
  { db.put uid { n with state := {.zombie} } with
    nodeHt := Function.update db.nodeHt n.nonce none
    zombieHt :=
      if n.isSet .zombie then db.zombieHt
      else Function.update db.zombieHt n.nonce (some uid) }

/-- `remove_authenticated` -/
def removeAuthenticated (db : MemberDB) (uid : ℕ) (bye : AuthType) (curMono : ℕ)
    (change : Bool) : MemberDB :=
  let db := db.withBridge uid fun db uid n => db.put uid { n with lastAuthType := bye }
  let db := db.withBridge uid fun db uid n => db.deauthenticate uid n curMono
  let db := db.withBridge uid clearHb
  let db := db.updateSubSeqno uid 0
  let db := db.updateLinkStateSeqno uid 0
  let db := db.withBridge uid bury
  if change then db.nextLinkStateSeqno else db

/-- `on_heartbeat`; `ok` is `FRAME_STATUS_OK`, `stranger` the return for a peer that is
not the one connected. -/
def onHeartbeat (db : MemberDB) (uid : ℕ) (ok stranger : Bool) : MemberDB :=
  db.withBridge uid fun db uid n =>
    if ok && n.isSet .authenticated && !stranger && !n.isSet .hasHb then
      { db.put uid (n.set .hasHb) with uidHbCount := db.uidHbCount + 1 }
    else db

/-- The body of the loop of `check_uid_csum`. -/
def addCsum (db : MemberDB) (csum : Nonce) (uid : ℕ) : Nonce :=
  match db.bridgeTab uid with
  | none => csum
  | some n => if n.isSet .authenticated then csum ^^^ n.nonce else csum

/-- The checksum that `check_uid_csum` computes anew. -/
def checkCsum (db : MemberDB) : Nonce :=
  (List.range' 1 (db.nextUid - 1)).foldl db.addCsum db.nonce

/-- `check_uid_csum` -/
def checkUidCsum (db : MemberDB) (peerCsum : Nonce) : MemberDB :=
  if db.uidCsum = peerCsum then db
  else if db.checkCsum ≠ db.uidCsum then { db with uidCsum := db.checkCsum }
  else db

/-- The bits that only the functions above write. -/
def Summarised (s : UserNonceState) : Bool :=
  s = .authenticated || s = .zombie || s = .hasHb

/-- The other bits come and go with the routes and the queues. -/
def mark (db : MemberDB) (uid : ℕ) (s : UserNonceState) (on : Bool) : MemberDB :=
  if Summarised s then db
  else db.withBridge uid fun db uid n => db.put uid (if on then n.set s else n.clear s)

/-! ## Runs -/

inductive Event where
  | lookupUser (nonce : Nonce) (peer : Bool)
  | makePeerSession (userN : Option ℕ) (nonce : Nonce) (decoded : Bool)
  | onNameSvc (nonce : Nonce) (verified : Bool)
  | addAuthenticated (uid : ℕ) (stage : AuthType) (curMono : ℕ)
      (synced : List (ℕ × BitVec 32)) (change : Bool)
  | removeAuthenticated (uid : ℕ) (bye : AuthType) (curMono : ℕ) (change : Bool)
  | onHeartbeat (uid : ℕ) (ok stranger : Bool)
  | checkUidCsum (peerCsum : Nonce)
  | linkState (uid : ℕ) (seqno : BitVec 32)
  | subs (uid : ℕ) (seqno : BitVec 32)
  | ownLinkState
  | ownSubs
  | mark (uid : ℕ) (s : UserNonceState) (on : Bool)

def step (db : MemberDB) : Event → MemberDB
  | .lookupUser nonce peer => db.lookupUser nonce peer
  | .makePeerSession userN nonce decoded => db.makePeerSession userN nonce decoded
  | .onNameSvc nonce verified => db.onNameSvc nonce verified
  | .addAuthenticated uid stage curMono synced change =>
    db.addAuthenticated uid stage curMono synced change
  | .removeAuthenticated uid bye curMono change => db.removeAuthenticated uid bye curMono change
  | .onHeartbeat uid ok stranger => db.onHeartbeat uid ok stranger
  | .checkUidCsum peerCsum => db.checkUidCsum peerCsum
  | .linkState uid seqno => db.updateLinkStateSeqno uid seqno
  | .subs uid seqno => db.updateSubSeqno uid seqno
  | .ownLinkState => db.nextLinkStateSeqno
  | .ownSubs => db.nextSubSeqno
  | .mark uid s on => db.mark uid s on

def run (nonce : Nonce) (es : List Event) : MemberDB := es.foldl step (init nonce)

/-! ## What the summaries are about -/

/-- The uids of the peers whose state has the bit. -/
def inState (db : MemberDB) (s : UserNonceState) : Finset ℕ :=
  (Finset.range db.nextUid).filter fun uid => (db.bridgeTab uid).any (·.isSet s)

def nonceOf (db : MemberDB) (uid : ℕ) : Nonce := (db.bridgeTab uid).elim 0 Member.nonce

def linkStateSeqnoOf (db : MemberDB) (uid : ℕ) : BitVec 64 :=
  (db.bridgeTab uid).elim 0 Member.linkStateSeqno

def subSeqnoOf (db : MemberDB) (uid : ℕ) : BitVec 64 :=
  (db.bridgeTab uid).elim 0 Member.subSeqno

/-- Every summary is the one computed anew from the peers. -/
structure Summarizes (db : MemberDB) : Prop where
  bridgeTab : ∀ {uid n}, db.bridgeTab uid = some n → 0 < uid ∧ uid < db.nextUid
  uidCsum : db.uidCsum =
    (db.inState .authenticated).fold (fun x y : Nonce => x ^^^ y) db.nonce db.nonceOf
  uidAuthCount : db.uidAuthCount = (db.inState .authenticated).card
  uidAuthenticated : db.uidAuthenticated = db.inState .authenticated
  nodeHt : ∀ {uid n}, db.bridgeTab uid = some n →
    db.nodeHt n.nonce = if n.isSet .zombie then none else some uid
  zombieHt : ∀ {uid n}, db.bridgeTab uid = some n →
    db.zombieHt n.nonce = if n.isSet .zombie then some uid else none
  uidHbCount : db.uidHbCount = (db.inState .hasHb).card
  linkStateSum : db.linkStateSum =
    db.linkStateSeqno + ∑ uid ∈ Finset.range db.nextUid, db.linkStateSeqnoOf uid
  subSeqnoSum : db.subSeqnoSum =
    db.subSeqno + ∑ uid ∈ Finset.range db.nextUid, db.subSeqnoOf uid

/-- What the steps keep: the summaries, and that the tables name only peers, and the
node itself in `node_ht`. -/
structure Inv (db : MemberDB) : Prop extends Summarizes db where
  pos : 0 < db.nextUid
  own : db.nodeHt db.nonce = some 0
  nodeHt_back : ∀ {nonce uid}, db.nodeHt nonce = some uid →
    uid = 0 ∨ ∃ n, db.bridgeTab uid = some n
  zombieHt_back : ∀ {nonce uid}, db.zombieHt nonce = some uid →
    ∃ n, db.bridgeTab uid = some n

end MemberDB

end Raims
