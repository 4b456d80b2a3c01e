import Raims.Lib.PrioQueue
import Raims.User.Members

/-!
# The queues of peers that wait (`UserDB`)

Six priority queues hold the peers that a heartbeat, an answer or a pong is expected
from, in the order of the times at which that is late. A bit of the state of a peer
says that it is in a queue, and the queue has a pointer to it, so its key is read from
the peer whenever the heap compares. Bits, times and queues are written by the
authentication, the heartbeats, the requests and their results, the removal of a peer
and the timer that empties the queues.

`kv::PrioQueue` is a parameter. Times are nanoseconds of the monotonic clock, which
each call reads once.
-/

namespace Raims

/-- The queues of `UserDB`. -/
inductive QueueId where
  | hb | challenge | subs | adj | mesh | ping
deriving DecidableEq

namespace QueueId

/-- The bit of `UserNonceState` that says of a peer that it is in the queue. -/
def bit : QueueId → UserNonceState
  | hb => .inHbQueue
  | challenge => .challenge
  | subs => .subsRequest
  | adj => .adjacencyRequest
  | mesh => .meshRequest
  | ping => .ping

def all : List QueueId := [hb, challenge, subs, adj, mesh, ping]

theorem bit_injective : Function.Injective bit := by
  intro q q' h
  cases q <;> cases q' <;> first | rfl | cases h

@[simp]
theorem bit_inj {q q' : QueueId} : q.bit = q'.bit ↔ q = q' := bit_injective.eq_iff

end QueueId

/-! ## Peers -/

/-- `ThrottleState` -/
structure ThrottleState where
  monoTime : ℕ
  reqCount : ℕ

namespace ThrottleState

/-- The time before which `throttle_request` asks for no other request. -/
def nextMono (t : ThrottleState) : ℕ := t.monoTime + 10000000 * 2 ^ t.reqCount

/-- The request that `throttle_request` lets through, `inc` being 1. -/
def note (t : ThrottleState) (now : ℕ) : ThrottleState :=
  ⟨now, if t.reqCount < 9 then t.reqCount + 1 else t.reqCount⟩

end ThrottleState

/-- `UserBridge`, as far as the queues are concerned. -/
structure QueuedBridge where
  state : Finset UserNonceState
  hbMonoTime : ℕ
  hbInterval : ℕ
  hbSeqno : ℕ
  challengeMonoTime : ℕ
  challengeCount : ℕ
  subsMonoTime : ℕ
  adjReqThrottle : ThrottleState
  meshReqThrottle : ThrottleState
  pingMonoTime : ℕ
  pingFailCount : ℕ
  primaryRoute : ℕ

namespace QueuedBridge

/-- The bridge that is zeroed, with `HB_DEFAULT_INTERVAL`. -/
def new : QueuedBridge where
  state := ∅
  hbMonoTime := 0
  hbInterval := 10
  hbSeqno := 0
  challengeMonoTime := 0
  challengeCount := 0
  subsMonoTime := 0
  adjReqThrottle := ⟨0, 0⟩
  meshReqThrottle := ⟨0, 0⟩
  pingMonoTime := 0
  pingFailCount := 0
  primaryRoute := 0

def isSet (n : QueuedBridge) (s : UserNonceState) : Bool := s ∈ n.state

def set (n : QueuedBridge) (s : UserNonceState) : QueuedBridge :=
  { n with state := insert s n.state }

def clear (n : QueuedBridge) (s : UserNonceState) : QueuedBridge :=
  { n with state := n.state.erase s }

/-- `hb_timeout`, `challenge_timeout`, `subs_timeout`, `adj_timeout`, `mesh_timeout`,
`ping_timeout`. The interval has 32 bits and is what the peer sent. -/
def timeout (n : QueuedBridge) : QueueId → ℕ
  | .hb => (n.hbMonoTime + Member.secToNs ((n.hbInterval + 1) % 2 ^ 32) * 2) % 2 ^ 64
  | .challenge => n.challengeMonoTime + Member.secToNs (2 ^ min n.challengeCount 7)
  | .subs => n.subsMonoTime + Member.secToNs 5
  | .adj => n.adjReqThrottle.monoTime + Member.secToNs 5
  | .mesh => n.meshReqThrottle.monoTime + Member.secToNs 5
  | .ping => n.pingMonoTime + Member.secToNs 5

/-- `throttle_request` -/
def throttled (n : QueuedBridge) (q : QueueId) (t : ThrottleState) (now : ℕ) : Bool :=
  n.isSet q.bit || decide (now ≤ t.nextMono)

end QueuedBridge

/-! ## The database -/

/-- `UserDB`, its bridges by uid and its queues. `rekeyed` is not in the source: it has
the queue and the peer of each write that changed a deadline inside the queue. -/
structure QueueDB where
  bridge : ℕ → QueuedBridge
  heap : QueueId → List ℕ
  rekeyed : List (QueueId × ℕ)

namespace QueueDB

def init : QueueDB := ⟨fun _ => .new, fun _ => [], []⟩

/-- The order of a queue: `is_heartbeat_older` and the others. -/
def key (db : QueueDB) (q : QueueId) : ℕ → ℕ := fun uid => (db.bridge uid).timeout q

/-- A write to the bridge of `uid`. -/
def modify (db : QueueDB) (uid : ℕ) (f : QueuedBridge → QueuedBridge) : QueueDB :=
  { db with
    bridge := Function.update db.bridge uid (f (db.bridge uid))
    rekeyed := db.rekeyed ++ (QueueId.all.filter fun q =>
      uid ∈ db.heap q ∧ (f (db.bridge uid)).timeout q ≠ (db.bridge uid).timeout q).map (·, uid) }

variable (o : PrioQueue ℕ)

def push (db : QueueDB) (q : QueueId) (uid : ℕ) : QueueDB :=
  { db with heap := Function.update db.heap q (o.push (db.key q) (db.heap q) uid) }

def pop (db : QueueDB) (q : QueueId) : QueueDB :=
  { db with heap := Function.update db.heap q (o.pop (db.key q) (db.heap q)) }

def remove (db : QueueDB) (q : QueueId) (uid : ℕ) : QueueDB :=
  { db with heap := Function.update db.heap q (o.remove (db.key q) (db.heap q) uid) }

/-- The bit is set, the peer given its time by `f` and pushed. -/
def enter (db : QueueDB) (q : QueueId) (uid : ℕ) (f : QueuedBridge → QueuedBridge) : QueueDB :=
  (db.modify uid fun n => f (n.set q.bit)).push o q uid

/-- `test_clear` of the bit and the `remove` under it, with what `f` does between them. -/
def leave (db : QueueDB) (q : QueueId) (uid : ℕ) (f : QueuedBridge → QueuedBridge) : QueueDB :=
  if (db.bridge uid).isSet q.bit then
    (db.modify uid fun n => f (n.clear q.bit)).remove o q uid
  else db

/-! ### Requests and their results -/

/-- The request of `send_subs_request` and `send_bloom_request`. -/
def sendSubsRequest (db : QueueDB) (uid now : ℕ) : QueueDB :=
  if (db.bridge uid).isSet .subsRequest then db
  else db.enter o .subs uid fun n => { n with subsMonoTime := now }

def recvBloomResult (db : QueueDB) (uid : ℕ) : QueueDB := db.leave o .subs uid id

def sendAdjacencyRequest (db : QueueDB) (uid now : ℕ) : QueueDB :=
  let n := db.bridge uid
  if n.throttled .adj n.adjReqThrottle now then db
  else db.enter o .adj uid fun n => { n with adjReqThrottle := n.adjReqThrottle.note now }

/-- `send_mesh_request`, from where it calls `throttle_mesh`. -/
def sendMeshRequest (db : QueueDB) (uid now : ℕ) : QueueDB :=
  let n := db.bridge uid
  if n.throttled .mesh n.meshReqThrottle now then db
  else db.enter o .mesh uid fun n => { n with meshReqThrottle := n.meshReqThrottle.note now }

def recvMeshResult (db : QueueDB) (uid : ℕ) : QueueDB := db.leave o .mesh uid id

def recvPongResult (db : QueueDB) (uid : ℕ) : QueueDB :=
  db.leave o .ping uid fun n => { n with pingFailCount := 0 }

/-! ### Peers come and go -/

/-- `add_inbox_route`, from where it has the primary route: there may be none. -/
def addInboxRoute (db : QueueDB) (uid : ℕ) (primary : Option ℕ) (now : ℕ) : QueueDB :=
  match primary with
  | none => db
  | some tport =>
    if (db.bridge uid).primaryRoute = tport then db
    else
      let db := db.modify uid fun n => { n with primaryRoute := tport, hbSeqno := 0 }
      if (db.bridge uid).isSet .inHbQueue then
        ((db.modify uid fun n => { n with hbMonoTime := now }).remove o .hb uid).push o .hb uid
      else db

/-- What `add_authenticated` is told: if it returns early (`Member.refuses`), the fields
`FID_UPTIME` and `FID_INTERVAL`, and the route that is the primary one. -/
structure Session where
  refused : Bool
  uptime : Option ℕ
  interval : Option ℕ
  primary : Option ℕ

/-- `hb_interval` and `hb_mono_time` of `add_authenticated`. -/
def Session.hbTimes (s : Session) (now : ℕ) (n : QueuedBridge) : QueuedBridge :=
  match s.uptime, s.interval with
  | some uptime, some ival =>
    { n with
      hbInterval := ival
      hbMonoTime :=
        if ival = 0 then now else (now + 2 ^ 64 - uptime % Member.secToNs ival) % 2 ^ 64 }
  | _, _ => n

def addAuthenticated (db : QueueDB) (uid : ℕ) (s : Session) (now : ℕ) : QueueDB :=
  if s.refused then db
  else
    let db := db.modify uid (·.clear .zombie)
    if (db.bridge uid).isSet .authenticated then db
    else
      (db.modify uid fun n => s.hbTimes now (n.set .authenticated)).addInboxRoute o uid
        s.primary now

def removeAuthenticated (db : QueueDB) (uid : ℕ) : QueueDB :=
  let db := db.modify uid (·.clear .authenticated)
  let db := db.modify uid (·.clear .hasHb)
  let db := db.leave o .hb uid id
  let db := db.leave o .challenge uid fun n => { n with challengeCount := 0 }
  let db := db.leave o .subs uid id
  let db := db.leave o .adj uid id
  let db := db.leave o .mesh uid id
  let db := db.leave o .ping uid id
  db.modify uid fun n =>
    { n with pingFailCount := 0, hbSeqno := 0, state := {.zombie}, primaryRoute := 0 }

/-- `recv_adjacency_result`: `sync` is the zombie that the result is about, and `newer`
says that the link state or the subscriptions of the result are. -/
def recvAdjacencyResult (db : QueueDB) (uid : ℕ) (sync : Option (ℕ × Session)) (newer : Bool)
    (now : ℕ) : QueueDB :=
  let db := db.leave o .adj uid id
  let db := sync.elim db fun p => db.addAuthenticated o p.1 p.2 now
  if newer then
    db.modify uid fun n => { n with adjReqThrottle := { n.adjReqThrottle with reqCount := 0 } }
  else db

/-! ### Authentication -/

/-- `send_challenge` -/
def sendChallenge (db : QueueDB) (uid now : ℕ) : QueueDB :=
  db.modify uid fun n => { n with challengeMonoTime := now }

/-- The challenge is sent, and timed if none is. -/
def challenge (db : QueueDB) (uid now : ℕ) : QueueDB :=
  let db := db.sendChallenge uid now
  if (db.bridge uid).isSet .challenge then db
  else db.enter o .challenge uid fun n => { n with challengeCount := n.challengeCount + 1 }

/-- A message of `on_inbox_auth`. `fields`: it has the fields of the exchange; `known`: it
answers a heartbeat or a challenge of `auth`; `newer`: its sender started after this
node; `verified`: `recv_challenge` accepts it; `sync`: it tells of a newer link state or
newer subscriptions. -/
structure AuthMsg where
  stage : AuthType
  fields : Bool
  known : Bool
  newer : Bool
  verified : Bool
  session : Session
  sync : Bool

/-- The retry of stage 1 for an answer to a challenge that is not known. -/
def retry (db : QueueDB) (uid : ℕ) (m : AuthMsg) (now : ℕ) : QueueDB :=
  if m.newer ∧ (db.bridge uid).challengeCount < 5 then
    (db.modify uid fun n => { n with challengeCount := n.challengeCount + 1 }).sendChallenge uid now
  else db

/-- The end of `on_inbox_auth`. -/
def authDone (db : QueueDB) (uid : ℕ) (m : AuthMsg) (now : ℕ) : QueueDB :=
  if (db.bridge uid).isSet .authenticated then
    let db := if m.sync then db.sendAdjacencyRequest o uid now else db
    if (db.bridge uid).isSet .inHbQueue then db else db.enter o .hb uid id
  else db

/-- A verified stage 1 or 2 makes the sender a member. -/
def authenticate (db : QueueDB) (uid : ℕ) (m : AuthMsg) (now : ℕ) : QueueDB :=
  if (db.bridge uid).isSet .authenticated then db
  else db.addAuthenticated o uid m.session now

def onInboxAuth (db : QueueDB) (uid : ℕ) (m : AuthMsg) (now : ℕ) : QueueDB :=
  match m.stage with
  | .fromHello =>
    if m.fields ∧ m.known ∧ m.verified then
      ((db.authenticate o uid m now).challenge o uid now).authDone o uid m now
    else db
  | .fromHandshake =>
    if m.fields then
      if m.known then
        if m.verified then (db.authenticate o uid m now).authDone o uid m now else db
      else db.retry uid m now
    else db
  | .trust => db.authDone o uid m now
  | _ => db

/-! ### Heartbeats -/

/-- A message of `on_heartbeat`. `ok` is `FRAME_STATUS_OK`, `stranger` the return for a
peer that is not the one connected, `reconnect` the primary route for a peer whose own is
not valid, `challenges` says if it is to be challenged, `sync` and `meshSync` if the node
asks for what the peer has. -/
structure Heartbeat where
  seqno : ℕ
  interval : ℕ
  tportId : ℕ
  ok : Bool
  stranger : Bool
  reconnect : Option ℕ
  challenges : Bool
  sync : Bool
  meshSync : Bool

namespace Heartbeat

variable (m : Heartbeat) (n : QueuedBridge)

/-- The return for a member that is not the one connected. -/
def isStranger : Bool := m.ok && n.isSet .authenticated && m.stranger

/-- `! n.test_set( HAS_HB_STATE )` of a member. -/
def isFirst : Bool := m.ok && n.isSet .authenticated && !n.isSet .hasHb

/-- The return for a heartbeat that is not verified and not on the primary route. -/
def isOffRoute : Bool := n.primaryRoute != m.tportId && !m.ok

/-- What a heartbeat that is newer writes to the bridge. -/
def note (now : ℕ) : QueuedBridge :=
  { n with hbSeqno := m.seqno, hbInterval := m.interval, hbMonoTime := now }

end Heartbeat

/-- The first heartbeat of a member. -/
def firstHb (db : QueueDB) (uid : ℕ) (m : Heartbeat) (now : ℕ) : QueueDB :=
  if m.isFirst (db.bridge uid) then
    (db.modify uid (·.set .hasHb)).addInboxRoute o uid m.reconnect now
  else db

/-- `seqno > n.hb_seqno` -/
def newHb (db : QueueDB) (uid : ℕ) (m : Heartbeat) (now : ℕ) : QueueDB :=
  if m.seqno > (db.bridge uid).hbSeqno then
    let db := db.modify uid fun n => m.note n now
    let n := db.bridge uid
    if m.challenges ∧ ¬ (n.isSet .authenticated ∨ n.isSet .challenge) then
      db.challenge o uid now
    else db
  else db

/-- The member is put behind the others in `hb_queue`. -/
def requeueHb (db : QueueDB) (uid : ℕ) : QueueDB :=
  if (db.bridge uid).isSet .inHbQueue then (db.remove o .hb uid).push o .hb uid
  else db.enter o .hb uid id

def onHeartbeat (db : QueueDB) (uid : ℕ) (m : Heartbeat) (now : ℕ) : QueueDB :=
  if m.isStranger (db.bridge uid) then db
  else
    let db := db.firstHb o uid m now
    if m.isOffRoute (db.bridge uid) then db
    else
      let db := db.newHb o uid m now
      if m.ok ∧ (db.bridge uid).isSet .authenticated then
        let db := db.requeueHb o uid
        let db := if m.sync then db.sendAdjacencyRequest o uid now else db
        if m.meshSync then db.sendMeshRequest o uid now else db
      else db

/-! ### The timer -/

/-- A loop of `check_user_timeout`: the head of the queue is taken by `f` as long as it is
due. -/
def expireLoop (q : QueueId) (now : ℕ) (f : QueueDB → ℕ → QueueDB) : ℕ → QueueDB → QueueDB
  | 0, db => db
  | fuel + 1, db =>
    match db.heap q with
    | [] => db
    | uid :: _ =>
      if now < (db.bridge uid).timeout q then db
      else expireLoop q now f fuel (f db uid)

/-- The loop takes each member once. -/
def expire (q : QueueId) (now : ℕ) (f : QueueDB → ℕ → QueueDB) (db : QueueDB) : QueueDB :=
  expireLoop q now f (db.heap q).length db

/-- The bit is cleared and the head popped. -/
def popHead (db : QueueDB) (q : QueueId) (uid : ℕ) : QueueDB :=
  (db.modify uid (·.clear q.bit)).pop o q

def subsExpired (db : QueueDB) (uid : ℕ) : QueueDB := db.popHead o .subs uid

def adjExpired (now : ℕ) (db : QueueDB) (uid : ℕ) : QueueDB :=
  let db := db.popHead o .adj uid
  if (db.bridge uid).isSet .authenticated ∧ ¬ (db.bridge uid).isSet .ping then
    db.enter o .ping uid fun n => { n with pingMonoTime := now }
  else db

def meshExpired (db : QueueDB) (uid : ℕ) : QueueDB :=
  (db.pop o .mesh).modify uid (·.clear .meshRequest)

/-- The peer is pinged again, or dropped: `unknownEmpty` is
`adjacency_unknown.is_empty()`. -/
def pingExpired (now : ℕ) (unknownEmpty : Bool) (db : QueueDB) (uid : ℕ) : QueueDB :=
  let db := db.pop o .ping
  if ¬ (db.bridge uid).isSet .authenticated then db.modify uid (·.clear .ping)
  else
    let db := db.modify uid fun n => { n with pingFailCount := n.pingFailCount + 1 }
    if 6 < (db.bridge uid).pingFailCount ∧ unknownEmpty then
      (db.modify uid (·.clear .ping)).removeAuthenticated o uid
    else (db.modify uid fun n => { n with pingMonoTime := now }).push o .ping uid

def hbExpired (db : QueueDB) (uid : ℕ) : QueueDB :=
  (db.popHead o .hb uid).removeAuthenticated o uid

def challengeExpired (db : QueueDB) (uid : ℕ) : QueueDB :=
  let db := db.popHead o .challenge uid
  if (db.bridge uid).isSet .authenticated then
    db.modify uid fun n => { n with challengeCount := 0 }
  else db

/-- The loops of `check_user_timeout`. Between those of the pings and of the heartbeats,
`process_pending_peer` and `process_unknown_adjacency` have a queue of their own. -/
def expireAll (db : QueueDB) (now : ℕ) (unknownEmpty : Bool) : QueueDB :=
  let db := db.expire .subs now (subsExpired o)
  let db := db.expire .adj now (adjExpired o now)
  let db := db.expire .mesh now (meshExpired o)
  let db := db.expire .ping now (pingExpired o now unknownEmpty)
  let db := db.expire .hb now (hbExpired o)
  db.expire .challenge now (challengeExpired o)

/-- What other functions call, `find_inconsistent` and `find_adjacent_routes` among them,
which `check_user_timeout` ends with. -/
inductive Call where
  | sendAdjacencyRequest (uid : ℕ)
  | addInboxRoute (uid : ℕ) (primary : Option ℕ)
  | removeAuthenticated (uid : ℕ)

def call (db : QueueDB) (c : Call) (now : ℕ) : QueueDB :=
  match c with
  | .sendAdjacencyRequest uid => db.sendAdjacencyRequest o uid now
  | .addInboxRoute uid primary => db.addInboxRoute o uid primary now
  | .removeAuthenticated uid => db.removeAuthenticated o uid

/-- `check_user_timeout`: `calls` are those of its end, each with the time since `now` at
which it is made. -/
def checkUserTimeout (db : QueueDB) (now : ℕ) (unknownEmpty : Bool)
    (calls : List (Call × ℕ)) : QueueDB :=
  calls.foldl (fun db c => db.call o c.1 (now + c.2)) (db.expireAll o now unknownEmpty)

/-! ## Runs -/

inductive Event where
  | call (c : Call) (now : ℕ)
  | sendSubsRequest (uid now : ℕ)
  | recvBloomResult (uid : ℕ)
  | recvAdjacencyResult (uid : ℕ) (sync : Option (ℕ × Session)) (newer : Bool) (now : ℕ)
  | sendMeshRequest (uid now : ℕ)
  | recvMeshResult (uid : ℕ)
  | recvPongResult (uid : ℕ)
  | addAuthenticated (uid : ℕ) (s : Session) (now : ℕ)
  | onInboxAuth (uid : ℕ) (m : AuthMsg) (now : ℕ)
  | onHeartbeat (uid : ℕ) (m : Heartbeat) (now : ℕ)
  | checkUserTimeout (now : ℕ) (unknownEmpty : Bool) (calls : List (Call × ℕ))

def step (db : QueueDB) : Event → QueueDB
  | .call c now => db.call o c now
  | .sendSubsRequest uid now => db.sendSubsRequest o uid now
  | .recvBloomResult uid => db.recvBloomResult o uid
  | .recvAdjacencyResult uid sync newer now => db.recvAdjacencyResult o uid sync newer now
  | .sendMeshRequest uid now => db.sendMeshRequest o uid now
  | .recvMeshResult uid => db.recvMeshResult o uid
  | .recvPongResult uid => db.recvPongResult o uid
  | .addAuthenticated uid s now => db.addAuthenticated o uid s now
  | .onInboxAuth uid m now => db.onInboxAuth o uid m now
  | .onHeartbeat uid m now => db.onHeartbeat o uid m now
  | .checkUserTimeout now unknownEmpty calls => db.checkUserTimeout o now unknownEmpty calls

/-! ## What is to hold -/

/-- Each queue has the peers with its bit, once. -/
def Counted (db : QueueDB) : Prop :=
  ∀ q uid, (db.heap q).count uid = if (db.bridge uid).isSet q.bit then 1 else 0

/-- The peers of a queue that are late. -/
def due (db : QueueDB) (now : ℕ) (q : QueueId) : List ℕ :=
  PrioQueue.due (db.key q) now (db.heap q)

end QueueDB

end Raims
