import Raims.LinkState.AdjacencyChange

/-!
# The routes of the peers (`UserRoute`, `TransportRoute`, `AdjChangeList`)

A peer has one route per transport. A route that is in the list of its socket
and has no hops is a link of this node: `uid_connected` of the transport has the
peer, and each time a link comes or goes a record is queued in
`adjacency_change`, which `send_adjacency_change` turns into a message for the
other peers.
-/

namespace Raims

/-- `kv::PeerId`: a socket; the file descriptor alone may be in use again. -/
structure PeerId where
  fd : ℕ
  serial : ℕ
deriving DecidableEq

/-! ## Counted sets (`BitRefCount`) -/

/-- `BitRefCount`: one bit for the first reference, the others in a table. -/
structure BitRefCount where
  bits : Finset ℕ
  ht : ℕ → Option ℕ

namespace BitRefCount

def empty : BitRefCount := ⟨∅, fun _ => none⟩

/-- `ref`: one reference more, and the value the code returns. -/
def ref (r : BitRefCount) (i : ℕ) : BitRefCount × ℕ :=
  if i ∉ r.bits then ({ r with bits := insert i r.bits }, 0)
  else
    match r.ht i with
    | some val => ({ r with ht := Function.update r.ht i (some ((val + 1) % 2 ^ 32)) }, val)
    | none => ({ r with ht := Function.update r.ht i (some 1) }, 1)

/-- `deref`: one reference less, and the value the code returns. -/
def deref (r : BitRefCount) (i : ℕ) : BitRefCount × ℕ :=
  match r.ht i with
  | some val =>
    ({ r with ht := Function.update r.ht i (if val = 1 then none else some (val - 1)) }, val)
  | none =>
    if i ∈ r.bits then ({ r with bits := r.bits.erase i }, 0) else (r, 2 ^ 32 - 1)

end BitRefCount

/-! ## Routes and transports -/

/-- `UserRoute`, less the urls and the counters. -/
structure UserRoute where
  /-- socket of the peer, or of the transport if it is multicast -/
  mcast : PeerId
  /-- `IS_VALID_STATE` -/
  isValid : Bool
  /-- `DIRECT_LINK_STATE` -/
  directLink : Bool
  /-- `IN_ROUTE_LIST_STATE` -/
  inRouteList : Bool
  listId : ℕ

namespace UserRoute

def NO_HOPS : ℕ := 2 ^ 32 - 1

def hops (r : UserRoute) : ℕ :=
  if r.isValid then if r.directLink then 0 else 1 else NO_HOPS

def connected (r : UserRoute) (hops : ℕ) : UserRoute :=
  { r with isValid := true, directLink := hops = 0 }

def invalidate (r : UserRoute) : UserRoute :=
  { r with isValid := false, directLink := false, inRouteList := false }

end UserRoute

/-- `TransportRoute`, as far as the routes of the peers change it. The members of
a mesh, or of a device, are counted over all its transports. -/
structure TransportRoute where
  tport : Text
  type : Text
  meshId : Option ℕ
  devId : Option ℕ
  uidConnected : AdjacencySpace
  connectedAuth : Finset ℕ
  oldestUid : ℕ

/-- What the routes need to know of a `UserBridge`. -/
structure PeerBridge where
  nonce : Nonce
  startTime : ℕ

/-- `UserRouteList`: the routes, by uid and transport, that use one socket. -/
structure UserRouteList where
  list : List (ℕ × ℕ)
  sysRouteRefs : ℕ

/-- `AdjChange`. -/
structure AdjChange where
  uid : ℕ
  tportid : ℕ
  seqno : ℕ
  add : Bool
deriving DecidableEq

/-- `AdjChangeList::append`: a record that is queued already is not queued again. -/
def appendChange (list : List AdjChange) (p : AdjChange) : List AdjChange :=
  if ∃ q ∈ list, q.uid = p.uid ∧ q.tportid = p.tportid ∧ q.add = p.add then list
  else list ++ [p]

/-- The part of `UserDB` that holds the routes. -/
structure SourceRoutes where
  /-- `poll.sock` -/
  sock : ℕ → Option PeerId
  nonce : Nonce
  startTime : ℕ
  bridgeTab : ℕ → Option PeerBridge
  /-- `user_route_ptr( tport )` of each peer -/
  route : ℕ → ℕ → UserRoute
  tportCount : ℕ
  transportTab : ℕ → TransportRoute
  routeList : ℕ → UserRouteList
  uidInMesh : ℕ → BitRefCount
  meshCsum : ℕ → Nonce
  uidInDevice : ℕ → BitRefCount
  adjacencyChange : List AdjChange
  linkStateSeqno : ℕ

namespace SourceRoutes

variable (s : SourceRoutes) (uid t : ℕ)

def peerNonce : Nonce := (s.bridgeTab uid).elim 0 PeerBridge.nonce

def peerStartTime : ℕ := (s.bridgeTab uid).elim 0 PeerBridge.startTime

def modifyTport (f : TransportRoute → TransportRoute) : SourceRoutes :=
  { s with transportTab := Function.update s.transportTab t (f (s.transportTab t)) }

def modifyRoute (f : UserRoute → UserRoute) : SourceRoutes :=
  { s with
    route := Function.update s.route uid (Function.update (s.route uid) t (f (s.route uid t))) }

def modifyList (fd : ℕ) (f : UserRouteList → UserRouteList) : SourceRoutes :=
  { s with routeList := Function.update s.routeList fd (f (s.routeList fd)) }

/-- `is_peer_sock_valid`. -/
def isPeerSockValid (pid : PeerId) : Bool := s.sock pid.fd = some pid

/-! ### A link comes -/

/-- The count of the peer in the mesh or the device of the transport. -/
def refShared : SourceRoutes :=
  match (s.transportTab t).meshId, (s.transportTab t).devId with
  | some m, _ =>
    let r := (s.uidInMesh m).ref uid
    { s with
      uidInMesh := Function.update s.uidInMesh m r.1
      meshCsum :=
        if r.2 = 0 then Function.update s.meshCsum m (s.meshCsum m ^^^ s.peerNonce uid)
        else s.meshCsum }
  | none, some d =>
    { s with uidInDevice := Function.update s.uidInDevice d ((s.uidInDevice d).ref uid).1 }
  | none, none => s

/-- `uid_connected.test_set( uid )` and the record queued if it was not set. -/
def connectUid : SourceRoutes :=
  let set := (s.transportTab t).uidConnected
  if uid ∈ set.members then s
  else
    { s.modifyTport t fun rte =>
        { rte with uidConnected := { set with members := insert uid set.members } } with
      adjacencyChange := appendChange s.adjacencyChange ⟨uid, t, s.linkStateSeqno + 1, true⟩ }

/-- `sys_route_refs++ == 0` on the list of socket `fd`. -/
def refSysRoute (fd : ℕ) : SourceRoutes :=
  let refs := (s.routeList fd).sysRouteRefs
  let s := s.modifyList fd fun l => { l with sysRouteRefs := (refs + 1) % 2 ^ 32 }
  if refs = 0 then
    s.modifyTport t fun rte => { rte with connectedAuth := insert fd rte.connectedAuth }
  else s

/-- `oldest_uid` with the new link taken into account. -/
def addOldest : SourceRoutes :=
  let oldest := (s.transportTab t).oldestUid
  if s.peerStartTime uid < s.startTime ∧ s.peerStartTime uid ≠ 0 ∧
      (oldest = 0 ∨ s.peerStartTime uid < s.peerStartTime oldest) then
    s.modifyTport t fun rte => { rte with oldestUid := uid }
  else s

/-- `push_connected_user_route`, less the bloom of the socket. -/
def pushConnectedUserRoute : SourceRoutes :=
  (((s.refShared uid t).connectUid uid t).refSysRoute t (s.route uid t).listId).addOldest uid t

/-- `push_user_route`. -/
def pushUserRoute : SourceRoutes :=
  let r := s.route uid t
  if ¬ r.isValid ∨ ¬ s.isPeerSockValid r.mcast then s
  else if r.inRouteList then s
  else
    let fd := r.mcast.fd
    let s := s.modifyRoute uid t fun r => { r with inRouteList := true, listId := fd }
    let s := s.modifyList fd fun l => { l with list := l.list ++ [(uid, t)] }
    if r.hops = 0 then s.pushConnectedUserRoute uid t else s

/-- `set_connected_user_route`; a valid socket is never above `maxfd`. -/
def setConnectedUserRoute : SourceRoutes :=
  let r := s.route uid t
  if ¬ r.isValid ∨ ¬ s.isPeerSockValid r.mcast then s
  else if ¬ r.inRouteList then s.pushUserRoute uid t
  else if r.hops = 0 then s
  else
    let fd := r.mcast.fd
    let s :=
      if r.listId ≠ fd then
        let s := s.modifyList r.listId fun l => { l with list := l.list.erase (uid, t) }
        let s := s.modifyList fd fun l => { l with list := l.list ++ [(uid, t)] }
        s.modifyRoute uid t fun r => { r with listId := fd }
      else s
    let s := s.modifyRoute uid t fun r => r.connected 0
    s.pushConnectedUserRoute uid t

/-! ### A link goes -/

def derefShared : SourceRoutes :=
  match (s.transportTab t).meshId, (s.transportTab t).devId with
  | some m, _ =>
    let r := (s.uidInMesh m).deref uid
    { s with
      uidInMesh := Function.update s.uidInMesh m r.1
      meshCsum :=
        if r.2 = 0 then Function.update s.meshCsum m (s.meshCsum m ^^^ s.peerNonce uid)
        else s.meshCsum }
  | none, some d =>
    { s with uidInDevice := Function.update s.uidInDevice d ((s.uidInDevice d).deref uid).1 }
  | none, none => s

/-- `uid_connected.test_clear( uid )` and the record queued if it was set. -/
def disconnectUid : SourceRoutes :=
  let set := (s.transportTab t).uidConnected
  if uid ∉ set.members then s
  else
    { s.modifyTport t fun rte =>
        { rte with
          uidConnected :=
            { set with
              members := set.members.erase uid
              remUid := if set.remUid = uid then 0 else set.remUid
              remTportId := if set.remUid = uid then 0 else set.remTportId } } with
      adjacencyChange := appendChange s.adjacencyChange ⟨uid, t, s.linkStateSeqno + 1, false⟩ }

/-- `--sys_route_refs == 0` on the list of socket `fd`. -/
def derefSysRoute (fd : ℕ) : SourceRoutes :=
  let refs := ((s.routeList fd).sysRouteRefs + (2 ^ 32 - 1)) % 2 ^ 32
  let s := s.modifyList fd fun l => { l with sysRouteRefs := refs }
  if refs = 0 then
    s.modifyTport t fun rte => { rte with connectedAuth := rte.connectedAuth.erase fd }
  else s

/-- The search for the oldest of the links that are left, in the order of uids. -/
def findOldest (uids : List ℕ) : ℕ × ℕ :=
  uids.foldl (fun best u =>
    if s.peerStartTime u ≠ 0 ∧ s.peerStartTime u < best.2 then (u, s.peerStartTime u)
    else best) (0, s.startTime)

def removeOldest : SourceRoutes :=
  if (s.transportTab t).oldestUid = uid then
    s.modifyTport t fun rte =>
      { rte with oldestUid := (s.findOldest (BitSpace.toList rte.uidConnected.members)).1 }
  else s

/-- `pop_user_route`, less the bloom of the socket and the shutdown of the
point-to-point peer of a multicast transport. -/
def popUserRoute : SourceRoutes :=
  let r := s.route uid t
  if r.inRouteList then
    let s := s.modifyRoute uid t fun r => { r with inRouteList := false }
    let s := s.modifyList r.listId fun l => { l with list := l.list.erase (uid, t) }
    let s :=
      if r.hops = 0 then
        (((s.derefShared uid t).disconnectUid uid t).derefSysRoute t r.listId).removeOldest uid t
      else s
    s.modifyRoute uid t UserRoute.invalidate
  else s

/-! ### The routes of a peer over all transports -/

/-- The loop body of `push_source_route`. -/
def pushSourceStep : SourceRoutes :=
  let r := s.route uid t
  if r.isValid then
    if s.isPeerSockValid r.mcast then s.pushUserRoute uid t else s.popUserRoute uid t
  else s

def pushSourceRoute : SourceRoutes :=
  (List.range s.tportCount).foldl (fun s i => s.pushSourceStep uid i) s

/-- The loop body of `pop_source_route`. -/
def popSourceStep : SourceRoutes :=
  if (s.route uid t).isValid then s.popUserRoute uid t else s

def popSourceRoute : SourceRoutes :=
  (List.range s.tportCount).foldl (fun s i => s.popSourceStep uid i) s

/-! ### The message -/

/-- The record of a change; `last` is the transport of the record before it, whose
names are not sent again. -/
def adjacencyRec (last : Option ℕ) (p : AdjChange) : AdjacencyRec :=
  let rte := s.transportTab p.tportid
  let set := rte.uidConnected
  let rem := p.add && set.remTportId ≠ 0
  { nonce := some ((s.bridgeTab p.uid).elim s.nonce PeerBridge.nonce)
    tportName := if last = some p.tportid then [] else rte.tport
    tportType := if last = some p.tportid then [] else rte.type
    tportid := some p.tportid
    cost := set.cost
    remBridge :=
      if rem ∧ p.uid ≠ set.remUid then (s.bridgeTab set.remUid).map PeerBridge.nonce else none
    remTportid := if rem then some set.remTportId else none
    add := p.add }

def adjacencyRecs : Option ℕ → List AdjChange → List AdjacencyRec
  | _, [] => []
  | last, p :: ps => s.adjacencyRec last p :: adjacencyRecs (some p.tportid) ps

/-- `send_adjacency_change`: the state, and the link state and the records of the
message. -/
def sendAdjacencyChange : SourceRoutes × ℕ × List AdjacencyRec :=
  let seqno := (s.linkStateSeqno + 1) % 2 ^ 32
  ({ s with linkStateSeqno := seqno, adjacencyChange := [] }, seqno,
    s.adjacencyRecs none s.adjacencyChange)

end SourceRoutes

end Raims
