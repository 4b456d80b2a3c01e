import Raims.LinkState.AdjacencyMsg
import Raims.Msg.MsgDraft

/-!
# The builders of messages

What every function that builds a message reserves and writes, in the order of the
source. The message that tells a peer that it is trusted writes the unicast url of the
peer without reserving it, and fits only when the other fields leave the room; all
others fit for any values.
-/

namespace Raims

open Bytes

/-! ## §1 The databases inside of messages -/

/-- A user of `mesh_db` or `ucast_db`: one with a valid route that has a url. -/
structure UrlUser where
  uid : ℕ
  user : List UInt8
  nonce : Octets 16
  url : List UInt8
  urlHash : UInt32

/-- `UrlDBFilter`, without the counters. -/
structure UrlDBFilter where
  exceptUid : ℕ
  hash : List UInt32
  invertMatch : Bool

namespace UrlDBFilter

/-- A filter that is not made from a message. -/
def except (uid : ℕ) : UrlDBFilter := ⟨uid, [], false⟩

/-- `filter_hash`. -/
def filterHash (f : UrlDBFilter) (h : UInt32) : Bool :=
  if h ∈ f.hash then !f.invertMatch else f.invertMatch

variable (f : UrlDBFilter)

/-- The users that are returned; `return_count` is their number. -/
def returned (users : List UrlUser) : List UrlUser :=
  users.filter fun x => !f.filterHash x.urlHash && x.uid ≠ f.exceptUid

def urlFields (url : MsgFid) (x : UrlUser) : List Fld :=
  [.b MsgFid.user.code x.user, .n MsgFid.bridge.code x.nonce, .b url.code x.url]

def urlSize (url : MsgFid) (x : UrlUser) : ℕ :=
  estFields [.bridge] [(.user, x.user.length), (url, x.url.length)]

/-- `mesh_db_submsg`. -/
def meshDbSubmsg (users : List UrlUser) : List Fld :=
  (f.returned users).flatMap (urlFields .meshUrl)

/-- `mesh_db_size`; `requested` says that `request_count` is not zero. -/
def meshDbSize (requested : Bool) (users : List UrlUser) : ℕ :=
  if f.returned users = [] ∧ ¬ requested then 0
  else submsgEst [] [] + ((f.returned users).map (urlSize .meshUrl)).sum

/-- The entry of the node itself in `ucast_db`. -/
def own (self : UrlUser) : List UrlUser := if f.filterHash self.urlHash then [] else [self]

/-- `ucast_db_submsg`. -/
def ucastDbSubmsg (self : UrlUser) (users : List UrlUser) : List Fld :=
  (f.own self ++ f.returned users).flatMap (urlFields .ucastUrl)

/-- `ucast_db_size`. The node itself is not counted, so its entry alone is not sent. -/
def ucastDbSize (requested : Bool) (self : UrlUser) (users : List UrlUser) : ℕ :=
  if f.returned users = [] ∧ ¬ requested then 0
  else submsgEst [] [] + ((f.own self ++ f.returned users).map (urlSize .ucastUrl)).sum

theorem length_urlFields_le {url : MsgFid} (h : url = .meshUrl ∨ url = .ucastUrl)
    (users : List UrlUser) :
    ((users.flatMap (urlFields url)).flatMap Fld.bytes).length ≤ (users.map (urlSize url)).sum := by
  refine (Fld.length_flatMap_le _).trans ?_
  induction users with
  | nil => exact le_refl 0
  | cons x users ih =>
    rw [List.flatMap_cons, Fld.caps_append, List.map_cons, List.sum_cons]
    refine Nat.add_le_add ?_ ih
    rcases h with rfl | rfl <;>
      simp only [urlFields, urlSize, Fld.caps_cons, Fld.caps_nil, Fld.cap, estFields, fidEst,
        fidEstLen, List.map_cons, List.map_nil, List.sum_cons, List.sum_nil] <;> omega

theorem meshDbSize_ne_zero (requested : Bool) {users : List UrlUser} (h : f.returned users ≠ []) :
    f.meshDbSize requested users ≠ 0 := by
  unfold meshDbSize submsgEst
  rw [if_neg fun h0 => h h0.1]
  omega

theorem length_meshDbSubmsg_le {requested : Bool} {users : List UrlUser}
    (h : f.meshDbSize requested users ≠ 0) :
    6 + ((f.meshDbSubmsg users).flatMap Fld.bytes).length ≤ f.meshDbSize requested users := by
  have hle := length_urlFields_le (.inl rfl) (f.returned users)
  unfold meshDbSize at h ⊢
  split
  · rename_i h0
    exact absurd (if_pos h0) h
  · exact Nat.add_le_add_left hle 6

theorem length_ucastDbSubmsg_le {requested : Bool} {self : UrlUser} {users : List UrlUser}
    (h : f.ucastDbSize requested self users ≠ 0) :
    6 + ((f.ucastDbSubmsg self users).flatMap Fld.bytes).length ≤
      f.ucastDbSize requested self users := by
  have hle := length_urlFields_le (.inr rfl) (f.own self ++ f.returned users)
  unfold ucastDbSize at h ⊢
  split
  · rename_i h0
    exact absurd (if_pos h0) h
  · exact Nat.add_le_add_left hle 6

end UrlDBFilter

/-- A peer of `peer_db`: an authenticated one other than the receiver. -/
structure PeerDbUser where
  nonce : Octets 16
  user : List UInt8
  subSeqno : UInt64
  linkState : UInt64
  hops : UInt32
  hbSkew : UInt64
  hostId : UInt32

namespace PeerDbUser

def fields (isAdjReq : Bool) (x : PeerDbUser) : List Fld :=
  [.n MsgFid.bridge.code x.nonce, .b MsgFid.user.code x.user, .u MsgFid.subSeqno.code x.subSeqno,
    .u MsgFid.linkState.code x.linkState] ++
    if isAdjReq then []
    else [.i MsgFid.hops.code x.hops, .u MsgFid.hbSkew.code x.hbSkew,
      .i MsgFid.hostId.code x.hostId]

def size (isAdjReq : Bool) (x : PeerDbUser) : ℕ :=
  estFields [.bridge, .subSeqno, .linkState] [(.user, x.user.length)] +
    if isAdjReq then 0 else estFields [.hops, .hbSkew, .hostId] []

/-- `peer_db_submsg`. -/
def peerDbSubmsg (isAdjReq : Bool) (users : List PeerDbUser) : List Fld :=
  users.flatMap (fields isAdjReq)

/-- `peer_db_size`. -/
def peerDbSize (isAdjReq : Bool) (users : List PeerDbUser) : ℕ :=
  submsgEst [] [] + (users.map (size isAdjReq)).sum

theorem length_peerDbSubmsg_le (isAdjReq : Bool) (users : List PeerDbUser) :
    6 + ((peerDbSubmsg isAdjReq users).flatMap Fld.bytes).length ≤ peerDbSize isAdjReq users := by
  refine Nat.add_le_add_left ((Fld.length_flatMap_le _).trans ?_) 6
  unfold peerDbSubmsg
  induction users with
  | nil => exact le_refl 0
  | cons x users ih =>
    rw [List.flatMap_cons, Fld.caps_append, List.map_cons, List.sum_cons]
    refine Nat.add_le_add ?_ ih
    cases isAdjReq <;> simp [fields, size, Fld.cap, estFields, fidEst, fidEstLen] <;> omega

end PeerDbUser

/-- A change of `adjacency_change` with what is sent of it. `remBridge` is none when the
user is the remote end itself or the remote user has no bridge. -/
structure AdjChangeRec where
  tportid : UInt32
  add : Bool
  cost : AdjCost
  tport : List UInt8
  tportType : List UInt8
  user : List UInt8
  bridge : Octets 16
  remBridge : Option (Octets 16)
  remTportid : UInt32

namespace AdjChangeRec

/-- The remote end, of a user that is added. -/
def remFields (p : AdjChangeRec) : List Fld :=
  if p.add ∧ p.remTportid ≠ 0 then
    (p.remBridge.map (Fld.n MsgFid.remBridge.code)).toList ++
      [.i MsgFid.remTportid.code p.remTportid]
  else []

def fields (changed : Bool) (p : AdjChangeRec) : List Fld :=
  [.i MsgFid.tportid.code p.tportid, .y MsgFid.linkAdd.code p.add.toUInt8,
    .b MsgFid.adjCost.code p.cost.str] ++
    (if changed then [.b MsgFid.tport.code p.tport, .b MsgFid.tportType.code p.tportType] else []) ++
    [.b MsgFid.user.code p.user, .n MsgFid.bridge.code p.bridge] ++ p.remFields

def size (p : AdjChangeRec) : ℕ :=
  estFields [.tportid, .linkAdd, .bridge, .remBridge, .remTportid]
    [(.adjCost, p.cost.str.length), (.tport, p.tport.length), (.tportType, p.tportType.length),
      (.user, p.user.length)]

/-- The loop of `send_adjacency_change`; the first `last` is no transport. -/
def loop : UInt32 → List AdjChangeRec → List Fld
  | _, [] => []
  | last, p :: ps => p.fields (last ≠ p.tportid) ++ loop p.tportid ps

def submsg (ps : List AdjChangeRec) : List Fld := loop (-1) ps

def submsgSize (ps : List AdjChangeRec) : ℕ := submsgEst [] [] + (ps.map size).sum

theorem caps_remFields_le (p : AdjChangeRec) : Fld.caps p.remFields ≤ 24 := by
  unfold remFields
  split
  · cases p.remBridge <;> simp [Fld.cap]
  · exact Nat.zero_le _

theorem caps_fields_le (changed : Bool) (p : AdjChangeRec) :
    Fld.caps (p.fields changed) ≤ p.size := by
  have hrem := p.caps_remFields_le
  unfold fields size
  cases changed <;> simp [Fld.cap, estFields, fidEst, fidEstLen] <;> omega

theorem caps_loop_le (ps : List AdjChangeRec) (last : UInt32) :
    Fld.caps (loop last ps) ≤ (ps.map size).sum := by
  induction ps generalizing last with
  | nil => exact le_refl 0
  | cons p ps ih =>
    rw [loop, Fld.caps_append, List.map_cons, List.sum_cons]
    exact Nat.add_le_add (p.caps_fields_le _) (ih _)

theorem length_submsg_le (ps : List AdjChangeRec) :
    6 + ((submsg ps).flatMap Fld.bytes).length ≤ submsgSize ps :=
  Nat.add_le_add_left ((Fld.length_flatMap_le _).trans (caps_loop_le ps _)) 6

end AdjChangeRec

/-! ## §2 The drafts -/

/-- The kind of a transport, as far as `send_trusted` looks at it. -/
inductive TportKind where
  | mesh | mcast | other
deriving DecidableEq

/-- What a trust message sends of the urls that a transport has. -/
structure UrlDBs where
  /-- the uid of the peer, which is left out -/
  uid : ℕ
  meshUsers : List UrlUser
  self : UrlUser
  ucastUsers : List UrlUser

namespace UrlDBs

def meshLen (u : UrlDBs) (inMesh : Bool) : ℕ :=
  if inMesh then (UrlDBFilter.except u.uid).meshDbSize false u.meshUsers else 0

def ucastLen (u : UrlDBs) (isMcast : Bool) : ℕ :=
  if isMcast then (UrlDBFilter.except u.uid).ucastDbSize false u.self u.ucastUsers else 0

def putMesh (u : UrlDBs) : List (Bool × Part) :=
  putSub .meshDb ((UrlDBFilter.except u.uid).meshDbSubmsg u.meshUsers)

def putUcast (u : UrlDBs) : List (Bool × Part) :=
  putSub .ucastDb ((UrlDBFilter.except u.uid).ucastDbSubmsg u.self u.ucastUsers)

end UrlDBs

namespace Draft

variable (v : Vals)

/-! ### Authentication -/

def sendChallenge (isAdvertised : Bool) : Draft where
  reserves := ests [.userHmac, .seqno, .version, .time, .uptime, .interval, .subSeqno, .linkState,
    .authSeqno, .authTime, .authKey, .cnonce, .pubkey, .authStage, .user, .create, .expires, .start,
    .ucastUrl, .meshUrl, .adjCost, .tportid, .tport, .hostId, .pkSig]
  writes := puts [.userHmac, .seqno, .time, .uptime, .interval, .subSeqno, .linkState, .authSeqno,
      .authTime, .authKey, .cnonce, .pubkey, .authStage, .user, .create, .expires, .start,
      .version] ++
    putIf (v.str .ucastUrl ≠ []) (puts [.ucastUrl]) ++
    putIf (v.str .meshUrl ≠ []) (puts [.meshUrl]) ++
    putIf isAdvertised (puts [.adjCost]) ++
    puts [.tportid, .tport, .hostId, .pkSig]

/-- The message of `send_trusted` for the transport of the peer. -/
def sendTrusted (inMesh isMcast isAdvertised : Bool) (u : UrlDBs) : Draft where
  reserves := ests [.seqno, .time, .uptime, .interval, .subSeqno, .linkState, .authStage, .start,
      .adjCost, .tportid, .tport, .hostId, .meshUrl] ++
    [.submsg .meshDb (u.meshLen inMesh), .submsg .ucastDb (u.ucastLen isMcast)]
  writes := puts [.seqno, .time, .uptime, .interval, .subSeqno, .linkState, .authStage, .start] ++
    putIf isAdvertised (puts [.adjCost]) ++
    puts [.tportid, .tport, .hostId] ++
    putIf (u.meshLen inMesh ≠ 0 ∧ v.str .meshUrl ≠ []) (puts [.meshUrl] ++ u.putMesh) ++
    putIf (u.ucastLen isMcast ≠ 0 ∧ v.str .ucastUrl ≠ []) (puts [.ucastUrl] ++ u.putUcast)

/-- The message of `send_trusted` for another transport that the peer is on. -/
def sendTrustedTport (kind : TportKind) (isAdvertised : Bool) (u : UrlDBs) : Draft where
  reserves := ests [.seqno, .time, .authStage, .start, .adjCost, .tportid, .tport, .meshUrl] ++
    [.submsg .meshDb (u.meshLen (kind = .mesh))] ++ ests [.ucastUrl] ++
    [.submsg .ucastDb (u.ucastLen (kind = .mcast))]
  writes := puts [.seqno, .time, .authStage, .start] ++
    putIf isAdvertised (puts [.adjCost]) ++
    puts [.tportid, .tport, .hostId] ++
    putIf (u.meshLen (kind = .mesh) ≠ 0 ∧ v.str .meshUrl ≠ []) (puts [.meshUrl] ++ u.putMesh) ++
    putIf (u.ucastLen (kind = .mcast) ≠ 0 ∧ v.str .ucastUrl ≠ [])
      (puts [.ucastUrl] ++ u.putUcast)

/-! ### Heartbeats -/

def makeHb (isBye isHello isMesh isAdvertised hasSock hasPathLimit : Bool) : Draft where
  reserves := ests [.userHmac, .seqno, .time, .uptime, .start, .interval, .cnonce, .pubkey,
    .subSeqno, .linkState, .subSeqnoSum, .linkStateSum, .converge, .uidCnt, .uidCsum, .meshCsum,
    .user, .create, .expires, .ucastUrl, .meshUrl, .adjCost, .tportid, .tport, .hostId, .ms,
    .pathLimit, .version, .pkDigest]
  writes := puts [.userHmac, .seqno, .time, .uptime, .start] ++
    putIf (!isBye)
      (puts [.interval, .cnonce, .pubkey, .subSeqno, .subSeqnoSum, .user, .create] ++
        putIf (v.str .expires ≠ []) (puts [.expires]) ++
        putIf (!isHello)
          (puts [.linkState, .linkStateSum, .converge, .uidCnt, .uidCsum] ++
            putIf isMesh (puts [.meshCsum])) ++
        putIf (v.str .ucastUrl ≠ []) (puts [.ucastUrl]) ++
        putIf (v.str .meshUrl ≠ []) (puts [.meshUrl]) ++
        putIf isAdvertised (puts [.adjCost]) ++
        puts [.tportid, .tport, .hostId] ++
        putIf hasSock (puts [.ms]) ++
        putIf hasPathLimit (puts [.pathLimit]) ++
        puts [.version]) ++
    puts [.pkDigest]

/-- `hasLoss`: a service has lost messages; `otherHost`: its host is another one. -/
def sendPingRequest (hasLoss isRestart otherHost : Bool) : Draft where
  reserves := ests [.seqno, .stamp, .subSeqno, .linkState, .idlService, .idlMsgLoss, .idlRestart,
    .hostId]
  writes := puts [.seqno, .stamp, .subSeqno, .linkState] ++
    putIf hasLoss
      (puts [.idlService, .idlMsgLoss] ++ putIf isRestart (puts [.idlRestart]) ++
        putIf otherHost (puts [.hostId]))

def mcastSync : Draft where
  reserves := ests [.seqno, .stamp, .subSeqno, .linkState, .subSeqnoSum, .linkStateSum]
  writes := puts [.seqno, .stamp, .subSeqno, .linkState, .subSeqnoSum, .linkStateSum]

def recvMcastSyncRequest : Draft where
  reserves := ests [.seqno, .stamp, .replyStamp, .token, .subSeqno, .linkState, .subSeqnoSum,
    .linkStateSum]
  writes := puts [.seqno, .stamp, .replyStamp] ++
    putIf (v.num .token ≠ 0) (puts [.token]) ++
    puts [.subSeqno, .linkState, .subSeqnoSum, .linkStateSum]

def recvPingRequest (isRestart : Bool) : Draft where
  reserves := ests [.seqno, .stamp, .replyStamp, .tportid, .token, .idlService, .idlMsgLoss,
    .idlRestart]
  writes := puts [.seqno, .stamp, .replyStamp, .tportid] ++
    putIf (v.num .token ≠ 0) (puts [.token]) ++
    putIf (v.short .idlService ≠ 0)
      (puts [.idlService, .idlMsgLoss] ++ putIf isRestart (puts [.idlRestart]))

def sendNameAdvert (noInbox isMesh isListen : Bool) : Draft where
  reserves := ests [.userHmac, .seqno, .stamp, .start, .ret, .hostId, .user, .create, .expires,
    .tport, .tportType, .meshUrl, .connUrl, .pkDigest]
  writes := puts [.userHmac, .seqno, .stamp, .start] ++
    putIf noInbox (puts [.ret]) ++
    puts [.hostId, .user, .create] ++
    putIf (v.str .expires ≠ []) (puts [.expires]) ++
    puts [.tport, .tportType] ++
    putIf isMesh (puts [.meshUrl]) ++
    putIf (!isMesh && isListen) (puts [.connUrl]) ++
    puts [.pkDigest]

/-! ### Link state -/

def sendAdjacencyChange (changes : List AdjChangeRec) : Draft where
  reserves := ests [.seqno, .linkState, .user] ++
    [.submsg .adjacency (AdjChangeRec.submsgSize changes)]
  writes := puts [.seqno, .linkState, .user] ++ putSub .adjacency (AdjChangeRec.submsg changes)

/-- `peers` is none when the reason is `REQUEST_SYNC_REQ`. -/
def sendAdjacencyRequest (peers : Option (List PeerDbUser)) : Draft where
  reserves := ests [.seqno, .linkState, .subSeqno, .adjInfo] ++
    [.submsg .peerDb ((peers.map (PeerDbUser.peerDbSize true)).getD 0)]
  writes := puts [.seqno, .linkState, .subSeqno, .adjInfo] ++
    putIf ((peers.map (PeerDbUser.peerDbSize true)).getD 0 ≠ 0)
      (putSub .peerDb (PeerDbUser.peerDbSubmsg true (peers.getD [])))

/-- `syncLink` and `syncSub` are the bits of `which`. -/
def sendAdjacency (l : LinkStateDB) (sync : Option ℕ) (syncLink syncSub : Bool) : Draft where
  reserves := ests [.seqno, .linkState, .subSeqno, .hops, .adjInfo, .user, .time, .syncBridge] ++
    estIf syncLink [.submsg .adjacency (l.adjacencySize sync)] ++
    estIf syncSub (ests [.bloom])
  writes := puts [.seqno, .hops, .adjInfo, .user] ++
    putIf (v.num .time ≠ 0) (puts [.time]) ++
    putIf sync.isSome (puts [.syncBridge]) ++
    putIf syncSub (puts [.subSeqno, .bloom]) ++
    putIf syncLink (puts [.linkState] ++ putSub .adjacency (l.adjacencySubmsg sync))

/-! ### Peers -/

def makePeerSyncMsg (l : LinkStateDB) (uid : ℕ) : Draft where
  reserves := ests [.seqno, .time, .session, .sessKey, .cnonce, .hops, .uptime, .start, .interval,
      .user, .service, .create, .expires, .subSeqno, .linkState, .hbSkew, .hostId, .bloom] ++
    [.submsg .adjacency (l.adjacencySize (some uid))]
  writes := puts [.seqno, .time, .session, .sessKey, .cnonce, .hops, .uptime, .start, .interval,
      .user, .service, .create, .expires, .subSeqno, .linkState, .hbSkew, .hostId, .bloom] ++
    putSub .adjacency (l.adjacencySubmsg (some uid))

/-- The reply of `recv_sync_request` for a peer that is gone. -/
def recvSyncRequest : Draft where
  reserves := ests [.seqno, .time, .session, .user, .authStage]
  writes := puts [.seqno, .time, .session, .user, .authStage]

def makePeerDbMsg (peers : List PeerDbUser) : Draft where
  reserves := ests [.seqno] ++ [.submsg .peerDb (PeerDbUser.peerDbSize false peers)]
  writes := puts [.seqno] ++ putSub .peerDb (PeerDbUser.peerDbSubmsg false peers)

def sendPeerAdd : Draft where
  reserves := ests [.seqno, .time, .syncBridge, .user, .hops, .subSeqno, .linkState]
  writes := puts [.seqno, .time, .syncBridge, .user, .hops, .subSeqno, .linkState]

def sendPeerDel : Draft where
  reserves := ests [.seqno, .time, .syncBridge, .user, .authStage]
  writes := puts [.seqno, .time, .syncBridge, .user, .authStage]

/-- The reply of `recv_mesh_request`; `users` is none when the url is not found, and
empty when the peer is not in the mesh. The hashes that are requested are in
`mesh_filter`. -/
def recvMeshRequest (f : UrlDBFilter) (users : Option (List UrlUser)) : Draft where
  reserves := ests [.seqno, .meshUrl, .tport] ++
    estIf users.isSome (ests [.meshCsum]) ++
    ests [.meshInfo, .tportid] ++
    estIf (f.returned (users.getD []) ≠ [])
      [.submsg .meshDb (f.meshDbSize (v.str .meshFilter ≠ []) (users.getD []))] ++
    estIf (v.str .meshFilter ≠ []) (ests [.meshFilter])
  writes := puts [.seqno, .meshUrl, .tport] ++
    putIf users.isSome (puts [.meshCsum]) ++
    puts [.meshInfo, .tportid] ++
    -- the status is `MESH_OK`
    putIf (users.isSome ∧ f.returned (users.getD []) ≠ [])
      (putIf (v.str .meshFilter ≠ []) (puts [.meshFilter]) ++
        putIf (f.returned (users.getD []) ≠ [])
          (putSub .meshDb (f.meshDbSubmsg (users.getD []))))

def sendMeshRequest : Draft where
  reserves := ests [.seqno, .meshUrl, .tport, .tportid, .meshFilter]
  writes := puts [.seqno, .meshUrl, .tport, .tportid] ++
    putIf (v.str .meshFilter ≠ []) (puts [.meshFilter])

def requestPendingPeer : Draft where
  reserves := ests [.seqno, .syncBridge, .user]
  writes := puts [.seqno, .syncBridge] ++ putIf (v.str .user ≠ []) (puts [.user])

/-! ### Published messages -/

def publish : Draft where
  reserves := ests [.seqno, .chainSeqno, .ret, .reply, .time, .stamp, .token, .fmt, .data]
  writes := puts [.seqno] ++
    putIf (v.num .chainSeqno ≠ 0) (puts [.chainSeqno]) ++
    putIf (v.num .ret ≠ 0) (puts [.ret]) ++
    putIf (v.str .reply ≠ []) (puts [.reply]) ++
    putIf (v.num .time ≠ 0) (puts [.time]) ++
    putIf (v.num .stamp ≠ 0) (puts [.stamp]) ++
    putIf (v.num .token ≠ 0) (puts [.token]) ++
    putIf (v.int .fmt ≠ 0) (puts [.fmt]) ++
    putIf (v.str .data ≠ []) (puts [.data])

/-- The head of data that goes out after the message. -/
def putFrag (len : ℕ) : List (Bool × Part) := [(true, .dataFrag len)]

@[simp] theorem fids_putFrag (len : ℕ) : fids (putFrag len) = [] := rfl

@[simp] theorem othersSize_putFrag (len : ℕ) : othersSize (putFrag len) = 6 := rfl

/-- `forward_uid_inbox`; longer data than `recv_highwater` is sent after the message. -/
def forwardUidInbox (recvHighwater : ℕ) : Draft where
  reserves := ests [.seqno, .subject, .reply, .fmt, .hdrLen, .sufLen] ++
    estIf (v.str .data ≠ [])
      (if (v.str .data).length ≤ recvHighwater then ests [.data] else [.dataFrag])
  writes := puts [.seqno, .subject] ++
    putIf (v.str .reply ≠ []) (puts [.reply]) ++
    putIf (v.int .fmt ≠ 0) (puts [.fmt]) ++
    putIf (v.int .hdrLen ≠ 0) (puts [.hdrLen]) ++
    putIf (v.int .sufLen ≠ 0) (puts [.sufLen]) ++
    if (v.str .data).length ≤ recvHighwater then putIf (v.str .data ≠ []) (puts [.data])
    else putFrag (v.str .data).length

def forwardIpc (recvHighwater : ℕ) (otherHost : Bool) : Draft where
  reserves := ests [.seqno, .chainSeqno, .time, .reply, .fmt, .hostId, .hdrLen, .sufLen] ++
    if (v.str .data).length ≤ recvHighwater then ests [.data] else [.dataFrag]
  writes := puts [.seqno] ++
    putIf (v.num .chainSeqno ≠ 0) (puts [.chainSeqno]) ++
    putIf (v.num .time ≠ 0) (puts [.time]) ++
    putIf (v.str .reply ≠ []) (puts [.reply]) ++
    putIf (v.int .fmt ≠ 0) (puts [.fmt]) ++
    putIf (v.int .hostId ≠ 0 ∧ otherHost) (puts [.hostId]) ++
    putIf (v.int .hdrLen ≠ 0) (puts [.hdrLen]) ++
    putIf (v.int .sufLen ≠ 0) (puts [.sufLen]) ++
    if (v.str .data).length ≤ recvHighwater then putIf (v.str .data ≠ []) (puts [.data])
    else putFrag (v.str .data).length

def publishTo : Draft where
  reserves := ests [.seqno, .subject, .ret, .stamp, .token, .fmt, .data]
  writes := puts [.seqno] ++
    putIf (v.str .subject ≠ []) (puts [.subject]) ++
    putIf (v.num .ret ≠ 0) (puts [.ret]) ++
    putIf (v.num .stamp ≠ 0) (puts [.stamp]) ++
    putIf (v.num .token ≠ 0) (puts [.token]) ++
    putIf (v.int .fmt ≠ 0) (puts [.fmt]) ++
    puts [.data]

def sendLossNotify (isRestart : Bool) : Draft where
  reserves := ests [.seqno, .subject, .idlMsgLoss, .idlRestart, .msTot, .refSeqno]
  writes := puts [.seqno, .subject, .idlMsgLoss] ++ putIf isRestart (puts [.idlRestart]) ++
    puts [.msTot, .refSeqno]

def sendAck : Draft where
  reserves := ests [.seqno, .stamp, .token, .cost, .tportid, .subject, .refSeqno]
  writes := puts [.seqno, .stamp] ++ putIf (v.num .token ≠ 0) (puts [.token]) ++
    puts [.cost, .tportid, .subject, .refSeqno]

/-- The reply of the console. -/
def recvRemoteRequest : Draft where
  reserves := ests [.seqno, .token, .data]
  writes := puts [.seqno] ++ putIf (v.num .token ≠ 0) (puts [.token]) ++ puts [.data]

/-! ### Subscriptions -/

/-- The queue of a subscription, in `fwd_sub` and `fwd_psub`. -/
def putQueue : List (Bool × Part) :=
  putIf (v.int .queueHash ≠ 0)
    (putIf (v.str .queue ≠ []) (puts [.queue]) ++ puts [.queueHash] ++
      putIf (v.int .queueRefs ≠ 0) (puts [.queueRefs]))

def fwdSub (bloomUpdated : Bool) : Draft where
  reserves := ests [.seqno, .subjHash, .subject, .queue, .queueHash, .queueRefs, .bloomUpd]
  writes := puts [.seqno, .subjHash, .subject] ++ putQueue v ++
    putIf (!bloomUpdated) (puts [.bloomUpd])

def fwdPsub (bloomUpdated : Bool) : Draft where
  reserves := ests [.seqno, .subjHash, .pattern, .fmt, .queue, .queueHash, .queueRefs, .bloomUpd]
  writes := puts [.seqno, .subjHash, .pattern, .fmt] ++ putQueue v ++
    putIf (!bloomUpdated) (puts [.bloomUpd])

def sendSubsRequest : Draft where
  reserves := ests [.seqno, .start, .endNo]
  writes := puts [.seqno, .start, .endNo]

def fwdResub (isPsub : Bool) : Draft where
  reserves := ests [.seqno] ++ (if isPsub then ests [.pattern, .fmt] else ests [.subject]) ++
    ests [.start, .endNo, .token, .queue, .queueHash]
  writes := puts [.seqno] ++ (if isPsub then puts [.pattern, .fmt] else puts [.subject]) ++
    puts [.start, .endNo] ++
    putIf (v.num .token ≠ 0) (puts [.token]) ++
    putIf (v.str .queue ≠ []) (puts [.queue, .queueHash])

/-- The end of the reply of `recv_subs_request`. -/
def recvSubsRequest : Draft where
  reserves := ests [.seqno, .start, .endNo, .token]
  writes := puts [.seqno, .start, .endNo] ++ putIf (v.num .token ≠ 0) (puts [.token])

def sendBloomRequest : Draft where
  reserves := ests [.seqno]
  writes := puts [.seqno]

/-- The reply of `recv_bloom_request`, and what `reseed_bloom` and `resize_bloom` send. -/
def sendBloom : Draft where
  reserves := ests [.seqno, .subSeqno, .bloom]
  writes := puts [.seqno, .subSeqno, .bloom]

/-! ### Statistics -/

def adjacencyStat : Draft where
  reserves := ests [.seqno, .stamp, .fmt, .user]
  writes := puts [.seqno, .stamp, .fmt, .user]

def peerStat : Draft where
  reserves := ests [.seqno, .stamp, .fmt, .peer, .uid, .subCnt, .latency, .cost]
  writes := puts [.seqno, .stamp, .fmt, .peer, .uid, .subCnt, .latency, .cost]

def portStat : Draft where
  reserves := ests [.seqno, .stamp, .fmt, .user, .peer, .tport, .tportid, .fdCnt, .uidCnt, .bs, .br,
    .ms, .mr, .bsTot, .brTot, .msTot, .mrTot]
  writes := puts [.seqno, .stamp, .fmt, .user] ++
    putIf (v.str .peer ≠ []) (puts [.peer]) ++
    putIf (v.str .tport ≠ []) (puts [.tport, .tportid, .fdCnt]) ++
    puts [.uidCnt, .bs, .br, .ms, .mr, .bsTot, .brTot, .msTot, .mrTot]

end Draft

/-! ## §3 Every builder -/

/-- The functions that build messages, with the conditions and the databases that they
look at. -/
inductive Builder where
  | sendChallenge (isAdvertised : Bool)
  | sendTrusted (inMesh isMcast isAdvertised : Bool) (u : UrlDBs)
  | sendTrustedTport (kind : TportKind) (isAdvertised : Bool) (u : UrlDBs)
  | makeHb (isBye isHello isMesh isAdvertised hasSock hasPathLimit : Bool)
  | sendPingRequest (hasLoss isRestart otherHost : Bool)
  | mcastSync
  | recvMcastSyncRequest
  | recvPingRequest (isRestart : Bool)
  | sendNameAdvert (noInbox isMesh isListen : Bool)
  | sendAdjacencyChange (changes : List AdjChangeRec)
  | sendAdjacencyRequest (peers : Option (List PeerDbUser))
  | sendAdjacency (l : LinkStateDB) (sync : Option ℕ) (syncLink syncSub : Bool)
  | makePeerSyncMsg (l : LinkStateDB) (uid : ℕ)
  | recvSyncRequest
  | makePeerDbMsg (peers : List PeerDbUser)
  | sendPeerAdd
  | sendPeerDel
  | recvMeshRequest (f : UrlDBFilter) (users : Option (List UrlUser))
  | sendMeshRequest
  | requestPendingPeer
  | publish
  | forwardUidInbox (recvHighwater : ℕ)
  | forwardIpc (recvHighwater : ℕ) (otherHost : Bool)
  | publishTo
  | sendLossNotify (isRestart : Bool)
  | sendAck
  | recvRemoteRequest
  | fwdSub (bloomUpdated : Bool)
  | fwdPsub (bloomUpdated : Bool)
  | sendSubsRequest
  | fwdResub (isPsub : Bool)
  | recvSubsRequest
  | sendBloomRequest
  | sendBloom
  | adjacencyStat
  | peerStat
  | portStat

namespace Builder

def draft (v : Vals) : Builder → Draft
  | sendChallenge isAdvertised => .sendChallenge v isAdvertised
  | sendTrusted inMesh isMcast isAdvertised u => .sendTrusted v inMesh isMcast isAdvertised u
  | sendTrustedTport kind isAdvertised u => .sendTrustedTport v kind isAdvertised u
  | makeHb isBye isHello isMesh isAdvertised hasSock hasPathLimit =>
    .makeHb v isBye isHello isMesh isAdvertised hasSock hasPathLimit
  | sendPingRequest hasLoss isRestart otherHost => .sendPingRequest hasLoss isRestart otherHost
  | mcastSync => .mcastSync
  | recvMcastSyncRequest => .recvMcastSyncRequest v
  | recvPingRequest isRestart => .recvPingRequest v isRestart
  | sendNameAdvert noInbox isMesh isListen => .sendNameAdvert v noInbox isMesh isListen
  | sendAdjacencyChange changes => .sendAdjacencyChange changes
  | sendAdjacencyRequest peers => .sendAdjacencyRequest peers
  | sendAdjacency l sync syncLink syncSub => .sendAdjacency v l sync syncLink syncSub
  | makePeerSyncMsg l uid => .makePeerSyncMsg l uid
  | recvSyncRequest => .recvSyncRequest
  | makePeerDbMsg peers => .makePeerDbMsg peers
  | sendPeerAdd => .sendPeerAdd
  | sendPeerDel => .sendPeerDel
  | recvMeshRequest f users => .recvMeshRequest v f users
  | sendMeshRequest => .sendMeshRequest v
  | requestPendingPeer => .requestPendingPeer v
  | publish => .publish v
  | forwardUidInbox recvHighwater => .forwardUidInbox v recvHighwater
  | forwardIpc recvHighwater otherHost => .forwardIpc v recvHighwater otherHost
  | publishTo => .publishTo v
  | sendLossNotify isRestart => .sendLossNotify isRestart
  | sendAck => .sendAck v
  | recvRemoteRequest => .recvRemoteRequest v
  | fwdSub bloomUpdated => .fwdSub v bloomUpdated
  | fwdPsub bloomUpdated => .fwdPsub v bloomUpdated
  | sendSubsRequest => .sendSubsRequest
  | fwdResub isPsub => .fwdResub v isPsub
  | recvSubsRequest => .recvSubsRequest v
  | sendBloomRequest => .sendBloomRequest
  | sendBloom => .sendBloom
  | adjacencyStat => .adjacencyStat
  | peerStat => .peerStat
  | portStat => .portStat v

/-- What the methods are called with: the message for another transport has only the url
that is of its kind. -/
def vals (v : Vals) : Builder → Vals
  | sendTrustedTport kind _ _ => { v with
      str := fun f =>
        if f = .meshUrl ∧ kind ≠ .mesh ∨ f = .ucastUrl ∧ kind ≠ .mcast then [] else v.str f }
  | _ => v

/-- The message that a builder makes, for a subject of a length. -/
def build (b : Builder) (v : Vals) (sublen : ℕ) : MsgBuild :=
  (b.vals v).build sublen (b.draft (b.vals v))

end Builder

/-! ## §4 What fits -/

namespace UrlDBs

theorem putMesh_le (u : UrlDBs) (inMesh : Bool) (c : Prop) [Decidable c] :
    (if u.meshLen inMesh ≠ 0 ∧ c then Draft.othersSize u.putMesh else 0) ≤ u.meshLen inMesh := by
  split
  · rename_i h
    cases inMesh with
    | false => exact absurd rfl h.1
    | true => exact UrlDBFilter.length_meshDbSubmsg_le _ h.1
  · exact Nat.zero_le _

theorem putUcast_le (u : UrlDBs) (isMcast : Bool) (c : Prop) [Decidable c] :
    (if u.ucastLen isMcast ≠ 0 ∧ c then Draft.othersSize u.putUcast else 0) ≤
      u.ucastLen isMcast := by
  split
  · rename_i h
    cases isMcast with
    | false => exact absurd rfl h.1
    | true => exact UrlDBFilter.length_ucastDbSubmsg_le _ h.1
  · exact Nat.zero_le _

@[simp] theorem fids_putMesh (u : UrlDBs) : Draft.fids u.putMesh = [] := rfl

@[simp] theorem fids_putUcast (u : UrlDBs) : Draft.fids u.putUcast = [] := rfl

end UrlDBs

namespace Draft

variable (v : Vals) (sublen : ℕ)

/-- The field that is not reserved is a number of 32 bits, and the stage of the
authentication leaves the room for it. -/
theorem fits_sendTrustedTport (kind : TportKind) (isAdvertised : Bool) (u : UrlDBs) :
    (v.build sublen (sendTrustedTport v kind isAdvertised u)).Fits := by
  have hmesh := u.putMesh_le (kind = .mesh) (v.str .meshUrl ≠ [])
  have hucast := u.putUcast_le (kind = .mcast) (v.str .ucastUrl ≠ [])
  have hodd : sublen % 2 < 2 := Nat.mod_lt _ (by decide)
  have hle := sum_writeSize_le_caps v (sendTrustedTport v kind isAdvertised u).writes
  rw [fits_build_iff]
  refine le_trans (Nat.add_le_add_left hle _) ?_
  simp only [sendTrustedTport, fids_append, fids_putIf, fids_puts, UrlDBs.fids_putMesh,
    UrlDBs.fids_putUcast, othersSize_append, othersSize_putIf, othersSize_puts, sum_reserve,
    estFids_append, estFids_ests, othersEst_append, othersEst_ests]
  simp [Vals.item, Vals.est, Item.cap, Fld.cap, estFids, othersEst, Reserve.fid?, fidEst,
    fidEstLen] at hmesh hucast ⊢
  omega

theorem fits_sendAdjacencyChange (changes : List AdjChangeRec) :
    (v.build sublen (sendAdjacencyChange changes)).Fits := by
  have hsub := AdjChangeRec.length_submsg_le changes
  refine fits_of_covers v sublen ?_ ?_
  · simp only [sendAdjacencyChange, fids_append, fids_puts, fids_putSub, estFids_append,
      estFids_ests]
    exact of_decide_eq_true rfl
  · simp only [sendAdjacencyChange, othersSize_append, othersSize_puts, othersSize_putSub,
      othersEst_append, othersEst_ests, othersEst_submsg, fidEstLen]
    omega

theorem fits_sendAdjacencyRequest (peers : Option (List PeerDbUser)) :
    (v.build sublen (sendAdjacencyRequest peers)).Fits := by
  refine fits_of_covers v sublen ?_ ?_
  · simp only [sendAdjacencyRequest, fids_append, fids_puts, fids_putIf, fids_putSub,
      estFids_append, estFids_ests]
    exact of_decide_eq_true rfl
  · simp only [sendAdjacencyRequest, othersSize_append, othersSize_puts, othersSize_putIf,
      othersSize_putSub, othersEst_append, othersEst_ests, othersEst_submsg, fidEstLen]
    cases peers with
    | none => simp
    | some peers =>
      have hsub := PeerDbUser.length_peerDbSubmsg_le true peers
      simp only [Option.map_some, Option.getD_some]
      split <;> omega

theorem fits_sendAdjacency (l : LinkStateDB) (sync : Option ℕ) (syncLink syncSub : Bool) :
    (v.build sublen (sendAdjacency v l sync syncLink syncSub)).Fits := by
  have hsub := l.length_adjacencySubmsg_le sync
  have hlink : othersSize (putIf syncLink
        (puts [.linkState] ++ putSub .adjacency (l.adjacencySubmsg sync))) ≤
      othersEst (estIf syncLink [.submsg .adjacency (l.adjacencySize sync)]) := by
    cases syncLink with
    | false => exact le_refl 0
    | true =>
      simp only [othersSize_putIf, if_true, othersSize_append, othersSize_puts, othersSize_putSub,
        estIf, othersEst_submsg, fidEstLen]
      omega
  have hfids : estFids (estIf syncLink [.submsg .adjacency (l.adjacencySize sync)]) = [] := by
    cases syncLink <;> rfl
  cases syncSub with
  | true =>
    refine fits_of_covers v sublen ?_ ?_
    · simp only [sendAdjacency, fids_append, fids_puts, fids_putIf, fids_putSub, estFids_append,
        estFids_ests, hfids]
      exact of_decide_eq_true rfl
    · simp only [sendAdjacency, othersSize_append, othersSize_puts, othersSize_putIf, ite_self,
        othersEst_append, othersEst_ests] at hlink ⊢
      omega
  | false =>
    -- the bloom filter is neither reserved nor written
    refine (fits_putIf_false v sublen _ _ _ _).mpr (fits_of_covers v sublen ?_ ?_)
    · simp only [fids_append, fids_puts, fids_putIf, fids_putSub, estFids_append, estFids_ests,
        hfids]
      exact of_decide_eq_true rfl
    · simp only [othersSize_append, othersSize_puts, othersSize_putIf, ite_self,
        othersEst_append, othersEst_ests] at hlink ⊢
      omega

theorem fits_makePeerSyncMsg (l : LinkStateDB) (uid : ℕ) :
    (v.build sublen (makePeerSyncMsg l uid)).Fits := by
  have hsub := l.length_adjacencySubmsg_le (some uid)
  refine fits_of_covers v sublen ?_ ?_
  · simp only [makePeerSyncMsg, fids_append, fids_puts, fids_putSub, estFids_append, estFids_ests]
    exact of_decide_eq_true rfl
  · simp only [makePeerSyncMsg, othersSize_append, othersSize_puts, othersSize_putSub,
      othersEst_append, othersEst_ests, othersEst_submsg, fidEstLen]
    omega

theorem fits_makePeerDbMsg (peers : List PeerDbUser) :
    (v.build sublen (makePeerDbMsg peers)).Fits := by
  have hsub := PeerDbUser.length_peerDbSubmsg_le false peers
  refine fits_of_covers v sublen ?_ ?_
  · simp only [makePeerDbMsg, fids_append, fids_puts, fids_putSub, estFids_append, estFids_ests]
    exact of_decide_eq_true rfl
  · simp only [makePeerDbMsg, othersSize_append, othersSize_puts, othersSize_putSub,
      othersEst_append, othersEst_ests, othersEst_submsg, fidEstLen]
    omega

theorem fits_recvMeshRequest (f : UrlDBFilter) (users : Option (List UrlUser)) :
    (v.build sublen (recvMeshRequest v f users)).Fits := by
  have hodd : sublen % 2 < 2 := Nat.mod_lt _ (by decide)
  have hseqno := v.size_item_le .seqno
  have hurl := v.size_item_le .meshUrl
  have htport := v.size_item_le .tport
  have hcsum := v.size_item_le .meshCsum
  have hinfo := v.size_item_le .meshInfo
  have htportid := v.size_item_le .tportid
  have hfilter := v.size_item_le .meshFilter
  rw [fits_build_iff]
  simp only [recvMeshRequest, List.map_append, List.sum_append, sum_writeSize_puts,
    sum_writeSize_putIf, sum_writeSize_putSub, sum_reserve_ests, sum_reserve_estIf,
    Vals.reserve, List.map_cons, List.map_nil, List.sum_cons, List.sum_nil, Nat.add_zero,
    decide_eq_true_eq]
  cases users with
  | none =>
    simp only [Option.isSome_none, Bool.false_eq_true, false_and, if_false]
    omega
  | some us =>
    simp only [Option.isSome_some, Option.getD_some, if_true, true_and]
    by_cases hret : f.returned us = []
    · simp only [hret, ne_eq, not_true_eq_false, if_false]
      omega
    · have hsub := f.length_meshDbSubmsg_le (f.meshDbSize_ne_zero (v.str .meshFilter ≠ []) hret)
      simp only [hret, ne_eq, not_false_eq_true, if_true, fidEstLen] at hsub ⊢
      split <;> omega

theorem fits_forwardUidInbox (recvHighwater : ℕ) :
    (v.build sublen (forwardUidInbox v recvHighwater)).Fits := by
  unfold forwardUidInbox
  by_cases hle : (v.str .data).length ≤ recvHighwater
  · simp only [if_pos hle]
    cases hdata : decide (v.str .data ≠ []) with
    | true =>
      refine fits_of_safe v sublen ?_
      simp only [estIf, if_true, fids_append, fids_puts, fids_putIf, estFids_append, estFids_ests,
        othersSize_append, othersSize_puts, othersSize_putIf, ite_self, othersEst_append,
        othersEst_ests]
      exact of_decide_eq_true rfl
    | false =>
      rw [← List.append_nil (_ ++ putIf false _)]
      refine (fits_putIf_false v sublen _ _ _ _).mpr (fits_of_safe v sublen ?_)
      simp only [estIf, fids_append, fids_puts, fids_putIf, estFids_append, estFids_ests,
        othersSize_append, othersSize_puts, othersSize_putIf, ite_self, othersEst_append,
        othersEst_ests]
      exact of_decide_eq_true rfl
  · have hne : v.str .data ≠ [] := by
      intro h0
      simp [h0] at hle
    simp only [if_neg hle, hne, ne_eq, not_false_eq_true, decide_true]
    refine fits_of_safe v sublen ?_
    simp only [estIf, if_true, fids_append, fids_puts, fids_putIf, fids_putFrag, estFids_append,
      estFids_ests, estFids_dataFrag, othersSize_append, othersSize_puts, othersSize_putIf,
      othersSize_putFrag, ite_self, othersEst_append, othersEst_ests, othersEst_dataFrag, fidEstLen]
    exact of_decide_eq_true rfl

theorem fits_forwardIpc (recvHighwater : ℕ) (otherHost : Bool) :
    (v.build sublen (forwardIpc v recvHighwater otherHost)).Fits := by
  unfold forwardIpc
  by_cases hle : (v.str .data).length ≤ recvHighwater
  · simp only [if_pos hle]
    refine fits_of_safe v sublen ?_
    simp only [fids_append, fids_puts, fids_putIf, estFids_append, estFids_ests, othersSize_append,
      othersSize_puts, othersSize_putIf, ite_self, othersEst_append, othersEst_ests]
    exact of_decide_eq_true rfl
  · simp only [if_neg hle]
    refine fits_of_safe v sublen ?_
    simp only [fids_append, fids_puts, fids_putIf, fids_putFrag, estFids_append, estFids_ests,
      estFids_dataFrag, othersSize_append, othersSize_puts, othersSize_putIf, othersSize_putFrag,
      ite_self, othersEst_append, othersEst_ests, othersEst_dataFrag, fidEstLen]
    exact of_decide_eq_true rfl

theorem fits_fwdResub (isPsub : Bool) : (v.build sublen (fwdResub v isPsub)).Fits := by
  cases isPsub with
  | false =>
    refine fits_of_safe v sublen ?_
    simp only [fwdResub, Bool.false_eq_true, if_false, fids_append, fids_puts, fids_putIf,
      estFids_append, estFids_ests, othersSize_append, othersSize_puts, othersSize_putIf, ite_self,
      othersEst_append, othersEst_ests]
    exact of_decide_eq_true rfl
  | true =>
    refine fits_of_safe v sublen ?_
    simp only [fwdResub, if_true, fids_append, fids_puts, fids_putIf,
      estFids_append, estFids_ests, othersSize_append, othersSize_puts, othersSize_putIf, ite_self,
      othersEst_append, othersEst_ests]
    exact of_decide_eq_true rfl

/-- The fields that are always in the first trust message. -/
def trustedFids : List MsgFid :=
  [.seqno, .time, .uptime, .interval, .subSeqno, .linkState, .authStage, .start, .tportid, .tport,
    .hostId]

/-- What the reservations of the other fields leave for the unicast url. -/
def trustedRoom (inMesh isMcast isAdvertised : Bool) (u : UrlDBs) : ℕ :=
  (1 - sublen % 2) + (trustedFids.map v.spare).sum +
    (if isAdvertised then v.spare .adjCost else v.est .adjCost) +
    (if u.meshLen inMesh ≠ 0 ∧ v.str .meshUrl ≠ [] then
      v.spare .meshUrl + (15 + u.meshLen inMesh - othersSize u.putMesh)
    else v.est .meshUrl + (15 + u.meshLen inMesh)) +
    (15 + u.ucastLen isMcast - othersSize u.putUcast)

theorem fits_sendTrusted_iff (inMesh isMcast isAdvertised : Bool) (u : UrlDBs) :
    (v.build sublen (sendTrusted v inMesh isMcast isAdvertised u)).Fits ↔
      (u.ucastLen isMcast ≠ 0 ∧ v.str .ucastUrl ≠ [] →
        (v.item .ucastUrl).size ≤ trustedRoom v sublen inMesh isMcast isAdvertised u) := by
  have hmesh := u.putMesh_le inMesh (v.str .meshUrl ≠ [])
  have hucast := u.putUcast_le isMcast (v.str .ucastUrl ≠ [])
  have hodd : sublen % 2 < 2 := Nat.mod_lt _ (by decide)
  have hputMesh : (u.putMesh.map (writeSize v)).sum = othersSize u.putMesh := rfl
  have hputUcast : (u.putUcast.map (writeSize v)).sum = othersSize u.putUcast := rfl
  have hreserves : ((sendTrusted v inMesh isMcast isAdvertised u).reserves.map v.reserve).sum =
      (trustedFids.map v.est).sum + v.est .adjCost + v.est .meshUrl + (15 + u.meshLen inMesh) +
        (15 + u.ucastLen isMcast) := by
    simp only [sendTrusted, List.map_append, List.sum_append, ests, Vals.reserve, trustedFids,
      List.map_cons, List.map_nil, List.sum_cons, List.sum_nil, fidEstLen]
    omega
  have hwrites : ((sendTrusted v inMesh isMcast isAdvertised u).writes.map (writeSize v)).sum =
      (trustedFids.map fun f => (v.item f).size).sum +
        (if isAdvertised then (v.item .adjCost).size else 0) +
        (if u.meshLen inMesh ≠ 0 ∧ v.str .meshUrl ≠ [] then
          (v.item .meshUrl).size + othersSize u.putMesh else 0) +
        (if u.ucastLen isMcast ≠ 0 ∧ v.str .ucastUrl ≠ [] then
          (v.item .ucastUrl).size + othersSize u.putUcast else 0) := by
    simp only [sendTrusted, List.map_append, List.sum_append, sum_writeSize_puts,
      sum_writeSize_putIf, hputMesh, hputUcast, trustedFids, List.map_cons, List.map_nil,
      List.sum_cons, List.sum_nil, decide_eq_true_eq, Nat.add_zero]
    omega
  -- each reservation is what is written of it and what it leaves
  have hfids : (trustedFids.map v.est).sum =
      (trustedFids.map fun f => (v.item f).size).sum + (trustedFids.map v.spare).sum := by
    rw [← List.sum_map_add]
    exact congrArg List.sum (List.map_congr_left fun f _ => v.est_eq f)
  have hcost : v.est .adjCost = (if isAdvertised then (v.item .adjCost).size else 0) +
      (if isAdvertised then v.spare .adjCost else v.est .adjCost) := by
    cases isAdvertised with
    | false => exact (Nat.zero_add _).symm
    | true => exact v.est_eq .adjCost
  have hurl : v.est .meshUrl + (15 + u.meshLen inMesh) =
      (if u.meshLen inMesh ≠ 0 ∧ v.str .meshUrl ≠ [] then
        (v.item .meshUrl).size + othersSize u.putMesh else 0) +
      (if u.meshLen inMesh ≠ 0 ∧ v.str .meshUrl ≠ [] then
        v.spare .meshUrl + (15 + u.meshLen inMesh - othersSize u.putMesh)
      else v.est .meshUrl + (15 + u.meshLen inMesh)) := by
    have hest := v.est_eq .meshUrl
    split
    · rename_i h
      rw [if_pos h] at hmesh
      omega
    · omega
  rw [fits_build_iff, hreserves, hwrites, trustedRoom]
  by_cases hu : u.ucastLen isMcast ≠ 0 ∧ v.str .ucastUrl ≠ []
  · rw [if_pos hu] at hucast ⊢
    rw [imp_iff_right hu]
    omega
  · rw [if_neg hu]
    refine iff_of_true ?_ fun h => absurd h hu
    omega

end Draft

namespace Builder

open Draft

/-- The message is not one with an unreserved url, or the other reservations leave the
room for it. -/
def Roomy (b : Builder) (v : Vals) (sublen : ℕ) : Prop :=
  match b with
  | sendTrusted inMesh isMcast isAdvertised u =>
    u.ucastLen isMcast ≠ 0 ∧ v.str .ucastUrl ≠ [] →
      (v.item .ucastUrl).size ≤ trustedRoom v sublen inMesh isMcast isAdvertised u
  | _ => True

instance (b : Builder) (v : Vals) (sublen : ℕ) : Decidable (b.Roomy v sublen) :=
  match b with
  | sendTrusted _ _ _ _ => inferInstanceAs (Decidable (_ → _))
  | sendChallenge _ | sendTrustedTport _ _ _ | makeHb _ _ _ _ _ _ | sendPingRequest _ _ _
  | mcastSync | recvMcastSyncRequest | recvPingRequest _ | sendNameAdvert _ _ _
  | sendAdjacencyChange _ | sendAdjacencyRequest _ | sendAdjacency _ _ _ _ | makePeerSyncMsg _ _
  | recvSyncRequest | makePeerDbMsg _ | sendPeerAdd | sendPeerDel | recvMeshRequest _ _
  | sendMeshRequest | requestPendingPeer | publish | forwardUidInbox _ | forwardIpc _ _
  | publishTo | sendLossNotify _ | sendAck | recvRemoteRequest | fwdSub _ | fwdPsub _
  | sendSubsRequest | fwdResub _ | recvSubsRequest | sendBloomRequest | sendBloom | adjacencyStat
  | peerStat | portStat => isTrue trivial

/-- A message that is built fits the memory that was reserved for it exactly if it is
roomy. -/
theorem fits_iff_roomy (b : Builder) (v : Vals) (sublen : ℕ) :
    (b.build v sublen).Fits ↔ b.Roomy v sublen := by
  cases b with
  | sendTrusted inMesh isMcast isAdvertised u =>
    exact fits_sendTrusted_iff v sublen inMesh isMcast isAdvertised u
  | sendTrustedTport kind isAdvertised u =>
    exact iff_of_true (fits_sendTrustedTport _ sublen kind isAdvertised u) trivial
  | sendAdjacencyChange changes =>
    exact iff_of_true (fits_sendAdjacencyChange v sublen changes) trivial
  | sendAdjacencyRequest peers =>
    exact iff_of_true (fits_sendAdjacencyRequest v sublen peers) trivial
  | sendAdjacency l sync syncLink syncSub =>
    exact iff_of_true (fits_sendAdjacency v sublen l sync syncLink syncSub) trivial
  | makePeerSyncMsg l uid => exact iff_of_true (fits_makePeerSyncMsg v sublen l uid) trivial
  | makePeerDbMsg peers => exact iff_of_true (fits_makePeerDbMsg v sublen peers) trivial
  | recvMeshRequest f users => exact iff_of_true (fits_recvMeshRequest v sublen f users) trivial
  | forwardUidInbox recvHighwater =>
    exact iff_of_true (fits_forwardUidInbox v sublen recvHighwater) trivial
  | forwardIpc recvHighwater otherHost =>
    exact iff_of_true (fits_forwardIpc v sublen recvHighwater otherHost) trivial
  | fwdResub isPsub => exact iff_of_true (fits_fwdResub v sublen isPsub) trivial
  | _ =>
    -- fields only, and each of them is reserved
    refine iff_of_true (fits_of_safe _ sublen ?_) trivial
    simp only [draft, Draft.sendChallenge, Draft.makeHb, Draft.sendPingRequest, Draft.mcastSync,
      Draft.recvMcastSyncRequest, Draft.recvPingRequest, Draft.sendNameAdvert,
      Draft.recvSyncRequest, Draft.sendPeerAdd, Draft.sendPeerDel, Draft.sendMeshRequest,
      Draft.requestPendingPeer, Draft.publish, Draft.publishTo, Draft.sendLossNotify,
      Draft.sendAck, Draft.recvRemoteRequest, Draft.fwdSub, Draft.fwdPsub, putQueue,
      Draft.sendSubsRequest, Draft.recvSubsRequest, Draft.sendBloomRequest, Draft.sendBloom,
      Draft.adjacencyStat, Draft.peerStat, Draft.portStat, fids_append, fids_putIf, fids_puts,
      estFids_ests, othersSize_append, othersSize_putIf, othersSize_puts, othersEst_ests, ite_self]
    decide +kernel

/-! ### A trust message with a long unicast url -/

/-- A peer on a multicast transport, with a url of 200 bytes. -/
def longUrl : Vals where
  num _ := 0
  int _ := 0
  short _ := 0
  flag _ := 0
  str f := if f = .ucastUrl then List.replicate 200 0x75 else []
  nonce _ := ⟨List.replicate 16 0, rfl⟩
  key _ := ⟨List.replicate 64 0, rfl⟩
  pub := ⟨List.replicate 32 0, rfl⟩
  session := ⟨⟨List.replicate 16 0, rfl⟩, ⟨List.replicate 16 0, rfl⟩⟩

/-- The node, the peer that is trusted and another user of the transport. -/
def twoUsers : UrlDBs where
  uid := 1
  meshUsers := []
  self := ⟨0, [0x61], ⟨List.replicate 16 1, rfl⟩, [0x75], 1⟩
  ucastUsers := [⟨1, [0x62], ⟨List.replicate 16 2, rfl⟩, List.replicate 200 0x75, 2⟩,
    ⟨2, [0x63], ⟨List.replicate 16 3, rfl⟩, [0x76], 3⟩]

theorem longUrl_not_fits :
    ¬ ((sendTrusted false true false twoUsers).build longUrl 30).Fits := by
  intro h
  have hroom := (fits_sendTrusted_iff longUrl 30 false true false twoUsers).mp h
  revert hroom
  decide +kernel

end Builder

end Raims
