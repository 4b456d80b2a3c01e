import Raims.Msg.CabaMsg

/-!
# What is read of a message that was received

`verify_hb` and `verify_sig`, the accessors of `MsgHdrDecoder`, and the reads
of `dec.mref` in the handlers of messages. The type of a message says which
handler it goes to, and for some of them so does its stage. A handler tests
that fields are set, and then uses what was recorded of them: a string or
number as long as it was recorded to be (`whole`), a nonce, digest or key as
long as such a thing is (`copy`), a list of records (`recs`), whose fields are
found by the iterator of the library `raimd` and used in the same ways.
-/

namespace Raims

open Bytes

/-! ## §1 The other two digests -/

/-- What the crypto is used for: `PolyHmacDigest::calc_2` and the signature of
a digest. -/
structure DsaCrypt where
  poly : Octets 64 → List UInt8 → List UInt8 → Octets 16
  dsaVerify : List UInt8 → Octets 16 → Bool

namespace CabaMsg

/-- Unsigned subtraction of 64 bits. -/
def wrapSub (a b : Nat) : Nat := (a + 2 ^ 64 - b) % 2 ^ 64

/-- `verify_hb`: the last field is a digest with the key of the heartbeats. -/
def verifyHb (kv : RaiKv) (m : CabaMsg) (key : Octets 64) : Except Fault Bool := do
  let e := wrapSub m.msgEnd (16 + 2)
  if m.msgEnd < 48 + 16 + 2 then
    return false
  let hmac ← fetch m.msgBuf m.msgEnd (e + 2) 16
  let s1 ← fetch m.msgBuf m.msgEnd m.msgOff 28
  let len ← lenSub e (m.msgOff + 44)
  let s2 ← fetch m.msgBuf m.msgEnd (m.msgOff + 44) len
  return hmac == (calc2 kv key s1 s2).1

/-- `verify_sig`: the last field is a signature, of 64 bytes. What is tested
is the size of a digest. -/
def verifySig (c : DsaCrypt) (m : CabaMsg) (key : Octets 64) : Except Fault Bool := do
  let e := wrapSub m.msgEnd (64 + 2)
  if m.msgEnd < 48 + 16 + 2 then
    return false
  let sig ← fetch m.msgBuf m.msgEnd (e + 2) 64
  let s1 ← fetch m.msgBuf m.msgEnd m.msgOff 28
  let len ← lenSub e (m.msgOff + 44)
  let s2 ← fetch m.msgBuf m.msgEnd (m.msgOff + 44) len
  return c.dsaVerify sig (c.poly key s1 s2)

end CabaMsg

/-! ## §2 Types of messages -/

/-- What the libraries say: the type of a control message, from the tables of
subjects (`u_tab` and `mch`) and the prefixes that are routed, and the number
that `cvt_number` makes of a field that is not one. -/
structure MsgLib where
  lookup : List UInt8 → PublishType
  cvtNumber : MDType → List UInt8 → Nat

/-- The loop over the digits in front of the last one. -/
def inboxRetFrom : List UInt8 → UInt32 → UInt32 → UInt32
  | [], _, ret => ret
  | c :: cs, n, ret =>
    if c = 0x2e then ret
    else inboxRetFrom cs (n * 10) (ret + UInt32.ofInt (c.toInt8.toInt - 0x30) * (n * 10))

/-- `inbox_ret`: the number at the end of the subject of an inbox, zero for
none. -/
def inboxRet (subject : List UInt8) : UInt32 :=
  match subject.reverse with
  | [] => 0
  | c :: cs =>
    if 0x30 ≤ c ∧ c ≤ 0x39 then inboxRetFrom cs 1 (UInt32.ofNat (c.toNat - 0x30)) else 0

namespace MsgLib

variable (x : MsgLib) (caba : CabaFlags) (subject : List UInt8)

/-- `type` of `parse_msg_hdr` -/
def publishType : Option PublishType :=
  if caba.getType = CabaTypeFlag.inbox.code then
    if caba.getPath = 0 then PublishType.ofCode caba.getZtype.toNat
    else if caba.getOpt &&& cabaOptAny ≠ 0 then some .inbox
    else some .mcastSubject
  else if caba.getType = CabaTypeFlag.heartbeat.code then
    PublishType.ofCode caba.getZtype.toNat
  else if caba.getType = CabaTypeFlag.rtrAlert.code then some (x.lookup subject)
  else some .mcastSubject

/-- A message that was closed with a type is of that type. -/
theorem publishType_zpath (t : PublishType) :
    x.publishType ((CabaFlags.ofType .inbox).zpath t) subject = some t := by
  have hcode : t.code < 256 := by cases t <;> decide
  have hztype : ((CabaFlags.ofType .inbox).zpath t).getZtype.toNat = t.code := by
    rw [CabaFlags.getZtype_zpath, BitVec.toNat_ofNat]
    exact Nat.mod_eq_of_lt (hcode.trans (by decide))
  rw [publishType, CabaFlags.getType_zpath, CabaFlags.getType_ofType, if_pos rfl,
    CabaFlags.getPath_zpath, if_pos rfl, hztype, PublishType.ofCode_code]

/-- The types of `on_msg` that go to the console if the subject is a return. -/
def returns : List PublishType :=
  [.inboxPing, .inboxPong, .inboxSync, .inboxSubs, .inboxRem, .inboxResub, .inboxRepsub,
    .inboxAddRte, .inboxSyncReq, .inboxSyncRpy, .inboxBloomReq, .inboxBloomRpy, .inboxAdjReq,
    .inboxAdjRpy, .inboxMeshReq, .inboxMeshRpy, .inboxUcastReq, .inboxUcastRpy, .inbox,
    .inboxAnyRte, .inboxLoss, .inboxConsole]

/-- What `on_msg` handles a message as: a return as the `normal` ones. -/
def handledAs : Option PublishType :=
  if (∃ t ∈ x.publishType caba subject, t ∈ returns) ∧
      caba.getType = CabaTypeFlag.inbox.code ∧ inboxRet subject ≠ 0 then
    some .normal
  else x.publishType caba subject

end MsgLib

/-! ## §3 Fields and their uses -/

/-- `MsgFid`, in the order of the numbers. -/
inductive MsgFid
  | sub | data | session | bridge | userHmac | digest | authKey | sessKey | peerDb | meshDb
  | cnonce | syncBridge | uidCsum | meshCsum | meshFilter | adjacency | bloom | seqno | subSeqno
  | time | uptime | interval | refCnt | token | ret | linkState | start | endNo | adjInfo
  | authSeqno | authTime | fmt | hops | refSeqno | tportid | uid | uidCnt | subjHash | subject
  | pattern | reply | ucastUrl | meshUrl | tport | user | service | create | expires | version
  | authStage | linkAdd | fdCnt | msTot | mrTot | bsTot | brTot | ms | mr | bs | br | subCnt
  | cost | adjCost | peer | latency | pkDigest | tportType | chainSeqno | stamp | converge
  | replyStamp | hbSkew | pkSig | connUrl | connPort | pubkey | ucastDb | ucastFilter
  | idlService | idlMsgLoss | remBridge | remTportid | meshInfo | linkStateSum | subSeqnoSum
  | hostId | queue | queueHash | queueRefs | hdrLen | sufLen | bloomUpd | idlRestart | pathLimit
deriving DecidableEq, Repr

def MsgFid.code (f : MsgFid) : UInt8 := UInt8.ofNat f.ctorIdx

/-- The iterator over the fields of a message inside of a message
(`TibSassMsg`): the ids and the references, from the start of the message,
which do not leave it. -/
structure TibSass where
  fields : List UInt8 → List (UInt8 × MDReference)
  inside : ∀ b, ∀ f ∈ fields b, f.2.fptr + f.2.fsize ≤ b.length

/-- One use of a field. -/
inductive Use
  /-- a number, a string or data: `fptr` with `fsize` -/
  | whole (f : MsgFid)
  /-- `copy_from`: a fixed number of bytes -/
  | copy (f : MsgFid) (off n : Nat)
  /-- `decode_rec_list`: records that hold nonces under these ids -/
  | recs (f : MsgFid) (nonces : List MsgFid)
deriving DecidableEq

/-- What is asked of `FID_AUTH_STAGE`. -/
inductive StageTest
  | any
  | isOne (stages : List Nat)
  /-- `! is_bye_stage`, or there is none -/
  | notBye
deriving DecidableEq

def StageTest.passes (stage : Option Nat) : StageTest → Bool
  | .any => true
  | .isOne stages => stage.any (· ∈ stages)
  | .notBye => !stage.any fun n => 4 ≤ n && n ≤ 9

/-- A piece of a handler: the types of the messages that come to it, all when
there are none, what is asked of the stage, what is tested to be set and not to
be set, and what is then used. It may also run on a message that was refused. -/
structure Block where
  tested : List MsgFid
  uses : List Use
  without : List MsgFid := []
  types : List PublishType := []
  stage : StageTest := .any
  onError : Bool := false
deriving DecidableEq

namespace MsgHdrDecoder

variable (d : MsgHdrDecoder)

/-- `test` -/
def test (f : MsgFid) : Bool := (d.mref f.code).isSome

/-- What the message is handled as. -/
def handledAs (x : MsgLib) : Option PublishType :=
  x.handledAs d.msg.caba (bytesAt d.msg.msgBuf d.msg.sub d.msg.sublen)

/-- `get_ival<uint32_t>( FID_AUTH_STAGE, stage )` -/
def stage (x : MsgLib) : Option Nat :=
  (d.mref MsgFid.authStage.code).map fun r =>
    let s := bytesAt d.msg.msgBuf r.fptr r.fsize
    if r.ftype = .mdUint then ofBe s % 2 ^ 32 else x.cvtNumber r.ftype s

/-- `get_bridge`: of the header, whatever was decoded. -/
def getBridge : Except Fault (Option (List UInt8)) := do
  let fid ← getBe 2 d.msg.msgBuf d.msg.msgEnd (d.msg.msgOff + 8)
  if fidValue fid ≠ fidBridge then
    return none
  let nonce ← fetch d.msg.msgBuf d.msg.msgEnd (d.msg.msgOff + 8 + 2) 16
  return some nonce

/-- Use the fields of a record: a nonce is copied, the others are as long as
they are. `base` is where the message of the records begins. -/
def useRec (base : Nat) (nonces : List MsgFid) : List (UInt8 × MDReference) → Except Fault Unit
  | [] => return ()
  | f :: fs => do
    let n := if f.1 ∈ nonces.map MsgFid.code then 16 else f.2.fsize
    let _ ← fetch d.msg.msgBuf d.msg.msgEnd (base + f.2.fptr) n
    useRec base nonces fs

/-- A use of a field. The message of a list of records is the field, with the
eight bytes before it (`submsg`). -/
def use (tib : TibSass) : Use → Except Fault Unit
  | .whole f => do
    let r ← recorded (d.mref f.code)
    let _ ← fetch d.msg.msgBuf d.msg.msgEnd r.fptr r.fsize
    return ()
  | .copy f off n => do
    let r ← recorded (d.mref f.code)
    let _ ← fetch d.msg.msgBuf d.msg.msgEnd (r.fptr + off) n
    return ()
  | .recs f nonces => do
    let r ← recorded (d.mref f.code)
    let base ← lenSub r.fptr 8
    let b ← fetch d.msg.msgBuf d.msg.msgEnd base (r.fsize + 8)
    d.useRec base nonces (tib.fields b)

def useAll (tib : TibSass) : List Use → Except Fault Unit
  | [] => return ()
  | u :: us => do
    d.use tib u
    useAll tib us

/-- A message goes to the handlers when all of it was decoded and it has a
seqno (`parse_msg_hdr`, `on_name_svc`). -/
def runBlock (x : MsgLib) (tib : TibSass) (status : Option MsgErr) (b : Block) :
    Except Fault Unit :=
  if (b.onError || (status.isNone && d.test .seqno)) && b.tested.all d.test &&
      b.without.all (fun f => !d.test f) &&
      (b.types.isEmpty || (d.handledAs x).any (· ∈ b.types)) && b.stage.passes (d.stage x) then
    d.useAll tib b.uses
  else return ()

end MsgHdrDecoder

/-! ## §4 The handlers -/

namespace Handler

open MsgFid Use

/-- A field that is used if it is set. -/
def ifSet (f : MsgFid) : Block := { tested := [f], uses := [whole f] }

/-- `get_ival`, also of a message that was refused. -/
def getIval (f : MsgFid) : Block := { tested := [f], uses := [whole f], onError := true }

/-- The same blocks for messages of these types only. -/
def ofTypes (types : List PublishType) (ks : List Block) : List Block :=
  ks.map fun k => { k with types := types }

/-- `get_nonce` and `get_hmac`, behind the tests of `k`: 16 bytes of a field that
is set. -/
def getNonce (f : MsgFid) (k : Block) : Block :=
  { k with tested := k.tested ++ [f], uses := [copy f 0 16] }
def getHmac (f : MsgFid) (k : Block) : Block :=
  { k with tested := k.tested ++ [f], uses := [copy f 0 16] }

/-- `get_pubkey`: 32 bytes. -/
def getPubkey (f : MsgFid) (k : Block) : Block :=
  { k with tested := k.tested ++ [f], uses := [copy f 0 32] }

/-- `lookup_user` and `on_name_svc`, of any message -/
def lookupUser : Block := getHmac userHmac { tested := [], uses := [] }

/-- `MsgFramePublish::print`, also of a message that was refused. -/
def framePrint : Block := { tested := [bridge], uses := [copy bridge 0 16], onError := true }

def ipcOnMsg : List Block := [ifSet data, ifSet reply]

def ipcOnInbox : List Block := ofTypes [.inbox, .inboxAnyRte]
  [ifSet subject, { tested := [subject, data], uses := [whole data] },
    { tested := [subject, reply], uses := [whole reply] }]

def dispatchConsole : List Block := ofTypes [.normal, .inboxTrace, .inboxAck, .mcastSubject]
  [ifSet data, ifSet subject]

def recvLossNotify : List Block := ofTypes [.inboxLoss]
  [ifSet subject, { tested := [subject, idlMsgLoss, msTot, refSeqno, idlRestart],
                    uses := [whole idlRestart] }]

/-- What `on_name_svc` tests first. -/
def nameSvcFields : List MsgFid := [tport, tportType, start, stamp]

def onNameSvc : List Block :=
  [{ tested := nameSvcFields, uses := [whole tport, whole tportType] },
    { tested := nameSvcFields ++ [meshUrl], uses := [whole meshUrl] },
    { tested := nameSvcFields ++ [connUrl], uses := [whole connUrl], without := [meshUrl] }]

/-- `recv_psub_start`, and `recv_psub_stop`, which has no use of the queue. -/
def recvPsubStop : List Block := ofTypes [.psubStart, .psubStop]
  [{ tested := [pattern, subjHash, fmt], uses := [whole pattern] },
    { tested := [pattern, subjHash, fmt, bloomUpd], uses := [whole bloomUpd] }]

def recvPsubStart : List Block := recvPsubStop ++ ofTypes [.psubStart]
  [{ tested := [pattern, subjHash, fmt, queueHash, queueRefs, queue], uses := [whole queue] }]

/-- `recv_sub_start` and `recv_sub_stop` -/
def recvSubStop : List Block := ofTypes [.subJoin, .subLeave]
  [{ tested := [subject, subjHash], uses := [whole subject] },
    { tested := [subject, subjHash, bloomUpd], uses := [whole bloomUpd] }]

def recvSubStart : List Block := recvSubStop ++ ofTypes [.subJoin]
  [{ tested := [subject, subjHash, queueHash, queueRefs, queue], uses := [whole queue] }]

def compareVersion : Block :=
  { tested := [version], uses := [whole version], types := [.inboxAuth], stage := .isOne [1] }

/-- What `on_inbox_auth` tests before it calls `recv_challenge`. -/
def challengeFields : List MsgFid := [cnonce, authTime, authSeqno, pubkey]

/-- `recv_challenge` of the stages 1 and 2: the key was not tested. -/
def recvChallenge : Block :=
  { tested := challengeFields, uses := [copy cnonce 0 16, copy pubkey 0 32, copy authKey 0 64],
    types := [.inboxAuth], stage := .isOne [1, 2] }

def onInboxAuth : List Block :=
  [{ tested := challengeFields ++ [start], uses := [whole start],
     types := [.inboxAuth], stage := .isOne [2] },
    { tested := [tport], uses := [whole tport],
      types := [.inboxAuth], stage := .isOne [1, 2, 3] },
    { tested := [tportid, adjCost], uses := [whole adjCost],
      types := [.inboxAuth], stage := .isOne [1, 2, 3] }]

def consoleInboxOnData : Block := ifSet subject

def recvRemoteRequest : List Block := ofTypes [.inboxRem] [ifSet data, ifSet token]

def consoleSubsOnData : List Block :=
  [ifSet subject, { tested := [pattern], uses := [whole pattern], without := [subject] },
    ifSet endNo, ifSet queue]

/-- `get_bridge_nonce`, behind the tests of `k`: the nonce is after the digest in
a session. -/
def getBridgeNonce (k : Block) : List Block :=
  [{ k with tested := [session], uses := [copy session 16 16] },
    { k with tested := [syncBridge], uses := [copy syncBridge 0 16],
             without := session :: k.without }]

def recvSyncRequest : List Block :=
  getBridgeNonce { tested := [], uses := [], types := [.inboxSyncReq] } ++
    ofTypes [.inboxSyncReq] [ifSet user]

def recvPeerDel : List Block :=
  getBridgeNonce { tested := [], uses := [], types := [.peerDel] } ++
    ofTypes [.peerDel] [ifSet authStage]

/-- The messages of `recv_peer_add`, `recv_add_route` and `recv_sync_result`. -/
def peerAdds : List PublishType := [.peerAdd, .inboxAddRte, .inboxSyncRpy]

/-- `recv_peer_add`, of a message that is not a `peer_db`. -/
def recvPeerAdd : List Block :=
  getBridgeNonce { tested := [], uses := [], without := [peerDb], types := peerAdds } ++
    [{ tested := [user], uses := [whole user], without := [peerDb], types := peerAdds }]

/-- What `decode_peer_msg` tests first. -/
def peerMsgFields : List MsgFid := [session, seqno, time, sessKey, cnonce, start]

def decodePeerMsg : List Block :=
  [{ tested := peerMsgFields,
     uses := [copy session 0 32, copy sessKey 0 64, copy cnonce 0 16,
              whole time, whole seqno, whole start],
     without := [peerDb], types := peerAdds, stage := .notBye },
    { tested := peerMsgFields ++ [user, service, create, expires],
      uses := [whole user, whole service, whole create, whole expires],
      without := [peerDb], types := peerAdds, stage := .notBye }]

def makePeerSession : List Block := ofTypes peerAdds [ifSet hbSkew, ifSet hostId]

def recvPeerDb : Block := { tested := [peerDb], uses := [recs peerDb [bridge]], types := peerAdds }

/-- `recv_mesh_db`, of `recv_trusted` (stage 3) and of `recv_mesh_result` -/
def recvMeshDb (types : List PublishType) (stage : StageTest) : List Block :=
  [{ tested := [meshDb], uses := [recs meshDb [bridge]], types := types, stage := stage },
    { tested := [meshDb, meshUrl, tport], uses := [whole meshUrl, whole tport], types := types,
      stage := stage }]

def recvUcastDb : List Block :=
  [{ tested := [ucastDb], uses := [recs ucastDb [bridge]], types := [.inboxAuth],
     stage := .isOne [3] },
    { tested := [ucastDb, ucastUrl, tport], uses := [whole ucastUrl, whole tport],
      types := [.inboxAuth], stage := .isOne [3] }]

/-- The stage of `recv_trusted` is `AUTH_TRUST`. -/
def recvTrusted : List Block := recvMeshDb [.inboxAuth] (.isOne [3]) ++ recvUcastDb

def setupFilter : List Block := ofTypes [.inboxMeshReq] [ifSet meshFilter, ifSet ucastFilter]

def recvMeshRequest : Block :=
  { tested := [meshUrl, tport, tportid], uses := [whole tportid, whole meshUrl, whole tport],
    types := [.inboxMeshReq] }

/-- `recv_mesh_result`: the transport and its url were not tested. -/
def recvMeshResult : List Block := ofTypes [.inboxMeshRpy]
  [ifSet meshInfo,
    { tested := [meshInfo, meshCsum],
      uses := [whole tportid, whole meshUrl, whole tport, copy meshCsum 0 16] }] ++
    recvMeshDb [.inboxMeshRpy] .any

def heartbeats : List PublishType := [.sessionHello, .sessionHb]

/-- The numbers that `on_heartbeat` gets first. -/
def heartbeatNumbers : List MsgFid := [uptime, seqno, time, start, interval]

/-- What it gets then. -/
def heartbeatKeys : List Block :=
  [getNonce cnonce { tested := heartbeatNumbers, uses := [], types := heartbeats },
    getPubkey pubkey { tested := heartbeatNumbers ++ [cnonce], uses := [], types := heartbeats }]

def heartbeatFields : List MsgFid := heartbeatNumbers ++ [cnonce, pubkey]

def onHeartbeat : List Block := ofTypes heartbeats
  [{ tested := heartbeatFields ++ [tport], uses := [whole tport] },
    { tested := heartbeatFields ++ [adjCost], uses := [whole adjCost] },
    { tested := heartbeatFields ++ [converge], uses := [whole converge] },
    { tested := heartbeatFields ++ [pathLimit], uses := [whole pathLimit] },
    { tested := heartbeatFields ++ [linkState, subSeqno],
      uses := [whole linkState, whole subSeqno] },
    { tested := heartbeatFields ++ [linkState, subSeqno, linkStateSum, subSeqnoSum],
      uses := [whole linkStateSum, whole subSeqnoSum] }]

/-- The checksums of a heartbeat. -/
def heartbeatCsum (f : MsgFid) : Block :=
  { tested := heartbeatFields ++ [linkState, subSeqno, f], uses := [copy f 0 16],
    types := heartbeats }

/-- The messages of `recv_ping_request` -/
def pings : List PublishType := [.inboxConsole, .inboxPing, .mcastPing, .mcast]

/-- `hb_adjacency_request`, of `recv_mcast_sync_request`, `recv_mcast_sync_result` and
`recv_ping_request` -/
def hbAdjacencyRequest : Block :=
  { tested := [subSeqno, linkState], uses := [whole linkState, whole subSeqno],
    types := [.mcastSync, .inboxSync] ++ pings }

def recvMcastSyncRequest : List Block := ofTypes [.mcastSync]
  [ifSet subSeqnoSum, ifSet linkStateSum, ifSet stamp, ifSet token]

def recvPingRequest : List Block := ofTypes pings
  [ifSet stamp, ifSet token,
    { tested := [idlService, idlMsgLoss], uses := [whole idlService, whole idlMsgLoss] },
    { tested := [idlService, idlMsgLoss, idlRestart], uses := [whole idlRestart] },
    { tested := [idlService, idlMsgLoss, hostId], uses := [whole hostId] }]

def recvPongResult : List Block := ofTypes [.inboxPong]
  [ifSet stamp, ifSet replyStamp,
    { tested := [idlService, idlMsgLoss], uses := [whole idlService, whole idlMsgLoss] },
    { tested := [idlService, idlMsgLoss, idlRestart], uses := [whole idlRestart] }]

def findPeer : List Block := [ifSet user, ifSet create, ifSet expires]

def addAuthenticated : List Block :=
  [ifSet uptime, { tested := [uptime, interval], uses := [whole interval] }, ifSet start]

def setUcastUrl : Block := ifSet ucastUrl
def setMeshUrl : Block := ifSet meshUrl

def recvSubsRequest : List Block := ofTypes [.inboxSubs]
  [ifSet start, ifSet endNo, ifSet token, ifSet data]

def recvBloom : Block :=
  { tested := [bloom, subSeqno], uses := [whole subSeqno, whole bloom],
    types := [.bloomFilter, .inboxBloomRpy, .inboxAdjRpy] ++ peerAdds }

def recvAdjacencyRequest : Block :=
  getNonce syncBridge { tested := [], uses := [], types := [.inboxAdjReq] }

/-- `recv_adjacency_change` decodes the list of a `_Z.ADJ`. -/
def recvAdjacencyChange : Block :=
  { tested := [linkState, adjacency], uses := [recs adjacency [bridge, remBridge]],
    types := [.adjacency] }

/-- `recv_adjacency_result`, behind the tests of `k`: the nonce of the peer, and the
same list. -/
def recvAdjacencyResult (k : Block) : List Block :=
  [getNonce syncBridge k,
    { k with tested := k.tested ++ [linkState, adjacency],
             uses := [recs adjacency [bridge, remBridge]] }]

/-- It is called with the reply to a request, and at the end of `recv_peer_add`. -/
def adjacencyResults : List Block :=
  let add (tested : List MsgFid) : Block :=
    { tested := tested, uses := [], without := [peerDb], types := peerAdds, stage := .notBye }
  recvAdjacencyResult { tested := [], uses := [], types := [.inboxAdjRpy] } ++
    recvAdjacencyResult (add [session, adjacency, linkState]) ++
    recvAdjacencyResult (add [syncBridge, adjacency, linkState]) ++
    recvAdjacencyResult (add [session, bloom, subSeqno]) ++
    recvAdjacencyResult (add [syncBridge, bloom, subSeqno]) ++
    ofTypes (.inboxAdjRpy :: peerAdds) [ifSet user]

/-- The handlers that use fields only as they were recorded. -/
def plain : List Block :=
  ipcOnMsg ++ ipcOnInbox ++ dispatchConsole ++ recvLossNotify ++ onNameSvc ++ recvPsubStart ++
    recvPsubStop ++ recvSubStart ++ recvSubStop ++ [compareVersion] ++ onInboxAuth ++
    [consoleInboxOnData] ++ recvRemoteRequest ++ consoleSubsOnData ++ makePeerSession ++
    setupFilter ++ [recvMeshRequest] ++ onHeartbeat ++ [hbAdjacencyRequest] ++
    recvMcastSyncRequest ++ recvPingRequest ++ recvPongResult ++ findPeer ++ addAuthenticated ++
    [setUcastUrl, setMeshUrl] ++ recvSubsRequest ++ [recvBloom]

/-- The handlers that copy nonces, digests and keys, or decode records. -/
def copying : List Block :=
  [framePrint, lookupUser, recvChallenge] ++ recvTrusted ++ recvSyncRequest ++ recvPeerDel ++
    recvPeerAdd ++ decodePeerMsg ++ [recvPeerDb] ++ recvMeshResult ++ heartbeatKeys ++
    [heartbeatCsum uidCsum, heartbeatCsum meshCsum, recvAdjacencyRequest, recvAdjacencyChange] ++
    adjacencyResults

/-- All the blocks. -/
def all : List Block := plain ++ copying

end Handler

/-- The functions of the reader do nothing that they must not, on these bytes:
none of them ends in a fault. -/
structure ReadsInside (kv : RaiKv) (c : DsaCrypt) (x : MsgLib) (tib : TibSass)
    (b : List UInt8) : Prop where
  unpack : (CabaMsg.unpack kv b).isOk
  verify : ∀ e m, CabaMsg.unpack kv b = .ok (e, .ok m) → ∀ key, (m.verify kv key).isOk
  verifyHb : ∀ e m, CabaMsg.unpack kv b = .ok (e, .ok m) → ∀ key, (m.verifyHb kv key).isOk
  verifySig : ∀ e m, CabaMsg.unpack kv b = .ok (e, .ok m) → ∀ key, (m.verifySig c key).isOk
  decode : ∀ e m, CabaMsg.unpack kv b = .ok (e, .ok m) → (decodeMsg m).isOk
  bridge : ∀ e m, CabaMsg.unpack kv b = .ok (e, .ok m) →
    ∀ st d, decodeMsg m = .ok (st, d) → d.getBridge.isOk
  ival : ∀ e m, CabaMsg.unpack kv b = .ok (e, .ok m) →
    ∀ st d, decodeMsg m = .ok (st, d) → ∀ f, (d.runBlock x tib st (Handler.getIval f)).isOk
  handlers : ∀ e m, CabaMsg.unpack kv b = .ok (e, .ok m) →
    ∀ st d, decodeMsg m = .ok (st, d) → ∀ k ∈ Handler.all, (d.runBlock x tib st k).isOk

end Raims
