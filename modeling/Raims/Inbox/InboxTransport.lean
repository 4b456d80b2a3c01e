import Raims.Lib.Serial
import Mathlib.Data.List.DropRight
import Mathlib.Logic.Function.Basic

/-!
# The inbox transport (`EvInboxTransport`)

Messages to the inbox of a peer go by datagrams. A message is one packet or, if it
is longer, fragments and a rollup; packets are numbered, kept until they are acked,
and sent again by a timer. The receiver delivers them in order and puts the fragments
together. A sequence number of 32 bits is the natural number that it is the remainder
of; `seqno_cmp` sees the remainders. The peers stay resolved; the memory of windows is
left out, and nothing is sent while a message is dispatched
(`Raims.Inbox.WithoutWindows` is about the same functions with their windows).
-/

namespace Raims

/-! ## Packets and peers -/

/-- The difference of the words, taken modulo `2^32`. -/
def seqnoCmp (s1 s2 : ℕ) : ℤ := Serial.cmp 32 (s1 % 2 ^ 32) (s2 % 2 ^ 32)

inductive InboxPktType where
  | data | rack | sack
deriving DecidableEq

/-- `InboxCode`. -/
structure InboxCode where
  type : InboxPktType
  isRepair : Bool
  isFragment : Bool
  isRollup : Bool
deriving DecidableEq

namespace InboxCode

def isData (c : InboxCode) : Bool := c.type = .data

def message : InboxCode := ⟨.data, false, false, false⟩

def setFragment (c : InboxCode) : InboxCode := { c with isFragment := true }

def setRollup (c : InboxCode) : InboxCode := { c with isFragment := true, isRollup := true }

def setRepair (c : InboxCode) : InboxCode := { c with isRepair := true }

end InboxCode

/-- `InboxPkt`, less the ids of the peers. -/
structure InboxPkt where
  code : InboxCode
  srcSeqno : ℕ
  destSeqno : ℕ
  msg : List UInt8
deriving DecidableEq

/-- `InboxPktElem`: a packet and the peer of its window. -/
structure InboxPktElem where
  peer : ℕ
  pkt : InboxPkt
deriving DecidableEq

/-- `InboxPeer`, less its address and its ids. -/
structure InboxPeer where
  outSeqno : ℕ
  outAckSeqno : ℕ
  outWindowSeqno : ℕ
  inSeqno : ℕ
  inAckSeqno : ℕ
  inWindowSeqno : ℕ
  activeRecv : Bool
  activeSend : Bool
  activeWindow : Bool
  dupRecv : Bool
  windowTimerCnt : ℕ
  sendTimerCnt : ℕ
  windowTimer : ℕ
  sendTimer : ℕ
  recvTimer : ℕ
  out : List InboxPkt
  inList : List InboxPkt
  fragList : List InboxPkt

namespace InboxPeer

def zero : InboxPeer :=
  ⟨0, 0, 0, 0, 0, 0, false, false, false, false, 0, 0, 0, 0, 0, [], [], []⟩

variable (p : InboxPeer)

def active : Bool := p.activeRecv || p.activeSend || p.activeWindow

/-- `adjust_send_window`: the packets that are acked leave the head of the window. -/
def adjustSendWindow : InboxPeer :=
  { p with
    out := p.out.dropWhile fun el => seqnoCmp el.srcSeqno p.outWindowSeqno ≤ 0
    outAckSeqno := p.outWindowSeqno }

def usToNs (t cnt : ℕ) : ℕ := t * 1000 * 2 ^ cnt

/-- `window_timer_expire`. -/
def windowTimerExpire (t : ℕ) : InboxPeer × Bool :=
  if p.windowTimer + usToNs 50000 p.windowTimerCnt < t then
    ({ p with
        windowTimerCnt := if p.windowTimerCnt < 8 then p.windowTimerCnt + 1 else p.windowTimerCnt
        windowTimer := t }, true)
  else (p, false)

/-- `send_timer_expire`. -/
def sendTimerExpire (t : ℕ) : InboxPeer × Bool :=
  if p.sendTimer + usToNs 20000 p.sendTimerCnt < t then
    ({ p with
        sendTimerCnt := if p.sendTimerCnt < 8 then p.sendTimerCnt + 1 else p.sendTimerCnt
        sendTimer := t }, true)
  else (p, false)

/-- `recv_timer_expire`. -/
def recvTimerExpire (t : ℕ) : InboxPeer × Bool :=
  if p.recvTimer + usToNs 10000 0 < t then ({ p with recvTimer := t }, true) else (p, false)

end InboxPeer

/-! ## Fragments -/

/-- `sizeof( InboxPktElem )`. -/
def sizeofPktElem : ℕ := 48

/-- `mtu - sizeof( InboxPktElem )`, of type `size_t`. -/
def maxPayload (mtu : UInt32) : ℕ := (mtu.toNat + (2 ^ 64 - sizeofPktElem)) % 2 ^ 64

/-- The fragments of a message after some of them. -/
def fragLoop (max : ℕ) (msg : List UInt8) : List (List UInt8) :=
  if _h : 0 < max ∧ max < msg.length then msg.take max :: fragLoop max (msg.drop max) else [msg]
termination_by msg.length
decreasing_by
  simp only [List.length_drop]
  omega

/-- The bytes of a fragment of `n`: of the message, then of the trail, then a zero. -/
def fragBytes (n : ℕ) (msg trail : List UInt8) : List UInt8 :=
  let z1 := min msg.length n
  let z2 := min trail.length (n - z1)
  msg.take z1 ++ trail.take z2 ++ if 0 < n - z1 - z2 then [0] else []

/-- The fragments of a message of `left` bytes with a trail, after some of them. -/
def fragTrailLoop (max left : ℕ) (msg trail : List UInt8) : List (List UInt8) :=
  if _h : 0 < max ∧ max < left then
    fragBytes max msg trail ::
      fragTrailLoop max (left - max) (msg.drop max) (trail.drop (max - min msg.length max))
  else [fragBytes left msg trail]
termination_by left

/-- The codes of the fragments: the last one is the rollup. -/
def fragCodes : List (List UInt8) → List (InboxCode × List UInt8)
  | [] => []
  | [msg] => [(InboxCode.message.setRollup, msg)]
  | msg :: rest => (InboxCode.message.setFragment, msg) :: fragCodes rest

/-- The packets of `post_msg`. -/
def msgPackets (max : ℕ) (msg : List UInt8) : List (InboxCode × List UInt8) :=
  if msg.length ≤ max then [(.message, msg)] else fragCodes (fragLoop max msg)

/-- The bytes of a message with its trail: a trail of odd size is padded. -/
def trailBytes (msg trail : List UInt8) : List UInt8 :=
  msg ++ trail ++ if trail.length % 2 = 1 then [0] else []

/-- The packets of `post_frag_msg`. -/
def trailPackets (max : ℕ) (msg trail : List UInt8) : List (InboxCode × List UInt8) :=
  let msgLen := msg.length + trail.length + trail.length % 2
  if msgLen ≤ max then [(.message, trailBytes msg trail)]
  else fragCodes (fragTrailLoop max msgLen msg trail)

/-! ## The transport -/

/-- `EvInboxTransport`, with the messages that it handed to `dispatch_msg2` and the
peers they came from. With an mtu of 48 a fragment has no bytes, and `post_msg` does
not end. -/
structure EvInboxTransport where
  mtu : UInt32
  mtu_ne : mtu ≠ 48
  peer : ℕ → InboxPeer
  out : List InboxPktElem
  outCount : ℕ
  active : List ℕ
  curMonoTime : ℕ
  dispatched : List (ℕ × List UInt8)

namespace EvInboxTransport

/-- A transport that listens. -/
def listen (mtu : UInt32) (h : mtu ≠ 48) (curMonoTime : ℕ) : EvInboxTransport :=
  ⟨mtu, h, fun _ => .zero, [], 0, [], curMonoTime, []⟩

variable (t : EvInboxTransport) (q : ℕ)

def setPeer (p : InboxPeer) : EvInboxTransport := { t with peer := Function.update t.peer q p }

/-- `push_active`: a peer that is made active comes to the list. -/
def pushActive (p : InboxPeer) : EvInboxTransport :=
  { t.setPeer q p with active := if (t.peer q).active then t.active else t.active ++ [q] }

/-- `push_active_send`. -/
def pushActiveSend : EvInboxTransport :=
  t.pushActive q { t.peer q with
    sendTimer := t.curMonoTime, sendTimerCnt := 0, activeSend := true }

/-- `push_active_recv`. -/
def pushActiveRecv : EvInboxTransport :=
  if (t.peer q).activeRecv then t
  else t.pushActive q { t.peer q with recvTimer := t.curMonoTime, activeRecv := true }

/-- `push_active_window`. -/
def pushActiveWindow : EvInboxTransport :=
  t.pushActive q { t.peer q with
    windowTimer := t.curMonoTime, windowTimerCnt := 0, activeWindow := true }

/-! ### Receiving -/

/-- A packet that is next in the sequence, and the message that it completes. -/
def consume (p : InboxPeer) (pkt : InboxPkt) : InboxPeer × Option (List UInt8) :=
  let p := { p with inSeqno := pkt.srcSeqno }
  if pkt.code.isFragment = false then (p, some pkt.msg)
  else if pkt.code.isRollup then
    -- `dispatch_frag_msg`
    ({ p with fragList := [] }, some ((p.fragList ++ [pkt]).flatMap InboxPkt.msg))
  else ({ p with fragList := p.fragList ++ [pkt] }, none)

/-- The packets of the recv window that are in order. -/
def drain (p : InboxPeer) : List InboxPkt → InboxPeer × List (List UInt8)
  | [] => ({ p with inList := [] }, [])
  | el :: rest =>
    if seqnoCmp (p.inSeqno + 1) el.srcSeqno ≠ 0 then ({ p with inList := el :: rest }, [])
    else
      let c := consume p el
      let d := drain c.1 rest
      (d.1, c.2.toList ++ d.2)

/-- The recv window with a packet at its place, none if it is there. -/
def insertIn (pkt : InboxPkt) : List InboxPkt → Option (List InboxPkt)
  | [] => some [pkt]
  | el :: rest =>
    if 0 ≤ seqnoCmp el.srcSeqno pkt.srcSeqno then
      if seqnoCmp el.srcSeqno pkt.srcSeqno = 0 then none else some (pkt :: el :: rest)
    else (insertIn pkt rest).map (el :: ·)

/-- `dispatch_msg`, of the peer only: the peer and the messages to dispatch. -/
def dispatchPkt (p : InboxPeer) (pkt : InboxPkt) : InboxPeer × List (List UInt8) :=
  if seqnoCmp (p.inSeqno + 1) pkt.srcSeqno = 0 then
    let c := consume p pkt
    let d := drain c.1 c.1.inList
    (d.1, c.2.toList ++ d.2)
  else if seqnoCmp p.inSeqno pkt.srcSeqno < 0 then
    match insertIn pkt p.inList with
    | none => ({ p with dupRecv := true }, [])
    | some inList => drain p inList
  else ({ p with dupRecv := true }, [])

/-- `dispatch_msg`. -/
def dispatchMsg (pkt : InboxPkt) : EvInboxTransport :=
  let t := t.pushActiveRecv q
  let d := dispatchPkt (t.peer q) pkt
  { t.setPeer q d.1 with dispatched := t.dispatched ++ d.2.map (q, ·) }

/-- An ack moves the trailing edge of the send window. -/
def ackPeer (p : InboxPeer) (destSeqno : ℕ) : InboxPeer :=
  if 0 < seqnoCmp destSeqno p.outWindowSeqno then
    let p := { p with outWindowSeqno := destSeqno }
    if seqnoCmp p.outAckSeqno p.outWindowSeqno < 0 then p.adjustSendWindow else p
  else p

/-- `process`, for a packet of a peer. -/
def process (pkt : InboxPkt) : EvInboxTransport :=
  let p := ackPeer (t.peer q) pkt.destSeqno
  let isNew := 0 < seqnoCmp pkt.srcSeqno p.inWindowSeqno
  let chg := seqnoCmp pkt.destSeqno p.outSeqno < 0 ∨ isNew
  let t := t.setPeer q (if isNew then { p with inWindowSeqno := pkt.srcSeqno } else p)
  let t := if chg then t.pushActiveWindow q else t
  if pkt.code.isData then t.dispatchMsg q pkt else t

/-! ### Sending -/

/-- The packet is not acked: it is to be sent again. -/
def unacked (p : InboxPeer) (el : InboxPkt) : Bool := 0 < seqnoCmp el.srcSeqno p.outWindowSeqno

/-- A packet that is sent again. -/
def rexmit (p : InboxPeer) (el : InboxPkt) : InboxPkt :=
  { el with code := el.code.setRepair, destSeqno := p.inSeqno }

/-- `repair_window`: from the tail of the send window, up to the first packet that is
acked, and whether there are any. -/
def repairWindow : EvInboxTransport × Bool :=
  let p := t.peer q
  let again := p.out.rtakeWhile (unacked p)
  if again.isEmpty then (t, false)
  else
    ({ t.setPeer q { p with out := p.out.rdropWhile (unacked p) } with
        out := t.out ++ again.map fun el => ⟨q, rexmit p el⟩
        outCount := t.outCount + again.length }, true)

/-- `check_window`. -/
def checkWindow : EvInboxTransport × Bool :=
  let r := if 0 < seqnoCmp (t.peer q).outSeqno (t.peer q).outWindowSeqno then t.repairWindow q
    else (t, false)
  let p := r.1.peer q
  if seqnoCmp p.inSeqno p.inWindowSeqno < 0 then
    ((r.1.setPeer q { p with inAckSeqno := p.inWindowSeqno }).pushActiveRecv q, r.2)
  else r

/-- The packet of an ack. -/
def ackPkt (p : InboxPeer) (type : InboxPktType) : InboxPkt :=
  ⟨⟨type, false, false, false⟩, p.outSeqno, p.inSeqno, []⟩

/-- The part of `timer_expire` that checks the send window of a peer. -/
def timerWindow (now : ℕ) : EvInboxTransport :=
  let p := t.peer q
  if p.activeWindow = false then t
  else
    let w := p.windowTimerExpire now
    let t := t.setPeer q w.1
    if w.2 = false then t
    else
      let c := t.checkWindow q
      if c.2 then c.1 else c.1.setPeer q { c.1.peer q with activeWindow := false }

/-- The part of `timer_expire` that acks what was received, or asks for an ack. -/
def timerAck (now : ℕ) : EvInboxTransport :=
  let p := t.peer q
  let r := if p.activeRecv then p.recvTimerExpire now else (p, false)
  let isRack := r.2 && (seqnoCmp p.inAckSeqno p.inSeqno ≠ 0 || p.dupRecv)
  let p := if r.2 then { r.1 with activeRecv := false, dupRecv := false } else r.1
  let s := if p.activeSend then p.sendTimerExpire now else (p, false)
  let isSack := s.2 && seqnoCmp p.outAckSeqno p.outSeqno ≠ 0
  let p := if s.2 && !isSack then { s.1 with activeSend := false } else s.1
  let t :=
    if isRack || isSack then
      { t.setPeer q { p with inAckSeqno := p.inSeqno } with
        out := t.out ++ [⟨q, ackPkt p (if isRack then .rack else .sack)⟩]
        outCount := t.outCount + 1 }
    else t.setPeer q p
  -- `pop_active`
  if (t.peer q).active then t else { t with active := t.active.erase q }

/-- The turn of a peer in `timer_expire`. -/
def timerPeer (now : ℕ) (t : EvInboxTransport) (q : ℕ) : EvInboxTransport :=
  (t.timerWindow q now).timerAck q now

/-- `timer_expire`. -/
def timerExpire (now : ℕ) : EvInboxTransport :=
  t.active.foldl (timerPeer now) { t with curMonoTime := now }

/-- `post_msg_fill_pkt_hdr` for the packets of a message, in a row. -/
def fillPkts (outSeqno inSeqno : ℕ) : List (InboxCode × List UInt8) → List InboxPkt
  | [] => []
  | (code, msg) :: rest =>
    ⟨code, outSeqno + 1, inSeqno, msg⟩ :: fillPkts (outSeqno + 1) inSeqno rest

/-- The packets of a message go to the send queue. -/
def postPkts (pkts : List (InboxCode × List UInt8)) : EvInboxTransport :=
  let p := t.peer q
  { t.setPeer q { p with outSeqno := p.outSeqno + pkts.length } with
    out := t.out ++ (fillPkts p.outSeqno p.inSeqno pkts).map fun pkt => ⟨q, pkt⟩
    outCount := t.outCount + pkts.length }

/-- `post_msg`. -/
def postMsg (msg : List UInt8) : EvInboxTransport :=
  t.postPkts q (msgPackets (maxPayload t.mtu) msg)

/-- `post_frag_msg`. -/
def postFragMsg (msg trail : List UInt8) : EvInboxTransport :=
  t.postPkts q (trailPackets (maxPayload t.mtu) msg trail)

/-- A packet that is written: a data packet comes to the send window of its peer. -/
def writeElem (t : EvInboxTransport) (el : InboxPktElem) : EvInboxTransport :=
  if el.pkt.code.isData then
    let t := t.pushActiveSend el.peer
    t.setPeer el.peer { t.peer el.peer with out := (t.peer el.peer).out ++ [el.pkt] }
  else t

/-- The packets that `write` sends. -/
def writing : List InboxPktElem := t.out.take t.outCount

/-- `write`. -/
def write : EvInboxTransport :=
  t.writing.foldl writeElem { t with out := t.out.drop t.outCount, outCount := 0 }

end EvInboxTransport

end Raims
