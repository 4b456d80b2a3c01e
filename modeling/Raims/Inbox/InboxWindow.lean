import Raims.Inbox.InboxTransport
import Raims.Lib.RefWindow
import Raims.Lib.Run
import Mathlib.Algebra.Ring.Nat

/-!
# The memory of the inbox transport (`InboxWindow`, `SendWindow`)

The packets that a peer sends, and those that it receives out of order, are in windows
of the peer, and so is the buffer that fragments are put together in. A window is given
up with the last packet in it, or with `deref`, which does not free it.

A message that is dispatched may come back to the transport: its subscriber sends to the
same peer or resets it. The transport then stands in the middle of `dispatch_msg`, and
`Ctl` says where. The timers are left out: a peer may send again, or send an ack, at any
time that nothing is dispatched.
-/

namespace Raims

open RefWindow

/-- `InboxPktElem`, with the place of its memory. -/
structure WinElem where
  /-- `window.peer` -/
  peer : ℕ
  cell : Cell
  /-- how often the peer was reset before the packet was made; no part of the packet -/
  born : ℕ
  pkt : InboxPkt
deriving DecidableEq

/-- `InboxPeer`, as far as packets are kept for it. -/
structure WinPeer where
  addr : List UInt8
  outSeqno : ℕ
  outAckSeqno : ℕ
  outWindowSeqno : ℕ
  inSeqno : ℕ
  out : List WinElem
  inList : List WinElem
  fragList : List WinElem
  /-- how often it was reset -/
  resets : ℕ

/-- Where the transport is. -/
inductive Ctl where
  | idle
  /-- before `dispatch_msg` of a packet of the peer -/
  | pkt (q : ℕ) (pkt : InboxPkt)
  /-- before the next turn of the loop of `dispatch_msg` -/
  | loop (q : ℕ)
  /-- in `dispatch_msg2` with a packet that has no memory in a window -/
  | direct (q : ℕ)
  /-- in `dispatch_msg2` with a packet of the recv window -/
  | elem (q : ℕ) (el : WinElem)
  /-- in `dispatch_msg2` with the buffer of `dispatch_frag_msg` -/
  | frag (q : ℕ) (buf : Cell)

/-- Nothing is dispatched. -/
def Ctl.isIdle : Ctl → Bool
  | .idle => true
  | _ => false

/-- The transport waits for what is outside of it. -/
def Ctl.isOutside : Ctl → Bool
  | .pkt _ _ | .loop _ => false
  | _ => true

/-- A packet that was written, where to, and how often the peer was reset then. -/
structure Sent where
  addr : List UInt8
  el : WinElem
  resets : ℕ
deriving DecidableEq

/-- `EvInboxTransport` with the windows of its peers. -/
structure InboxHeap where
  mtu : UInt32
  mtu_ne : mtu ≠ 48
  store : Store ℕ
  peer : ℕ → WinPeer
  out : List WinElem
  outCount : ℕ
  ctl : Ctl
  sent : List Sent

namespace InboxHeap

/-- A transport whose peers have the addresses, before anything is sent. -/
def start (mtu : { mtu : UInt32 // mtu ≠ 48 }) (addr : ℕ → List UInt8) : InboxHeap where
  mtu := mtu.1
  mtu_ne := mtu.2
  store := ⟨fun _ => none, 0, fun _ => none⟩
  peer q := ⟨addr q, 0, 0, 0, 0, [], [], [], 0⟩
  out := []
  outCount := 0
  ctl := .idle
  sent := []

variable (h : InboxHeap) (q : ℕ)

def setPeer (p : WinPeer) : InboxHeap := { h with peer := Function.update h.peer q p }

theorem peer_setPeer_self (h : InboxHeap) (q : ℕ) (p : WinPeer) : (h.setPeer q p).peer q = p :=
  Function.update_self _ _ _

theorem peer_setPeer_of_ne (h : InboxHeap) {q : ℕ} (p : WinPeer) {k : ℕ} (hk : k ≠ q) :
    (h.setPeer q p).peer k = h.peer k :=
  Function.update_of_ne hk _ _

/-! ## Memory -/

/-- `INBOX_WBUF_SIZE`, in words -/
def wbufSize : ℕ := 16 * 1024 / 8

/-- `alloc_window` for a packet; the length is a word of 32 bits. -/
def allocWindow (pkt : InboxPkt) : InboxHeap × WinElem :=
  let r := h.store.alloc wbufSize q (sizeofPktElem + pkt.msg.length % 2 ^ 32)
  ({ h with store := r.1 }, ⟨q, r.2, (h.peer q).resets, pkt⟩)

/-- `el->window.deref_delete()`, for the packets of a list. -/
def derefDelete (els : List WinElem) : InboxHeap :=
  { h with store := els.foldl (fun a el => a.derefDelete el.cell.window) h.store }

/-- A packet comes to the send queue. -/
def pushOut (el : WinElem) : InboxHeap :=
  { h with out := h.out ++ [el], outCount := h.outCount + 1 }

/-! ## Receiving -/

/-- `adjust_send_window` -/
def adjustSendWindow : InboxHeap :=
  let p := h.peer q
  let acked : WinElem → Bool := fun el => seqnoCmp el.pkt.srcSeqno p.outWindowSeqno ≤ 0
  (h.derefDelete (p.out.takeWhile acked)).setPeer q
    { p with out := p.out.dropWhile acked, outAckSeqno := p.outWindowSeqno }

/-- The part of `process` that reads the ack of a packet. -/
def ackPeer (destSeqno : ℕ) : InboxHeap :=
  let p := h.peer q
  if 0 < seqnoCmp destSeqno p.outWindowSeqno then
    let h := h.setPeer q { p with outWindowSeqno := destSeqno }
    if seqnoCmp p.outAckSeqno destSeqno < 0 then h.adjustSendWindow q else h
  else h

/-- `process`, up to `dispatch_msg`. -/
def process (pkt : InboxPkt) : InboxHeap :=
  { h.ackPeer q pkt.destSeqno with ctl := if pkt.code.isData then .pkt q pkt else .idle }

/-- The bytes of the fragments. -/
def fragLen (els : List WinElem) : ℕ := (els.map fun el => el.pkt.msg.length).sum

/-- `dispatch_frag_msg`, up to `dispatch_msg2`: `len` are the bytes of a packet that is
not in the list. -/
def dispatchFragMsg (len : ℕ) : InboxHeap :=
  let p := h.peer q
  let r := h.store.alloc wbufSize q (fragLen p.fragList + len)
  { h.setPeer q { p with fragList := [] } with
    store := p.fragList.foldl (fun a el => a.deref el.cell.window) r.1
    ctl := .frag q r.2 }

/-- The recv window has the packet already, before a packet of a higher number. -/
def repeated (seqno : ℕ) : List WinElem → Bool
  | [] => false
  | el :: rest =>
    if 0 ≤ seqnoCmp el.pkt.srcSeqno seqno then seqnoCmp el.pkt.srcSeqno seqno = 0
    else repeated seqno rest

/-- `insert_before` the first packet that is not of a lower number. -/
def insertIn (x : WinElem) : List WinElem → List WinElem
  | [] => [x]
  | el :: rest =>
    if 0 ≤ seqnoCmp el.pkt.srcSeqno x.pkt.srcSeqno then x :: el :: rest
    else el :: insertIn x rest

/-- A packet that is the next one, in a list of the peer of its own. -/
def pushFrag (pkt : InboxPkt) : InboxHeap :=
  let r := h.allocWindow q pkt
  r.1.setPeer q { h.peer q with
    inSeqno := pkt.srcSeqno, fragList := (h.peer q).fragList ++ [r.2] }

def pushIn (pkt : InboxPkt) : InboxHeap :=
  let r := h.allocWindow q pkt
  r.1.setPeer q { h.peer q with inList := insertIn r.2 (h.peer q).inList }

/-- The packet is the next one of the peer. -/
def isNext (pkt : InboxPkt) : Prop := seqnoCmp ((h.peer q).inSeqno + 1) pkt.srcSeqno = 0

instance (pkt : InboxPkt) : Decidable (h.isNext q pkt) := inferInstanceAs (Decidable (_ = _))

/-- `dispatch_msg`, up to its loop or to a message that it dispatches before. -/
def dispatchMsg (pkt : InboxPkt) : InboxHeap :=
  let p := h.peer q
  if h.isNext q pkt then
    if pkt.code.isFragment = false then
      { h.setPeer q { p with inSeqno := pkt.srcSeqno } with ctl := .direct q }
    else if pkt.code.isRollup then
      (h.setPeer q { p with inSeqno := pkt.srcSeqno }).dispatchFragMsg q pkt.msg.length
    else { h.pushFrag q pkt with ctl := .loop q }
  else if seqnoCmp p.inSeqno pkt.srcSeqno < 0 then
    if repeated pkt.srcSeqno p.inList then { h with ctl := .idle }
    else { h.pushIn q pkt with ctl := .loop q }
  else { h with ctl := .idle }

/-- The head of the recv window is taken from it. -/
def popIn (el : WinElem) (rest : List WinElem) : InboxHeap :=
  h.setPeer q { h.peer q with inSeqno := el.pkt.srcSeqno, inList := rest }

/-- The head of the recv window comes to the fragments. -/
def popFrag (el : WinElem) (rest : List WinElem) : InboxHeap :=
  h.setPeer q { h.peer q with
    inSeqno := el.pkt.srcSeqno, inList := rest, fragList := (h.peer q).fragList ++ [el] }

/-- One turn of the loop of `dispatch_msg`, for the recv window. -/
def dispatchIn : List WinElem → InboxHeap
  | [] => { h with ctl := .idle }
  | el :: rest =>
    if h.isNext q el.pkt then
      if el.pkt.code.isFragment = false then { h.popIn q el rest with ctl := .elem q el }
      else if el.pkt.code.isRollup then (h.popFrag q el rest).dispatchFragMsg q 0
      else h.popFrag q el rest
    else { h with ctl := .idle }

/-- `p.window->deref()` -/
def derefWindow : InboxHeap :=
  match h.store.current q with
  | none => h
  | some w => { h with store := h.store.deref w }

/-! ## Sending -/

/-- One packet of `post_msg`, with `post_msg_fill_pkt_hdr`. -/
def postPkt (h : InboxHeap) (frag : InboxCode × List UInt8) : InboxHeap :=
  let p := h.peer q
  let r := h.allocWindow q ⟨frag.1, p.outSeqno + 1, p.inSeqno, frag.2⟩
  (r.1.setPeer q { p with outSeqno := p.outSeqno + 1 }).pushOut r.2

/-- `post_msg` -/
def postMsg (msg : List UInt8) : InboxHeap :=
  (msgPackets (maxPayload h.mtu) msg).foldl (postPkt q) h

/-- `post_frag_msg` -/
def postFragMsg (msg trail : List UInt8) : InboxHeap :=
  (trailPackets (maxPayload h.mtu) msg trail).foldl (postPkt q) h

/-- `check_window`, with `repair_window` -/
def checkWindow : InboxHeap :=
  let p := h.peer q
  let unacked : WinElem → Bool := fun el => 0 < seqnoCmp el.pkt.srcSeqno p.outWindowSeqno
  if 0 < seqnoCmp p.outSeqno p.outWindowSeqno then
    { h.setPeer q { p with out := p.out.rdropWhile unacked } with
      out := h.out ++ (p.out.rtakeWhile unacked).map fun el =>
        { el with pkt := { el.pkt with code := el.pkt.code.setRepair, destSeqno := p.inSeqno } }
      outCount := h.outCount + (p.out.rtakeWhile unacked).length }
  else h

/-- The part of `timer_expire` that sends an ack. -/
def sendAck (type : InboxPktType) : InboxHeap :=
  let p := h.peer q
  let r := h.allocWindow q ⟨⟨type, false, false, false⟩, p.outSeqno, p.inSeqno, []⟩
  r.1.pushOut r.2

/-- A packet that is written: a data packet comes to the send window of its peer, and
the memory of another one is given up. -/
def writeElem (el : WinElem) : InboxHeap :=
  let p := h.peer el.peer
  let h' := if el.pkt.code.isData then h.setPeer el.peer { p with out := p.out ++ [el] }
    else h.derefDelete [el]
  { h' with sent := h.sent ++ [⟨p.addr, el, p.resets⟩] }

/-- The loop of `write`, `n` times. -/
def writeLoop : ℕ → InboxHeap → InboxHeap
  | 0, h => h
  | n + 1, h =>
    match h.out with
    | [] => h
    | el :: rest => writeLoop n ({ h with out := rest }.writeElem el)

/-- `write` -/
def write : InboxHeap := { writeLoop h.outCount h with outCount := 0 }

/-! ## Peers -/

/-- `reset_peer`, with `InboxPeer::reset`. The send queue and the current window stay. -/
def resetPeer : InboxHeap :=
  let p := h.peer q
  (h.derefDelete (p.out ++ p.inList ++ p.fragList)).setPeer q
    ⟨p.addr, 0, 0, 0, 0, [], [], [], p.resets + 1⟩

/-- `reassign_peer`, where `addr` is what the url was resolved to. -/
def reassignPeer (addr : List UInt8) : InboxHeap :=
  if addr.length = (h.peer q).addr.length then
    let h := h.resetPeer q
    h.setPeer q { h.peer q with addr := addr }
  else h

/-! ## Runs -/

/-- What may be called also while a message is dispatched. -/
inductive Call where
  | post (q : ℕ) (msg : List UInt8)
  | postFrag (q : ℕ) (msg trail : List UInt8)
  | reset (q : ℕ)
  | reassign (q : ℕ) (addr : List UInt8)

inductive Event where
  | call (c : Call)
  /-- a packet arrives -/
  | recv (q : ℕ) (pkt : InboxPkt)
  /-- `dispatch_msg` goes on -/
  | next
  /-- `dispatch_msg2` returns -/
  | ret
  | write
  | repair (q : ℕ)
  | ack (q : ℕ) (type : InboxPktType)

def call : Call → InboxHeap
  | .post q msg => h.postMsg q msg
  | .postFrag q msg trail => h.postFragMsg q msg trail
  | .reset q => h.resetPeer q
  | .reassign q addr => h.reassignPeer q addr

/-- `dispatch_msg` goes on. -/
def next (h : InboxHeap) : Ctl → InboxHeap
  | .pkt q pkt => h.dispatchMsg q pkt
  | .loop q => h.dispatchIn q (h.peer q).inList
  | _ => h

/-- `dispatch_msg2` returns to `dispatch_msg`. -/
def ret (h : InboxHeap) : Ctl → InboxHeap
  | .direct q => { h with ctl := .loop q }
  | .elem q el => { h.derefDelete [el] with ctl := .loop q }
  -- release msg_buf
  | .frag q _ => { h.derefWindow q with ctl := .loop q }
  | _ => h

/-- What is not possible where the transport is does nothing. -/
def step (h : InboxHeap) : Event → InboxHeap
  | .call c => if h.ctl.isOutside then h.call c else h
  | .recv q pkt => if h.ctl.isIdle then h.process q pkt else h
  | .next => h.next h.ctl
  | .ret => h.ret h.ctl
  | .write => if h.ctl.isIdle then h.write else h
  | .repair q => if h.ctl.isIdle then h.checkWindow q else h
  | .ack q type => if h.ctl.isIdle then h.sendAck q type else h

def run (h : InboxHeap) (es : List Event) : InboxHeap := es.foldl step h

end InboxHeap

end Raims
