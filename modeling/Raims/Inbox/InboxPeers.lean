import Raims.Inbox.InboxTransport
import Raims.Lib.PtrArray

/-!
# The peers of the inbox transport

Which peer a packet comes from, and which peer a message goes to: `src` holds the
peers by the uid that the node has for them, `dest` those whose own uid is known, in
the order they came. The headers of packets are not authenticated, so the uids, the
connection ids and the address are what any sender writes. What the peers then do
with a packet or a message is the transport of `Raims.Inbox.InboxTransport`.
-/

namespace Raims

/-- `NO_UID` -/
def noUid : UInt32 := 0xffffffff

/-- The part of `InboxPeer` that says who it is. -/
structure PeerIds where
  /-- `addr` and `addrlen` -/
  addr : List UInt8
  peerId : UInt32
  urlHash : UInt32
  destPeerId : UInt32
  srcUid : UInt32
  destUid : UInt32
  /-- `RESOLVE_SRC` -/
  resolveSrc : Bool
  /-- `RESOLVE_DEST` -/
  resolveDest : Bool
deriving DecidableEq

namespace PeerIds

/-- `InboxPeer( a, l, id, h )` -/
def new (addr : List UInt8) (peerId urlHash : UInt32) : PeerIds :=
  ⟨addr, peerId, urlHash, 0, noUid, noUid, false, false⟩

def resolved (p : PeerIds) : Bool := p.resolveSrc && p.resolveDest

end PeerIds

/-- The header of an `InboxPkt`, as far as it says who sent it to whom. -/
structure InboxHdr where
  /-- `code.ident` -/
  ident : UInt32
  /-- `code.dest_id` -/
  destId : UInt32
  srcUid : UInt32
  destUid : UInt32
deriving DecidableEq

/-- `EvInboxTransport` with its peers. They are numbered as `alloc_peer` makes them. -/
structure InboxPeers where
  tport : EvInboxTransport
  ids : ℕ → PeerIds
  nextPeer : ℕ
  id : UInt32
  src : List (Option ℕ)
  dest : List (Option ℕ)

namespace InboxPeers

/-- The transport before any peer is known. -/
def start (tport : EvInboxTransport) (id : UInt32) : InboxPeers :=
  ⟨tport, fun _ => PeerIds.new [] 0 0, 0, id, [], []⟩

variable (s : InboxPeers) (q : ℕ)

def setIds (p : PeerIds) : InboxPeers := { s with ids := Function.update s.ids q p }

/-! ### The arrays -/

/-- `InboxSrcArray::match`: it notes the connection id of the other side, if it had none. -/
def matchSrc (uid myPeerId destPeerId : UInt32) : InboxPeers × Option ℕ :=
  match PtrArray.get s.src uid.toNat with
  | none => (s, none)
  | some q =>
    let p := s.ids q
    if p.srcUid ≠ uid then (s, none)
    else if destPeerId ≠ 0 ∧ p.destPeerId ≠ 0 ∧ p.destPeerId ≠ destPeerId then (s, none)
    else
      let s := if destPeerId ≠ 0 ∧ p.destPeerId = 0
        then s.setIds q { p with destPeerId := destPeerId } else s
      if myPeerId ≠ 0 ∧ p.peerId ≠ myPeerId then (s, none) else (s, some q)

/-- `src.insert( p, uid, uid )`: the peer that had the slot, if any, is not told. -/
def insertSrc (uid : UInt32) : InboxPeers :=
  { s.setIds q { s.ids q with srcUid := uid, resolveSrc := true } with
    src := PtrArray.put s.src uid.toNat q }

/-- `dest.insert( p, uid )`, at the end. -/
def insertDest (uid : UInt32) : InboxPeers :=
  { s.setIds q { s.ids q with destUid := uid, resolveDest := true } with
    dest := PtrArray.put s.dest s.dest.length q }

/-- `InboxPeerArray::resolve`, from the end. -/
def resolve (arr : List (Option ℕ)) (addr : List UInt8) : Option ℕ :=
  (arr.reverse.filterMap fun slot => slot).find? fun q =>
    !(s.ids q).resolved && (s.ids q).addr = addr

/-- `InboxDestArray::resolve2` -/
def resolveDest2 (addr : List UInt8) (uid : UInt32) : Option ℕ :=
  (s.dest.filterMap fun slot => slot).find? fun q =>
    (s.ids q).destUid = uid && (s.ids q).addr = addr

/-- `InboxSrcArray::resolve2` -/
def resolveSrc2 (addr : List UInt8) (uid : UInt32) : Option ℕ :=
  (s.matchSrc uid 0 0).2.filter fun q => (s.ids q).addr = addr

/-! ### Peers -/

/-- The connection id of a new peer, which is not 0, and the count after it. -/
def newId : UInt32 × UInt32 :=
  let ident := s.id % 1024
  if ident = 0 then ((s.id + 1) % 1024, s.id + 2) else (ident, s.id + 1)

/-- `alloc_peer`: the peer has the number `next_peer`; its windows are zero from the start. -/
def allocPeer (addr : List UInt8) (urlHash : UInt32) : InboxPeers :=
  { s.setIds s.nextPeer (PeerIds.new addr s.newId.1 urlHash) with
    nextPeer := s.nextPeer + 1
    id := s.newId.2 }

/-- `reset_peer` and `InboxPeer::reset` -/
def resetPeer : InboxPeers :=
  let p := s.ids q
  { s with
    tport := { s.tport.setPeer q .zero with
      active := if (s.tport.peer q).active then s.tport.active.erase q else s.tport.active }
    dest := if p.destUid ≠ noUid then PtrArray.remove q s.dest else s.dest
    src := if p.srcUid ≠ noUid then PtrArray.clear s.src p.srcUid.toNat else s.src
    ids := Function.update s.ids q
      { p with destPeerId := 0, srcUid := noUid, destUid := noUid,
               resolveSrc := false, resolveDest := false } }

/-- The peer that `resolve_src_uid` finds by the address. -/
def foundSrc (addr : List UInt8) (destUid : UInt32) : Option ℕ :=
  (s.resolve s.src addr).or (s.resolveDest2 addr destUid)

/-- The test of `resolve_src_uid`: the peer is not the one it was. -/
def restarted (p : PeerIds) (hdr : InboxHdr) : Bool :=
  p.destUid ≠ hdr.srcUid || (hdr.destId ≠ 0 && hdr.destId ≠ p.peerId) ||
    (p.destPeerId ≠ 0 && p.destPeerId ≠ hdr.ident)

/-- `resolve_src_uid`, from the peer that is found or made. -/
def restartSrc (hdr : InboxHdr) : InboxPeers :=
  let p := s.ids q
  if restarted p hdr then
    let s := if p.destUid ≠ noUid then s.resetPeer q else s
    (s.setIds q { s.ids q with destPeerId := hdr.ident }).insertDest q hdr.srcUid
  else s.setIds q { p with destPeerId := if p.destPeerId = 0 then hdr.ident else p.destPeerId }

/-- `resolve_src_uid` -/
def resolveSrcUid (hdr : InboxHdr) (addr : List UInt8) : InboxPeers × ℕ :=
  match s.foundSrc addr hdr.srcUid with
  | some q => (s.restartSrc q hdr, q)
  | none =>
    let q := s.nextPeer
    let s := s.allocPeer addr 0
    ((s.setIds q { s.ids q with destPeerId := hdr.ident }).restartSrc q hdr, q)

/-- The peer that `resolve_dest_uid` finds by the address, or makes. -/
def pickDest (uid : UInt32) (addr : List UInt8) (urlHash : UInt32) : InboxPeers × ℕ :=
  match (s.resolve s.dest addr).or (s.resolveSrc2 addr uid) with
  | some q => (s, q)
  | none => (s.allocPeer addr urlHash, s.nextPeer)

/-- `resolve_dest_uid`, from the peer that is found or made. -/
def takeSrc (uid : UInt32) : InboxPeers :=
  if (s.ids q).srcUid ≠ uid then
    (if (s.ids q).srcUid ≠ noUid then s.resetPeer q else s).insertSrc q uid
  else s

/-- A url hash for a peer that has none. -/
def noteUrl (urlHash : UInt32) : InboxPeers :=
  if (s.ids q).urlHash = 0 then s.setIds q { s.ids q with urlHash := urlHash } else s

/-- `resolve_dest_uid` -/
def resolveDestUid (uid : UInt32) (addr : List UInt8) (urlHash : UInt32) : InboxPeers × ℕ :=
  let r := s.pickDest uid addr urlHash
  ((r.1.takeSrc r.2 uid).noteUrl r.2 urlHash, r.2)

/-- `reassign_peer`; `addr` is the address of the url, if it has one. -/
def reassignPeer (uid : UInt32) (addr : Option (List UInt8)) (urlHash : UInt32) :
    InboxPeers × Bool :=
  match addr with
  | none => (s, false)
  | some a =>
    if a.length ≠ (s.ids q).addr.length then (s, false)
    else
      let s := (s.resetPeer q).insertSrc q uid
      (s.setIds q { s.ids q with addr := a, urlHash := urlHash }, true)

/-- `shutdown_peer` -/
def shutdownPeer (uid urlHash : UInt32) : InboxPeers :=
  match s.matchSrc uid 0 0 with
  | (s, some q) => if (s.ids q).urlHash = urlHash then s.resetPeer q else s
  | (s, none) => s

/-! ### Packets and messages -/

/-- The uid that the packet is sent to, for a peer that had none. -/
def learnSrc (hdr : InboxHdr) : InboxPeers :=
  if hdr.destUid ≠ noUid ∧ (s.ids q).srcUid = noUid then s.insertSrc q hdr.destUid else s

/-- The uid that the packet comes from, for a peer that had none. -/
def learnDest (hdr : InboxHdr) : InboxPeers :=
  if hdr.srcUid ≠ noUid ∧ (s.ids q).destUid = noUid then s.insertDest q hdr.srcUid else s

/-- The uids of the header that the peer did not have. -/
def learnUids (hdr : InboxHdr) : InboxPeers :=
  if (s.ids q).resolved then s else (s.learnSrc q hdr).learnDest q hdr

/-- The peer of a packet in `process`. -/
def resolvePkt (hdr : InboxHdr) (addr : List UInt8) : InboxPeers × ℕ :=
  match s.matchSrc hdr.destUid hdr.destId hdr.ident with
  | (s, some q) => (s, q)
  | (s, none) => s.resolveSrcUid hdr addr

/-- `process`, for a valid packet. -/
def process (hdr : InboxHdr) (addr : List UInt8) (pkt : InboxPkt) : InboxPeers :=
  let r := s.resolvePkt hdr addr
  let s := r.1.learnUids r.2 hdr
  { s with tport := s.tport.process r.2 pkt }

/-- The peer of a message in `on_msg`, none if there is no way to it. -/
def resolveMsg (uid : UInt32) (addr : Option (List UInt8)) (urlHash : UInt32) :
    InboxPeers × Option ℕ :=
  match s.matchSrc uid 0 0 with
  | (s, some q) =>
    if (s.ids q).urlHash = urlHash then (s, some q)
    else if (s.ids q).urlHash = 0 then
      (s.setIds q { s.ids q with urlHash := urlHash }, some q)
    else
      let r := s.reassignPeer q uid addr urlHash
      (r.1, if r.2 then some q else none)
  | (s, none) =>
    -- `resolve_dest_url`
    match addr with
    | none => (s, none)
    | some a =>
      let r := s.resolveDestUid uid a urlHash
      (r.1, some r.2)

/-- `on_msg` for a message to an inbox. -/
def onMsg (uid : UInt32) (addr : Option (List UInt8)) (urlHash : UInt32)
    (msg trail : List UInt8) : InboxPeers :=
  match s.resolveMsg uid addr urlHash with
  | (s, none) => s
  | (s, some q) =>
    { s with tport :=
        if trail = [] then s.tport.postMsg q msg else s.tport.postFragMsg q msg trail }

/-! ## Events -/

inductive Event where
  | recv (hdr : InboxHdr) (addr : List UInt8) (pkt : InboxPkt)
  | send (uid : UInt32) (addr : Option (List UInt8)) (urlHash : UInt32) (msg trail : List UInt8)
  | shutdown (uid urlHash : UInt32)
  | write
  | timer (now : ℕ)

def step (s : InboxPeers) : Event → InboxPeers
  | .recv hdr addr pkt => s.process hdr addr pkt
  | .send uid addr urlHash msg trail => s.onMsg uid addr urlHash msg trail
  | .shutdown uid urlHash => s.shutdownPeer uid urlHash
  | .write => { s with tport := s.tport.write }
  | .timer now => { s with tport := s.tport.timerExpire now }

/-- The arrays and the list say of every peer what its state says. -/
structure Mapped (s : InboxPeers) : Prop where
  src : ∀ (uid : UInt32) (q : ℕ), PtrArray.get s.src uid.toNat = some q ↔
    (s.ids q).srcUid = uid ∧ (s.ids q).resolveSrc = true
  dest : ∀ q, s.dest.count (some q) =
    if (s.ids q).destUid ≠ noUid ∧ (s.ids q).resolveDest = true then 1 else 0
  active : ∀ q, s.tport.active.count q = if (s.tport.peer q).active then 1 else 0

end InboxPeers

end Raims
