import Raims.Lib.Bytes
import Raims.Lib.Run
import Mathlib.Logic.Function.Basic

/-!
# The multicast transport (`EvPgmTransport`, `PgmSock`)

A message that is larger than a packet of the multicast goes in fragments, each with a
trailer that says of which message it is and where it belongs. What is sent is put into
packets, several messages in one as long as they fit; the last fragment of a message may
have messages after it. The multicast gives each receiver the packets of a source in
order and without loss, and those of several sources in any order.

A source is known by its transport session id. The memory of the send window is left out
but for one thing: a packet is not extended if the window has no room for it.
-/

namespace Raims

open Bytes

/-- `kv_crc_c`, of raikv -/
abbrev Crc : Type := List UInt8 → UInt32

/-! ## Trailers -/

/-- `FragTrailer` -/
structure FragTrailer where
  srcId : UInt64
  srcTime : UInt64
  off : UInt32
  msgLen : UInt32
  hash : UInt32
  mark : UInt32
deriving DecidableEq

/-- `TRAILER_MARK` -/
def trailerMark : UInt32 := 0xff44aa99

/-- `sizeof( FragTrailer )` -/
def sizeofTrailer : ℕ := 32

namespace FragTrailer

variable (t : FragTrailer)

/-- The bytes of the trailer in memory. -/
def bytes : List UInt8 :=
  le 8 t.srcId.toNat ++ le 8 t.srcTime.toNat ++ le 4 t.off.toNat ++ le 4 t.msgLen.toNat ++
    le 4 t.hash.toNat ++ le 4 t.mark.toNat

/-- `FragTrailer( msg, mlen )`, the trailer that ends at `mlen`. -/
def ofMsg (msg : List UInt8) (mlen : ℕ) : FragTrailer :=
  let b := bytesAt msg (mlen - sizeofTrailer) sizeofTrailer
  ⟨UInt64.ofNat (ofLe (bytesAt b 0 8)), UInt64.ofNat (ofLe (bytesAt b 8 8)),
    UInt32.ofNat (ofLe (bytesAt b 16 4)), UInt32.ofNat (ofLe (bytesAt b 20 4)),
    UInt32.ofNat (ofLe (bytesAt b 24 4)), UInt32.ofNat (ofLe (bytesAt b 28 4))⟩

/-- The hash of the trailer, which has none yet. -/
def crcOf (crc : Crc) : UInt32 := crc { t with hash := 0 }.bytes

/-- `FragTrailer( src, t, len )` -/
def new (crc : Crc) (src t : UInt64) (len : UInt32) : FragTrailer :=
  let trl : FragTrailer := ⟨src, t, 0, len, 0, trailerMark⟩
  { trl with hash := trl.crcOf crc }

/-- `is_first_fragment` -/
def isFirstFragment (crc : Crc) (len : ℕ) : Bool :=
  t.off = 0 && len < t.msgLen.toNat && t.mark = trailerMark && t.crcOf crc = t.hash

/-- `is_trailer` -/
def isTrailer (msg : List UInt8) : Bool :=
  sizeofTrailer < msg.length && ofLe (bytesAt msg (msg.length - 4) 4) = trailerMark.toNat

end FragTrailer

/-! ## Fragments that are pending -/

/-- `Fragment`, with the bytes that are merged. -/
structure Fragment where
  srcId : UInt64
  srcTime : UInt64
  hash : UInt32
  off : UInt32
  msgLen : UInt32
  left : UInt32
  buf : List UInt8
deriving DecidableEq

namespace Fragment

variable (g : Fragment)

/-- The trailer that the next fragment has. -/
def trailer : FragTrailer := ⟨g.srcId, g.srcTime, g.off, g.msgLen, g.hash, trailerMark⟩

/-- `matches` -/
def isMatch (t : FragTrailer) : Bool :=
  g.srcId = t.srcId && g.srcTime = t.srcTime && g.off = t.off && g.msgLen = t.msgLen &&
    g.hash = t.hash && trailerMark = t.mark

/-- `merge`, for a trailer that matches: there is no check that the bytes fit. -/
def merge (body : List UInt8) : Fragment :=
  { g with
    off := g.off + UInt32.ofNat body.length
    left := g.left - UInt32.ofNat body.length
    buf := g.buf ++ body }

/-- `Fragment( trl, data, len )` -/
def new (t : FragTrailer) (body : List UInt8) : Fragment :=
  merge ⟨t.srcId, t.srcTime, t.hash, 0, t.msgLen, t.msgLen, []⟩ body

/-- The trailer of the last fragment is in the packet, where the message ends. -/
def endsIn (data : List UInt8) : Bool :=
  g.left.toNat + sizeofTrailer ≤ data.length &&
    g.isMatch (FragTrailer.ofMsg data (g.left.toNat + sizeofTrailer))

end Fragment

/-! ## Sending -/

/-- `PktGeom`. A packet has more room than the trailer, and its length is a word of 16
bits. -/
structure PgmGeom where
  maxTsdu : ℕ
  trailer_lt : sizeofTrailer < maxTsdu
  lt_word : maxTsdu < 2 ^ 16

/-- `max_tsdu - sizeof( FragTrailer )` -/
def PgmGeom.fragSize (geom : PgmGeom) : ℕ := geom.maxTsdu - sizeofTrailer

/-- `EvPublish` or, with a trail, `MsgFragPublish`. A message is not empty, and its length
with the trail is a word of 32 bits, as `FragTrailer` has it. -/
structure PgmPublish where
  msg : List UInt8
  trail : Option (List UInt8)
  msg_ne : msg ≠ []
  lt_word : msg.length + (trail.getD []).length + (trail.getD []).length % 2 < 2 ^ 32

/-- The bytes that are published: a trail of odd size is padded. -/
def PgmPublish.content (pub : PgmPublish) : List UInt8 :=
  pub.msg ++ (pub.trail.getD [] ++ List.replicate ((pub.trail.getD []).length % 2) 0)

/-- The loop of `on_msg` for the fragments of a message, from `off` on. -/
def msgFrags (fragSize off : ℕ) (msg : List UInt8) : List (ℕ × List UInt8) :=
  if _h : 0 < fragSize ∧ msg ≠ [] then
    (off, msg.take fragSize) :: msgFrags fragSize (off + fragSize) (msg.drop fragSize)
  else []
termination_by msg.length
decreasing_by
  have := List.length_pos_iff.2 _h.2
  rw [List.length_drop]
  omega

/-- One turn of the loop of `on_msg` for a message with a trail: the sizes of the parts of
the message, of the trail and of the padding. The trail is not cut to what is left of
the fragment, and `n` is of type `size_t`. -/
def trailSizes (fragSize msgLeft fragLeft : ℕ) : ℕ × ℕ × ℕ :=
  let z1 := min msgLeft fragSize
  let n := fragSize - z1
  if 0 < n ∧ 0 < fragLeft then
    let z2 := min fragLeft fragSize
    (z1, z2, if 0 < (n + (2 ^ 64 - z2)) % 2 ^ 64 then 1 else 0)
  else (z1, 0, if 0 < n then 1 else 0)

/-- The loop of `on_msg` for a message with a trail: `left` are the bytes from `off` on. -/
def trailFrags (fragSize off left : ℕ) (msg frag : List UInt8) : List (ℕ × List UInt8) :=
  if _h : 0 < fragSize ∧ 0 < left then
    let z := trailSizes (min fragSize left) msg.length frag.length
    (off, msg.take z.1 ++ (frag.take z.2.1 ++ List.replicate z.2.2 0)) ::
      trailFrags fragSize (off + fragSize) (left - fragSize) (msg.drop z.1) (frag.drop z.2.1)
  else []
termination_by left

/-- What is put into a packet: a message, or a fragment with its trailer. -/
inductive Put where
  | whole (msg : List UInt8)
  | frag (last : Bool) (t : FragTrailer) (body : List UInt8)
deriving DecidableEq

def Put.bytes : Put → List UInt8
  | whole msg => msg
  | frag _ t body => body ++ t.bytes

/-- A packet. What was put into it is said of it, and is not sent. -/
structure Skb where
  bytes : List UInt8
  made : List Put
deriving DecidableEq

/-- A source: the packet that may be extended, those that are not received, and all that
it published. -/
structure PgmSource where
  lastSkb : Option Skb
  queue : List Skb
  published : List (List UInt8)

namespace PgmSource

variable (geom : PgmGeom) (src : PgmSource)

/-- `next_skb`: the packet is not extended any more. -/
def nextSkb : PgmSource := { src with lastSkb := none, queue := src.queue ++ src.lastSkb.toList }

/-- `alloc_skb` -/
def allocSkb (p : Put) (front tail : List UInt8) : PgmSource :=
  let src := src.nextSkb
  let bytes := front ++ tail
  { src with lastSkb := some ⟨bytes.take (bytes.length % 2 ^ 16), [p]⟩ }

/-- `put_send_window`: `tail` is what is passed as `data4`, which `extend_skb` does not
count. -/
def putSendWindow (room : Bool) (p : Put) (front tail : List UInt8) : PgmSource :=
  match src.lastSkb with
  | none => src.allocSkb p front tail
  | some skb =>
    if room ∧ skb.bytes.length + (front ++ tail).length ≤ geom.maxTsdu then
      { src with lastSkb := some ⟨skb.bytes ++ front, skb.made ++ [p]⟩ }
    else src.allocSkb p front tail

/-- The fragments of a message, and which is the last of them. -/
def markLast : List (ℕ × List UInt8) → List (Bool × ℕ × List UInt8)
  | [] => []
  | [f] => [(true, f)]
  | f :: fs => (false, f) :: markLast fs

/-- Puts a fragment: without a trail the trailer is passed as `data2`. -/
def putFrag (t : FragTrailer) (trail : Bool) (room : ℕ → Bool) (src : PgmSource)
    (f : Bool × ℕ × List UInt8) : PgmSource :=
  let t := { t with off := UInt32.ofNat f.2.1 }
  let p := Put.frag f.1 t f.2.2
  if trail then src.putSendWindow geom (room f.2.1) p f.2.2 t.bytes
  else src.putSendWindow geom (room f.2.1) p (f.2.2 ++ t.bytes) []

/-- The fragments of a message that does not fit into a packet. -/
def frags (pub : PgmPublish) : List (ℕ × List UInt8) :=
  match pub.trail with
  | none => msgFrags geom.fragSize 0 pub.msg
  | some trail =>
    trailFrags geom.fragSize 0 pub.content.length pub.msg trail

/-- `on_msg`: `room` says for each offset if the send window has room. -/
def onMsg (crc : Crc) (tsi now : UInt64) (room : ℕ → Bool) (pub : PgmPublish) : PgmSource :=
  let src := { src with published := src.published ++ [pub.content] }
  if pub.content.length ≤ geom.maxTsdu then
    src.putSendWindow geom (room 0) (.whole pub.content) pub.content []
  else
    let t := FragTrailer.new crc tsi now (UInt32.ofNat pub.content.length)
    (markLast (frags geom pub)).foldl (putFrag geom t pub.trail.isSome room) src

end PgmSource

/-! ## Receiving -/

/-- The receiving side: the messages that are pending, and what was handed to
`msg_in.unpack`, with the source of its packet. -/
structure PgmRecv where
  fragList : List Fragment
  delivered : List (UInt64 × List UInt8)

namespace PgmRecv

variable (crc : Crc) (r : PgmRecv) (tsi : UInt64)

/-- `dispatch_data`: nothing is unpacked of no bytes. -/
def dispatchData (data : List UInt8) : PgmRecv :=
  if data = [] then r else { r with delivered := r.delivered ++ [(tsi, data)] }

/-- The first pending message that the trailer matches, with the fragment merged. -/
def mergeFirst (t : FragTrailer) (body : List UInt8) : List Fragment → Option (List Fragment)
  | [] => none
  | g :: gs =>
    if g.isMatch t then some (g.merge body :: gs) else (mergeFirst t body gs).map (g :: ·)

/-- `process_fragment`, for a packet that ends no pending message. -/
def processWhole (data : List UInt8) : PgmRecv :=
  if FragTrailer.isTrailer data then
    let t := FragTrailer.ofMsg data data.length
    let body := data.take (data.length - sizeofTrailer)
    if t.isFirstFragment crc body.length then
      { r with fragList := r.fragList ++ [Fragment.new t body] }
    else
      match mergeFirst t body r.fragList with
      | some fragList => { r with fragList := fragList }
      | none => r.dispatchData tsi data
  else r.dispatchData tsi data

/-- `process_fragment` -/
def processFragment (data : List UInt8) : PgmRecv :=
  match r.fragList.find? (fun g => g.endsIn data) with
  | some g =>
    let msg := (g.merge (data.take g.left.toNat)).buf.take g.msgLen.toNat
    let r := { r.dispatchData tsi msg with
      fragList := r.fragList.eraseP fun g => g.endsIn data }
    r.dispatchData tsi (data.drop (g.left.toNat + sizeofTrailer))
  | none => r.processWhole crc tsi data

/-- `process`, for one packet. -/
def process (data : List UInt8) : PgmRecv :=
  if r.fragList ≠ [] ∨ FragTrailer.isTrailer data = true then r.processFragment crc tsi data
  else r.dispatchData tsi data

end PgmRecv

/-! ## The sources and a receiver -/

structure PgmNet where
  source : UInt64 → PgmSource
  recv : PgmRecv

namespace PgmNet

/-- Before anything is published. -/
def start : PgmNet := ⟨fun _ => ⟨none, [], []⟩, ⟨[], []⟩⟩

inductive Event where
  /-- a source publishes -/
  | publish (tsi now : UInt64) (room : ℕ → Bool) (pub : PgmPublish)
  /-- `push_send_window` of a source -/
  | push (tsi : UInt64)
  /-- the receiver gets the next packet of a source -/
  | recv (tsi : UInt64)

variable (geom : PgmGeom) (crc : Crc) (s : PgmNet)

def setSource (tsi : UInt64) (src : PgmSource) : PgmNet :=
  { s with source := Function.update s.source tsi src }

/-- A packet of the source is received. -/
def recvSkb (tsi : UInt64) : List Skb → PgmNet
  | [] => s
  | skb :: queue =>
    { s.setSource tsi { s.source tsi with queue := queue } with
      recv := s.recv.process crc tsi skb.bytes }

def step (s : PgmNet) : Event → PgmNet
  | .publish tsi now room pub =>
    s.setSource tsi ((s.source tsi).onMsg geom crc tsi now room pub)
  | .push tsi => s.setSource tsi (s.source tsi).nextSkb
  | .recv tsi => s.recvSkb crc tsi (s.source tsi).queue

end PgmNet

end Raims
