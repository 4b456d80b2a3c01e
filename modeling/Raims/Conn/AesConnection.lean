import Raims.Crypt.CounterMode
import Raims.Lib.Run

/-!
# Encrypted connections (`ev_tcp_aes.cpp`)

Each end sends a header with its public key. What is written before the header of
the other end has come is saved, and put at the front of the queue when it comes.
Whatever leaves the queue after that is enciphered first, in place, from where the
last call stopped.

The queue is a list of buffers; `EvConnection` sends as much of it as the socket
takes. A buffer may be one that other connections send too; it is copied before it is
enciphered. The curve, the CRC and the derivation of the AES key are left open.
-/

namespace Raims

def NONCE_SIZE : ℕ := 16
def EC25519_KEY_LEN : ℕ := 32
def CHECK_SIZE : ℕ := 8
def KEY_EXCH_SIZE : ℕ := CHECK_SIZE + NONCE_SIZE + EC25519_KEY_LEN
def AES_CONN_VER : ℕ := 1

/-- What both ends compute with. -/
structure KeyExchange (κ : Type) where
  /-- `ecdh.gen_key` -/
  pub : κ → List UInt8
  length_pub : ∀ k, (pub k).length = EC25519_KEY_LEN
  /-- `ecdh.shared_secret` -/
  sharedSecret : κ → List UInt8 → List UInt8
  shared : ∀ a b, sharedSecret a (pub b) = sharedSecret b (pub a)
  /-- `kv_crc_c` -/
  crc : List UInt8 → ℕ → ℕ
  crc_lt : ∀ l seed, crc l seed < 2 ^ 32
  psk : List UInt8
  /-- `kdf_bytes` and `expand_key` of `init_secret` -/
  secretKey : List UInt8 → List UInt8 → AES128 × (UInt64 × UInt64)

/-- `CounterMode_AES`, with the key and the place in the stream. -/
structure StreamAES where
  aes : AES128
  mode : CounterModeAES
  off : ℕ

/-- `ECDH_Exchange`. -/
structure ECDHExchange (κ : Type) where
  ecdh : κ
  sendNonce : List UInt8
  save : List UInt8

/-- Whether the connection is still in use. -/
inductive ConnStatus where
  | isOpen
  | closed
  /-- in the loop of `crypt` -/
  | stuck
deriving DecidableEq

/-- `AES_Connection`: what it has of `EvConnection`, and its own. -/
structure AESConnection (κ : Type) where
  status : ConnStatus
  iov : List (List UInt8)
  /-- the buffers of the queue that are counted by the poll -/
  refs : List ℕ
  bytesSent : ℕ
  recv : List UInt8
  off : ℕ
  bytesRecv : ℕ
  sendAes : StreamAES
  recvAes : StreamAES
  exch : Option (ECDHExchange κ)
  haveKey : Bool

namespace StreamAES

def initSecret (s : StreamAES) (k : AES128 × (UInt64 × UInt64)) (exchangeOffset : ℕ) :
    StreamAES :=
  ⟨k.1, ⟨k.2, s.mode.mask, 0⟩, exchangeOffset⟩

def crypt (s : StreamAES) (buf : List UInt8) : Option (StreamAES × List UInt8) :=
  (CounterModeAES.crypt s.aes s.mode buf).map fun r => ({ s with mode := r.1 }, r.2)

end StreamAES

namespace AESConnection

variable {κ : Type} (E : KeyExchange κ) (c : AESConnection κ)

/-! ## `EvConnection` -/

def append (data : List UInt8) : AESConnection κ := { c with iov := c.iov ++ [data] }

/-- `append_ref_iov` -/
def appendRef (ref : ℕ) (data : List UInt8) : AESConnection κ :=
  { c with iov := c.iov ++ [data], refs := c.refs ++ [ref] }

/-- What was sent is released, whenever that is. -/
def release (keep : ℕ → Bool) : AESConnection κ := { c with refs := c.refs.filter keep }

/-- The queue without its first `n` bytes. -/
def dropIov : ℕ → List (List UInt8) → List (List UInt8)
  | _, [] => []
  | n, io :: ios => if io.length ≤ n then dropIov (n - io.length) ios else io.drop n :: ios

def wrPending : ℕ := c.iov.flatten.length

/-- `EvConnection::write`, if the socket takes `n` bytes; and what it takes. -/
def evWrite (n : ℕ) : AESConnection κ × List UInt8 :=
  ({ c with iov := dropIov n c.iov, bytesSent := c.bytesSent + min n c.wrPending },
    c.iov.flatten.take n)

/-- `concat_iov`: one buffer. -/
def concatIov : AESConnection κ :=
  { c with iov := if c.iov = [] then [] else [c.iov.flatten] }

/-- `EvConnection::read`, of bytes that are there to read. -/
def evRead (bytes : List UInt8) : AESConnection κ :=
  { c with recv := c.recv ++ bytes, bytesRecv := c.bytesRecv + bytes.length }

/-! ## `AES_Connection` -/

/-- The check of a header. -/
def check (nonce pub : List UInt8) : ℕ := E.crc pub (E.crc nonce (E.crc E.psk AES_CONN_VER))

/-- `send_key`: the check, and the nonce with the public key. -/
def sendKey (ex : ECDHExchange κ) : AESConnection κ :=
  (c.append (Bytes.be CHECK_SIZE (check E ex.sendNonce (E.pub ex.ecdh)))).append
    (ex.sendNonce ++ E.pub ex.ecdh)

/-- `recv_key`, and whether there is a key. -/
def recvKey (ex : ECDHExchange κ) : AESConnection κ × Bool :=
  if c.recv.length < KEY_EXCH_SIZE then (c, false)
  else
    let chk := Bytes.ofBe (c.recv.take CHECK_SIZE)
    let recvNonce := Bytes.bytesAt c.recv CHECK_SIZE NONCE_SIZE
    let pub := Bytes.bytesAt c.recv (CHECK_SIZE + NONCE_SIZE) EC25519_KEY_LEN
    if chk / 2 ^ 32 ≠ 0 ∨ chk ≠ check E recvNonce pub then
      ({ c with status := .closed, exch := none }, false)
    else
      let secret := E.sharedSecret ex.ecdh pub
      ({ c with
          recvAes := c.recvAes.initSecret (E.secretKey recvNonce secret) KEY_EXCH_SIZE
          sendAes := c.sendAes.initSecret (E.secretKey ex.sendNonce secret) KEY_EXCH_SIZE
          off := KEY_EXCH_SIZE
          haveKey := true
          -- `insert_iov( 0, .. )`
          iov := if ex.save.length ≠ 0 then ex.save :: c.iov else c.iov
          exch := none }, true)

/-- The part of `read` with a key. -/
def decrypt : AESConnection κ :=
  let encLen := c.bytesRecv - c.recvAes.off
  if 0 < encLen then
    if c.recv.length < encLen then { c with status := .closed }
    else
      let moff := c.recv.length - encLen
      match c.recvAes.crypt (c.recv.drop moff) with
      | some (aes, plain) =>
        { c with recvAes := { aes with off := c.bytesRecv }, recv := c.recv.take moff ++ plain }
      | none => { c with status := .stuck }
  else c

def read (bytes : List UInt8) : AESConnection κ :=
  let c := c.evRead bytes
  match c.exch with
  | some ex =>
    let r := recvKey E c ex
    if r.2 then r.1.decrypt else r.1
  | none => if c.haveKey then c.decrypt else c

def saveWrite (ex : ECDHExchange κ) (n : ℕ) : AESConnection κ × List UInt8 :=
  let c := c.concatIov
  if KEY_EXCH_SIZE < c.bytesSent + c.wrPending then
    match c.iov with
    | [] => c.evWrite n
    | io :: _ =>
      let save :=
        if c.bytesSent < KEY_EXCH_SIZE then io.drop (KEY_EXCH_SIZE - c.bytesSent) else io
      let c := { c with exch := some { ex with save := ex.save ++ save } }
      -- `reset()`
      if io.length = save.length then ({ c with iov := [] }, [])
      else evWrite { c with iov := [io.take (KEY_EXCH_SIZE - c.bytesSent)] } n
  else c.evWrite n

/-- The loop of `write` that enciphers, from `encOff` bytes into the queue on. -/
def encryptLoop : StreamAES → ℕ → List (List UInt8) → Option (StreamAES × List (List UInt8))
  | s, _, [] => some (s, [])
  | s, encOff, io :: ios =>
    if encOff < io.length then do
      let (s, cipher) ← s.crypt (io.drop encOff)
      let (s, ios) ← encryptLoop { s with off := s.off + (io.length - encOff) } 0 ios
      return (s, (io.take encOff ++ cipher) :: ios)
    else do
      let (s, ios) ← encryptLoop s (encOff - io.length) ios
      return (s, io :: ios)

/-- The buffers are copied when one of them is shared, as `zero_copy_ref_count` says. -/
def copyRefs (refCount : ℕ → ℕ) : AESConnection κ :=
  if c.refs.all (refCount · = 1) then c else { c with refs := [] }

/-- No buffer that is enciphered in place has another owner. -/
theorem refCount_of_mem_copyRefs {c : AESConnection κ} {refCount : ℕ → ℕ} {ref : ℕ}
    (h : ref ∈ (c.copyRefs refCount).refs) : refCount ref = 1 := by
  rw [copyRefs] at h
  split at h
  · next hall => exact of_decide_eq_true (List.all_eq_true.mp hall ref h)
  · cases h

/-- The copies are the same bytes. -/
theorem copyRefs_eq (refCount : ℕ → ℕ) :
    c.copyRefs refCount = { c with refs := (c.copyRefs refCount).refs } := by
  rw [copyRefs]
  split <;> rfl

def write (refCount : ℕ → ℕ) (n : ℕ) : AESConnection κ × List UInt8 :=
  match c.exch with
  | some ex => c.saveWrite ex n
  | none =>
    if c.haveKey then
      let c := c.copyRefs refCount
      match encryptLoop c.sendAes (c.sendAes.off - c.bytesSent) c.iov with
      | some (aes, iov) => evWrite { c with sendAes := aes, iov := iov } n
      | none => ({ c with status := .stuck }, [])
    else c.evWrite n

/-- `process` takes `n` bytes of what was read, once there is a key. -/
def process (n : ℕ) : AESConnection κ :=
  match c.exch with
  | some _ => c
  | none => { c with off := min (c.off + n) c.recv.length }

/-- What was taken makes room in the buffer. -/
def shift : AESConnection κ := { c with recv := c.recv.drop c.off, off := 0 }

/-- `start`, with `init_exchange` and `send_key`; the masks are not set. -/
def start (ex : ECDHExchange κ) (aes : StreamAES) : AESConnection κ :=
  let aes : StreamAES := { aes with mode := { aes.mode with avail := 0 }, off := 0 }
  sendKey E ⟨.isOpen, [], [], 0, [], 0, 0, aes, aes, some ex, false⟩ ex

end AESConnection

/-! ## Two ends -/

inductive Side where
  | a
  | b
deriving DecidableEq

def Side.other : Side → Side
  | .a => .b
  | .b => .a

/-- The two ends, what each has put on the wire, and, to compare it with, what the
application wrote and what left the receive buffer. -/
structure AESLink (κ : Type) where
  conn : Side → AESConnection κ
  sent : Side → List UInt8
  wrote : Side → List UInt8
  past : Side → List UInt8

namespace AESLink

inductive Act where
  /-- the application writes -/
  | append (x : Side) (data : List UInt8)
  /-- the application writes what others may send too -/
  | appendRef (x : Side) (ref : ℕ) (data : List UInt8)
  | release (x : Side) (keep : ℕ → Bool)
  /-- the socket takes up to `n` bytes -/
  | write (x : Side) (refCount : ℕ → ℕ) (n : ℕ)
  /-- up to `n` bytes of the wire have come -/
  | read (x : Side) (n : ℕ)
  | process (x : Side) (n : ℕ)
  | shift (x : Side)

def Act.side : Act → Side
  | .append x _ | .appendRef x _ _ | .release x _ | .write x _ _ | .read x _ | .process x _
  | .shift x => x

variable {κ : Type} (E : KeyExchange κ)

/-- The bytes on the wire to `x`. -/
def wire (s : AESLink κ) (x : Side) : List UInt8 := (s.sent x.other).drop (s.conn x).bytesRecv

def act (s : AESLink κ) : Act → AESLink κ
  | .append x data =>
    { s with
      conn := Function.update s.conn x ((s.conn x).append data)
      wrote := Function.update s.wrote x (s.wrote x ++ data) }
  | .appendRef x ref data =>
    { s with
      conn := Function.update s.conn x ((s.conn x).appendRef ref data)
      wrote := Function.update s.wrote x (s.wrote x ++ data) }
  | .release x keep => { s with conn := Function.update s.conn x ((s.conn x).release keep) }
  | .write x refCount n =>
    { s with
      conn := Function.update s.conn x ((s.conn x).write refCount n).1
      sent := Function.update s.sent x (s.sent x ++ ((s.conn x).write refCount n).2) }
  | .read x n =>
    { s with conn := Function.update s.conn x ((s.conn x).read E ((s.wire x).take n)) }
  | .process x n => { s with conn := Function.update s.conn x ((s.conn x).process n) }
  | .shift x =>
    { s with
      conn := Function.update s.conn x (s.conn x).shift
      past := Function.update s.past x (s.past x ++ (s.conn x).recv.take (s.conn x).off) }

/-- An end that is closed does nothing more. -/
def step (s : AESLink κ) (e : Act) : AESLink κ :=
  if (s.conn e.side).status = .isOpen then s.act E e else s

end AESLink

/-- Two ends and their keys, before anything is sent. -/
structure AESEnds (κ : Type) extends KeyExchange κ where
  key : Side → κ
  nonce : Side → List UInt8
  length_nonce : ∀ x, (nonce x).length = NONCE_SIZE
  aes : Side → StreamAES
  length_mask : ∀ x, (aes x).mode.mask.length = CounterModeAES.MASK_SIZE

namespace AESEnds

variable {κ : Type} (E : AESEnds κ)

def start : AESLink κ where
  conn x := AESConnection.start E.toKeyExchange ⟨E.key x, E.nonce x, []⟩ (E.aes x)
  sent _ := []
  wrote _ := []
  past _ := []

/-- The header that `x` sends. -/
def header (x : Side) : List UInt8 :=
  Bytes.be CHECK_SIZE (AESConnection.check E.toKeyExchange (E.nonce x) (E.pub (E.key x))) ++
    (E.nonce x ++ E.pub (E.key x))

/-- The AES key and the counter of the stream from `x`. -/
def streamKey (x : Side) : AES128 × (UInt64 × UInt64) :=
  E.secretKey (E.nonce x) (E.sharedSecret (E.key x) (E.pub (E.key x.other)))

def keystream (x : Side) : ℕ → UInt8 :=
  (E.streamKey x).1.keystream (AES128.ctrValue (E.streamKey x).2)

/-- The stream of `x` with the bytes `data` of the application. -/
def plain (x : Side) (data : List UInt8) : List UInt8 := E.header x ++ data

def cipher (x : Side) (data : List UInt8) : List UInt8 :=
  E.header x ++ Keystream.apply (E.keystream x) 0 data

end AESEnds

end Raims
