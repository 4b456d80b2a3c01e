import Mathlib.Tactic.NormNum
import Raims.Lib.Bytes
import Raims.Msg.CabaFlags

/-!
# Messages in memory (`MsgCat`, `BMsgBufT`, `MsgBufDigestT`)

A message is written from front to back, but for three places that are
skipped and filled in later: the header word and the hash (`close`), the
subject and the digest (`sign`). The data of a message is its last field, and
either stands in the buffer (`data`) or is sent after it from where it is
(`data_frag`), with a byte of padding when its length is odd.

    0    4    8   10     26  28     44  46     48
    size hash fid bridge fid digest fid sublen subject

What the memory held before is arbitrary: nothing of it is left in a message
that was closed and signed.
-/

namespace Raims

open Bytes

/-- A value of `n` bytes: `Nonce` and `HmacDigest` (16), `ec25519_key` (32),
`HashDigest` and `ed25519_signature` (64). -/
abbrev Octets (n : Nat) := { l : List UInt8 // l.length = n }

/-- What the library `raikv` is used for: the hash of a subject, `kv_crc_c`
with a seed of zero, and `kv_hash_meow128_vec`, which hashes the bytes of a
vector of strings as if they were one string. -/
structure RaiKv where
  crcC : List UInt8 → UInt32
  meow128Vec : Octets 16 → List (List UInt8) → Octets 16
  /-- how the bytes are cut in strings makes no difference -/
  meow128Vec_flatten : ∀ iv v w, v.flatten = w.flatten → meow128Vec iv v = meow128Vec iv w

/-! ## §1 The digest of a message (`MeowHmacDigest`) -/

section Hmac

variable (kv : RaiKv) (ha1 : Octets 64)

/-- `get_hmac( 0 )`: the first words of a key, the start value of the hash. -/
def getHmac : Octets 16 := ⟨ha1.1.take 16, by rw [List.length_take, ha1.2]; rfl⟩

/-- `hmac_tail`: the rest of the key, which ends what is hashed. -/
def hmacTail : List UInt8 := ha1.1.drop 16

/-- `calc_2` -/
def calc2 (s1 s2 : List UInt8) : Octets 16 :=
  kv.meow128Vec (getHmac ha1) [s1, s2, hmacTail ha1]

/-- `calc_4` -/
def calc4 (s1 s2 s3 s4 : List UInt8) : Octets 16 :=
  kv.meow128Vec (getHmac ha1) [s1, s2, s3, s4, hmacTail ha1]

theorem calc4_eq (s1 s2 s3 s4 : List UInt8) :
    calc4 kv ha1 s1 s2 s3 s4 = calc2 kv ha1 s1 (s2 ++ (s3 ++ s4)) := by
  apply kv.meow128Vec_flatten
  simp

end Hmac

/-! ## §2 Fields -/

/-- `FldTypeClass`, with one value for the numbers that have no class. -/
inductive FldTypeClass
  | bool | uShort | uInt | uLong | opaque16 | opaque32 | opaque64
  | shortString | longOpaque | unused
deriving DecidableEq, Repr

/-- The number of a class. -/
def FldTypeClass.code : FldTypeClass → Nat
  | .bool => 0
  | .uShort => 1
  | .uInt => 2
  | .uLong => 3
  | .opaque16 => 4
  | .opaque32 => 5
  | .opaque64 => 6
  | .shortString => 7
  | .longOpaque => 8
  | .unused => 9

/-- `CLS_BOOL` and so on: the strings and the opaque data of any length say
that they are fields, the others also that their size is fixed. -/
def FldTypeClass.cls : FldTypeClass → Nat
  | .shortString => 0x4000 ||| (FldTypeClass.shortString.code <<< 8)
  | .longOpaque => 0x4000 ||| (FldTypeClass.longOpaque.code <<< 8)
  | c => 0xc000 ||| (c.code <<< 8)

/-- The field ids that are in every message, and that of the data. -/
def fidSub : UInt8 := 0
def fidData : UInt8 := 1
def fidBridge : UInt8 := 3
def fidDigest : UInt8 := 5

/-- The word in front of a field: `CLS_xxx | opt`. -/
def fidWord (c : FldTypeClass) (opt : UInt8) : List UInt8 :=
  be 2 (c.cls ||| opt.toNat)

/-- The byte that follows data of odd length. -/
def padding (n : Nat) : List UInt8 := if n % 2 = 1 then [0] else []

/-- What `b` writes: a string. -/
def bBytes (opt : UInt8) (s : List UInt8) : List UInt8 :=
  let len := s.length % 2 ^ 16
  fidWord .shortString opt ++ be 2 len ++ s.take len ++ padding len

/-- What `o` writes: opaque data. -/
def oBytes (opt : UInt8) (s : List UInt8) : List UInt8 :=
  let len := s.length % 2 ^ 32
  fidWord .longOpaque opt ++ be 4 len ++ s.take len ++ padding len

/-- `i2`, `i4` and `i8` write a number of a fixed width. -/
def i2Bytes (opt : UInt8) (n : UInt16) : List UInt8 := fidWord .uShort opt ++ be 2 n.toNat
def i4Bytes (opt : UInt8) (n : UInt32) : List UInt8 := fidWord .uInt opt ++ be 4 n.toNat
def i8Bytes (opt : UInt8) (n : UInt64) : List UInt8 := fidWord .uLong opt ++ be 8 n.toNat

/-- `u`: a number in the least width of 16, 32 and 64 bits that holds it. -/
def uBytes (opt : UInt8) (n : UInt64) : List UInt8 :=
  if n >>> 32 = 0 then
    if n >>> 16 = 0 then i2Bytes opt n.toUInt16 else i4Bytes opt n.toUInt32
  else i8Bytes opt n

/-- `i`: the same, of 16 and 32 bits. -/
def iBytes (opt : UInt8) (n : UInt32) : List UInt8 :=
  if n >>> 16 = 0 then i2Bytes opt n.toUInt16 else i4Bytes opt n

/-- `y`: a truth value and a byte of padding. -/
def yBytes (opt : UInt8) (n : UInt8) : List UInt8 :=
  fidWord .bool opt ++ [if n ≠ 0 then 1 else 0, 0]

/-- A field as the typed writers take it. -/
inductive Fld
  | b (opt : UInt8) (s : List UInt8)
  | o (opt : UInt8) (s : List UInt8)
  | u (opt : UInt8) (n : UInt64)
  | i (opt : UInt8) (n : UInt32)
  | i2 (opt : UInt8) (n : UInt16)
  | i4 (opt : UInt8) (n : UInt32)
  | i8 (opt : UInt8) (n : UInt64)
  | y (opt : UInt8) (n : UInt8)
  | n (opt : UInt8) (val : Octets 16)
  | h (opt : UInt8) (val : Octets 16)
  | k (opt : UInt8) (val : Octets 64)
  | kKey (opt : UInt8) (key : Octets 32)
  | x (opt : UInt8) (hmac nonce : Octets 16)
deriving DecidableEq

/-- What a writer puts out. -/
def Fld.bytes : Fld → List UInt8
  | .b opt s => bBytes opt s
  | .o opt s => oBytes opt s
  | .u opt v => uBytes opt v
  | .i opt v => iBytes opt v
  | .i2 opt v => i2Bytes opt v
  | .i4 opt v => i4Bytes opt v
  | .i8 opt v => i8Bytes opt v
  | .y opt v => yBytes opt v
  | .n opt val => fidWord .opaque16 opt ++ val.1
  | .h opt val => fidWord .opaque16 opt ++ val.1
  | .k opt val => fidWord .opaque64 opt ++ val.1
  | .kKey opt key => fidWord .opaque32 opt ++ key.1
  | .x opt hmac nonce => fidWord .opaque32 opt ++ hmac.1 ++ nonce.1

/-! ## §3 The buffer -/

structure MsgCat where
  /-- what the memory held before -/
  mem : Nat → UInt8
  /-- the bytes from `msg` to `out` -/
  buf : List UInt8
  /-- where the header word, the digest and the subject stand -/
  hdr : Nat
  dig : Nat
  sub : Nat

namespace MsgCat

/-- `reserve` -/
def reserve (mem : Nat → UInt8) : MsgCat := ⟨mem, [], 0, 0, 0⟩

def emit (m : MsgCat) (b : List UInt8) : MsgCat := { m with buf := m.buf ++ b }

/-- What the next `n` bytes of the memory hold. -/
def junk (m : MsgCat) (n : Nat) : List UInt8 := (List.range' m.buf.length n).map m.mem

/-- `out += n` -/
def skip (m : MsgCat) (n : Nat) : MsgCat := m.emit (m.junk n)

/-- Write at an offset before `out`. -/
def poke (m : MsgCat) (off : Nat) (b : List UInt8) : MsgCat :=
  { m with buf := m.buf.take off ++ b ++ m.buf.drop (off + b.length) }

/-- `open` up to the subject: the bridge, and space for the header and the
digest. -/
def openHead (m : MsgCat) (bridge : Octets 16) : MsgCat :=
  let m := { m with hdr := m.buf.length }
  let m := m.skip 8
  let m := m.emit (Fld.n fidBridge bridge).bytes
  let m := m.emit (fidWord .opaque16 fidDigest)
  let m := { m with dig := m.buf.length }
  let m := m.skip 16
  { m with sub := m.buf.length }

/-- `open`: also space for a subject, of an even length. -/
def openMsg (m : MsgCat) (bridge : Octets 16) (sublen : Nat) : MsgCat :=
  let m := (m.openHead bridge).skip (4 + sublen)
  if sublen % 2 ≠ 0 then m.skip 1 else m

/-- The typed writers. -/
def put (m : MsgCat) (f : Fld) : MsgCat := m.emit f.bytes

/-- `data_frag`: the head of the data, which is not in the buffer. -/
def dataFrag (m : MsgCat) (len : Nat) : MsgCat :=
  (m.emit (fidWord .longOpaque fidData)).emit (be 4 len)

/-- `close_frag`: the length in 16 bits beside the flags, or else in the place
of the hash. -/
def closeFrag (m : MsgCat) (trailSz : Nat) (h : UInt32) (caba : CabaFlags) : MsgCat :=
  let trailSz := if trailSz % 2 = 1 then trailSz + 1 else trailSz
  let sz := (trailSz + m.buf.length - 8) % 2 ^ 32
  let fl := caba.flags.toNat <<< 16
  if sz ≤ 0xffff then (m.poke m.hdr (be 4 (sz ||| fl))).poke (m.hdr + 4) (be 4 h.toNat)
  else (m.poke m.hdr (be 4 fl)).poke (m.hdr + 4) (be 4 sz)

/-- `close` -/
def close (m : MsgCat) (h : UInt32) (caba : CabaFlags) : MsgCat := m.closeFrag 0 h caba

/-- `close_zpath_frag` -/
def closeZpathFrag (m : MsgCat) (trailSz : Nat) (h : UInt32) (caba : CabaFlags)
    (t : PublishType) : MsgCat :=
  m.closeFrag trailSz h (caba.zpath t)

/-- `close_zpath` -/
def closeZpath (m : MsgCat) (h : UInt32) (caba : CabaFlags) (t : PublishType) : MsgCat :=
  m.closeZpathFrag 0 h caba t

/-- `insert_subject` -/
def insertSubject (m : MsgCat) (subject : List UInt8) : MsgCat :=
  m.poke m.sub (bBytes fidSub subject)

/-- `sign`: the digest is of all the bytes but its own. -/
def sign (kv : RaiKv) (m : MsgCat) (subject : List UInt8) (ha1 : Octets 64) : MsgCat :=
  let m := m.insertSubject subject
  m.poke m.dig (calc2 kv ha1 (m.buf.take m.dig) (m.buf.drop (m.dig + 16))).1

/-- `sign_frag`: the same, with the data that follows and its padding. -/
def signFrag (kv : RaiKv) (m : MsgCat) (subject trail : List UInt8) (ha1 : Octets 64) : MsgCat :=
  let m := m.insertSubject subject
  m.poke m.dig
    (calc4 kv ha1 (m.buf.take m.dig) (m.buf.drop (m.dig + 16)) trail (padding trail.length)).1

end MsgCat

/-- How a message is closed: with a path, or as one of path zero. -/
inductive Closing
  | path
  | zpath (t : PublishType)
deriving DecidableEq

/-- The flags that are written. -/
def Closing.flags (c : Closing) (fl : CabaFlags) : CabaFlags :=
  match c with
  | .path => fl
  | .zpath t => fl.zpath t

/-- A message to write: its bridge and subject, the fields, the flags and how
it is closed. The hash that is passed to `close` is that of the subject. -/
structure MsgText where
  bridge : Octets 16
  subject : List UInt8
  fields : List Fld
  flags : CabaFlags
  closing : Closing
  /-- `CabaFlags( t )` sets the version, and nothing changes it -/
  ver : flags.getVer = cabaMsgVersion

namespace MsgText

variable (kv : RaiKv) (mem : Nat → UInt8) (t : MsgText) (key : Octets 64)

/-- The message before it is closed. -/
def opened : MsgCat :=
  t.fields.foldl MsgCat.put ((MsgCat.reserve mem).openMsg t.bridge t.subject.length)

/-- The bytes of a message whose fields are all in the buffer. -/
def inline : List UInt8 :=
  let h := kv.crcC t.subject
  let m := match t.closing with
    | .path => (t.opened mem).close h t.flags
    | .zpath u => (t.opened mem).closeZpath h t.flags u
  (m.sign kv t.subject key).buf

/-- The bytes of a message whose data is `trail`, sent after the buffer. -/
def frag (trail : List UInt8) : List UInt8 :=
  let h := kv.crcC t.subject
  let m := (t.opened mem).dataFrag trail.length
  let m := match t.closing with
    | .path => m.closeFrag trail.length h t.flags
    | .zpath u => m.closeZpathFrag trail.length h t.flags u
  (m.signFrag kv t.subject trail key).buf ++ (trail ++ padding trail.length)

end MsgText

/-! ## §4 The bytes of a message -/

/-- The parts of a message, in the order of the drawing above. -/
def layout (size hash : List UInt8) (bridge : Octets 16) (digest sub body : List UInt8) :
    List UInt8 :=
  size ++ (hash ++ ((Fld.n fidBridge bridge).bytes ++
    (fidWord .opaque16 fidDigest ++ (digest ++ (sub ++ body)))))

/-- The header word and the hash word of a message of `sz` bytes after them. -/
def headerWords (caba : CabaFlags) (h : UInt32) (sz : Nat) : Nat × Nat :=
  let fl := caba.flags.toNat <<< 16
  if sz ≤ 0xffff then (sz ||| fl, h.toNat) else (fl, sz)

@[simp] theorem length_fidWord (c : FldTypeClass) (opt : UInt8) : (fidWord c opt).length = 2 :=
  length_be 2 _

theorem length_layout (size hash : List UInt8) (bridge : Octets 16)
    (digest sub body : List UInt8) :
    (layout size hash bridge digest sub body).length =
      size.length + hash.length + 20 + digest.length + sub.length + body.length := by
  simp only [layout, Fld.bytes, List.length_append, length_fidWord, bridge.2]
  omega

theorem layout_append (size hash : List UInt8) (bridge : Octets 16)
    (digest sub body rest : List UInt8) :
    layout size hash bridge digest sub body ++ rest =
      layout size hash bridge digest sub (body ++ rest) := by
  simp [layout]

theorem length_padding (n : Nat) : (padding n).length = n % 2 := by
  rw [padding]
  split <;> simp <;> omega

theorem bBytes_eq (opt : UInt8) {s : List UInt8} (hs : s.length < 2 ^ 16) :
    bBytes opt s = fidWord .shortString opt ++ be 2 s.length ++ s ++ padding s.length := by
  rw [bBytes, Nat.mod_eq_of_lt hs, List.take_length]

theorem oBytes_eq (opt : UInt8) {s : List UInt8} (hs : s.length < 2 ^ 32) :
    oBytes opt s = fidWord .longOpaque opt ++ be 4 s.length ++ s ++ padding s.length := by
  rw [oBytes, Nat.mod_eq_of_lt hs, List.take_length]

theorem length_bBytes (opt : UInt8) {s : List UInt8} (hs : s.length < 2 ^ 16) :
    (bBytes opt s).length = 4 + s.length + s.length % 2 := by
  simp only [bBytes_eq opt hs, List.length_append, length_padding, length_fidWord, length_be]

namespace MsgCat

theorem poke_buf {m : MsgCat} {off : Nat} {b old post : List UInt8} (pre : List UInt8)
    (h : m.buf = pre ++ (old ++ post)) (hpre : pre.length = off) (hold : old.length = b.length) :
    (m.poke off b).buf = pre ++ (b ++ post) := by
  have hdrop : m.buf.drop (off + b.length) = post := by
    rw [h, ← List.append_assoc, ← hpre, ← hold, ← List.length_append, List.drop_left]
  have htake : m.buf.take off = pre := by
    rw [h, ← hpre, List.take_left]
  rw [poke, hdrop, htake, List.append_assoc]

/-- A message between `open` and `sign`: the parts that are filled in later
have their size. -/
structure Laid (m : MsgCat) (bridge : Octets 16) (subsz : Nat) (body : List UInt8) : Prop where
  parts : ∃ size hash digest sub, m.buf = layout size hash bridge digest sub body ∧
    size.length = 4 ∧ hash.length = 4 ∧ digest.length = 16 ∧ sub.length = subsz
  hdr : m.hdr = 0
  dig : m.dig = 28
  sub : m.sub = 44

@[simp] theorem length_junk (m : MsgCat) (n : Nat) : (m.junk n).length = n := by
  simp [junk]

theorem Laid.emit {m : MsgCat} {bridge : Octets 16} {n : Nat} {body : List UInt8}
    (h : Laid m bridge n body) (b : List UInt8) : Laid (m.emit b) bridge n (body ++ b) := by
  obtain ⟨size, hash, digest, sub, hbuf, hlen⟩ := h.parts
  refine ⟨⟨size, hash, digest, sub, ?_, hlen⟩, h.hdr, h.dig, h.sub⟩
  rw [MsgCat.emit, hbuf]
  simp [layout]

theorem Laid.skip {m : MsgCat} {bridge : Octets 16} {n : Nat} {body : List UInt8}
    (h : Laid m bridge n body) (k : Nat) : Laid (m.skip k) bridge n (body ++ m.junk k) :=
  h.emit (m.junk k)

theorem laid_openHead (mem : Nat → UInt8) (bridge : Octets 16) :
    Laid ((reserve mem).openHead bridge) bridge 0 [] := by
  set j := (reserve mem).junk 8 with hj
  set d := (List.range' 28 16).map mem with hd
  refine ⟨⟨j.take 4, j.drop 4, d, [], ?_, ?_, ?_, ?_, rfl⟩, rfl, ?_, ?_⟩
  · simp only [layout, List.append_nil]
    rw [← List.append_assoc (j.take 4), List.take_append_drop]
    simp [openHead, MsgCat.skip, MsgCat.emit, junk, reserve, Fld.bytes, bridge.2, hj, hd]
  · simp [hj]
  · simp [hj]
  · simp [hd]
  · simp [openHead, MsgCat.skip, MsgCat.emit, reserve, Fld.bytes, bridge.2]
  · simp [openHead, MsgCat.skip, MsgCat.emit, reserve, Fld.bytes, bridge.2]

/-- The space for the subject counts as a part of its own. -/
theorem Laid.space {m : MsgCat} {bridge : Octets 16} {body : List UInt8}
    (h : Laid m bridge 0 body) : Laid m bridge body.length [] := by
  obtain ⟨size, hash, digest, sub, hbuf, h4, h4', h16, h0⟩ := h.parts
  refine ⟨⟨size, hash, digest, body, ?_, h4, h4', h16, rfl⟩, h.hdr, h.dig, h.sub⟩
  rw [hbuf, List.length_eq_zero_iff.mp h0]
  simp [layout]

theorem laid_open (mem : Nat → UInt8) (bridge : Octets 16) (sublen : Nat) :
    Laid ((reserve mem).openMsg bridge sublen) bridge (4 + sublen + sublen % 2) [] := by
  have hskip := (laid_openHead mem bridge).skip (4 + sublen)
  rw [openMsg]
  split
  · rename_i hodd
    have hpad := (hskip.skip 1).space
    simp only [List.length_append, length_junk, List.length_nil, Nat.zero_add] at hpad
    rw [show sublen % 2 = 1 by omega]
    exact hpad
  · rename_i heven
    have hsp := hskip.space
    simp only [List.length_append, length_junk, List.length_nil, Nat.zero_add] at hsp
    rw [show sublen % 2 = 0 by omega]
    exact hsp

theorem Laid.puts {m : MsgCat} {bridge : Octets 16} {n : Nat} {body : List UInt8}
    (h : Laid m bridge n body) (fs : List Fld) :
    Laid (fs.foldl put m) bridge n (body ++ fs.flatMap Fld.bytes) := by
  induction fs generalizing m body with
  | nil => simpa using h
  | cons f fs ih => simpa [put] using ih (h.emit f.bytes)

end MsgCat

/-- The bytes in front of the digest. -/
def front (size hash : List UInt8) (bridge : Octets 16) : List UInt8 :=
  size ++ (hash ++ ((Fld.n fidBridge bridge).bytes ++ fidWord .opaque16 fidDigest))

theorem length_front {size hash : List UInt8} (hs : size.length = 4) (hh : hash.length = 4)
    (bridge : Octets 16) : (front size hash bridge).length = 28 := by
  simp [front, Fld.bytes, hs, hh, bridge.2]

theorem layout_eq_front (size hash : List UInt8) (bridge : Octets 16)
    (digest sub body : List UInt8) :
    layout size hash bridge digest sub body =
      front size hash bridge ++ (digest ++ (sub ++ body)) := by
  simp [layout, front]

/-- The bytes of a message that was closed and signed. -/
def signedBytes (kv : RaiKv) (key : Octets 64) (caba : CabaFlags) (bridge : Octets 16)
    (subject body : List UInt8) : List UInt8 :=
  let sub := bBytes fidSub subject
  let w := headerWords caba (kv.crcC subject) (36 + sub.length + body.length)
  let digest := calc2 kv key (front (be 4 w.1) (be 4 w.2) bridge) (sub ++ body)
  layout (be 4 w.1) (be 4 w.2) bridge digest.1 sub body

namespace MsgCat

theorem Laid.length {m : MsgCat} {bridge : Octets 16} {n : Nat} {body : List UInt8}
    (h : Laid m bridge n body) : m.buf.length = 44 + n + body.length := by
  obtain ⟨size, hash, digest, sub, hbuf, h4, h4', h16, hn⟩ := h.parts
  rw [hbuf, length_layout, h4, h4', h16, hn]

/-- A message that is closed: the first two words are written. -/
structure Closed (m : MsgCat) (w : Nat × Nat) (bridge : Octets 16) (n : Nat)
    (body : List UInt8) : Prop where
  parts : ∃ digest sub, m.buf = layout (be 4 w.1) (be 4 w.2) bridge digest sub body ∧
    digest.length = 16 ∧ sub.length = n
  dig : m.dig = 28
  sub : m.sub = 44

theorem Laid.poke_words {m : MsgCat} {bridge : Octets 16} {n : Nat} {body : List UInt8}
    (h : Laid m bridge n body) (w v : Nat) :
    Closed ((m.poke m.hdr (be 4 w)).poke (m.hdr + 4) (be 4 v)) (w, v) bridge n body := by
  obtain ⟨size, hash, digest, sub, hbuf, h4, h4', h16, hn⟩ := h.parts
  have h1 : (m.poke m.hdr (be 4 w)).buf = layout (be 4 w) hash bridge digest sub body :=
    poke_buf [] hbuf h.hdr.symm (by simp [h4])
  exact ⟨⟨digest, sub, poke_buf _ h1 (by simp [h.hdr]) (by simp [h4']), h16, hn⟩, h.dig, h.sub⟩

theorem Laid.closeFrag {m : MsgCat} {bridge : Octets 16} {n : Nat} {body : List UInt8}
    (h : Laid m bridge n body) {trailSz sz : Nat} (hash : UInt32) (caba : CabaFlags)
    (hsz : trailSz + trailSz % 2 + (36 + n + body.length) = sz) (hlt : sz < 2 ^ 32) :
    Closed (m.closeFrag trailSz hash caba) (headerWords caba hash sz) bridge n body := by
  have hround : (if trailSz % 2 = 1 then trailSz + 1 else trailSz) = trailSz + trailSz % 2 := by
    split <;> omega
  have hmod : (trailSz + trailSz % 2 + m.buf.length - 8) % 2 ^ 32 = sz := by
    rw [h.length, Nat.mod_eq_of_lt] <;> omega
  simp only [MsgCat.closeFrag, hround, hmod, headerWords]
  split
  · exact h.poke_words _ _
  · exact h.poke_words _ _

/-- Signing fills in the subject and the digest, which is of what stands
before and after it, and of `trail` after the message. -/
theorem Closed.signs {m : MsgCat} {w : Nat × Nat} {bridge : Octets 16} {n : Nat}
    {body : List UInt8} (h : Closed m w bridge n body) {subject : List UInt8}
    (hn : (bBytes fidSub subject).length = n) (mac : List UInt8 → List UInt8 → Octets 16) :
    let m' := m.insertSubject subject
    (m'.poke m'.dig (mac (m'.buf.take m'.dig) (m'.buf.drop (m'.dig + 16))).1).buf =
      layout (be 4 w.1) (be 4 w.2) bridge
        (mac (front (be 4 w.1) (be 4 w.2) bridge) (bBytes fidSub subject ++ body)).1
        (bBytes fidSub subject) body := by
  obtain ⟨digest, sub, hbuf, h16, hsub⟩ := h.parts
  have hf := length_front (length_be 4 w.1) (length_be 4 w.2) bridge
  have hfd : (front (be 4 w.1) (be 4 w.2) bridge ++ digest).length = 44 := by
    rw [List.length_append, hf, h16]
  have h1 : (m.insertSubject subject).buf =
      front (be 4 w.1) (be 4 w.2) bridge ++ (digest ++ (bBytes fidSub subject ++ body)) := by
    rw [← List.append_assoc]
    have hsplit : m.buf = front (be 4 w.1) (be 4 w.2) bridge ++ digest ++ (sub ++ body) := by
      rw [hbuf, layout_eq_front, List.append_assoc]
    exact poke_buf _ hsplit (hfd.trans h.sub.symm) (hsub.trans hn.symm)
  have hdig : (m.insertSubject subject).dig = 28 := h.dig
  have htake : (m.insertSubject subject).buf.take 28 = front (be 4 w.1) (be 4 w.2) bridge := by
    rw [h1, ← hf, List.take_left]
  have hdrop : (m.insertSubject subject).buf.drop 44 = bBytes fidSub subject ++ body := by
    rw [h1, ← List.append_assoc, ← hfd, List.drop_left]
  simp only [hdig, htake, hdrop, layout_eq_front]
  exact poke_buf _ h1 hf (h16.trans (mac _ _).2.symm)

end MsgCat

namespace MsgText

variable (kv : RaiKv) (mem : Nat → UInt8) (t : MsgText) (key : Octets 64)

/-- The flags of a message, as they are written. -/
def caba : CabaFlags := t.closing.flags t.flags

/-- The bytes of the fields of a message. -/
def body : List UInt8 := t.fields.flatMap Fld.bytes

/-- The same message, with data as its last field. -/
def withData (data : List UInt8) : MsgText := { t with fields := t.fields ++ [.o fidData data] }

/-- The bytes after the first two words. -/
def size : Nat := 36 + (bBytes fidSub t.subject).length + t.body.length

theorem laid_opened : MsgCat.Laid (t.opened mem) t.bridge
    (4 + t.subject.length + t.subject.length % 2) t.body :=
  (MsgCat.laid_open mem t.bridge t.subject.length).puts t.fields

theorem inline_close : t.inline kv mem key =
    (((t.opened mem).closeFrag 0 (kv.crcC t.subject) t.caba).sign kv t.subject key).buf := by
  cases hc : t.closing <;> simp only [inline, caba, hc] <;> rfl

theorem frag_close (trail : List UInt8) : t.frag kv mem key trail =
    ((((t.opened mem).dataFrag trail.length).closeFrag trail.length (kv.crcC t.subject)
      t.caba).signFrag kv t.subject trail key).buf ++ (trail ++ padding trail.length) := by
  cases hc : t.closing <;> simp only [frag, caba, hc] <;> rfl

theorem inline_eq (hs : t.subject.length < 2 ^ 16) (hsz : t.size < 2 ^ 32) :
    t.inline kv mem key = signedBytes kv key t.caba t.bridge t.subject t.body := by
  have hsub := length_bBytes fidSub hs
  have hsize : 0 + 0 % 2 + (36 + (4 + t.subject.length + t.subject.length % 2) + t.body.length) =
      t.size := by
    rw [size]
    omega
  have hcl := (t.laid_opened mem).closeFrag (kv.crcC t.subject) t.caba hsize hsz
  rw [inline_close]
  exact hcl.signs hsub (calc2 kv key)

/-- A message with its data sent after it has the bytes of the message that
holds the data. -/
theorem frag_eq (trail : List UInt8) (hs : t.subject.length < 2 ^ 16)
    (ht : trail.length < 2 ^ 32) (hsz : (t.withData trail).size < 2 ^ 32) :
    t.frag kv mem key trail =
      signedBytes kv key t.caba t.bridge t.subject (t.withData trail).body := by
  have hsub := length_bBytes fidSub hs
  obtain ⟨head, hhead⟩ : ∃ l, l = t.body ++ (fidWord .longOpaque fidData ++ be 4 trail.length) :=
    ⟨_, rfl⟩
  have hbody : (t.withData trail).body = head ++ (trail ++ padding trail.length) := by
    simp [withData, body, Fld.bytes, oBytes_eq fidData ht, hhead]
  have hlaid : MsgCat.Laid ((t.opened mem).dataFrag trail.length) t.bridge
      (4 + t.subject.length + t.subject.length % 2) head := by
    rw [hhead, ← List.append_assoc]
    exact ((t.laid_opened mem).emit _).emit _
  have hsize : trail.length + trail.length % 2 +
      (36 + (4 + t.subject.length + t.subject.length % 2) + head.length) =
        (t.withData trail).size := by
    rw [size, hbody, List.length_append, List.length_append, length_padding, ← hsub]
    simp only [withData]
    omega
  have hcl := hlaid.closeFrag (kv.crcC t.subject) t.caba hsize hsz
  have hsign := hcl.signs hsub (fun s1 s2 => calc4 kv key s1 s2 trail (padding trail.length))
  have hbuf : (MsgCat.signFrag kv (((t.opened mem).dataFrag trail.length).closeFrag trail.length
      (kv.crcC t.subject) t.caba) t.subject trail key).buf = _ := hsign
  rw [frag_close, hbuf, layout_append, ← hbody]
  simp only [calc4_eq, List.append_assoc, ← hbody]
  rfl

end MsgText

end Raims
