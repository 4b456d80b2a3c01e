import Raims.Msg.MsgCat

/-!
# Reading a message (`CabaMsg`, `MsgHdrDecoder`)

What is received is a string of bytes. `unpack` finds the end of the message
in front of it and checks the header and the subject, `decode_msg` goes
through the fields and records where each of them is, the last one of an id
winning, and `verify` compares the digest. Every read is a checked one
(`Bytes.fetch`), with the end of the message as its bound.
-/

namespace Raims

open Bytes

/-- The errors that the functions here return. -/
inductive MsgErr
  | badBounds | badMagicNumber | invalidMsg | badFieldSize
deriving DecidableEq, Repr

/-! ## §1 Fields -/

/-- The `MDType` of a field. -/
inductive MDType
  | mdNodata | mdString | mdOpaque | mdBoolean | mdUint
deriving DecidableEq, Repr

/-- A field that was found: where it is, its size and its type. -/
structure MDReference where
  fptr : Nat
  fsize : Nat
  ftype : MDType
deriving DecidableEq, Repr

def FldTypeClass.ofCode : Nat → FldTypeClass
  | 0 => .bool
  | 1 => .uShort
  | 2 => .uInt
  | 3 => .uLong
  | 4 => .opaque16
  | 5 => .opaque32
  | 6 => .opaque64
  | 7 => .shortString
  | 8 => .longOpaque
  | _ => .unused

/-- `fid_value` -/
def fidValue (bits : Nat) : UInt8 := UInt8.ofNat (bits &&& 0xff)

/-- `fid_type` -/
def fidType (bits : Nat) : FldTypeClass := FldTypeClass.ofCode ((bits >>> 8) &&& 0xf)

/-- `fid_size`: a power of two up to `OPAQUE_64_CLASS`. -/
def fidSize (c : FldTypeClass) : Nat := if c.code ≤ 6 then 1 <<< c.code else 0

/-- `cls_to_md` -/
def clsToMd : FldTypeClass → MDType
  | .bool => .mdBoolean
  | .uShort | .uInt | .uLong => .mdUint
  | .opaque16 | .opaque32 | .opaque64 | .longOpaque => .mdOpaque
  | .shortString => .mdString
  | .unused => .mdNodata

/-! ## §2 The frame -/

structure CabaMsg where
  msgBuf : List UInt8
  msgOff : Nat
  msgEnd : Nat
  /-- where the subject is -/
  sub : Nat
  subhash : UInt32
  sublen : Nat
  caba : CabaFlags
deriving DecidableEq

namespace CabaMsg

/-- `unpack2`: the end of the message, or the bytes that it needs, and the
message or an error. -/
def unpack2 (kv : RaiKv) (bb : List UInt8) (off e : Nat) :
    Except Fault (Nat × Except MsgErr CabaMsg) := do
  if off + 48 > e then
    return (e, .error .badBounds)
  let word ← getBe 4 bb e off
  let hashWord ← getBe 4 bb e (off + 4)
  let caba : CabaFlags := ⟨BitVec.ofNat 16 (word >>> 16)⟩
  -- a length of zero: it stands in the place of the hash
  let len := if word &&& 0xffff = 0 then hashWord else word &&& 0xffff
  let hash := if word &&& 0xffff = 0 then 0 else hashWord
  if caba.getVer ≠ cabaMsgVersion then
    return (e, .error .badMagicNumber)
  if off + len + 8 > e then
    return (off + len + 8, .error .badBounds)
  let e := off + len + 8
  let start := off + 44
  if start + 4 ≥ e then
    return (e, .error .invalidMsg)
  let fid ← getBe 2 bb e start
  let sublen ← getBe 2 bb e (start + 2)
  if fid ≠ (FldTypeClass.shortString.cls ||| fidSub.toNat) then
    return (e, .error .invalidMsg)
  if start + sublen + 4 > e then
    return (e, .error .invalidMsg)
  let subhash ← if hash = 0 then do
      let sub ← fetch bb e (start + 4) sublen
      pure (kv.crcC sub)
    else pure (UInt32.ofNat hash)
  return (e, .ok {
    msgBuf := bb, msgOff := off, msgEnd := e, sub := start + 4, subhash := subhash,
    sublen := sublen, caba := caba })

/-- `MsgFrameDecoder::unpack`: the message in front of what was received. -/
def unpack (kv : RaiKv) (bb : List UInt8) : Except Fault (Nat × Except MsgErr CabaMsg) :=
  unpack2 kv bb 0 bb.length

/-- `verify`: the digest of the message is that of the key. -/
def verify (kv : RaiKv) (m : CabaMsg) (key : Octets 64) : Except Fault Bool := do
  let hmac ← fetch m.msgBuf m.msgEnd (m.msgOff + 28) 16
  let s1 ← fetch m.msgBuf m.msgEnd m.msgOff 28
  let len ← lenSub m.msgEnd (m.msgOff + 44)
  let s2 ← fetch m.msgBuf m.msgEnd (m.msgOff + 44) len
  return hmac == (calc2 kv key s1 s2).1

end CabaMsg

/-! ## §3 The fields of a message -/

/-- The references of a message by field id: a field is set when there is
one. -/
abbrev FldRefs := UInt8 → Option MDReference

structure MsgHdrDecoder where
  msg : CabaMsg
  mref : FldRefs

/-- The value of a field: a number, a truth value, a string or opaque data. -/
inductive FldValue
  | uint (n : Nat)
  | bool (b : Bool)
  | string (s : List UInt8)
  | data (s : List UInt8)
  | nodata
deriving DecidableEq, Repr

/-- Numbers are big endian, whatever their width, and a truth value is a byte
that is not zero. -/
def FldValue.ofBytes : MDType → List UInt8 → FldValue
  | .mdUint, s => .uint (ofBe s)
  | .mdBoolean, s => .bool (ofBe s ≠ 0)
  | .mdString, s => .string s
  | .mdOpaque, s => .data s
  | .mdNodata, _ => .nodata

def MDReference.value (r : MDReference) (m : CabaMsg) : FldValue :=
  .ofBytes r.ftype (bytesAt m.msgBuf r.fptr r.fsize)

def MsgHdrDecoder.value (d : MsgHdrDecoder) (fid : UInt8) : Option FldValue :=
  (d.mref fid).map (·.value d.msg)

/-- The length of a field's head, and the size and type of the field. -/
def fieldHead (m : CabaMsg) (off : Nat) (type : FldTypeClass) :
    Except Fault (Option (Nat × Nat × MDType)) :=
  match type with
  | .shortString =>
    if off + 4 > m.msgEnd then return none
    else do
      let fsize ← getBe 2 m.msgBuf m.msgEnd (off + 2)
      return some (4, fsize, .mdString)
  | .longOpaque =>
    if off + 6 > m.msgEnd then return none
    else do
      let fsize ← getBe 4 m.msgBuf m.msgEnd (off + 2)
      return some (6, fsize, .mdOpaque)
  | c => return some (2, fidSize c, clsToMd c)

/-- The loop of `decode_msg`. An offset grows with each turn, so `fuel` turns
are enough for `fuel` bytes. -/
def decodeFields (m : CabaMsg) : Nat → Nat → FldRefs → Except Fault (Option MsgErr × FldRefs)
  | 0, _, mref => return (none, mref)
  | fuel + 1, off, mref =>
    if off + 2 < m.msgEnd then do
      let fidBits ← getBe 2 m.msgBuf m.msgEnd off
      let head ← fieldHead m off (fidType fidBits)
      match head with
      | none => return (some .badFieldSize, mref)
      | some (hdrSz, fsize, ftype) =>
        if off + hdrSz + fsize > m.msgEnd then return (some .badFieldSize, mref)
        else
          decodeFields m fuel (off + hdrSz + fsize + fsize % 2)
            (Function.update mref (fidValue fidBits) (some ⟨off + hdrSz, fsize, ftype⟩))
    else return (none, mref)

/-- `decode_msg`: an error, if there is one, and the fields up to it. -/
def decodeMsg (m : CabaMsg) : Except Fault (Option MsgErr × MsgHdrDecoder) := do
  let bridgeOff := m.msgOff + 8
  let digestOff := bridgeOff + 2 + 16
  let off := digestOff + 2 + 16 + 4 + m.sublen + m.sublen % 2
  let mref : FldRefs := fun _ => none
  let bridgeFid ← getBe 2 m.msgBuf m.msgEnd bridgeOff
  let digestFid ← getBe 2 m.msgBuf m.msgEnd digestOff
  if bridgeFid ≠ (FldTypeClass.opaque16.cls ||| fidBridge.toNat) ∨
      digestFid ≠ (FldTypeClass.opaque16.cls ||| fidDigest.toNat) then
    return (some .invalidMsg, ⟨m, mref⟩)
  let mref := Function.update mref fidDigest (some ⟨digestOff + 2, 16, .mdOpaque⟩)
  let mref := Function.update mref fidBridge (some ⟨bridgeOff + 2, 16, .mdOpaque⟩)
  let mref := Function.update mref fidSub (some ⟨m.sub, m.sublen, .mdString⟩)
  let r ← decodeFields m (m.msgEnd - off) off mref
  return (r.1, ⟨m, r.2⟩)

end Raims
