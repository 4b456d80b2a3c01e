import Raims.Msg.FieldAccess

/-!
# Reserving a message (`fid_est`, `MsgEst`)

A builder of a message goes through its fields twice: first it adds up what they
can take (`MsgEst`), then it writes them into memory of that size (`MsgCat`), some
of them only under a condition. Nothing stops a write at the end of the memory;
`close` compares the sizes when all is written. What a writer puts out is bounded by
its class alone (`Fld.cap`), which is what the estimate of the field has to be for.
-/

namespace Raims

open Bytes

/-! ## §1 The estimate -/

/-- `fid_est( fid )`: 64 bits for what is not listed. -/
def fidEst : MsgFid → ℕ
  | .session => 2 + 16 + 16
  | .digest | .userHmac | .pkDigest => 2 + 16
  | .bridge | .cnonce | .syncBridge | .remBridge | .uidCsum | .meshCsum => 2 + 16
  | .authKey | .sessKey => 2 + 64
  | .pkSig => 2 + 64
  | .pubkey => 2 + 32
  | _ => 2 + 8

/-- `fid_est( fid, len )`: strings are aligned, opaque data has a longer length, and
a message inside of a message has its own header. -/
def fidEstLen (f : MsgFid) (len : ℕ) : ℕ :=
  match f with
  | .data | .meshFilter | .ucastFilter | .bloom => 2 + 4 + len + 1
  | .peerDb | .meshDb | .ucastDb | .adjacency => 2 + 4 + 8 + len + 1
  | _ => 2 + 2 + len + 1

/-- `MsgEst`: what `sz` is after the calls for the fields of a fixed size and for
those with a length. -/
def estFields (fixed : List MsgFid) (sized : List (MsgFid × ℕ)) : ℕ :=
  (fixed.map fidEst).sum + (sized.map fun f => fidEstLen f.1 f.2).sum

/-- `MsgEst e( sublen )`. -/
def msgEst (sublen : ℕ) (fixed : List MsgFid) (sized : List (MsgFid × ℕ)) : ℕ :=
  fidEst .bridge + fidEst .digest + fidEstLen .sub sublen + 8 + estFields fixed sized

/-- `MsgEst e`: for a message inside of a message. -/
def submsgEst (fixed : List MsgFid) (sized : List (MsgFid × ℕ)) : ℕ := 6 + estFields fixed sized

/-! ## §2 What the writers put out -/

theorem length_bBytes_le (opt : UInt8) (s : List UInt8) : (bBytes opt s).length ≤ 5 + s.length := by
  have hmod : s.length % 2 ^ 16 ≤ s.length := Nat.mod_le _ _
  have hodd : s.length % 2 ^ 16 % 2 < 2 := Nat.mod_lt _ (by decide)
  simp only [bBytes, List.length_append, length_fidWord, length_be, List.length_take, length_padding]
  omega

theorem length_oBytes_le (opt : UInt8) (s : List UInt8) : (oBytes opt s).length ≤ 7 + s.length := by
  have hmod : s.length % 2 ^ 32 ≤ s.length := Nat.mod_le _ _
  have hodd : s.length % 2 ^ 32 % 2 < 2 := Nat.mod_lt _ (by decide)
  simp only [oBytes, List.length_append, length_fidWord, length_be, List.length_take, length_padding]
  omega

namespace Fld

/-- The most bytes that a writer puts out for a field. -/
def cap : Fld → ℕ
  | .b _ s => 5 + s.length
  | .o _ s => 7 + s.length
  | .u _ _ | .i8 _ _ => 10
  | .i _ _ | .i4 _ _ => 6
  | .i2 _ _ | .y _ _ => 4
  | .n _ _ | .h _ _ => 18
  | .k _ _ => 66
  | .kKey _ _ | .x _ _ _ => 34

theorem length_bytes_le (f : Fld) : f.bytes.length ≤ f.cap := by
  cases f with
  | b opt s => exact length_bBytes_le opt s
  | o opt s => exact length_oBytes_le opt s
  | u opt v =>
    simp only [bytes, uBytes, cap]
    split
    · split <;> simp [i2Bytes, i4Bytes]
    · simp [i8Bytes]
  | i opt v =>
    simp only [bytes, iBytes, cap]
    split <;> simp [i2Bytes, i4Bytes]
  | i2 opt v => simp [bytes, i2Bytes, cap]
  | i4 opt v => simp [bytes, i4Bytes, cap]
  | i8 opt v => simp [bytes, i8Bytes, cap]
  | y opt v => simp [bytes, yBytes, cap]
  | n opt val => simp [bytes, cap, val.2]
  | h opt val => simp [bytes, cap, val.2]
  | k opt val => simp [bytes, cap, val.2]
  | kKey opt key => simp [bytes, cap, key.2]
  | x opt hmac nonce => simp [bytes, cap, hmac.2, nonce.2]

/-- The most that a list of fields can take. -/
def caps (fs : List Fld) : ℕ := (fs.map cap).sum

@[simp] theorem caps_nil : caps [] = 0 := rfl

@[simp] theorem caps_cons (f : Fld) (fs : List Fld) : caps (f :: fs) = f.cap + caps fs := rfl

@[simp] theorem caps_append (fs gs : List Fld) : caps (fs ++ gs) = caps fs + caps gs := by
  simp [caps]

theorem length_flatMap_le (fs : List Fld) : (fs.flatMap bytes).length ≤ caps fs := by
  induction fs with
  | nil => simp
  | cons f fs ih =>
    have hf := f.length_bytes_le
    simp only [List.flatMap_cons, List.length_append, caps_cons]
    omega

end Fld

/-! ## §3 Builders -/

/-- What a builder writes after `open`: a field, the head of data that is sent
after the message, space for one of the two digests at the end, or a message inside
of the message. -/
inductive Item where
  | fld (f : Fld)
  | dataFrag (len : ℕ)
  | pkDigest
  | pkSig
  | submsg (f : MsgFid) (fields : List Fld)

/-- One item. A message inside of the message is closed by writing its head. -/
def MsgCat.write (m : MsgCat) : Item → MsgCat
  | .fld f => m.put f
  | .dataFrag len => m.dataFrag len
  | .pkDigest => m.skip 18
  | .pkSig => m.skip 66
  | .submsg f fields =>
    let s := fields.foldl MsgCat.put (m.skip 6)
    s.poke m.buf.length
      (fidWord .longOpaque f.code ++ be 4 (s.buf.length - m.buf.length - 6))

/-- The bytes of an item. -/
def Item.size : Item → ℕ
  | .fld f => f.bytes.length
  | .dataFrag _ => 6
  | .pkDigest => 18
  | .pkSig => 66
  | .submsg _ fields => 6 + (fields.flatMap Fld.bytes).length

/-- The most bytes of an item. -/
def Item.cap : Item → ℕ
  | .fld f => f.cap
  | .submsg _ fields => 6 + Fld.caps fields
  | i => i.size

theorem Item.size_le_cap (i : Item) : i.size ≤ i.cap := by
  cases i with
  | fld f => exact f.length_bytes_le
  | submsg f fields => exact Nat.add_le_add_left (Fld.length_flatMap_le fields) 6
  | dataFrag len => rfl
  | pkDigest => rfl
  | pkSig => rfl

theorem MsgCat.length_emit (m : MsgCat) (b : List UInt8) :
    (m.emit b).buf.length = m.buf.length + b.length := by
  simp [emit]

theorem MsgCat.length_puts (m : MsgCat) (fs : List Fld) :
    (fs.foldl put m).buf.length = m.buf.length + (fs.flatMap Fld.bytes).length := by
  induction fs generalizing m with
  | nil => simp
  | cons f fs ih =>
    rw [List.foldl_cons, ih, put, length_emit, List.flatMap_cons, List.length_append]
    omega

theorem MsgCat.length_poke (m : MsgCat) {off : ℕ} {b : List UInt8}
    (h : off + b.length ≤ m.buf.length) : (m.poke off b).buf.length = m.buf.length := by
  simp only [poke, List.length_append, List.length_take, List.length_drop]
  omega

theorem MsgCat.length_write (m : MsgCat) (i : Item) :
    (m.write i).buf.length = m.buf.length + i.size := by
  cases i with
  | fld f => exact m.length_emit _
  | dataFrag len => simp [write, dataFrag, length_emit, Item.size, Nat.add_assoc]
  | pkDigest => simp [write, skip, length_emit, Item.size]
  | pkSig => simp [write, skip, length_emit, Item.size]
  | submsg f fields =>
    have hlen : (fields.foldl put (m.skip 6)).buf.length =
        m.buf.length + 6 + (fields.flatMap Fld.bytes).length := by
      rw [length_puts, skip, length_emit, length_junk]
    rw [write, length_poke]
    · rw [hlen, Item.size]
      omega
    · rw [hlen, List.length_append, length_fidWord, length_be]
      omega

/-- The writes of a builder, each with whether its condition holds. -/
abbrev Script := List (Bool × Item)

namespace Script

/-- Writes that are always made. -/
def always (is : List Item) : Script := is.map (Prod.mk true)

/-- `if ( c ) { ... }`. -/
def whenever (c : Bool) (s : Script) : Script := s.map fun w => (c && w.1, w.2)

/-- What is written. -/
def items (s : Script) : List Item := (s.filter Prod.fst).map Prod.snd

def size (s : Script) : ℕ := (s.items.map Item.size).sum

@[simp] theorem size_append (s t : Script) : size (s ++ t) = size s + size t := by
  simp [size, items]

@[simp] theorem size_always_nil : size (always []) = 0 := rfl

@[simp] theorem size_always_cons (i : Item) (is : List Item) :
    size (always (i :: is)) = i.size + size (always is) := rfl

@[simp] theorem size_whenever (c : Bool) (s : Script) :
    size (whenever c s) = if c then size s else 0 := by
  cases c with
  | false =>
    have hnil : items (whenever false s) = [] := by
      simp [items, whenever, List.filter_eq_nil_iff]
    simp [size, hnil]
  | true => simp [whenever]

end Script

/-- A message that is built: the length of its subject, what is reserved for it and
what is written. -/
structure MsgBuild where
  sublen : ℕ
  sz : ℕ
  script : Script

namespace MsgBuild

/-- The message when it is closed; `sign` writes over parts of it. -/
def written (b : MsgBuild) (mem : ℕ → UInt8) (bridge : Octets 16) : MsgCat :=
  b.script.items.foldl MsgCat.write ((MsgCat.reserve mem).openMsg bridge b.sublen)

/-- Nothing is written behind the memory that is reserved. -/
def Fits (b : MsgBuild) : Prop :=
  ∀ mem bridge, (b.written mem bridge).buf.length ≤ b.sz

theorem length_items (m : MsgCat) (is : List Item) :
    (is.foldl MsgCat.write m).buf.length = m.buf.length + (is.map Item.size).sum := by
  induction is generalizing m with
  | nil => simp
  | cons i is ih =>
    rw [List.foldl_cons, ih, MsgCat.length_write, List.map_cons, List.sum_cons]
    omega

theorem length_written (b : MsgBuild) (mem : ℕ → UInt8) (bridge : Octets 16) :
    (b.written mem bridge).buf.length = 48 + b.sublen + b.sublen % 2 + b.script.size := by
  have hopen := (MsgCat.laid_open mem bridge b.sublen).length
  rw [written, length_items, hopen, List.length_nil, Script.size]
  omega

theorem fits_iff (b : MsgBuild) : b.Fits ↔ 48 + b.sublen + b.sublen % 2 + b.script.size ≤ b.sz := by
  constructor
  · intro h
    have := h (fun _ => 0) ⟨List.replicate 16 0, rfl⟩
    rwa [length_written] at this
  · intro h mem bridge
    rwa [length_written]

end MsgBuild

end Raims
