import Raims.Msg.CabaMsg

/-!
# What is written is what is read

A message that `MsgCat` wrote, closed and signed is unpacked, decoded and
verified: the reader stops at its end, with its flags, subject and hash, and
for each field id with the value that was written last. Both forms of a
message, with the data in the buffer or after it, are the same bytes.
-/

namespace Raims

open Bytes

/-! ## §1 The header words -/

theorem or_shift {a b : Nat} (ha : a < 2 ^ 16) : a ||| b <<< 16 = b * 2 ^ 16 + a := by
  rw [Nat.lor_comm, Nat.shiftLeft_eq, Nat.mul_comm, ← Nat.two_pow_add_eq_or_of_lt ha]

/-- What the reader makes of the first two words. -/
structure WordsRead (caba : CabaFlags) (h : UInt32) (sz : Nat) (w : Nat × Nat) : Prop where
  word_lt : w.1 < 256 ^ 4
  hash_lt : w.2 < 256 ^ 4
  flags : (⟨BitVec.ofNat 16 (w.1 >>> 16)⟩ : CabaFlags) = caba
  len : (if w.1 &&& 0xffff = 0 then w.2 else w.1 &&& 0xffff) = sz
  hash : (if w.1 &&& 0xffff = 0 then 0 else w.2) = 0 ∨
    (if w.1 &&& 0xffff = 0 then 0 else w.2) = h.toNat

theorem headerWords_read (caba : CabaFlags) (h : UInt32) {sz : Nat} (hpos : 0 < sz)
    (hsz : sz < 2 ^ 32) : WordsRead caba h sz (headerWords caba h sz) := by
  have hfl := caba.flags.isLt
  have hh := h.toNat_lt
  rw [headerWords]
  split
  · rename_i hle
    have hw : sz ||| caba.flags.toNat <<< 16 = caba.flags.toNat * 2 ^ 16 + sz :=
      or_shift (by omega)
    have hlow : (caba.flags.toNat * 2 ^ 16 + sz) &&& 0xffff = sz := by
      rw [show (0xffff : Nat) = 2 ^ 16 - 1 by rfl, Nat.and_two_pow_sub_one_eq_mod]
      omega
    have hhigh : (caba.flags.toNat * 2 ^ 16 + sz) >>> 16 = caba.flags.toNat := by
      rw [Nat.shiftRight_eq_div_pow]
      omega
    simp only [hw]
    refine ⟨by simp only; omega, by simp only; omega, ?_, ?_, ?_⟩
    · simp only [hhigh, BitVec.ofNat_toNat, BitVec.setWidth_eq]
    · simp only [hlow]
      rw [if_neg (by omega)]
    · simp only [hlow]
      rw [if_neg (by omega)]
      exact .inr rfl
  · rename_i hgt
    have hlow : (caba.flags.toNat <<< 16) &&& 0xffff = 0 := by
      rw [show (0xffff : Nat) = 2 ^ 16 - 1 by rfl, Nat.and_two_pow_sub_one_eq_mod,
        Nat.shiftLeft_eq]
      omega
    have hhigh : (caba.flags.toNat <<< 16) >>> 16 = caba.flags.toNat := by
      rw [Nat.shiftRight_eq_div_pow, Nat.shiftLeft_eq]
      omega
    refine ⟨?_, by simp only; omega, ?_, ?_, ?_⟩
    · simp only [Nat.shiftLeft_eq]
      omega
    · simp only [hhigh, BitVec.ofNat_toNat, BitVec.setWidth_eq]
    · simp only [hlow]
      rfl
    · exact .inl (if_pos hlow)

/-! ## §2 The frame -/

section Frame

variable {w : Nat × Nat} {bridge digest : Octets 16} {subject body rest : List UInt8}

/-- A message of these words, and what follows it. -/
def framed (w : Nat × Nat) (bridge digest : Octets 16) (subject body rest : List UInt8) :
    List UInt8 :=
  layout (be 4 w.1) (be 4 w.2) bridge digest.1 (bBytes fidSub subject) body ++ rest

variable (w bridge digest subject body rest) in
theorem length_framed : (framed w bridge digest subject body rest).length =
    44 + (bBytes fidSub subject).length + body.length + rest.length := by
  rw [framed, List.length_append, length_layout, length_be, length_be, digest.2]

theorem framed_size : bytesAt (framed w bridge digest subject body rest) 0 4 = be 4 w.1 :=
  bytesAt_of_isPrefix [] (by simp [framed, layout]) rfl (length_be 4 _)

theorem framed_hash : bytesAt (framed w bridge digest subject body rest) 4 4 = be 4 w.2 :=
  bytesAt_of_isPrefix (be 4 w.1) (by simp [framed, layout]) (length_be 4 _) (length_be 4 _)

theorem framed_bridge_fid : bytesAt (framed w bridge digest subject body rest) 8 2 =
    fidWord .opaque16 fidBridge :=
  bytesAt_of_isPrefix (be 4 w.1 ++ be 4 w.2) (by simp [framed, layout, Fld.bytes]) (by simp)
    (length_fidWord _ _)

theorem framed_bridge : bytesAt (framed w bridge digest subject body rest) 10 16 = bridge.1 :=
  bytesAt_of_isPrefix (be 4 w.1 ++ be 4 w.2 ++ fidWord .opaque16 fidBridge)
    (by simp [framed, layout, Fld.bytes]) (by simp) bridge.2

theorem framed_digest_fid : bytesAt (framed w bridge digest subject body rest) 26 2 =
    fidWord .opaque16 fidDigest :=
  bytesAt_of_isPrefix (be 4 w.1 ++ be 4 w.2 ++ (Fld.n fidBridge bridge).bytes)
    (by simp [framed, layout]) (by simp [Fld.bytes, bridge.2]) (length_fidWord _ _)

variable (w bridge digest subject body rest) in
theorem framed_digest : bytesAt (framed w bridge digest subject body rest) 28 16 = digest.1 :=
  bytesAt_of_isPrefix (front (be 4 w.1) (be 4 w.2) bridge) (by simp [framed, layout_eq_front])
    (length_front (length_be 4 _) (length_be 4 _) bridge) digest.2

theorem framed_front : bytesAt (framed w bridge digest subject body rest) 0 28 =
    front (be 4 w.1) (be 4 w.2) bridge :=
  bytesAt_of_isPrefix [] (by simp [framed, layout, front]) rfl
    (length_front (length_be 4 _) (length_be 4 _) bridge)

theorem framed_sub {n : Nat} (hn : (bBytes fidSub subject).length = n) :
    bytesAt (framed w bridge digest subject body rest) 44 n = bBytes fidSub subject :=
  bytesAt_of_isPrefix (front (be 4 w.1) (be 4 w.2) bridge ++ digest.1)
    (by simp [framed, layout_eq_front])
    (by simp [length_front (length_be 4 w.1) (length_be 4 w.2) bridge, digest.2]) hn

variable (w bridge digest rest) in
theorem framed_tail {n : Nat} (hn : (bBytes fidSub subject ++ body).length = n) :
    bytesAt (framed w bridge digest subject body rest) 44 n = bBytes fidSub subject ++ body :=
  bytesAt_of_isPrefix (front (be 4 w.1) (be 4 w.2) bridge ++ digest.1)
    (by simp [framed, layout_eq_front])
    (by simp [length_front (length_be 4 w.1) (length_be 4 w.2) bridge, digest.2]) hn

/-- The message that is unpacked from these bytes. -/
def framedMsg (kv : RaiKv) (caba : CabaFlags) (w : Nat × Nat) (bridge digest : Octets 16)
    (subject body rest : List UInt8) : CabaMsg where
  msgBuf := framed w bridge digest subject body rest
  msgOff := 0
  msgEnd := 44 + (bBytes fidSub subject).length + body.length
  sub := 48
  subhash := kv.crcC subject
  sublen := subject.length
  caba := caba

section Subject

variable (hs : subject.length < 2 ^ 16)
include hs

theorem framed_sub_fid : bytesAt (framed w bridge digest subject body rest) 44 2 =
    fidWord .shortString fidSub := by
  rw [← Nat.add_zero 44, ← bytesAt_bytesAt (l := framed w bridge digest subject body rest)
    (n := (bBytes fidSub subject).length) (by rw [length_bBytes fidSub hs]; omega), framed_sub rfl]
  exact bytesAt_of_isPrefix [] (by simp [bBytes_eq fidSub hs]) rfl (length_fidWord _ _)

theorem framed_sublen : bytesAt (framed w bridge digest subject body rest) 46 2 =
    be 2 subject.length := by
  rw [show 46 = 44 + 2 by rfl, ← bytesAt_bytesAt (l := framed w bridge digest subject body rest)
    (n := (bBytes fidSub subject).length) (by rw [length_bBytes fidSub hs]; omega), framed_sub rfl]
  exact bytesAt_of_isPrefix (fidWord .shortString fidSub) (by simp [bBytes_eq fidSub hs])
    (length_fidWord _ _) (length_be 2 _)

theorem framed_subject : bytesAt (framed w bridge digest subject body rest) 48 subject.length =
    subject := by
  rw [show 48 = 44 + 4 by rfl, ← bytesAt_bytesAt (l := framed w bridge digest subject body rest)
    (n := (bBytes fidSub subject).length) (by rw [length_bBytes fidSub hs]; omega), framed_sub rfl]
  exact bytesAt_of_isPrefix (fidWord .shortString fidSub ++ be 2 subject.length)
    (by simp [bBytes_eq fidSub hs]) (by simp) rfl

theorem unpack_framed {kv : RaiKv} {caba : CabaFlags}
    (hw : WordsRead caba (kv.crcC subject) (36 + (bBytes fidSub subject).length + body.length) w)
    (hver : caba.getVer = cabaMsgVersion) (hne : subject ≠ [] ∨ body ≠ []) :
    CabaMsg.unpack kv (framed w bridge digest subject body rest) =
      .ok (44 + (bBytes fidSub subject).length + body.length,
        .ok (framedMsg kv caba w bridge digest subject body rest)) := by
  have hlen := length_framed w bridge digest subject body rest
  have hb : (bBytes fidSub subject).length = _ := length_bBytes fidSub hs
  have hpos : 0 < subject.length + body.length := by
    rcases hne with h | h
    · have := List.length_pos_iff.mpr h
      omega
    · have := List.length_pos_iff.mpr h
      omega
  set bytes := framed w bridge digest subject body rest with hbytes
  set e := 44 + (bBytes fidSub subject).length + body.length with he
  have hword : getBe 4 bytes bytes.length 0 = .ok w.1 :=
    getBe_be framed_size hw.word_lt (by omega)
  have hhash : getBe 4 bytes bytes.length (0 + 4) = .ok w.2 :=
    getBe_be framed_hash hw.hash_lt (by omega)
  have hend : 0 + (36 + (bBytes fidSub subject).length + body.length) + 8 = e := by omega
  have hfid : getBe 2 bytes e (0 + 44) =
      .ok (FldTypeClass.shortString.cls ||| fidSub.toNat) :=
    getBe_be (framed_sub_fid hs) (by decide) (by omega)
  have hsublen : getBe 2 bytes e (0 + 44 + 2) = .ok subject.length :=
    getBe_be (framed_sublen hs) (by omega) (by omega)
  have hsub : fetch bytes e (0 + 44 + 4) subject.length = .ok subject := by
    rw [fetch_ok (by omega)]
    exact congrArg _ (framed_subject hs)
  have hcrc : UInt32.ofNat (kv.crcC subject).toNat = kv.crcC subject := UInt32.ofNat_toNat
  rw [CabaMsg.unpack, CabaMsg.unpack2, if_neg (by omega), hword]
  simp only [ok_bind]
  rw [hhash]
  simp only [ok_bind, hw.flags, hw.len]
  rw [if_neg (by simp [hver]), if_neg (by omega), hend, if_neg (by omega), hfid]
  simp only [ok_bind]
  rw [hsublen]
  simp only [ok_bind]
  rw [if_neg (by simp), if_neg (by omega), hsub]
  -- a hash of zero, also one that made room for the length, is computed again
  by_cases h0 : (if w.1 &&& 0xffff = 0 then 0 else w.2) = 0
  · rw [if_pos h0]
    rfl
  · rw [if_neg h0, hw.hash.resolve_left h0, hcrc]
    rfl

omit hs in
theorem verify_framed {kv : RaiKv} {caba : CabaFlags} {key : Octets 64}
    (hd : digest = calc2 kv key (front (be 4 w.1) (be 4 w.2) bridge)
      (bBytes fidSub subject ++ body)) :
    (framedMsg kv caba w bridge digest subject body rest).verify kv key = .ok true := by
  have htail := framed_tail w bridge digest rest
    (List.length_append : (bBytes fidSub subject ++ body).length = _)
  rw [CabaMsg.verify]
  simp only [framedMsg, Nat.zero_add]
  rw [fetch_ok (by omega), fetch_ok (by omega), lenSub_ok (by omega)]
  simp only [ok_bind]
  rw [fetch_ok (by omega), framed_digest w, framed_front, Nat.add_assoc, Nat.add_sub_cancel_left, htail]
  simp only [ok_bind, ← hd, beq_self_eq_true]
  rfl

end Subject

end Frame

/-! ## §3 The fields -/

theorem cls_or (c : FldTypeClass) (opt : UInt8) :
    c.cls ||| opt.toNat = 2 ^ 8 * (c.cls / 2 ^ 8) + opt.toNat := by
  have hc : c.cls = 2 ^ 8 * (c.cls / 2 ^ 8) := by
    cases c <;> rfl
  rw [Nat.two_pow_add_eq_or_of_lt opt.toNat_lt, ← hc]

theorem fidValue_word (c : FldTypeClass) (opt : UInt8) : fidValue (c.cls ||| opt.toNat) = opt := by
  rw [fidValue, cls_or, show (0xff : Nat) = 2 ^ 8 - 1 by rfl, Nat.and_two_pow_sub_one_eq_mod,
    Nat.mul_add_mod, Nat.mod_eq_of_lt opt.toNat_lt, UInt8.ofNat_toNat]

theorem fidType_word (c : FldTypeClass) (opt : UInt8) : fidType (c.cls ||| opt.toNat) = c := by
  have hlt := opt.toNat_lt
  rw [fidType, cls_or, Nat.shiftRight_eq_div_pow, Nat.mul_add_div (by norm_num),
    Nat.div_eq_of_lt hlt]
  cases c <;> rfl

theorem word_lt (c : FldTypeClass) (opt : UInt8) : c.cls ||| opt.toNat < 256 ^ 2 := by
  have hlt := opt.toNat_lt
  have hc : c.cls / 2 ^ 8 < 256 := by
    cases c <;> decide
  rw [cls_or]
  omega

/-- A field as it is on the wire: its class, id and data. -/
structure RawFld where
  cls : FldTypeClass
  opt : UInt8
  payload : List UInt8

namespace RawFld

/-- The length in front of the data, of the classes that have one. -/
def lenBytes : FldTypeClass → Nat → List UInt8
  | .shortString, n => be 2 n
  | .longOpaque, n => be 4 n
  | _, _ => []

def bytes (r : RawFld) : List UInt8 :=
  fidWord r.cls r.opt ++ (lenBytes r.cls r.payload.length ++
    (r.payload ++ padding r.payload.length))

/-- The data has a size that the class can have. -/
def Fits (r : RawFld) : Prop :=
  match r.cls with
  | .shortString => r.payload.length < 2 ^ 16
  | .longOpaque => r.payload.length < 2 ^ 32
  | .unused => False
  | c => r.payload.length = fidSize c

def hdrSz (r : RawFld) : Nat := 2 + (lenBytes r.cls r.payload.length).length

/-- The reference to a field that begins at `off`. -/
def ref (r : RawFld) (off : Nat) : MDReference := ⟨off + r.hdrSz, r.payload.length, clsToMd r.cls⟩

theorem length_bytes (r : RawFld) :
    r.bytes.length = r.hdrSz + r.payload.length + r.payload.length % 2 := by
  simp only [bytes, hdrSz, List.length_append, length_fidWord, length_padding]
  omega

/-- Each field is longer than its word, so the loop does not stop before it. -/
theorem Fits.two_lt {r : RawFld} (h : r.Fits) : 2 < r.bytes.length := by
  rw [length_bytes]
  obtain ⟨c, opt, data⟩ := r
  cases c <;>
    simp [Fits, hdrSz, lenBytes, fidSize, FldTypeClass.code] at h ⊢ <;> omega

/-- A field stands at `off` of a message. -/
structure At (r : RawFld) (m : CabaMsg) (off : Nat) : Prop where
  bytes : bytesAt m.msgBuf off r.bytes.length = r.bytes
  inside : off + r.bytes.length ≤ m.msgEnd

/-- A part of a field that is in a message. -/
theorem At.part {r : RawFld} {m : CabaMsg} {off : Nat} (h : r.At m off) {i n : Nat}
    {mid : List UInt8} (pre : List UInt8) (hp : pre ++ mid <+: r.bytes) (hi : pre.length = i)
    (hn : mid.length = n) : bytesAt m.msgBuf (off + i) n = mid := by
  have hle : i + n ≤ r.bytes.length := by
    have := hp.length_le
    rw [List.length_append, hi, hn] at this
    exact this
  rw [← bytesAt_bytesAt hle, h.bytes]
  exact bytesAt_of_isPrefix pre hp hi hn

theorem At.word {r : RawFld} {m : CabaMsg} {off : Nat} (h : r.At m off) (hf : r.Fits) :
    getBe 2 m.msgBuf m.msgEnd off = .ok (r.cls.cls ||| r.opt.toNat) := by
  have hlt := hf.two_lt
  have hin := h.inside
  exact getBe_be (h.part [] (by simp [RawFld.bytes, fidWord]) rfl (length_be 2 _))
    (word_lt _ _) (by omega)

theorem At.payload {r : RawFld} {m : CabaMsg} {off : Nat} (h : r.At m off) :
    bytesAt m.msgBuf (off + r.hdrSz) r.payload.length = r.payload :=
  h.part (fidWord r.cls r.opt ++ lenBytes r.cls r.payload.length) (by simp [RawFld.bytes])
    (by simp [hdrSz]) rfl

theorem At.head {r : RawFld} {m : CabaMsg} {off : Nat} (h : r.At m off) (hf : r.Fits) :
    fieldHead m off r.cls = .ok (some (r.hdrSz, r.payload.length, clsToMd r.cls)) := by
  have hin := h.inside
  rw [length_bytes] at hin
  have hlen : bytesAt m.msgBuf (off + 2) (lenBytes r.cls r.payload.length).length =
      lenBytes r.cls r.payload.length :=
    h.part (fidWord r.cls r.opt) (by simp [RawFld.bytes]) (length_fidWord _ _) rfl
  obtain ⟨c, opt, data⟩ := r
  cases c
  case shortString =>
    simp only [Fits] at hf
    simp only [hdrSz, lenBytes, length_be] at hlen hin ⊢
    rw [fieldHead, if_neg (by omega), getBe_be hlen (by omega) (by omega)]
    rfl
  case longOpaque =>
    simp only [Fits] at hf
    simp only [hdrSz, lenBytes, length_be] at hlen hin ⊢
    rw [fieldHead, if_neg (by omega), getBe_be hlen (by omega) (by omega)]
    rfl
  case unused => exact hf.elim
  all_goals
    simp only [Fits] at hf
    simp only [hdrSz, lenBytes, fieldHead, hf]
    rfl

/-- One turn of the loop. -/
theorem At.decode {r : RawFld} {m : CabaMsg} {off : Nat} (h : r.At m off) (hf : r.Fits)
    (fuel : Nat) (mref : FldRefs) :
    decodeFields m (fuel + 1) off mref =
      decodeFields m fuel (off + r.bytes.length)
        (Function.update mref r.opt (some (r.ref off))) := by
  have hlt := hf.two_lt
  have hin := h.inside
  have hle := hin
  rw [length_bytes] at hle
  rw [decodeFields, if_pos (by omega), h.word hf]
  simp only [ok_bind, fidType_word, fidValue_word]
  rw [h.head hf]
  simp only [ok_bind]
  rw [if_neg (by omega), length_bytes]
  simp only [Nat.add_assoc]
  rfl

/-- The references after fields that begin at `off`. -/
def refs : Nat → FldRefs → List RawFld → FldRefs
  | _, mref, [] => mref
  | off, mref, r :: rs =>
    refs (off + r.bytes.length) (Function.update mref r.opt (some (r.ref off))) rs

/-- The first of the fields at `off`, and the others. -/
theorem at_split {m : CabaMsg} {r : RawFld} {rs : List RawFld} {off : Nat}
    (hb : bytesAt m.msgBuf off (r.bytes.length + (rs.flatMap bytes).length) =
      r.bytes ++ rs.flatMap bytes)
    (he : off + (r.bytes.length + (rs.flatMap bytes).length) ≤ m.msgEnd) :
    r.At m off ∧ bytesAt m.msgBuf (off + r.bytes.length) (rs.flatMap bytes).length =
      rs.flatMap bytes := by
  refine ⟨⟨?_, by omega⟩, ?_⟩
  · rw [← Nat.add_zero off, ← bytesAt_bytesAt (n := r.bytes.length + (rs.flatMap bytes).length)
      (by omega), hb]
    exact bytesAt_of_isPrefix [] (by simp) rfl rfl
  · rw [← bytesAt_bytesAt (n := r.bytes.length + (rs.flatMap bytes).length) (by omega), hb]
    exact bytesAt_of_isPrefix r.bytes (by simp) rfl rfl

/-- The loop goes through all the fields to the end of the message. -/
theorem decodeFields_eq {m : CabaMsg} {rs : List RawFld} (hf : ∀ r ∈ rs, r.Fits) {off fuel : Nat}
    (hb : bytesAt m.msgBuf off (rs.flatMap bytes).length = rs.flatMap bytes)
    (he : off + (rs.flatMap bytes).length = m.msgEnd) (hfuel : m.msgEnd - off ≤ fuel)
    (mref : FldRefs) : decodeFields m fuel off mref = .ok (none, refs off mref rs) := by
  induction rs generalizing off fuel mref with
  | nil =>
    have hoff : ¬ off + 2 < m.msgEnd := by
      simp only [List.flatMap_nil, List.length_nil] at he
      omega
    cases fuel with
    | zero => rfl
    | succ fuel => rw [decodeFields, if_neg hoff]; rfl
  | cons r rs ih =>
    have hr := hf r List.mem_cons_self
    have hlt := hr.two_lt
    rw [List.flatMap_cons, List.length_append] at hb he
    obtain ⟨hat, hrest⟩ := at_split hb he.le
    obtain ⟨fuel, rfl⟩ : ∃ k, fuel = k + 1 := ⟨fuel - 1, by omega⟩
    rw [hat.decode hr]
    exact ih (fun x hx => hf x (List.mem_cons_of_mem _ hx)) hrest (by omega) (by omega) _

def value (r : RawFld) : FldValue := .ofBytes (clsToMd r.cls) r.payload

/-- The last value of each field id in a list of fields, over those before. -/
def values (before : UInt8 → Option FldValue) (rs : List RawFld) : UInt8 → Option FldValue :=
  rs.foldl (fun v r => Function.update v r.opt (some r.value)) before

/-- The values of references, when one of them is set. -/
theorem value_update (m : CabaMsg) (mref : FldRefs) (opt : UInt8) (r : MDReference) :
    (fun fid => (Function.update mref opt (some r) fid).map (·.value m)) =
      Function.update (fun fid => (mref fid).map (·.value m)) opt (some (r.value m)) := by
  funext fid
  by_cases hfid : fid = opt
  · subst hfid
    simp only [Function.update_self, Option.map_some]
  · simp only [Function.update_of_ne hfid]

theorem values_refs {m : CabaMsg} {rs : List RawFld} {off : Nat}
    (hb : bytesAt m.msgBuf off (rs.flatMap bytes).length = rs.flatMap bytes)
    (he : off + (rs.flatMap bytes).length ≤ m.msgEnd) (mref : FldRefs) :
    (fun fid => (refs off mref rs fid).map (·.value m)) =
      values (fun fid => (mref fid).map (·.value m)) rs := by
  induction rs generalizing off mref with
  | nil => rfl
  | cons r rs ih =>
    rw [List.flatMap_cons, List.length_append] at hb he
    obtain ⟨hat, hrest⟩ := at_split hb he
    have hval : (r.ref off).value m = r.value := by
      simp only [MDReference.value, value, ref, hat.payload]
    rw [refs, ih hrest (by omega), value_update, hval]
    rfl

end RawFld

namespace Fld

def opt : Fld → UInt8
  | .b opt _ | .o opt _ | .u opt _ | .i opt _ | .i2 opt _ | .i4 opt _ | .i8 opt _ | .y opt _
  | .n opt _ | .h opt _ | .k opt _ | .kKey opt _ | .x opt _ _ => opt

/-- The value that is written. -/
def value : Fld → FldValue
  | .b _ s => .string s
  | .o _ s => .data s
  | .u _ v => .uint v.toNat
  | .i _ v => .uint v.toNat
  | .i2 _ v => .uint v.toNat
  | .i4 _ v => .uint v.toNat
  | .i8 _ v => .uint v.toNat
  | .y _ v => .bool (v ≠ 0)
  | .n _ val => .data val.1
  | .h _ val => .data val.1
  | .k _ val => .data val.1
  | .kKey _ key => .data key.1
  | .x _ hmac nonce => .data (hmac.1 ++ nonce.1)

/-- The limits of the format: 64K for a string, 4G for opaque data. -/
def Fits : Fld → Prop
  | .b _ s => s.length < 2 ^ 16
  | .o _ s => s.length < 2 ^ 32
  | _ => True

/-- The field on the wire. -/
def raw : Fld → RawFld
  | .b opt s => ⟨.shortString, opt, s⟩
  | .o opt s => ⟨.longOpaque, opt, s⟩
  | .u opt v =>
    if v >>> 32 = 0 then
      if v >>> 16 = 0 then ⟨.uShort, opt, be 2 v.toNat⟩ else ⟨.uInt, opt, be 4 v.toNat⟩
    else ⟨.uLong, opt, be 8 v.toNat⟩
  | .i opt v => if v >>> 16 = 0 then ⟨.uShort, opt, be 2 v.toNat⟩ else ⟨.uInt, opt, be 4 v.toNat⟩
  | .i2 opt v => ⟨.uShort, opt, be 2 v.toNat⟩
  | .i4 opt v => ⟨.uInt, opt, be 4 v.toNat⟩
  | .i8 opt v => ⟨.uLong, opt, be 8 v.toNat⟩
  | .y opt v => ⟨.bool, opt, [if v ≠ 0 then 1 else 0]⟩
  | .n opt val => ⟨.opaque16, opt, val.1⟩
  | .h opt val => ⟨.opaque16, opt, val.1⟩
  | .k opt val => ⟨.opaque64, opt, val.1⟩
  | .kKey opt key => ⟨.opaque32, opt, key.1⟩
  | .x opt hmac nonce => ⟨.opaque32, opt, hmac.1 ++ nonce.1⟩

theorem shift32_u {v : UInt64} : v >>> 32 = 0 ↔ v.toNat < 2 ^ 32 := by
  rw [← UInt64.toNat_inj, UInt64.toNat_shiftRight]
  simp [Nat.shiftRight_eq_div_pow]

theorem shift16_u {v : UInt64} : v >>> 16 = 0 ↔ v.toNat < 2 ^ 16 := by
  rw [← UInt64.toNat_inj, UInt64.toNat_shiftRight]
  simp [Nat.shiftRight_eq_div_pow]

theorem shift16_i {v : UInt32} : v >>> 16 = 0 ↔ v.toNat < 2 ^ 16 := by
  rw [← UInt32.toNat_inj, UInt32.toNat_shiftRight]
  simp [Nat.shiftRight_eq_div_pow]

theorem raw_opt (f : Fld) : f.raw.opt = f.opt := by
  cases f <;> simp only [raw, opt] <;> split_ifs <;> rfl

theorem raw_fits {f : Fld} (h : f.Fits) : f.raw.Fits := by
  cases f with
  | b _ s => exact h
  | o _ s => exact h
  | u _ v => simp only [raw]; split_ifs <;> exact length_be _ _
  | i _ v => simp only [raw]; split_ifs <;> exact length_be _ _
  | i2 _ v => exact length_be _ _
  | i4 _ v => exact length_be _ _
  | i8 _ v => exact length_be _ _
  | y _ v => rfl
  | n _ val => exact val.2
  | h _ val => exact val.2
  | k _ val => exact val.2
  | kKey _ key => exact key.2
  | x _ hmac nonce =>
    show (hmac.1 ++ nonce.1).length = 32
    rw [List.length_append, hmac.2, nonce.2]

/-- What the writers put out is the field on the wire. -/
theorem bytes_raw {f : Fld} (h : f.Fits) : f.bytes = f.raw.bytes := by
  cases f with
  | b opt s => simpa [bytes, RawFld.bytes, raw, RawFld.lenBytes] using bBytes_eq opt h
  | o opt s => simpa [bytes, RawFld.bytes, raw, RawFld.lenBytes] using oBytes_eq opt h
  | u _ v =>
    simp only [bytes, uBytes, raw]
    split_ifs with h32 h16
    · have hv : v.toUInt16.toNat = v.toNat := Nat.mod_eq_of_lt (shift16_u.mp h16)
      simp [-UInt64.toNat_toUInt16, hv, i2Bytes, RawFld.bytes, RawFld.lenBytes, padding]
    · have hv : v.toUInt32.toNat = v.toNat := Nat.mod_eq_of_lt (shift32_u.mp h32)
      simp [-UInt64.toNat_toUInt32, hv, i4Bytes, RawFld.bytes, RawFld.lenBytes, padding]
    · simp [i8Bytes, RawFld.bytes, RawFld.lenBytes, padding]
  | i _ v =>
    simp only [bytes, iBytes, raw]
    split_ifs with h16
    · have hv : v.toUInt16.toNat = v.toNat := Nat.mod_eq_of_lt (shift16_i.mp h16)
      simp [-UInt32.toNat_toUInt16, hv, i2Bytes, RawFld.bytes, RawFld.lenBytes, padding]
    · simp [i4Bytes, RawFld.bytes, RawFld.lenBytes, padding]
  | i2 _ v => simp [bytes, i2Bytes, raw, RawFld.bytes, RawFld.lenBytes, padding]
  | i4 _ v => simp [bytes, i4Bytes, raw, RawFld.bytes, RawFld.lenBytes, padding]
  | i8 _ v => simp [bytes, i8Bytes, raw, RawFld.bytes, RawFld.lenBytes, padding]
  | y _ v => simp [bytes, yBytes, raw, RawFld.bytes, RawFld.lenBytes, padding]
  | n _ val => simp [bytes, raw, RawFld.bytes, RawFld.lenBytes, padding, val.2]
  | h _ val => simp [bytes, raw, RawFld.bytes, RawFld.lenBytes, padding, val.2]
  | k _ val => simp [bytes, raw, RawFld.bytes, RawFld.lenBytes, padding, val.2]
  | kKey _ key => simp [bytes, raw, RawFld.bytes, RawFld.lenBytes, padding, key.2]
  | x _ hmac nonce =>
    simp [bytes, raw, RawFld.bytes, RawFld.lenBytes, padding, hmac.2, nonce.2]

theorem raw_value (f : Fld) : f.raw.value = f.value := by
  cases f with
  | u _ v =>
    simp only [raw, value]
    split_ifs with h32 h16
    · exact congrArg _ (ofBe_be (shift16_u.mp h16))
    · exact congrArg _ (ofBe_be (shift32_u.mp h32))
    · exact congrArg _ (ofBe_be v.toNat_lt)
  | i _ v =>
    simp only [raw, value]
    split_ifs with h16
    · exact congrArg _ (ofBe_be (shift16_i.mp h16))
    · exact congrArg _ (ofBe_be v.toNat_lt)
  | i2 _ v => exact congrArg _ (ofBe_be v.toNat_lt)
  | i4 _ v => exact congrArg _ (ofBe_be v.toNat_lt)
  | i8 _ v => exact congrArg _ (ofBe_be v.toNat_lt)
  | y _ v =>
    simp only [raw, value]
    by_cases hv : v = 0 <;> simp [RawFld.value, clsToMd, FldValue.ofBytes, ofBe, hv]
  | _ => rfl

/-- The value that was written last, by field id. -/
def values (fs : List Fld) : UInt8 → Option FldValue :=
  fs.foldl (fun v f => Function.update v f.opt (some f.value)) (fun _ => none)

theorem values_append (fs gs : List Fld) :
    values (fs ++ gs) = RawFld.values (values fs) (gs.map raw) := by
  rw [values, values, RawFld.values, List.foldl_append, List.foldl_map]
  simp only [raw_opt, raw_value]

end Fld

/-! ## §4 The whole message -/

/-- The fields that each message has. -/
def headFields (bridge digest : Octets 16) (subject : List UInt8) : List Fld :=
  [.h fidDigest digest, .n fidBridge bridge, .b fidSub subject]

theorem decode_framed (kv : RaiKv) (caba : CabaFlags) (w : Nat × Nat) (bridge digest : Octets 16)
    {subject : List UInt8} (rest : List UInt8) {fs : List Fld} (hs : subject.length < 2 ^ 16)
    (hf : ∀ f ∈ fs, f.Fits) :
    ∃ d, decodeMsg (framedMsg kv caba w bridge digest subject (fs.flatMap Fld.bytes) rest) =
        .ok (none, d) ∧
      d.value = Fld.values (headFields bridge digest subject ++ fs) := by
  set m := framedMsg kv caba w bridge digest subject (fs.flatMap Fld.bytes) rest with hm
  have hb : (bBytes fidSub subject).length = _ := length_bBytes fidSub hs
  have hraw : fs.flatMap Fld.bytes = (fs.map Fld.raw).flatMap RawFld.bytes := by
    rw [List.flatMap_map]
    exact List.flatMap_congr fun f hmem => Fld.bytes_raw (hf f hmem)
  have hfits : ∀ r ∈ fs.map Fld.raw, r.Fits := by
    intro r hr
    obtain ⟨f, hmem, rfl⟩ := List.mem_map.mp hr
    exact Fld.raw_fits (hf f hmem)
  have hoff : m.msgOff + 8 + 2 + 16 + 2 + 16 + 4 + m.sublen + m.sublen % 2 =
      44 + (bBytes fidSub subject).length := by
    simp only [hm, framedMsg]
    omega
  have hbody : bytesAt m.msgBuf (44 + (bBytes fidSub subject).length)
      (fs.flatMap Fld.bytes).length = fs.flatMap Fld.bytes := by
    rw [← bytesAt_bytesAt (l := m.msgBuf) (le_refl (_ + (fs.flatMap Fld.bytes).length))]
    refine (congrArg (fun l => bytesAt l _ _)
      (framed_tail w bridge digest rest List.length_append)).trans ?_
    exact bytesAt_of_isPrefix (bBytes fidSub subject) (List.prefix_refl _) rfl rfl
  have hbridge : getBe 2 m.msgBuf m.msgEnd (m.msgOff + 8) =
      .ok (FldTypeClass.opaque16.cls ||| fidBridge.toNat) :=
    getBe_be framed_bridge_fid (word_lt _ _) (by simp only [hm, framedMsg]; omega)
  have hdigest : getBe 2 m.msgBuf m.msgEnd (m.msgOff + 8 + 2 + 16) =
      .ok (FldTypeClass.opaque16.cls ||| fidDigest.toNat) :=
    getBe_be framed_digest_fid (word_lt _ _) (by simp only [hm, framedMsg]; omega)
  rw [hraw] at hbody
  rw [decodeMsg]
  simp only [hbridge, hdigest, ok_bind, hoff]
  rw [if_neg (by simp), RawFld.decodeFields_eq hfits hbody
    (by rw [← hraw]; rfl) (Nat.le_refl _)]
  refine ⟨_, rfl, ?_⟩
  rw [Fld.values_append]
  refine (RawFld.values_refs hbody (by rw [← hraw]; rfl) _).trans ?_
  have hd : MDReference.value ⟨m.msgOff + 8 + 2 + 16 + 2, 16, .mdOpaque⟩ m = .data digest.1 :=
    congrArg FldValue.data (framed_digest w bridge digest subject _ rest)
  have hbr : MDReference.value ⟨m.msgOff + 8 + 2, 16, .mdOpaque⟩ m = .data bridge.1 :=
    congrArg FldValue.data framed_bridge
  have hsub : MDReference.value ⟨m.sub, m.sublen, .mdString⟩ m = .string subject :=
    congrArg FldValue.string (framed_subject hs)
  rw [RawFld.value_update, RawFld.value_update, RawFld.value_update, hd, hbr, hsub]
  rfl

/-- How a message is written: all of it in the buffer, or its data sent from
where it is. -/
inductive MsgForm
  | inline
  | frag (trail : List UInt8)

namespace MsgText

variable (kv : RaiKv) (mem : Nat → UInt8) (key : Octets 64) (t : MsgText)

/-- The bytes that are sent. -/
def written : MsgForm → List UInt8
  | .inline => t.inline kv mem key
  | .frag trail => t.frag kv mem key trail

/-- The message with the data that was sent after it. -/
def whole : MsgForm → MsgText
  | .inline => t
  | .frag trail => t.withData trail

/-- The limits of the format: on the subject, each field and the whole. -/
structure Fits (t : MsgText) : Prop where
  subject : t.subject.length < 2 ^ 16
  fields : ∀ f ∈ t.fields, f.Fits
  size : t.size < 2 ^ 32

/-- The options, the path and the publish type that a reader gets: those of
the flags, unless the message is closed as one of path zero. -/
def opt : BitVec 16 :=
  match t.closing with
  | .path => t.flags.getOpt
  | .zpath _ => t.flags.getOpt ||| cabaOptZpath

def path : BitVec 16 :=
  match t.closing with
  | .path => t.flags.getPath
  | .zpath _ => 0

def ztype : BitVec 16 :=
  match t.closing with
  | .path => t.flags.getZtype
  | .zpath u => BitVec.ofNat 16 u.code

/-- The message `m` with the fields `d` is `t`, signed with the key. -/
structure ReadBack (bytes : List UInt8) (m : CabaMsg) (d : MsgHdrDecoder) : Prop where
  ver : m.caba.getVer = cabaMsgVersion
  type : m.caba.getType = t.flags.getType
  opt : m.caba.getOpt = t.opt
  path : m.caba.getPath = t.path
  ztype : m.caba.getZtype = t.ztype
  subject : bytesAt m.msgBuf m.sub m.sublen = t.subject
  subhash : m.subhash = kv.crcC t.subject
  /-- for each field id the value that was written last -/
  value : ∃ digest : Octets 16, bytesAt bytes 28 16 = digest.1 ∧
    d.value = Fld.values (headFields t.bridge digest t.subject ++ t.fields)
  verify : m.verify kv key = .ok true

/-- Whatever comes after them, exactly these bytes are taken, and read as the
message `t`. -/
def ReadsAs (bytes : List UInt8) : Prop :=
  ∀ rest, ∃ m d, CabaMsg.unpack kv (bytes ++ rest) = .ok (bytes.length, .ok m) ∧
    decodeMsg m = .ok (none, d) ∧ t.ReadBack kv key bytes m d

theorem getVer_caba : t.caba.getVer = cabaMsgVersion := by
  rw [caba]
  cases t.closing with
  | path => exact t.ver
  | zpath u => exact (CabaFlags.getVer_zpath _ _).trans t.ver

theorem getType_caba : t.caba.getType = t.flags.getType := by
  rw [caba]
  cases t.closing with
  | path => rfl
  | zpath u => exact CabaFlags.getType_zpath _ _

theorem getOpt_caba : t.caba.getOpt = t.opt := by
  rw [caba, opt]
  cases t.closing with
  | path => rfl
  | zpath u => exact CabaFlags.getOpt_zpath _ _

theorem getPath_caba : t.caba.getPath = t.path := by
  rw [caba, path]
  cases t.closing with
  | path => rfl
  | zpath u => exact CabaFlags.getPath_zpath _ _

theorem getZtype_caba : t.caba.getZtype = t.ztype := by
  rw [caba, ztype]
  cases t.closing with
  | path => rfl
  | zpath u => exact CabaFlags.getZtype_zpath _ _

variable {t}

theorem Fits.body_ne_nil (h : t.Fits) (hne : t.fields ≠ []) : t.body ≠ [] := by
  obtain ⟨f, fs, hfs⟩ := List.exists_cons_of_ne_nil hne
  have hf := h.fields f (by rw [hfs]; exact List.mem_cons_self)
  have hlt := (Fld.raw_fits hf).two_lt
  rw [← Fld.bytes_raw hf] at hlt
  intro h0
  rw [body, hfs, List.flatMap_cons, List.append_eq_nil_iff] at h0
  simp [h0.1] at hlt

/-- A signed message reads back. -/
theorem readsAs_signed (h : t.Fits) (hne : t.subject ≠ [] ∨ t.fields ≠ []) :
    t.ReadsAs kv key (signedBytes kv key t.caba t.bridge t.subject t.body) := by
  intro rest
  set w := headerWords t.caba (kv.crcC t.subject) t.size with hw
  set digest := calc2 kv key (front (be 4 w.1) (be 4 w.2) t.bridge)
    (bBytes fidSub t.subject ++ t.body) with hd
  have hwr : WordsRead t.caba (kv.crcC t.subject)
      (36 + (bBytes fidSub t.subject).length + t.body.length) w :=
    headerWords_read _ _ (by omega) h.size
  have hbytes : signedBytes kv key t.caba t.bridge t.subject t.body ++ rest =
      framed w t.bridge digest t.subject t.body rest := rfl
  have hlen : (signedBytes kv key t.caba t.bridge t.subject t.body).length =
      44 + (bBytes fidSub t.subject).length + t.body.length := by
    have := length_framed w t.bridge digest t.subject t.body []
    rw [framed, List.append_nil] at this
    exact this
  obtain ⟨d, hdec, hval⟩ := decode_framed kv t.caba w t.bridge digest rest h.subject h.fields
  refine ⟨_, d, ?_, hdec, ?_⟩
  · rw [hbytes, hlen]
    exact unpack_framed h.subject hwr t.getVer_caba (hne.imp_right h.body_ne_nil)
  · refine ⟨t.getVer_caba, t.getType_caba, t.getOpt_caba, t.getPath_caba, t.getZtype_caba,
      framed_subject h.subject, rfl, ⟨digest, ?_, hval⟩, verify_framed hd⟩
    have := framed_digest w t.bridge digest t.subject t.body []
    rw [framed, List.append_nil] at this
    exact this

/-- Every message that is written, in one buffer or with its data after it,
with a subject or a field, is read as it was written, and it does not matter
in which of the two forms it was. -/
theorem written_readsAs (form : MsgForm) (hfit : (t.whole form).Fits)
    (hne : (t.whole form).subject ≠ [] ∨ (t.whole form).fields ≠ []) :
    (t.whole form).ReadsAs kv key (t.written kv mem key form) ∧
      ∀ mem', t.written kv mem key form = (t.whole form).inline kv mem' key := by
  have hsigned : ∀ mem', (t.whole form).inline kv mem' key = signedBytes kv key
      (t.whole form).caba (t.whole form).bridge (t.whole form).subject (t.whole form).body :=
    fun mem' => inline_eq kv mem' _ key hfit.subject hfit.size
  have hwritten : t.written kv mem key form = signedBytes kv key
      (t.whole form).caba (t.whole form).bridge (t.whole form).subject (t.whole form).body := by
    cases form with
    | inline => exact hsigned mem
    | frag trail =>
      have htrail : trail.length < 2 ^ 32 := hfit.fields (.o fidData trail) (by
        rw [whole, withData]
        exact List.mem_append_right _ List.mem_cons_self)
      exact frag_eq kv mem t key trail hfit.subject htrail hfit.size
  refine ⟨?_, ?_⟩
  · rw [hwritten]
    exact readsAs_signed kv key hfit hne
  · intro mem'
    rw [hwritten, hsigned mem']

end MsgText

/-- A stand-in for the hashes: the remainder by a polynomial for subjects, and
a sum with growing weights, of the whole, for digests. -/
def sampleKv : RaiKv where
  crcC s := UInt32.ofNat (s.foldl (fun a b => (a * 256 + b.toNat) % 4294967291) 1)
  meow128Vec iv v := ⟨be 16 (v.flatten.foldl (fun a b => (a * 257 + b.toNat + 1) % 2 ^ 128)
    (ofBe iv.1)), length_be 16 _⟩
  meow128Vec_flatten := fun _ _ _ h => by rw [h]

/-- `n` bytes of one value. -/
def octets (n : Nat) (b : UInt8) : Octets n := ⟨List.replicate n b, List.length_replicate⟩

/-- A message on `A.B` with a seqno, and a field that is written twice. -/
def sampleText : MsgText where
  bridge := octets 16 7
  subject := [65, 46, 66]
  fields := [.u 17 70000, .i 31 9, .i 31 12]
  flags := CabaFlags.ofType .mcast
  closing := .zpath .inbox
  ver := CabaFlags.getVer_ofType _

theorem MsgText.written_readsAs_sample :
    (sampleText.whole (.frag [1, 2, 3])).ReadsAs sampleKv (octets 64 9)
        (sampleText.written sampleKv (fun _ => 85) (octets 64 9) (.frag [1, 2, 3])) ∧
      ∀ mem', sampleText.written sampleKv (fun _ => 85) (octets 64 9) (.frag [1, 2, 3]) =
        (sampleText.whole (.frag [1, 2, 3])).inline sampleKv mem' (octets 64 9) := by
  refine written_readsAs sampleKv (fun _ => 85) (octets 64 9) (.frag [1, 2, 3])
    ⟨by decide, ?_, by decide⟩ (.inl (by decide))
  intro f hf
  simp only [whole, withData, sampleText, List.mem_append, List.mem_cons, List.not_mem_nil,
    or_false] at hf
  rcases hf with (rfl | rfl | rfl) | rfl
  · trivial
  · trivial
  · trivial
  · show ([1, 2, 3] : List UInt8).length < 2 ^ 32
    decide

/-- A message without a subject and without fields. -/
def emptyText : MsgText where
  bridge := octets 16 7
  subject := []
  fields := []
  flags := CabaFlags.ofType .mcast
  closing := .path
  ver := CabaFlags.getVer_ofType _

/-- It is written, but not read: `unpack2` wants a byte after the head of the
subject. -/
theorem MsgText.empty_not_readsAs :
    ¬ ∀ (kv : RaiKv) (mem : Nat → UInt8) (key : Octets 64) (t : MsgText) (form : MsgForm),
      (t.whole form).Fits → (t.whole form).ReadsAs kv key (t.written kv mem key form) := by
  intro h
  have hfit : emptyText.Fits := ⟨by decide, by simp [emptyText], by decide⟩
  obtain ⟨m, d, hun, -⟩ := h sampleKv (fun _ => 0) (octets 64 9) emptyText .inline hfit []
  have hbad : CabaMsg.unpack sampleKv (emptyText.inline sampleKv (fun _ => 0) (octets 64 9) ++ []) =
      .ok (48, .error .invalidMsg) := by
    decide +kernel
  have hok := hbad.symm.trans hun
  simp at hok

end Raims
