import Raims.Msg.FieldAccess

/-!
# When only the message is read

The layout of a message as the bytes say it, without the reader: whether there
is a frame, where it ends, which fields stand in it and where their data
begins. The reader records just that, so that the bytes alone say whether a
use of a field stays inside of the message.
-/

namespace Raims

open Bytes

/-! ## §1 The fields that stand in a message -/

namespace Wire

section Field

variable (b : List UInt8) (e p : Nat)

def word : Nat := ofBe (bytesAt b p 2)

def id : UInt8 := fidValue (word b p)

/-- The head of a field: the word, and the length where the class has one. -/
def headLenOf : FldTypeClass → Nat
  | .shortString => 4
  | .longOpaque => 6
  | _ => 2

def sizeOf : FldTypeClass → Nat
  | .shortString => ofBe (bytesAt b (p + 2) 2)
  | .longOpaque => ofBe (bytesAt b (p + 2) 4)
  | c => fidSize c

def headLen : Nat := headLenOf (fidType (word b p))

def size : Nat := sizeOf b p (fidType (word b p))

/-- The data of the field at `p`. -/
def ref : MDReference := ⟨p + headLen b p, size b p, clsToMd (fidType (word b p))⟩

/-- Where the next field is. -/
def next : Nat := p + headLen b p + size b p + size b p % 2

/-- A whole field stands at `p` of a message that ends at `e`. -/
def Whole : Prop := p + 2 < e ∧ p + headLen b p + size b p ≤ e

instance : Decidable (Whole b e p) := inferInstanceAs (Decidable (_ ∧ _))

end Field

/-- Where the fields are, from `off` on, and where they stop. -/
def fields (b : List UInt8) (e : Nat) : Nat → Nat → List Nat
  | 0, _ => []
  | fuel + 1, off => if Whole b e off then off :: fields b e fuel (next b off) else []

def stop (b : List UInt8) (e : Nat) : Nat → Nat → Nat
  | 0, off => off
  | fuel + 1, off => if Whole b e off then stop b e fuel (next b off) else off

theorem two_le_headLen (b : List UInt8) (p : Nat) : 2 ≤ headLen b p := by
  rw [headLen]
  cases fidType (word b p) <;> simp [headLenOf]

/-- The references after the fields at these places. -/
def record (b : List UInt8) (mref : FldRefs) (ps : List Nat) : FldRefs :=
  ps.foldl (fun r p => Function.update r (id b p) (some (ref b p))) mref

/-- What `decode_msg` finds of a field. -/
theorem fieldHead_eq {m : CabaMsg} {p : Nat} (hp : p + 2 < m.msgEnd) (c : FldTypeClass) :
    fieldHead m p c =
      .ok (if p + headLenOf c ≤ m.msgEnd then some (headLenOf c, sizeOf m.msgBuf p c, clsToMd c)
        else none) := by
  by_cases hle : p + headLenOf c ≤ m.msgEnd
  · rw [if_pos hle]
    cases c
    case shortString =>
      have h4 : p + 4 ≤ m.msgEnd := hle
      rw [fieldHead, if_neg (by omega), getBe_ok (by omega)]
      rfl
    case longOpaque =>
      have h6 : p + 6 ≤ m.msgEnd := hle
      rw [fieldHead, if_neg (by omega), getBe_ok (by omega)]
      rfl
    all_goals rfl
  · rw [if_neg hle]
    cases c
    case shortString =>
      have h4 : m.msgEnd < p + 4 := Nat.lt_of_not_le hle
      rw [fieldHead, if_pos h4]
      rfl
    case longOpaque =>
      have h6 : m.msgEnd < p + 6 := Nat.lt_of_not_le hle
      rw [fieldHead, if_pos h6]
      rfl
    all_goals exact absurd (Nat.le_of_lt hp) hle

/-- The loop of `decode_msg` records the fields that stand in the message. -/
theorem decodeFields_eq (m : CabaMsg) {fuel off : Nat} (hfuel : m.msgEnd - off ≤ fuel)
    (mref : FldRefs) :
    decodeFields m fuel off mref =
      .ok (if stop m.msgBuf m.msgEnd fuel off + 2 < m.msgEnd then some .badFieldSize else none,
        record m.msgBuf mref (fields m.msgBuf m.msgEnd fuel off)) := by
  induction fuel generalizing off mref with
  | zero =>
    rw [decodeFields, stop, fields, if_neg (by omega)]
    rfl
  | succ fuel ih =>
    have h2 := two_le_headLen m.msgBuf off
    rw [decodeFields, fields, stop]
    by_cases hoff : off + 2 < m.msgEnd
    · rw [if_pos hoff, getBe_ok (by omega)]
      simp only [ok_bind]
      rw [fieldHead_eq hoff]
      simp only [ok_bind]
      rw [← word, ← headLen, ← size]
      by_cases hw : Whole m.msgBuf m.msgEnd off
      · have hle := hw.2
        rw [if_pos (by omega), if_pos hw, if_pos hw]
        simp only
        rw [if_neg (by omega)]
        exact ih (by omega) _
      · have hgt : ¬ off + headLen m.msgBuf off + size m.msgBuf off ≤ m.msgEnd :=
          fun h => hw ⟨hoff, h⟩
        rw [if_neg hw, if_neg hw, if_pos hoff]
        by_cases hh : off + headLen m.msgBuf off ≤ m.msgEnd
        · rw [if_pos hh]
          simp only
          rw [if_pos (by omega)]
          rfl
        · rw [if_neg hh]
          rfl
    · have hw : ¬ Whole m.msgBuf m.msgEnd off := fun h => hoff h.1
      rw [if_neg hoff, if_neg hw, if_neg hw, if_neg hoff]
      rfl

/-! ## §2 The frame -/

section Frame

variable (b : List UInt8)

def sizeWord : Nat := ofBe (bytesAt b 0 4)
def hashWord : Nat := ofBe (bytesAt b 4 4)
def flags : CabaFlags := ⟨BitVec.ofNat 16 (sizeWord b >>> 16)⟩

/-- Where the message ends: the length is in the first word or the second. -/
def msgEnd : Nat :=
  0 + (if sizeWord b &&& 0xffff = 0 then hashWord b else sizeWord b &&& 0xffff) + 8

def sublen : Nat := ofBe (bytesAt b 46 2)

/-- The bytes begin with a frame: `unpack` takes it. -/
structure IsFrame : Prop where
  head : 48 ≤ b.length
  ver : (flags b).getVer = cabaMsgVersion
  inside : msgEnd b ≤ b.length
  more : 48 < msgEnd b
  sub : word b 44 = (FldTypeClass.shortString.cls ||| fidSub.toNat)
  subject : 48 + sublen b ≤ msgEnd b

/-- The frame has its bridge and digest. -/
def HeadOk : Prop :=
  word b 8 = (FldTypeClass.opaque16.cls ||| fidBridge.toNat) ∧
    word b 26 = (FldTypeClass.opaque16.cls ||| fidDigest.toNat)

instance : Decidable (HeadOk b) := inferInstanceAs (Decidable (_ ∧ _))

/-- Where the fields begin. -/
def fieldsStart : Nat := 48 + sublen b + sublen b % 2

def fieldsOf : List Nat := fields b (msgEnd b) (msgEnd b - fieldsStart b) (fieldsStart b)

/-- No field is cut off by the end of the message. -/
def NoneCut : Prop := ¬ stop b (msgEnd b) (msgEnd b - fieldsStart b) (fieldsStart b) + 2 < msgEnd b

instance : Decidable (NoneCut b) := inferInstanceAs (Decidable (¬ _))

/-- The bridge, the digest and the subject. -/
def headRefs : FldRefs :=
  Function.update (Function.update (Function.update (fun _ => none) fidDigest
    (some ⟨28, 16, .mdOpaque⟩)) fidBridge (some ⟨10, 16, .mdOpaque⟩)) fidSub
    (some ⟨48, sublen b, .mdString⟩)

/-- The data of each field id: of the last field that has it. -/
def refs : FldRefs := if HeadOk b then record b (headRefs b) (fieldsOf b) else fun _ => none

/-- What `unpack` makes of a frame. -/
structure Unpacked (m : CabaMsg) : Prop where
  msgBuf : m.msgBuf = b
  msgOff : m.msgOff = 0
  msgEnd : m.msgEnd = msgEnd b
  sub : m.sub = 48
  sublen : m.sublen = sublen b
  caba : m.caba = flags b

variable {b}

variable (b) in
/-- `unpack` reads inside of the bytes, and takes frames only. -/
theorem unpack_cases (kv : RaiKv) :
    (IsFrame b ∧ ∃ m, CabaMsg.unpack kv b = .ok (msgEnd b, .ok m) ∧ Unpacked b m) ∨
      (¬ IsFrame b ∧ ∃ e x, CabaMsg.unpack kv b = .ok (e, .error x)) := by
  by_cases h48 : 48 ≤ b.length
  swap
  · refine .inr ⟨fun h => h48 h.head, b.length, .badBounds, ?_⟩
    rw [CabaMsg.unpack, CabaMsg.unpack2, if_pos (by omega)]
    rfl
  rw [CabaMsg.unpack, CabaMsg.unpack2, if_neg (by omega), getBe_ok (by omega)]
  simp only [ok_bind]
  rw [getBe_ok (by omega)]
  simp only [ok_bind]
  rw [← sizeWord, show bytesAt b (0 + 4) 4 = bytesAt b 4 4 from rfl, ← hashWord, ← flags, ← msgEnd]
  by_cases hver : (flags b).getVer = cabaMsgVersion
  swap
  · rw [if_pos hver]
    exact .inr ⟨fun h => hver h.ver, _, _, rfl⟩
  by_cases hin : msgEnd b ≤ b.length
  swap
  · rw [if_neg (not_not_intro hver), if_pos (by omega)]
    exact .inr ⟨fun h => hin h.inside, _, _, rfl⟩
  by_cases hmore : 48 < msgEnd b
  swap
  · rw [if_neg (not_not_intro hver), if_neg (by omega), if_pos (by omega)]
    exact .inr ⟨fun h => hmore h.more, _, _, rfl⟩
  rw [if_neg (not_not_intro hver), if_neg (by omega), if_neg (by omega), getBe_ok (by omega)]
  simp only [ok_bind]
  rw [getBe_ok (by omega)]
  simp only [ok_bind]
  rw [show ofBe (bytesAt b (0 + 44) 2) = word b 44 from rfl,
    show ofBe (bytesAt b (0 + 44 + 2) 2) = sublen b from rfl]
  by_cases hfid : word b 44 = (FldTypeClass.shortString.cls ||| fidSub.toNat)
  swap
  · rw [if_pos hfid]
    exact .inr ⟨fun h => hfid h.sub, _, _, rfl⟩
  by_cases hsub : 48 + sublen b ≤ msgEnd b
  swap
  · rw [if_neg (not_not_intro hfid), if_pos (by omega)]
    exact .inr ⟨fun h => hsub h.subject, _, _, rfl⟩
  rw [if_neg (not_not_intro hfid), if_neg (by omega), fetch_ok (by omega)]
  refine .inl ⟨⟨h48, hver, hin, hmore, hfid, hsub⟩, ?_⟩
  by_cases h0 : (if sizeWord b &&& 0xffff = 0 then 0 else hashWord b) = 0
  · rw [if_pos h0]
    exact ⟨_, rfl, rfl, rfl, rfl, rfl, rfl, rfl⟩
  · rw [if_neg h0]
    exact ⟨_, rfl, rfl, rfl, rfl, rfl, rfl, rfl⟩

theorem unpack_frame (kv : RaiKv) {e : Nat} {m : CabaMsg}
    (h : CabaMsg.unpack kv b = .ok (e, .ok m)) : IsFrame b ∧ Unpacked b m := by
  obtain ⟨hf, m', hm', hu⟩ | ⟨-, e', x, hx⟩ := unpack_cases b kv
  · rw [hm'] at h
    cases h
    exact ⟨hf, hu⟩
  · rw [hx] at h
    cases h

/-- The decoder of a message holds the data of the fields that stand in it. -/
theorem decode_eq {m : CabaMsg} (hf : IsFrame b) (hu : Unpacked b m) :
    decodeMsg m = .ok (if HeadOk b then if NoneCut b then none else some .badFieldSize
      else some .invalidMsg, ⟨m, refs b⟩) := by
  have hmore := hf.more
  have hend := hu.msgEnd
  have hoff : m.msgOff + 8 + 2 + 16 + 2 + 16 + 4 + m.sublen + m.sublen % 2 = fieldsStart b := by
    rw [hu.msgOff, hu.sublen, fieldsStart]
  have hbridge : getBe 2 m.msgBuf m.msgEnd (m.msgOff + 8) = .ok (word b 8) := by
    rw [hu.msgBuf, hu.msgOff, getBe_ok (by omega)]
    rfl
  have hcut : (if stop b (msgEnd b) (msgEnd b - fieldsStart b) (fieldsStart b) + 2 < msgEnd b then
      some MsgErr.badFieldSize else none) = if NoneCut b then none else some .badFieldSize := by
    by_cases hc : NoneCut b
    · rw [if_pos hc, if_neg hc]
    · rw [if_neg hc, if_pos (not_not.mp hc)]
  have hdigest : getBe 2 m.msgBuf m.msgEnd (m.msgOff + 8 + 2 + 16) = .ok (word b 26) := by
    rw [hu.msgBuf, hu.msgOff, getBe_ok (by omega)]
    rfl
  rw [decodeMsg]
  simp only [hbridge, hdigest, ok_bind, hoff]
  by_cases hh : HeadOk b
  · rw [if_neg (by simp only [hh.1, hh.2, ne_eq, not_true, or_self, not_false_eq_true]),
      decodeFields_eq m (Nat.le_refl _)]
    simp only [ok_bind, hu.msgBuf, hend, if_pos hh, refs, hu.msgOff, hu.sub, hu.sublen, hcut]
    rfl
  · have hbad : word b 8 ≠ (FldTypeClass.opaque16.cls ||| fidBridge.toNat) ∨
        word b 26 ≠ (FldTypeClass.opaque16.cls ||| fidDigest.toNat) := by
      rw [HeadOk, not_and_or] at hh
      exact hh
    rw [if_pos hbad, if_neg hh, refs, if_neg hh]
    rfl

theorem le_of_mem_fields {e fuel off p : Nat} (h : p ∈ fields b e fuel off) :
    off ≤ p ∧ Whole b e p := by
  induction fuel generalizing off with
  | zero => exact absurd h List.not_mem_nil
  | succ fuel ih =>
    rw [fields] at h
    split at h
    · rename_i hw
      rcases List.mem_cons.mp h with rfl | hp
      · exact ⟨Nat.le_refl _, hw⟩
      · have hle := ih hp
        refine ⟨?_, hle.2⟩
        have : off ≤ next b off := by
          rw [next]
          omega
        omega
    · exact absurd h List.not_mem_nil

/-- What is recorded was before, or is a field at one of the places. -/
theorem record_cases {mref : FldRefs} {ps : List Nat} {fid : UInt8} {r : MDReference}
    (h : record b mref ps fid = some r) : mref fid = some r ∨ ∃ p ∈ ps, r = ref b p := by
  induction ps generalizing mref with
  | nil => exact .inl h
  | cons p ps ih =>
    rcases ih h with hup | ⟨q, hq, rfl⟩
    · simp only at hup
      by_cases hid : fid = id b p
      · subst hid
        rw [Function.update_self] at hup
        exact .inr ⟨p, List.mem_cons_self, (Option.some.inj hup).symm⟩
      · rw [Function.update_of_ne hid] at hup
        exact .inl hup
    · exact .inr ⟨q, List.mem_cons_of_mem _ hq, rfl⟩

/-- The data of a field is inside of the message, and after the first words. -/
theorem refs_inside (hf : IsFrame b) {fid : UInt8} {r : MDReference} (h : refs b fid = some r) :
    8 ≤ r.fptr ∧ r.fptr + r.fsize ≤ msgEnd b := by
  have hmore := hf.more
  have hsub := hf.subject
  rw [refs] at h
  split at h
  · rcases record_cases h with hhead | ⟨p, hp, rfl⟩
    · rw [headRefs] at hhead
      simp only [Function.update_apply] at hhead
      split at hhead
      · cases hhead
        exact ⟨by simp only; omega, hsub⟩
      · split at hhead
        · cases hhead
          exact ⟨by simp only; omega, by simp only; omega⟩
        · split at hhead
          · cases hhead
            exact ⟨by simp only; omega, by simp only; omega⟩
          · cases hhead
    · obtain ⟨hstart, -, hle⟩ := le_of_mem_fields hp
      have : 48 ≤ fieldsStart b := by
        rw [fieldsStart]
        omega
      refine ⟨?_, hle⟩
      simp only [ref]
      omega
  · cases h

end Frame

/-! ## §3 Uses of fields -/

section Use

variable (x : MsgLib) (tib : TibSass) (b : List UInt8)

/-- What the message is handled as: the flags and the subject say it. -/
def handledAs : Option PublishType := x.handledAs (flags b) (bytesAt b 48 (sublen b))

/-- The stage of a message that has one. -/
def stage : Option Nat :=
  (refs b MsgFid.authStage.code).map fun r =>
    let s := bytesAt b r.fptr r.fsize
    if r.ftype = .mdUint then ofBe s % 2 ^ 32 else x.cvtNumber r.ftype s

/-- The field is in the message. -/
def Present (f : MsgFid) : Prop := (refs b f.code).isSome

instance (f : MsgFid) : Decidable (Present b f) := inferInstanceAs (Decidable (_ = true))

/-- From the data of the field to the end of the message there are `n` bytes. -/
def Room (f : MsgFid) (n : Nat) : Prop := ∀ r ∈ refs b f.code, r.fptr + n ≤ msgEnd b

instance (f : MsgFid) (n : Nat) : Decidable (Room b f n) :=
  inferInstanceAs (Decidable (∀ r ∈ refs b f.code, _))

/-- The same for each nonce in a list of records. -/
def RecsRoom (f : MsgFid) (nonces : List MsgFid) : Prop :=
  ∀ r ∈ refs b f.code, ∀ x ∈ tib.fields (bytesAt b (r.fptr - 8) (r.fsize + 8)),
    x.1 ∈ nonces.map MsgFid.code → r.fptr - 8 + x.2.fptr + 16 ≤ msgEnd b

instance (f : MsgFid) (nonces : List MsgFid) : Decidable (RecsRoom tib b f nonces) :=
  inferInstanceAs (Decidable (∀ r ∈ refs b f.code, _))

/-- When a use of a field stays inside of the message. -/
def UseOk : Use → Prop
  | .whole f => Present b f
  | .copy f off n => Present b f ∧ Room b f (off + n)
  | .recs f nonces => Present b f ∧ RecsRoom tib b f nonces

/-- The message goes to the handlers. -/
def Taken : Prop := (HeadOk b ∧ NoneCut b) ∧ Present b .seqno

/-- It goes to the handlers of one of these types, with such a stage. -/
def Handled (types : List PublishType) (st : StageTest) : Prop :=
  Taken b ∧ (∃ t ∈ types, handledAs x b = some t) ∧ st.passes (stage x b) = true

/-- It comes to a block, and passes the tests of it. -/
def Comes (k : Block) : Prop :=
  (k.onError = true ∨ Taken b) ∧ (∀ f ∈ k.tested, Present b f) ∧
    (∀ f ∈ k.without, ¬ Present b f) ∧ (k.types = [] ∨ ∃ t ∈ k.types, handledAs x b = some t) ∧
      k.stage.passes (stage x b) = true

/-- What a block then uses is inside of the message. -/
def BlockOk (k : Block) : Prop := Comes x b k → ∀ u ∈ k.uses, UseOk tib b u

/-- What `decode_msg` returns. -/
def status : Option MsgErr :=
  if HeadOk b then if NoneCut b then none else some .badFieldSize else some .invalidMsg

variable {b}
variable {m : CabaMsg} (hu : Unpacked b m)
include hu

theorem handledAs_eq (r : FldRefs) : MsgHdrDecoder.handledAs ⟨m, r⟩ x = handledAs x b := by
  rw [MsgHdrDecoder.handledAs, handledAs, hu.caba, hu.msgBuf, hu.sub, hu.sublen]

theorem stage_eq : MsgHdrDecoder.stage ⟨m, refs b⟩ x = stage x b := by
  rw [MsgHdrDecoder.stage, stage, hu.msgBuf]

/-- The fields of records are used inside of the message when the nonces are:
the iterator keeps to the data of the list. -/
theorem isOk_useRec {base n : Nat} {nonces : List MsgFid} {fs : List (UInt8 × MDReference)}
    (hin : ∀ x ∈ fs, x.2.fptr + x.2.fsize ≤ n) (hn : base + n ≤ msgEnd b) :
    (MsgHdrDecoder.useRec ⟨m, refs b⟩ base nonces fs).isOk ↔
      ∀ x ∈ fs, x.1 ∈ nonces.map MsgFid.code → base + x.2.fptr + 16 ≤ msgEnd b := by
  induction fs with
  | nil => exact ⟨fun _ _ h => absurd h List.not_mem_nil, fun _ => rfl⟩
  | cons x fs ih =>
    have hx := hin x List.mem_cons_self
    have hrest := ih fun y hy => hin y (List.mem_cons_of_mem _ hy)
    rw [MsgHdrDecoder.useRec, List.forall_mem_cons, isOk_fetch_bind, hrest, hu.msgEnd]
    refine and_congr_left fun _ => ?_
    by_cases hmem : x.1 ∈ nonces.map MsgFid.code
    · rw [if_pos hmem]
      exact ⟨fun h _ => h, fun h => h hmem⟩
    · rw [if_neg hmem]
      exact ⟨fun _ h => absurd h hmem, fun _ => by omega⟩

/-- A use stays inside of the message when the bytes say so. -/
theorem isOk_use (hf : IsFrame b) (u : Use) :
    (MsgHdrDecoder.use ⟨m, refs b⟩ tib u).isOk ↔ UseOk tib b u := by
  cases u with
  | whole f =>
    rw [MsgHdrDecoder.use, isOk_recorded_bind, UseOk, Present]
    refine and_iff_left fun r hr => ?_
    rw [isOk_fetch_bind, hu.msgEnd]
    exact ⟨(refs_inside hf hr).2, rfl⟩
  | copy f off n =>
    rw [MsgHdrDecoder.use, isOk_recorded_bind, UseOk, Present, Room]
    refine and_congr_right fun _ => forall₂_congr fun r _ => ?_
    rw [isOk_fetch_bind, hu.msgEnd, Nat.add_assoc]
    exact and_iff_left rfl
  | recs f nonces =>
    rw [MsgHdrDecoder.use, isOk_recorded_bind, UseOk, Present, RecsRoom]
    refine and_congr_right fun _ => forall₂_congr fun r hr => ?_
    have hin := refs_inside hf hr
    have hlen : (bytesAt b (r.fptr - 8) (r.fsize + 8)).length ≤ r.fsize + 8 :=
      List.length_take_le _ _
    rw [isOk_lenSub_bind, isOk_fetch_bind, hu.msgEnd, hu.msgBuf,
      isOk_useRec hu (fun x hx => (tib.inside _ x hx).trans hlen) (by omega),
      and_iff_right hin.1, and_iff_right (by omega)]

theorem isOk_useAll (hf : IsFrame b) (us : List Use) :
    (MsgHdrDecoder.useAll ⟨m, refs b⟩ tib us).isOk ↔ ∀ u ∈ us, UseOk tib b u := by
  induction us with
  | nil => exact ⟨fun _ _ h => absurd h List.not_mem_nil, fun _ => rfl⟩
  | cons u us ih =>
    rw [MsgHdrDecoder.useAll, isOk_unit_bind, isOk_use tib hu hf, ih, List.forall_mem_cons]

omit hu in
theorem status_isNone : (status b).isNone ↔ HeadOk b ∧ NoneCut b := by
  rw [status]
  by_cases hh : HeadOk b
  · by_cases hc : NoneCut b
    · rw [if_pos hh, if_pos hc]
      exact ⟨fun _ => ⟨hh, hc⟩, fun _ => rfl⟩
    · rw [if_pos hh, if_neg hc]
      exact ⟨fun h => absurd h Bool.false_ne_true, fun h => absurd h.2 hc⟩
  · rw [if_neg hh]
    exact ⟨fun h => absurd h Bool.false_ne_true, fun h => absurd h.1 hh⟩

/-- The test at the front of a block. -/
theorem runs_iff (k : Block) :
    ((k.onError || ((status b).isNone && MsgHdrDecoder.test ⟨m, refs b⟩ .seqno)) &&
      k.tested.all (MsgHdrDecoder.test ⟨m, refs b⟩) &&
      k.without.all (fun f => !MsgHdrDecoder.test ⟨m, refs b⟩ f) &&
      (k.types.isEmpty || (MsgHdrDecoder.handledAs ⟨m, refs b⟩ x).any (· ∈ k.types)) &&
      k.stage.passes (MsgHdrDecoder.stage ⟨m, refs b⟩ x)) = true ↔ Comes x b k := by
  have htypes : (k.types.isEmpty || (handledAs x b).any (· ∈ k.types)) = true ↔
      (k.types = [] ∨ ∃ t ∈ k.types, handledAs x b = some t) := by
    rw [Bool.or_eq_true, List.isEmpty_iff]
    refine or_congr_right ?_
    cases handledAs x b with
    | none => simp
    | some t => simp
  rw [handledAs_eq x hu, stage_eq x hu, Bool.and_eq_true, Bool.and_eq_true, htypes]
  simp only [Bool.and_eq_true, Bool.or_eq_true, List.all_eq_true, status_isNone,
    Bool.not_eq_true', Comes, Taken, Present, MsgHdrDecoder.test, Bool.not_eq_true, and_assoc]

/-- A block of a handler, run on the message. -/
theorem isOk_runBlock (hf : IsFrame b) (k : Block) :
    (MsgHdrDecoder.runBlock ⟨m, refs b⟩ x tib (status b) k).isOk ↔ BlockOk x tib b k := by
  rw [MsgHdrDecoder.runBlock, BlockOk]
  by_cases hc : Comes x b k
  · rw [if_pos ((runs_iff x hu k).mpr hc), isOk_useAll tib hu hf]
    exact ⟨fun h _ => h, fun h => h hc⟩
  · rw [if_neg (fun h => hc ((runs_iff x hu k).mp h))]
    exact ⟨fun _ h => absurd h hc, fun _ => rfl⟩

end Use

/-! ## §4 The digests and the bridge -/

section Digest

variable {b : List UInt8} {m : CabaMsg} (hf : IsFrame b) (hu : Unpacked b m)

theorem ofBe_bytesAt_lt (b : List UInt8) (i : Nat) : ofBe (bytesAt b i 4) < 2 ^ 32 := by
  have hlen : (bytesAt b i 4).length ≤ 4 := List.length_take_le _ _
  calc ofBe (bytesAt b i 4) < 256 ^ (bytesAt b i 4).length := ofBe_lt _
    _ ≤ 256 ^ 4 := Nat.pow_le_pow_right (by decide) hlen
    _ = 2 ^ 32 := by decide

theorem msgEnd_lt (b : List UInt8) : msgEnd b < 2 ^ 33 := by
  have hhash : hashWord b < 2 ^ 32 := ofBe_bytesAt_lt b 4
  have hsize : sizeWord b &&& 0xffff ≤ 0xffff := Nat.and_le_right
  rw [msgEnd]
  split
  · omega
  · omega

theorem wrapSub_msgEnd {b : List UInt8} {n : Nat} (h : n ≤ msgEnd b) :
    CabaMsg.wrapSub (msgEnd b) n = msgEnd b - n := by
  have hlt := msgEnd_lt b
  rw [CabaMsg.wrapSub, show msgEnd b + 2 ^ 64 - n = msgEnd b - n + 2 ^ 64 from by omega,
    Nat.add_mod_right, Nat.mod_eq_of_lt (by omega)]

include hu

/-- The size that is tested is not the size of a signature: from 66 to 109
bytes the data of the digest has a length below zero. -/
theorem isOk_verifySig (c : DsaCrypt) (key : Octets 64) :
    (m.verifySig c key).isOk ↔ msgEnd b < 66 ∨ 110 ≤ msgEnd b := by
  rw [CabaMsg.verifySig, hu.msgEnd, hu.msgOff]
  by_cases hlt : msgEnd b < 48 + 16 + 2
  · simp only [if_pos hlt]
    exact ⟨fun _ => .inl hlt, fun _ => isOk_return _⟩
  · have he := wrapSub_msgEnd (b := b) (n := 64 + 2) (by omega)
    simp only [if_neg hlt, isOk_fetch_bind, isOk_lenSub_bind, he]
    constructor
    · rintro ⟨-, -, hle, -⟩
      exact .inr (by omega)
    · intro h
      exact ⟨by omega, by omega, by omega, by omega, rfl⟩

include hf

theorem isOk_verify (kv : RaiKv) (key : Octets 64) : (m.verify kv key).isOk := by
  have hmore := hf.more
  simp only [CabaMsg.verify, isOk_fetch_bind, isOk_lenSub_bind, hu.msgEnd, hu.msgOff]
  exact ⟨by omega, by omega, by omega, by omega, rfl⟩

theorem isOk_verifyHb (kv : RaiKv) (key : Octets 64) : (m.verifyHb kv key).isOk := by
  have hmore := hf.more
  rw [CabaMsg.verifyHb, hu.msgEnd, hu.msgOff]
  by_cases hlt : msgEnd b < 48 + 16 + 2
  · simp only [if_pos hlt]
    exact isOk_return _
  · have he := wrapSub_msgEnd (b := b) (n := 16 + 2) (by omega)
    simp only [if_neg hlt, isOk_fetch_bind, isOk_lenSub_bind, he]
    exact ⟨by omega, by omega, by omega, by omega, rfl⟩

theorem isOk_getBridge (r : FldRefs) : (MsgHdrDecoder.getBridge ⟨m, r⟩).isOk := by
  have hmore := hf.more
  rw [MsgHdrDecoder.getBridge, hu.msgEnd, hu.msgOff, getBe_ok (by omega)]
  simp only [ok_bind]
  split
  · exact isOk_return _
  · rw [isOk_fetch_bind]
    exact ⟨by omega, rfl⟩

end Digest

/-! ## §5 All of the reader -/

section Harmless

/-- The message can be given to the functions of the reader. What can go wrong
is a length that none of them looks at, and a field that none of them tests. -/
structure Harmless (x : MsgLib) (tib : TibSass) (b : List UInt8) : Prop where
  /-- too short to be signed, or long enough -/
  sig : msgEnd b < 66 ∨ 110 ≤ msgEnd b
  bridge : Room b .bridge 16
  userHmac : Taken b → Room b .userHmac 16
  challenge : Handled x b [.inboxAuth] (.isOne [1, 2]) →
    (∀ f ∈ Handler.challengeFields, Present b f) →
      Room b .cnonce 16 ∧ Room b .pubkey 32 ∧ Present b .authKey ∧ Room b .authKey 64
  trusted : Handled x b [.inboxAuth] (.isOne [3]) →
    RecsRoom tib b .meshDb [.bridge] ∧ RecsRoom tib b .ucastDb [.bridge]
  bridgeNonce : Handled x b [.inboxSyncReq, .peerDel] .any ∨
      Handled x b Handler.peerAdds .any ∧ ¬ Present b .peerDb →
    Room b .session 32 ∧ (¬ Present b .session → Room b .syncBridge 16)
  peerDb : Handled x b Handler.peerAdds .any → RecsRoom tib b .peerDb [.bridge]
  peerKey : Handled x b Handler.peerAdds .notBye → ¬ Present b .peerDb →
    (∀ f ∈ Handler.peerMsgFields, Present b f) → Room b .sessKey 64 ∧ Room b .cnonce 16
  peerResult : Handled x b Handler.peerAdds .notBye → ¬ Present b .peerDb →
    Present b .session ∨ Present b .syncBridge →
      (Present b .adjacency → Present b .linkState →
        Room b .syncBridge 16 ∧ RecsRoom tib b .adjacency [.bridge, .remBridge]) ∧
      (Present b .bloom → Present b .subSeqno → Room b .syncBridge 16)
  adjacencyRequest : Handled x b [.inboxAdjReq, .inboxAdjRpy] .any → Room b .syncBridge 16
  adjacency : Handled x b [.adjacency, .inboxAdjRpy] .any → Present b .linkState →
    RecsRoom tib b .adjacency [.bridge, .remBridge]
  meshResult : Handled x b [.inboxMeshRpy] .any →
    (Present b .meshInfo → Present b .meshCsum →
      (Present b .tportid ∧ Present b .meshUrl ∧ Present b .tport) ∧ Room b .meshCsum 16) ∧
    RecsRoom tib b .meshDb [.bridge]
  heartbeat : Handled x b Handler.heartbeats .any → (∀ f ∈ Handler.heartbeatNumbers, Present b f) →
    Room b .cnonce 16 ∧ (Present b .cnonce → Room b .pubkey 32)
  csums : Handled x b Handler.heartbeats .any →
    (∀ f ∈ Handler.heartbeatFields ++ [.linkState, .subSeqno], Present b f) →
      Room b .uidCsum 16 ∧ Room b .meshCsum 16

variable {x : MsgLib} {tib : TibSass} {b : List UInt8}

theorem Comes.taken {k : Block} (h : Comes x b k) (hk : k.onError = false) : Taken b :=
  h.1.resolve_left (by rw [hk]; exact Bool.false_ne_true)

theorem Comes.present {k : Block} (h : Comes x b k) {f : MsgFid} (hk : f ∈ k.tested) :
    Present b f := h.2.1 f hk

theorem Comes.absent {k : Block} (h : Comes x b k) {f : MsgFid} (hk : f ∈ k.without) :
    ¬ Present b f := h.2.2.1 f hk

/-- A message that comes to a block has one of its types, or of more. -/
theorem Comes.handled {k : Block} (h : Comes x b k) {types : List PublishType} {st : StageTest}
    (hk : k.onError = false) (htypes : k.types ≠ []) (hsub : ∀ t ∈ k.types, t ∈ types)
    (hst : st = .any ∨ st = k.stage) : Handled x b types st := by
  obtain ⟨t, ht, htype⟩ := h.2.2.2.1.resolve_left htypes
  refine ⟨h.taken hk, ⟨t, hsub t ht, htype⟩, ?_⟩
  rcases hst with rfl | rfl
  · rfl
  · exact h.2.2.2.2

theorem Handled.mono {types types' : List PublishType} {st : StageTest}
    (h : Handled x b types st) (hsub : ∀ t ∈ types, t ∈ types') : Handled x b types' st := by
  obtain ⟨t, ht, htype⟩ := h.2.1
  exact ⟨h.1, ⟨t, hsub t ht, htype⟩, h.2.2⟩

theorem Handled.comes {k : Block} (h : Handled x b k.types k.stage)
    (ht : ∀ f ∈ k.tested, Present b f) (hw : ∀ f ∈ k.without, ¬ Present b f) : Comes x b k :=
  ⟨.inr h.1, ht, hw, .inr h.2.1, h.2.2⟩

/-- A block that uses what it tested, as it was recorded. -/
theorem blockOk_of_tested {k : Block} (h : ∀ u ∈ k.uses, ∃ f ∈ k.tested, u = .whole f) :
    BlockOk x tib b k := by
  intro hc u hu
  obtain ⟨f, hk, rfl⟩ := h u hu
  exact hc.present hk

theorem blockOk_plain {k : Block} (hk : k ∈ Handler.plain) : BlockOk x tib b k := by
  have h : ∀ k ∈ Handler.plain, ∀ u ∈ k.uses, ∃ f ∈ k.tested, u = .whole f := by
    decide
  exact blockOk_of_tested (h k hk)

/-- A copy that a block makes has room, whether the field is set or not. -/
theorem BlockOk.room {k : Block} (h : BlockOk x tib b k) (f : MsgFid) (off n : Nat)
    (hu : .copy f off n ∈ k.uses) (hc : Present b f → Comes x b k) : Room b f (off + n) := by
  intro r hr
  have hp : Present b f := Option.isSome_of_mem hr
  exact (h (hc hp) _ hu).2 r hr

theorem BlockOk.recsRoom {k : Block} {f : MsgFid} {nonces : List MsgFid} (h : BlockOk x tib b k)
    (hu : .recs f nonces ∈ k.uses) (hc : Present b f → Comes x b k) : RecsRoom tib b f nonces := by
  intro r hr
  have hp : Present b f := Option.isSome_of_mem hr
  exact (h (hc hp) _ hu).2 r hr

/-- The same for a block of a type and stage, whose tests are `ts` and that field. -/
theorem BlockOk.room_handled {k : Block} (h : BlockOk x tib b k)
    (hh : Handled x b k.types k.stage) (f : MsgFid) (off n : Nat) (hu : .copy f off n ∈ k.uses)
    (ht : ∀ g ∈ k.tested, g = f ∨ Present b g) (hw : ∀ g ∈ k.without, ¬ Present b g) :
    Room b f (off + n) := by
  refine h.room f off n hu fun hp => hh.comes (fun g hg => ?_) hw
  rcases ht g hg with rfl | hg
  · exact hp
  · exact hg

theorem BlockOk.recsRoom_handled {k : Block} {f : MsgFid} {nonces : List MsgFid}
    (h : BlockOk x tib b k) (hh : Handled x b k.types k.stage) (hu : .recs f nonces ∈ k.uses)
    (ht : ∀ g ∈ k.tested, g = f ∨ Present b g) (hw : ∀ g ∈ k.without, ¬ Present b g) :
    RecsRoom tib b f nonces := by
  refine h.recsRoom hu fun hp => hh.comes (fun g hg => ?_) hw
  rcases ht g hg with rfl | hg
  · exact hp
  · exact hg

/-- A message of one of these types is of the first of them, or of the others. -/
theorem Handled.cons_cases {t : PublishType} {types : List PublishType} {st : StageTest}
    (h : Handled x b (t :: types) st) : Handled x b [t] st ∨ Handled x b types st := by
  obtain ⟨ht, ⟨t', hmem, htype⟩, hst⟩ := h
  rcases List.mem_cons.mp hmem with rfl | hmem
  · exact .inl ⟨ht, ⟨t', List.mem_cons_self, htype⟩, hst⟩
  · exact .inr ⟨ht, ⟨t', hmem, htype⟩, hst⟩

/-- What the two blocks of a bridge nonce need. -/
theorem room_getBridgeNonce {k : Block}
    (h : ∀ j ∈ Handler.getBridgeNonce k, BlockOk x tib b j)
    (hh : Handled x b k.types k.stage) (hw : ∀ f ∈ k.without, ¬ Present b f) :
    Room b .session 32 ∧ (¬ Present b .session → Room b .syncBridge 16) := by
  simp only [Handler.getBridgeNonce, List.forall_mem_cons] at h
  constructor
  · refine h.1.room_handled hh .session 16 16 List.mem_cons_self (fun g hg => .inl ?_) hw
    exact List.mem_singleton.mp hg
  · intro hs
    refine h.2.1.room_handled hh .syncBridge 0 16 List.mem_cons_self (fun g hg => .inl ?_) ?_
    · exact List.mem_singleton.mp hg
    · exact List.forall_mem_cons.mpr ⟨hs, hw⟩

/-- What the two blocks of an adjacency result need. -/
theorem room_recvAdjacencyResult {k : Block}
    (h : ∀ j ∈ Handler.recvAdjacencyResult k, BlockOk x tib b j)
    (hh : Handled x b k.types k.stage) (ht : ∀ f ∈ k.tested, Present b f)
    (hw : ∀ f ∈ k.without, ¬ Present b f) :
    Room b .syncBridge 16 ∧
      (Present b .linkState → RecsRoom tib b .adjacency [.bridge, .remBridge]) := by
  simp only [Handler.recvAdjacencyResult, List.forall_mem_cons] at h
  constructor
  · refine h.1.room_handled hh .syncBridge 0 16 List.mem_cons_self (fun g hg => ?_) hw
    rcases List.mem_append.mp hg with hg | hg
    · exact .inr (ht g hg)
    · exact .inl (List.mem_singleton.mp hg)
  · intro hl
    refine h.2.1.recsRoom_handled hh List.mem_cons_self (fun g hg => ?_) hw
    rcases List.mem_append.mp hg with hg | hg
    · exact .inr (ht g hg)
    · rcases List.mem_cons.mp hg with rfl | hg
      · exact .inr hl
      · exact .inl (List.mem_singleton.mp hg)

theorem room_heartbeatCsum {f : MsgFid} (h : BlockOk x tib b (Handler.heartbeatCsum f))
    (hh : Handled x b Handler.heartbeats .any)
    (hp : ∀ g ∈ Handler.heartbeatFields ++ [.linkState, .subSeqno], Present b g) :
    Room b f 16 := by
  refine h.room_handled hh f 0 16 List.mem_cons_self (fun g hg => ?_) (List.forall_mem_nil _)
  rcases List.mem_append.mp (show g ∈ (Handler.heartbeatFields ++ [_, _]) ++ [f] from hg) with
    hg | hg
  · exact .inr (hp g hg)
  · exact .inl (List.mem_singleton.mp hg)

section Blocks

variable (hall : ∀ k ∈ Handler.copying, BlockOk x tib b k)
include hall

theorem bridgeNonce_of_blocks (h : Handled x b [.inboxSyncReq, .peerDel] .any ∨
      Handled x b Handler.peerAdds .any ∧ ¬ Present b .peerDb) :
    Room b .session 32 ∧ (¬ Present b .session → Room b .syncBridge 16) := by
  rcases h with h | ⟨h, hdb⟩
  · rcases h.cons_cases with h | h
    · exact room_getBridgeNonce (k := { tested := [], uses := [], types := [.inboxSyncReq] })
        (fun j hj => hall j (by revert j; decide)) h (List.forall_mem_nil _)
    · exact room_getBridgeNonce (k := { tested := [], uses := [], types := [.peerDel] })
        (fun j hj => hall j (by revert j; decide)) h (List.forall_mem_nil _)
  · exact room_getBridgeNonce
      (k := { tested := [], uses := [], without := [.peerDb], types := Handler.peerAdds })
      (fun j hj => hall j (by revert j; decide)) h (List.forall_mem_singleton.mpr hdb)

/-- The four calls of `recv_adjacency_result` at the end of `recv_peer_add`. -/
theorem peerResult_of_blocks (h : Handled x b Handler.peerAdds .notBye)
    (hdb : ¬ Present b .peerDb) {f g g' : MsgFid} (hf : f ∈ [MsgFid.session, .syncBridge])
    (hg : (g, g') ∈ [(MsgFid.adjacency, MsgFid.linkState), (.bloom, .subSeqno)])
    (pf : Present b f) (pg : Present b g) (pg' : Present b g') :
    Room b .syncBridge 16 ∧
      (Present b .linkState → RecsRoom tib b .adjacency [.bridge, .remBridge]) := by
  have hmem : ∀ f ∈ [MsgFid.session, .syncBridge],
      ∀ g ∈ [(MsgFid.adjacency, MsgFid.linkState), (.bloom, .subSeqno)],
      ∀ j ∈ Handler.recvAdjacencyResult
        { tested := [f, g.1, g.2], uses := [], without := [.peerDb], types := Handler.peerAdds,
          stage := .notBye }, j ∈ Handler.copying := by
    decide
  refine room_recvAdjacencyResult (fun j hj => hall j (hmem f hf (g, g') hg j hj)) h ?_
    (List.forall_mem_singleton.mpr hdb)
  exact List.forall_mem_cons.mpr ⟨pf, List.forall_mem_cons.mpr
    ⟨pg, List.forall_mem_singleton.mpr pg'⟩⟩

/-- The result that a request has as its reply. -/
theorem adjRpy_of_blocks (h : Handled x b [.inboxAdjRpy] .any) :
    Room b .syncBridge 16 ∧
      (Present b .linkState → RecsRoom tib b .adjacency [.bridge, .remBridge]) :=
  room_recvAdjacencyResult (k := { tested := [], uses := [], types := [.inboxAdjRpy] })
    (fun j hj => hall j (by revert j; decide)) h (List.forall_mem_nil _) (List.forall_mem_nil _)

theorem meshDb_of_blocks {types : List PublishType} {st : StageTest}
    (hk : ∀ j ∈ Handler.recvMeshDb types st, j ∈ Handler.copying) (hh : Handled x b types st) :
    RecsRoom tib b .meshDb [.bridge] :=
  (hall _ (hk _ List.mem_cons_self)).recsRoom_handled hh List.mem_cons_self
    (fun _ hg => .inl (List.mem_singleton.mp hg)) (List.forall_mem_nil _)

/-- The blocks of the handlers need no less. -/
theorem harmless_of_blocks (hsig : msgEnd b < 66 ∨ 110 ≤ msgEnd b) : Harmless x tib b where
  sig := hsig
  bridge := by
    -- also of a message that was refused
    refine (hall Handler.framePrint (by decide)).room .bridge 0 16 (by decide) fun hp => ?_
    exact ⟨.inl rfl, List.forall_mem_singleton.mpr hp, List.forall_mem_nil _, .inl rfl, rfl⟩
  userHmac ht := by
    refine (hall Handler.lookupUser (by decide)).room .userHmac 0 16 (by decide) fun hp => ?_
    exact ⟨.inr ht, List.forall_mem_singleton.mpr hp, List.forall_mem_nil _, .inl rfl, rfl⟩
  challenge hh hp := by
    have huse := hall Handler.recvChallenge (by decide) (hh.comes hp (List.forall_mem_nil _))
    have hkey := huse (.copy .authKey 0 64) (by decide)
    exact ⟨(huse (.copy .cnonce 0 16) (by decide)).2, (huse (.copy .pubkey 0 32) (by decide)).2,
      hkey.1, hkey.2⟩
  trusted hh := by
    refine ⟨meshDb_of_blocks hall (by decide) hh, ?_⟩
    have hmem : (⟨[.ucastDb], [.recs .ucastDb [.bridge]], [], [.inboxAuth], .isOne [3], false⟩ :
        Block) ∈ Handler.copying := by decide
    exact (hall _ hmem).recsRoom_handled hh List.mem_cons_self
      (fun _ hg => .inl (List.mem_singleton.mp hg)) (List.forall_mem_nil _)
  bridgeNonce := bridgeNonce_of_blocks hall
  peerDb hh := (hall Handler.recvPeerDb (by decide)).recsRoom_handled hh List.mem_cons_self
    (fun _ hg => .inl (List.mem_singleton.mp hg)) (List.forall_mem_nil _)
  peerKey hh hdb hp := by
    have hmem : ∃ k ∈ Handler.copying, k.tested = Handler.peerMsgFields ∧
        k.without = [.peerDb] ∧ k.types = Handler.peerAdds ∧ k.stage = .notBye ∧
        .copy .sessKey 0 64 ∈ k.uses ∧ .copy .cnonce 0 16 ∈ k.uses := by decide
    obtain ⟨k, hk, htested, hwithout, htypes, hstage, hsess, hnonce⟩ := hmem
    have hcomes : Comes x b k := by
      refine Handled.comes ?_ (by rwa [htested]) (by rw [hwithout]; simpa using hdb)
      rwa [htypes, hstage]
    exact ⟨(hall k hk hcomes _ hsess).2, (hall k hk hcomes _ hnonce).2⟩
  peerResult hh hdb hor := by
    have hpeer : ∃ f ∈ [MsgFid.session, .syncBridge], Present b f := by
      simpa using hor
    obtain ⟨f, hf, pf⟩ := hpeer
    refine ⟨fun ha hl => ?_, fun hb hs => ?_⟩
    · have hres := peerResult_of_blocks hall hh hdb hf List.mem_cons_self pf ha hl
      exact ⟨hres.1, hres.2 hl⟩
    · exact (peerResult_of_blocks hall hh hdb hf (List.mem_cons_of_mem _ List.mem_cons_self) pf
        hb hs).1
  adjacencyRequest hh := by
    rcases hh.cons_cases with hh | hh
    · exact (hall Handler.recvAdjacencyRequest (by decide)).room_handled hh .syncBridge 0 16
        List.mem_cons_self (fun _ hg => .inl (List.mem_singleton.mp hg)) (List.forall_mem_nil _)
    · exact (adjRpy_of_blocks hall hh).1
  adjacency hh hl := by
    rcases hh.cons_cases with hh | hh
    · refine (hall Handler.recvAdjacencyChange (by decide)).recsRoom_handled hh List.mem_cons_self
        (fun g hg => ?_) (List.forall_mem_nil _)
      rcases List.mem_cons.mp hg with rfl | hg
      · exact .inr hl
      · exact .inl (List.mem_singleton.mp hg)
    · exact (adjRpy_of_blocks hall hh).2 hl
  meshResult hh := by
    refine ⟨fun hi hc => ?_, meshDb_of_blocks hall (by decide) hh⟩
    have hmem : (⟨[.meshInfo, .meshCsum], [.whole .tportid, .whole .meshUrl, .whole .tport,
        .copy .meshCsum 0 16], [], [.inboxMeshRpy], .any, false⟩ : Block) ∈ Handler.copying := by
      decide
    have huse := hall _ hmem (hh.comes (List.forall_mem_cons.mpr
      ⟨hi, List.forall_mem_singleton.mpr hc⟩) (List.forall_mem_nil _))
    exact ⟨⟨huse (.whole .tportid) (by decide), huse (.whole .meshUrl) (by decide),
      huse (.whole .tport) (by decide)⟩, (huse (.copy .meshCsum 0 16) (by decide)).2⟩
  heartbeat hh hp := by
    have hkeys : ∀ k ∈ Handler.heartbeatKeys, BlockOk x tib b k :=
      fun k hk => hall k (by revert k; decide)
    simp only [Handler.heartbeatKeys, List.forall_mem_cons] at hkeys
    constructor
    · refine hkeys.1.room_handled hh .cnonce 0 16 List.mem_cons_self (fun g hg => ?_)
        (List.forall_mem_nil _)
      rcases List.mem_append.mp hg with hg | hg
      · exact .inr (hp g hg)
      · exact .inl (List.mem_singleton.mp hg)
    · intro hnonce
      refine hkeys.2.1.room_handled hh .pubkey 0 32 List.mem_cons_self (fun g hg => ?_)
        (List.forall_mem_nil _)
      rcases List.mem_append.mp hg with hg | hg
      · rcases List.mem_append.mp hg with hg | hg
        · exact .inr (hp g hg)
        · rw [List.mem_singleton.mp hg]
          exact .inr hnonce
      · exact .inl (List.mem_singleton.mp hg)
  csums hh hp :=
    ⟨room_heartbeatCsum (hall _ (by decide)) hh hp, room_heartbeatCsum (hall _ (by decide)) hh hp⟩

end Blocks

/-- The block of a field that is tested and copied. -/
theorem blockOk_copy {k : Block} {f : MsgFid} {off n : Nat} (hk : f ∈ k.tested)
    (hu : k.uses = [.copy f off n]) (h : Comes x b k → Room b f (off + n)) :
    BlockOk x tib b k := by
  intro hc
  rw [hu, List.forall_mem_singleton]
  exact ⟨hc.present hk, h hc⟩

theorem blockOk_recs {k : Block} {f : MsgFid} {nonces : List MsgFid} (hk : f ∈ k.tested)
    (hu : k.uses = [.recs f nonces]) (h : Comes x b k → RecsRoom tib b f nonces) :
    BlockOk x tib b k := by
  intro hc
  rw [hu, List.forall_mem_singleton]
  exact ⟨hc.present hk, h hc⟩

/-- What the two blocks of a bridge nonce need is enough for them. -/
theorem blockOk_getBridgeNonce {k : Block} (hk : k.onError = false) (htypes : k.types ≠ [])
    (h : Handled x b k.types .any → (∀ f ∈ k.without, ¬ Present b f) →
      Room b .session 32 ∧ (¬ Present b .session → Room b .syncBridge 16)) :
    ∀ j ∈ Handler.getBridgeNonce k, BlockOk x tib b j := by
  simp only [Handler.getBridgeNonce, List.forall_mem_cons]
  refine ⟨?_, ?_, List.forall_mem_nil _⟩
  · refine blockOk_copy List.mem_cons_self rfl fun hc => ?_
    exact (h (hc.handled hk htypes (fun _ ht => ht) (.inl rfl)) hc.2.2.1).1
  · refine blockOk_copy List.mem_cons_self rfl fun hc => ?_
    obtain ⟨hs, hw⟩ := List.forall_mem_cons.mp hc.2.2.1
    exact (h (hc.handled hk htypes (fun _ ht => ht) (.inl rfl)) hw).2 hs

/-- And what the two blocks of an adjacency result need. -/
theorem blockOk_recvAdjacencyResult {k : Block} (hk : k.onError = false) (htypes : k.types ≠ [])
    (h : Handled x b k.types k.stage → (∀ f ∈ k.tested, Present b f) →
      (∀ f ∈ k.without, ¬ Present b f) → Room b .syncBridge 16 ∧
        (Present b .linkState → Present b .adjacency →
          RecsRoom tib b .adjacency [.bridge, .remBridge])) :
    ∀ j ∈ Handler.recvAdjacencyResult k, BlockOk x tib b j := by
  simp only [Handler.recvAdjacencyResult, List.forall_mem_cons]
  refine ⟨?_, ?_, List.forall_mem_nil _⟩
  · refine blockOk_copy (List.mem_append_right _ List.mem_cons_self) rfl fun hc => ?_
    refine (h (hc.handled hk htypes (fun _ ht => ht) (.inr rfl)) (fun f hf => ?_) hc.2.2.1).1
    exact hc.present (List.mem_append_left _ hf)
  · refine blockOk_recs (List.mem_append_right _ (List.mem_cons_of_mem _ List.mem_cons_self)) rfl
      fun hc => ?_
    refine (h (hc.handled hk htypes (fun _ ht => ht) (.inr rfl)) (fun f hf => ?_) hc.2.2.1).2
      (hc.present (List.mem_append_right _ List.mem_cons_self))
      (hc.present (List.mem_append_right _ (List.mem_cons_of_mem _ List.mem_cons_self)))
    exact hc.present (List.mem_append_left _ hf)

theorem blockOk_heartbeatCsum {f : MsgFid} (hroom : Handled x b Handler.heartbeats .any →
    (∀ g ∈ Handler.heartbeatFields ++ [.linkState, .subSeqno], Present b g) → Room b f 16) :
    BlockOk x tib b (Handler.heartbeatCsum f) := by
  have hmem : ∀ g, g ∈ (Handler.heartbeatCsum f).tested ↔
      g ∈ Handler.heartbeatFields ++ [.linkState, .subSeqno] ∨ g = f := by
    intro g
    rw [← List.mem_singleton, ← List.mem_append, List.append_assoc]
    exact Iff.rfl
  refine blockOk_copy ((hmem f).mpr (.inr rfl)) rfl fun hc => ?_
  refine hroom (hc.handled rfl (List.cons_ne_nil _ _) (fun _ ht => ht) (.inl rfl)) fun g hg => ?_
  exact hc.present ((hmem g).mpr (.inl hg))

theorem blockOk_recvMeshDb {types : List PublishType} {st : StageTest} (htypes : types ≠ [])
    (h : Handled x b types st → RecsRoom tib b .meshDb [.bridge]) :
    ∀ k ∈ Handler.recvMeshDb types st, BlockOk x tib b k := by
  simp only [Handler.recvMeshDb, List.forall_mem_cons]
  refine ⟨blockOk_recs List.mem_cons_self rfl fun hc => ?_, ?_, List.forall_mem_nil _⟩
  · exact h (hc.handled rfl htypes (fun _ ht => ht) (.inr rfl))
  · refine blockOk_of_tested ?_
    simp

section Needed

variable (h : Harmless x tib b)
include h

theorem blockOk_recvChallenge : BlockOk x tib b Handler.recvChallenge := by
  intro hc
  have hroom := h.challenge (hc.handled rfl (by decide) (fun _ ht => ht) (.inr rfl)) hc.2.1
  simp only [Handler.recvChallenge, List.forall_mem_cons]
  exact ⟨⟨hc.present (by decide), hroom.1⟩, ⟨hc.present (by decide), hroom.2.1⟩, hroom.2.2,
    List.forall_mem_nil _⟩

theorem blockOk_recvTrusted : ∀ k ∈ Handler.recvTrusted, BlockOk x tib b k := by
  simp only [Handler.recvTrusted, Handler.recvUcastDb, List.forall_mem_append,
    List.forall_mem_cons]
  refine ⟨blockOk_recvMeshDb (by decide) fun hh => (h.trusted hh).1, ?_,
    blockOk_of_tested (by decide), List.forall_mem_nil _⟩
  refine blockOk_recs List.mem_cons_self rfl fun hc => ?_
  exact (h.trusted (hc.handled rfl (by decide) (fun _ ht => ht) (.inr rfl))).2

theorem blockOk_recvSyncRequest : ∀ k ∈ Handler.recvSyncRequest, BlockOk x tib b k := by
  refine List.forall_mem_append.mpr ⟨blockOk_getBridgeNonce rfl (by decide) fun hh _ => ?_, ?_⟩
  · exact h.bridgeNonce (.inl (hh.mono (by decide)))
  · exact fun k hk => blockOk_of_tested (by revert k; decide)

theorem blockOk_recvPeerDel : ∀ k ∈ Handler.recvPeerDel, BlockOk x tib b k := by
  refine List.forall_mem_append.mpr ⟨blockOk_getBridgeNonce rfl (by decide) fun hh _ => ?_, ?_⟩
  · exact h.bridgeNonce (.inl (hh.mono (by decide)))
  · exact fun k hk => blockOk_of_tested (by revert k; decide)

theorem blockOk_recvPeerAdd : ∀ k ∈ Handler.recvPeerAdd, BlockOk x tib b k := by
  refine List.forall_mem_append.mpr ⟨blockOk_getBridgeNonce rfl (by decide) fun hh hw => ?_, ?_⟩
  · exact h.bridgeNonce (.inr ⟨hh, hw _ List.mem_cons_self⟩)
  · exact fun k hk => blockOk_of_tested (by revert k; decide)

theorem blockOk_decodePeerMsg : ∀ k ∈ Handler.decodePeerMsg, BlockOk x tib b k := by
  simp only [Handler.decodePeerMsg, List.forall_mem_cons]
  refine ⟨?_, blockOk_of_tested (by decide), List.forall_mem_nil _⟩
  intro hc
  have hdb : ¬ Present b .peerDb := hc.absent List.mem_cons_self
  have hkey := h.peerKey (hc.handled rfl (by decide) (fun _ ht => ht) (.inr rfl)) hdb hc.2.1
  have hsession := h.bridgeNonce
    (.inr ⟨hc.handled rfl (by decide) (fun _ ht => ht) (.inl rfl), hdb⟩)
  simp only [List.forall_mem_cons]
  exact ⟨⟨hc.present (by decide), hsession.1⟩, ⟨hc.present (by decide), hkey.1⟩,
    ⟨hc.present (by decide), hkey.2⟩, hc.present (by decide), hc.present (by decide),
    hc.present (by decide), List.forall_mem_nil _⟩

theorem blockOk_recvMeshResult : ∀ k ∈ Handler.recvMeshResult, BlockOk x tib b k := by
  refine List.forall_mem_append.mpr
    ⟨?_, blockOk_recvMeshDb (by decide) fun hh => (h.meshResult hh).2⟩
  simp only [Handler.ofTypes, List.map_cons, List.forall_mem_cons]
  refine ⟨blockOk_of_tested (by decide), ?_, List.forall_mem_nil _⟩
  intro hc
  have hcsum : Present b .meshCsum := hc.present (by decide)
  have hm := (h.meshResult (hc.handled rfl (by decide) (fun _ ht => ht) (.inl rfl))).1
    (hc.present (by decide)) hcsum
  simp only [List.forall_mem_cons]
  exact ⟨hm.1.1, hm.1.2.1, hm.1.2.2, ⟨hcsum, hm.2⟩, List.forall_mem_nil _⟩

theorem blockOk_heartbeatKeys : ∀ k ∈ Handler.heartbeatKeys, BlockOk x tib b k := by
  simp only [Handler.heartbeatKeys, List.forall_mem_cons]
  refine ⟨blockOk_copy (by decide) rfl fun hc => ?_, blockOk_copy (by decide) rfl fun hc => ?_,
    List.forall_mem_nil _⟩
  · refine (h.heartbeat (hc.handled rfl (by decide) (fun _ ht => ht) (.inl rfl)) fun f hf => ?_).1
    exact hc.present (List.mem_append_left _ hf)
  · refine (h.heartbeat (hc.handled rfl (by decide) (fun _ ht => ht) (.inl rfl)) fun f hf => ?_).2
      (hc.present (by decide))
    exact hc.present (List.mem_append_left _ (List.mem_append_left _ hf))

/-- The four calls at the end of `recv_peer_add`. -/
theorem blockOk_peerResult {f : MsgFid} (hf : f ∈ [MsgFid.session, .syncBridge])
    {g : MsgFid × MsgFid} (hg : g ∈ [(MsgFid.adjacency, MsgFid.linkState), (.bloom, .subSeqno)]) :
    ∀ k ∈ Handler.recvAdjacencyResult
      { tested := [f, g.1, g.2], uses := [], without := [.peerDb], types := Handler.peerAdds,
        stage := .notBye }, BlockOk x tib b k := by
  refine blockOk_recvAdjacencyResult rfl (List.cons_ne_nil _ _) fun hh ht hw => ?_
  simp only [List.forall_mem_cons] at ht hw
  have hor : Present b .session ∨ Present b .syncBridge := by
    rcases List.mem_cons.mp hf with rfl | hf
    · exact .inl ht.1
    · rw [← List.mem_singleton.mp hf]
      exact .inr ht.1
  have hres := h.peerResult hh hw.1 hor
  refine ⟨?_, fun hl ha => (hres.1 ha hl).2⟩
  rcases List.mem_cons.mp hg with rfl | hg
  · exact (hres.1 ht.2.1 ht.2.2.1).1
  · cases List.mem_singleton.mp hg
    exact hres.2 ht.2.1 ht.2.2.1

theorem blockOk_adjacencyResults : ∀ k ∈ Handler.adjacencyResults, BlockOk x tib b k := by
  simp only [Handler.adjacencyResults, List.forall_mem_append, and_assoc]
  refine ⟨?_, blockOk_peerResult h (by decide) (g := (.adjacency, .linkState)) (by decide),
    blockOk_peerResult h (by decide) (g := (.adjacency, .linkState)) (by decide),
    blockOk_peerResult h (by decide) (g := (.bloom, .subSeqno)) (by decide),
    blockOk_peerResult h (by decide) (g := (.bloom, .subSeqno)) (by decide),
    fun k hk => blockOk_of_tested (by revert k; decide)⟩
  refine blockOk_recvAdjacencyResult rfl (by decide) fun hh _ _ => ?_
  exact ⟨h.adjacencyRequest (hh.mono (by decide)), fun hl _ => h.adjacency (hh.mono (by decide)) hl⟩

theorem blockOk_copying : ∀ k ∈ Handler.copying, BlockOk x tib b k := by
  simp only [Handler.copying, List.forall_mem_append, List.forall_mem_cons, and_assoc]
  refine ⟨?_, ?_, blockOk_recvChallenge h, List.forall_mem_nil _, blockOk_recvTrusted h,
    blockOk_recvSyncRequest h, blockOk_recvPeerDel h, blockOk_recvPeerAdd h,
    blockOk_decodePeerMsg h, ?_, List.forall_mem_nil _, blockOk_recvMeshResult h,
    blockOk_heartbeatKeys h, blockOk_heartbeatCsum fun hh hp => (h.csums hh hp).1,
    blockOk_heartbeatCsum fun hh hp => (h.csums hh hp).2, ?_, ?_, List.forall_mem_nil _,
    blockOk_adjacencyResults h⟩
  · exact blockOk_copy List.mem_cons_self rfl fun _ => h.bridge
  · exact blockOk_copy List.mem_cons_self rfl fun hc => h.userHmac (hc.taken rfl)
  · refine blockOk_recs List.mem_cons_self rfl fun hc => ?_
    exact h.peerDb (hc.handled rfl (by decide) (fun _ ht => ht) (.inl rfl))
  · refine blockOk_copy List.mem_cons_self rfl fun hc => ?_
    exact h.adjacencyRequest (hc.handled rfl (by decide) (by decide) (.inl rfl))
  · refine blockOk_recs (List.mem_cons_of_mem _ List.mem_cons_self) rfl fun hc => ?_
    exact h.adjacency (hc.handled rfl (by decide) (by decide) (.inl rfl))
      (hc.present List.mem_cons_self)

/-- They need no more. -/
theorem blockOk_all : ∀ k ∈ Handler.all, BlockOk x tib b k :=
  List.forall_mem_append.mpr ⟨fun _ hk => blockOk_plain hk, blockOk_copying h⟩

end Needed

end Harmless

section Reader

variable {kv : RaiKv} {c : DsaCrypt} {x : MsgLib} {tib : TibSass} {b : List UInt8}

theorem harmless_of_readsInside (h : ReadsInside kv c x tib b) (hf : IsFrame b) :
    Harmless x tib b := by
  obtain ⟨-, m, hm, hu⟩ | ⟨hn, -⟩ := unpack_cases b kv
  · let key : Octets 64 := ⟨List.replicate 64 0, List.length_replicate⟩
    refine harmless_of_blocks (fun k hk => ?_)
      ((isOk_verifySig hu c key).mp (h.verifySig _ _ hm key))
    exact (isOk_runBlock x tib hu hf k).mp
      (h.handlers _ _ hm _ _ (decode_eq hf hu) k (List.mem_append_right _ hk))
  · exact absurd hf hn

/-- The decoder of a message that was unpacked holds what the bytes say. -/
theorem isOk_runBlock_decoded {e : Nat} {m : CabaMsg} (hm : CabaMsg.unpack kv b = .ok (e, .ok m))
    {st : Option MsgErr} {d : MsgHdrDecoder} (hd : decodeMsg m = .ok (st, d)) {k : Block}
    (hk : BlockOk x tib b k) : (d.runBlock x tib st k).isOk := by
  obtain ⟨hf, hu⟩ := unpack_frame kv hm
  rw [decode_eq hf hu] at hd
  cases hd
  exact (isOk_runBlock x tib hu hf k).mpr hk

theorem readsInside_of_harmless (h : IsFrame b → Harmless x tib b) :
    ReadsInside kv c x tib b where
  unpack := by
    obtain ⟨-, m, hm, -⟩ | ⟨-, e, err, herr⟩ := unpack_cases b kv
    · rw [hm]
      rfl
    · rw [herr]
      rfl
  verify := by
    intro e m hm key
    obtain ⟨hf, hu⟩ := unpack_frame kv hm
    exact isOk_verify hf hu kv key
  verifyHb := by
    intro e m hm key
    obtain ⟨hf, hu⟩ := unpack_frame kv hm
    exact isOk_verifyHb hf hu kv key
  verifySig := by
    intro e m hm key
    obtain ⟨hf, hu⟩ := unpack_frame kv hm
    exact (isOk_verifySig hu c key).mpr (h hf).sig
  decode := by
    intro e m hm
    obtain ⟨hf, hu⟩ := unpack_frame kv hm
    rw [decode_eq hf hu]
    rfl
  bridge := by
    intro e m hm st d hd
    obtain ⟨hf, hu⟩ := unpack_frame kv hm
    rw [decode_eq hf hu] at hd
    cases hd
    exact isOk_getBridge hf hu _
  ival := by
    intro e m hm st d hd f
    refine isOk_runBlock_decoded hm hd (blockOk_of_tested fun u hu => ?_)
    exact ⟨f, List.mem_cons_self, List.mem_singleton.mp hu⟩
  handlers := by
    intro e m hm st d hd k hk
    exact isOk_runBlock_decoded hm hd (blockOk_all (h (unpack_frame kv hm).1) k hk)

end Reader

/-- A challenge of the first stage, on `_I.AAAAAAAAAAAAAAAAAAAAAA.auth`, with all
that `on_inbox_auth` tests, and without a key. -/
def challengeNoKey : List UInt8 :=
  -- the flags of an inbox message with the type of a challenge
  [0xb0, 16, 0, 144, 0, 0, 0, 1] ++ ([0xc4, 3] ++ List.replicate 16 7) ++
    ([0xc4, 5] ++ List.replicate 16 8) ++
    -- the subject
    ([0x47, 0, 0, 30, 95, 73, 46] ++ List.replicate 22 65 ++ [46, 97, 117, 116, 104]) ++
    -- the seqno and the stage
    [0xc1, 17, 0, 5] ++ [0xc1, 49, 0, 1] ++
    -- the nonce, the time and the seqno of the stage, and the key of the sender
    ([0xc4, 10] ++ List.replicate 16 9) ++ [0xc3, 30, 0, 0, 0, 0, 0, 0, 0, 6] ++ [0xc1, 29, 0, 5] ++
    ([0xc5, 75] ++ List.replicate 32 2)

theorem isFrame_challengeNoKey : IsFrame challengeNoKey where
  head := by decide +kernel
  ver := by decide +kernel
  inside := by decide +kernel
  more := by decide +kernel
  sub := by decide +kernel
  subject := by decide +kernel

theorem taken_challengeNoKey : Taken challengeNoKey :=
  ⟨⟨by decide +kernel, by decide +kernel⟩, by decide +kernel⟩

theorem stage_challengeNoKey (x : MsgLib) : stage x challengeNoKey = some 1 := by
  have href : refs challengeNoKey MsgFid.authStage.code = some ⟨84, 2, .mdUint⟩ := by
    decide +kernel
  rw [stage, href]
  have hone : ofBe (bytesAt challengeNoKey 84 2) % 2 ^ 32 = 1 := by
    decide +kernel
  exact congrArg some hone

/-- It goes to `on_inbox_auth`, whatever the libraries say of other messages. -/
theorem handled_challengeNoKey (x : MsgLib) :
    Handled x challengeNoKey [.inboxAuth] (.isOne [1, 2]) := by
  have hflags : flags challengeNoKey = (CabaFlags.ofType .inbox).zpath .inboxAuth := by
    decide +kernel
  have hreturn : ¬ ∃ t ∈ some PublishType.inboxAuth, t ∈ MsgLib.returns := by
    decide
  refine ⟨taken_challengeNoKey, ⟨.inboxAuth, List.mem_cons_self, ?_⟩, ?_⟩
  · rw [handledAs, MsgLib.handledAs, hflags, MsgLib.publishType_zpath,
      if_neg (fun h => hreturn h.1)]
  · rw [stage_challengeNoKey]
    rfl

end Wire

end Raims
