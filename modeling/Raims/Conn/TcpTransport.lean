import Raims.Lib.FrameStream
import Raims.Lib.Run
import Raims.Msg.ReadSafety
import Raims.Msg.RoundTrip

/-!
# Messages over tcp (`EvTcpTransport`)

The messages are appended to a stream, and the other side reads the stream in any pieces. What
it has is unpacked and dispatched, a message at a time; when the way on is stalled, the message
stays in the buffer and is dispatched again. The stream itself keeps the order and loses nothing.
-/

namespace Raims

open Bytes FrameStream

namespace Wire

/-! ## §1 What `unpack` finds -/

/-- What `process` does with the status of `unpack`: it waits for more on `BAD_BOUNDS` and closes
on the other errors. -/
def front (kv : RaiKv) (b : List UInt8) : Front :=
  match CabaMsg.unpack kv b with
  | .ok (e, .ok _) => .frame e
  | .ok (_, .error .badBounds) => .need
  | .ok (_, .error _) => .bad
  | .error _ => .bad

/-- What the subject field and the end of a message must be. -/
def BodyOk (b : List UInt8) : Prop :=
  48 < msgEnd b ∧ word b 44 = (FldTypeClass.shortString.cls ||| fidSub.toNat) ∧
    48 + sublen b ≤ msgEnd b

instance (b : List UInt8) : Decidable (BodyOk b) := inferInstanceAs (Decidable (_ ∧ _ ∧ _))

/-- The front in the order in which `unpack2` looks at it. -/
theorem front_eq (kv : RaiKv) (b : List UInt8) : front kv b =
    if b.length < 48 then .need else if (flags b).getVer ≠ cabaMsgVersion then .bad
      else if b.length < msgEnd b then .need else if BodyOk b then .frame (msgEnd b) else .bad := by
  by_cases h48 : b.length < 48
  · rw [if_pos h48, front, CabaMsg.unpack, CabaMsg.unpack2, if_pos (by omega)]
    rfl
  have hfront : front kv b = match CabaMsg.unpack2 kv b 0 b.length with
      | .ok (e, .ok _) => .frame e
      | .ok (_, .error .badBounds) => .need
      | .ok (_, .error _) => .bad
      | .error _ => .bad := rfl
  rw [hfront, CabaMsg.unpack2, if_neg (by omega), getBe_ok (by omega)]
  simp only [ok_bind]
  rw [getBe_ok (by omega)]
  simp only [ok_bind]
  rw [← sizeWord, show bytesAt b (0 + 4) 4 = bytesAt b 4 4 from rfl, ← hashWord, ← flags, ← msgEnd,
    if_neg h48]
  by_cases hver : (flags b).getVer = cabaMsgVersion
  swap
  · rw [if_pos hver, if_pos hver]
    rfl
  rw [if_neg (not_not_intro hver), if_neg (not_not_intro hver)]
  by_cases hin : b.length < msgEnd b
  · rw [if_pos hin, if_pos hin]
    rfl
  rw [if_neg (by omega), if_neg hin]
  by_cases hmore : 48 < msgEnd b
  swap
  · rw [if_pos (by omega), if_neg fun h => hmore h.1]
    rfl
  rw [if_neg (by omega), getBe_ok (by omega)]
  simp only [ok_bind]
  rw [getBe_ok (by omega)]
  simp only [ok_bind]
  rw [show ofBe (bytesAt b (0 + 44) 2) = word b 44 from rfl,
    show ofBe (bytesAt b (0 + 44 + 2) 2) = sublen b from rfl]
  by_cases hfid : word b 44 = (FldTypeClass.shortString.cls ||| fidSub.toNat)
  swap
  · rw [if_pos hfid, if_neg fun h => hfid h.2.1]
    rfl
  by_cases hsub : 48 + sublen b ≤ msgEnd b
  swap
  · rw [if_neg (not_not_intro hfid), if_pos (by omega), if_neg fun h => hsub h.2.2]
    rfl
  have hok : BodyOk b := ⟨hmore, hfid, hsub⟩
  rw [if_neg (not_not_intro hfid), if_neg (by omega), fetch_ok (by omega)]
  by_cases h0 : (if sizeWord b &&& 0xffff = 0 then 0 else hashWord b) = 0
  · rw [if_pos h0, if_pos hok]
    rfl
  · rw [if_neg h0, if_pos hok]
    rfl

/-- What is at the front of 48 bytes stays there. -/
theorem head_append {b : List UInt8} (h : 48 ≤ b.length) (c : List UInt8) :
    flags (b ++ c) = flags b ∧ msgEnd (b ++ c) = msgEnd b ∧ (BodyOk (b ++ c) ↔ BodyOk b) := by
  have hat : ∀ {i n : ℕ}, i + n ≤ 48 → bytesAt (b ++ c) i n = bytesAt b i n := fun hi =>
    bytesAt_append_left (Nat.le_trans hi h)
  have hsize : sizeWord (b ++ c) = sizeWord b := congrArg ofBe (hat (by decide))
  have hhash : hashWord (b ++ c) = hashWord b := congrArg ofBe (hat (by decide))
  have hsub : sublen (b ++ c) = sublen b := congrArg ofBe (hat (by decide))
  have hword : word (b ++ c) 44 = word b 44 := congrArg ofBe (hat (by decide))
  have hend : msgEnd (b ++ c) = msgEnd b := by rw [msgEnd, msgEnd, hsize, hhash]
  refine ⟨by rw [flags, flags, hsize], hend, ?_⟩
  rw [BodyOk, BodyOk, hend, hword, hsub]

theorem front_frame_iff {kv : RaiKv} {b : List UInt8} {n : ℕ} : front kv b = .frame n ↔
    48 ≤ b.length ∧ (flags b).getVer = cabaMsgVersion ∧ msgEnd b ≤ b.length ∧ BodyOk b ∧
      n = msgEnd b := by
  rw [front_eq]
  split_ifs with h48 hver hin hok
  · exact iff_of_false (by simp) fun h => by omega
  · exact iff_of_false (by simp) fun h => hver h.2.1
  · exact iff_of_false (by simp) fun h => by omega
  · rw [Front.frame.injEq]
    exact ⟨fun h => ⟨by omega, not_not.mp hver, by omega, hok, h.symm⟩, fun h => h.2.2.2.2.symm⟩
  · exact iff_of_false (by simp) fun h => hok h.2.2.2.1

theorem front_bad_iff {kv : RaiKv} {b : List UInt8} : front kv b = .bad ↔
    48 ≤ b.length ∧ ((flags b).getVer ≠ cabaMsgVersion ∨
      msgEnd b ≤ b.length ∧ ¬ BodyOk b) := by
  rw [front_eq]
  split_ifs with h48 hver hin hok
  · exact iff_of_false (by simp) fun h => by omega
  · exact iff_of_true rfl ⟨by omega, Or.inl hver⟩
  · exact iff_of_false (by simp) fun h => h.2.elim hver fun h => by omega
  · exact iff_of_false (by simp) fun h => h.2.elim hver fun h => h.2 hok
  · exact iff_of_true rfl ⟨by omega, Or.inr ⟨by omega, hok⟩⟩

theorem front_frame_append {kv : RaiKv} {b : List UInt8} {n : ℕ} (c : List UInt8)
    (h : front kv b = .frame n) : front kv (b ++ c) = .frame n := by
  obtain ⟨h48, hver, hin, hok, hn⟩ := front_frame_iff.mp h
  obtain ⟨hflags, hend, hbody⟩ := head_append h48 c
  refine front_frame_iff.mpr ⟨?_, by rw [hflags]; exact hver, ?_, hbody.mpr hok, by rw [hend]; exact hn⟩
  · rw [List.length_append]
    omega
  · rw [hend, List.length_append]
    omega

theorem front_bad_append {kv : RaiKv} {b : List UInt8} (c : List UInt8)
    (h : front kv b = .bad) : front kv (b ++ c) = .bad := by
  obtain ⟨h48, hbad⟩ := front_bad_iff.mp h
  obtain ⟨hflags, hend, hbody⟩ := head_append h48 c
  refine front_bad_iff.mpr ⟨?_, ?_⟩
  · rw [List.length_append]
    omega
  · rw [hflags, hend, hbody, List.length_append]
    exact hbad.imp_right fun ⟨hin, hok⟩ => ⟨by omega, hok⟩

theorem front_frame_pos {kv : RaiKv} {b : List UInt8} {n : ℕ} (h : front kv b = .frame n) :
    0 < n := by
  obtain ⟨-, -, -, hok, rfl⟩ := front_frame_iff.mp h
  exact Nat.lt_of_le_of_lt (Nat.zero_le 48) hok.1

theorem front_frame_le {kv : RaiKv} {b : List UInt8} {n : ℕ} (h : front kv b = .frame n) :
    n ≤ b.length := by
  obtain ⟨-, -, hin, -, rfl⟩ := front_frame_iff.mp h
  exact hin

/-- Messages are framed by their heads. -/
def framer (kv : RaiKv) : Framer UInt8 where
  front := front kv
  nil := rfl
  frame_pos _ _ h := front_frame_pos h
  frame_le _ _ h := front_frame_le h
  frame_append _ _ c h := front_frame_append c h
  bad_append _ c h := front_bad_append c h

end Wire

/-! ## §2 The transport -/

/-- `TCP_FLOW_GOOD`, `TCP_FLOW_BACKPRESSURE` and `TCP_FLOW_STALLED`. -/
inductive Flow
  | good
  | backpressure
  | stalled
deriving DecidableEq

/-- The receiving side: `recv` from `off` to `len`, the flags of `tcp_state`, whether
`EV_CLOSE` is set, and the calls of `dispatch_msg` with what they returned. -/
structure EvTcpTransport where
  recv : List UInt8
  bufferSize : Bool
  backpressure : Bool
  close : Bool
  msgsRecv : ℕ
  dispatched : List (List UInt8 × Flow)

namespace EvTcpTransport

variable (kv : RaiKv)

def start : EvTcpTransport := ⟨[], false, false, false, 0, []⟩

/-- `dispatch_msg` of the first `n` bytes returned `flow`. -/
def dispatchMsg (t : EvTcpTransport) (n : ℕ) (flow : Flow) : EvTcpTransport :=
  let t := { t with dispatched := t.dispatched ++ [(t.recv.take n, flow)] }
  match flow with
  | .good => { t with backpressure := false, recv := t.recv.drop n, msgsRecv := t.msgsRecv + 1 }
  | .backpressure =>
    { t with backpressure := true, recv := t.recv.drop n, msgsRecv := t.msgsRecv + 1 }
  | .stalled => { t with backpressure := true }

/-- The loop of `process`; `flow i` is what call `i` of `dispatch_msg` returns. -/
def processLoop (flow : ℕ → Flow) : ℕ → EvTcpTransport → EvTcpTransport
  | 0, t => t
  | fuel + 1, t =>
    if t.recv = [] then t
    else match Wire.front kv t.recv with
      | .need => t
      | .bad => { t with close := true }
      | .frame n =>
        let f := flow t.dispatched.length
        if f = .stalled then t.dispatchMsg n f else processLoop flow fuel (t.dispatchMsg n f)

def process (recvHighwater : ℕ) (flow : ℕ → Flow) (t : EvTcpTransport) : EvTcpTransport :=
  processLoop kv flow t.recv.length { t with bufferSize := recvHighwater < t.recv.length }

/-- The messages that were passed on. -/
def passedOn (d : List (List UInt8 × Flow)) : List (List UInt8) :=
  (d.filter fun x => x.2 ≠ .stalled).map Prod.fst

def passed (t : EvTcpTransport) : List (List UInt8) := passedOn t.dispatched

/-- Every call of `dispatch_msg` is of the first message that was not passed on before. -/
def InTurn (msgs : List (List UInt8)) (d : List (List UInt8 × Flow)) : Prop :=
  ∀ d₁ x d₂, d = d₁ ++ x :: d₂ → msgs[(passedOn d₁).length]? = some x.1

/-! ## §3 What a transport has of the stream -/

/-- The transport, and what it read. -/
structure Inv (b : List UInt8) (t : EvTcpTransport) : Prop where
  parse : (Wire.framer kv).parse b = ((Wire.framer kv).parse t.recv).prepend t.passed
  close : t.close = true → Wire.front kv t.recv = .bad
  msgsRecv : t.msgsRecv = t.passed.length
  inTurn : InTurn ((Wire.framer kv).parse b).frames t.dispatched

variable {kv} {b : List UInt8} {t : EvTcpTransport}

theorem inv_start : Inv kv [] start where
  parse := rfl
  close h := absurd h Bool.false_ne_true
  msgsRecv := rfl
  inTurn d₁ x d₂ h := absurd h (by simp [start])

theorem dispatched_dispatchMsg (t : EvTcpTransport) (n : ℕ) (flow : Flow) :
    (t.dispatchMsg n flow).dispatched = t.dispatched ++ [(t.recv.take n, flow)] := by
  cases flow <;> rfl

theorem passed_dispatchMsg (t : EvTcpTransport) (n : ℕ) (flow : Flow) :
    (t.dispatchMsg n flow).passed =
      t.passed ++ if flow = .stalled then [] else [t.recv.take n] := by
  rw [passed, dispatched_dispatchMsg, passedOn, List.filter_append, List.map_append]
  cases flow <;> rfl

theorem recv_dispatchMsg {n : ℕ} {flow : Flow} (h : flow ≠ .stalled) :
    (t.dispatchMsg n flow).recv = t.recv.drop n := by
  cases flow with
  | good | backpressure => rfl
  | stalled => exact absurd rfl h

theorem InTurn.mono {msgs msgs' : List (List UInt8)} {d : List (List UInt8 × Flow)}
    (h : InTurn msgs d) (hmsgs : msgs <+: msgs') : InTurn msgs' d := by
  intro d₁ x d₂ hd
  have hx := h d₁ x d₂ hd
  obtain ⟨rest, rfl⟩ := hmsgs
  have hlt := (List.getElem?_eq_some_iff.mp hx).1
  rw [List.getElem?_append_left hlt]
  exact hx

theorem InTurn.concat {msgs : List (List UInt8)} {d : List (List UInt8 × Flow)}
    {x : List UInt8 × Flow} (h : InTurn msgs d) (hx : msgs[(passedOn d).length]? = some x.1) :
    InTurn msgs (d ++ [x]) := by
  intro d₁ y d₂ hd
  rcases List.eq_nil_or_concat d₂ with rfl | ⟨d₂, z, rfl⟩
  · obtain ⟨rfl, hxy⟩ := List.append_inj' hd rfl
    obtain rfl := List.singleton_inj.mp hxy
    exact hx
  · rw [List.concat_eq_append, ← List.cons_append, ← List.append_assoc] at hd
    exact h d₁ y d₂ (List.append_inj' hd rfl).1

theorem Inv.dispatchMsg (h : Inv kv b t) {n : ℕ} (hn : Wire.front kv t.recv = .frame n)
    (flow : Flow) : Inv kv b (t.dispatchMsg n flow) := by
  have hclose : (t.dispatchMsg n flow).close = t.close := by
    cases flow <;> rfl
  have hopen : t.close ≠ true := by
    intro hc
    rw [h.close hc] at hn
    cases hn
  have hfirst : (Wire.framer kv).parse t.recv =
      ((Wire.framer kv).parse (t.recv.drop n)).prepend [t.recv.take n] := Framer.parse_frame hn
  have hpassed := passed_dispatchMsg t n flow
  constructor
  · rw [h.parse, hpassed, Parsed.prepend_append]
    by_cases hflow : flow = .stalled
    · subst hflow
      rfl
    · rw [if_neg hflow, recv_dispatchMsg hflow, hfirst]
  · rw [hclose]
    exact fun hc => absurd hc hopen
  · rw [hpassed, List.length_append, ← h.msgsRecv]
    cases flow <;> rfl
  · rw [dispatched_dispatchMsg]
    apply h.inTurn.concat
    rw [h.parse, hfirst]
    show (t.passed ++ ([t.recv.take n] ++ _))[t.passed.length]? = _
    rw [List.getElem?_append_right (Nat.le_refl _), Nat.sub_self]
    rfl

theorem Inv.processLoop (flow : ℕ → Flow) (fuel : ℕ) (h : Inv kv b t) :
    Inv kv b (processLoop kv flow fuel t) := by
  induction fuel generalizing t with
  | zero => exact h
  | succ fuel ih =>
    rw [EvTcpTransport.processLoop]
    split_ifs
    · exact h
    · cases hf : Wire.front kv t.recv with
      | need => exact h
      | bad => exact ⟨h.parse, fun _ => hf, h.msgsRecv, h.inTurn⟩
      | frame n =>
        dsimp only
        split_ifs
        · exact h.dispatchMsg hf _
        · exact ih (h.dispatchMsg hf _)

theorem Inv.process (h : Inv kv b t) (recvHighwater : ℕ) (flow : ℕ → Flow) :
    Inv kv b (t.process kv recvHighwater flow) :=
  Inv.processLoop flow _ ⟨h.parse, h.close, h.msgsRecv, h.inTurn⟩

theorem Inv.read (h : Inv kv b t) (hopen : t.close = false) (chunk : List UInt8) :
    Inv kv (b ++ chunk) { t with recv := t.recv ++ chunk } where
  parse := Framer.parse_append_left h.parse chunk
  close hc := absurd (hopen.symm.trans hc) Bool.false_ne_true
  msgsRecv := h.msgsRecv
  inTurn := h.inTurn.mono (Framer.frames_append b chunk)

/-- The loop ends where there is no message, unless one is stalled. -/
theorem front_processLoop {flow : ℕ → Flow} (hflow : ∀ i, flow i ≠ .stalled) (fuel : ℕ)
    (hfuel : t.recv.length ≤ fuel) (n : ℕ) :
    Wire.front kv (processLoop kv flow fuel t).recv ≠ .frame n := by
  induction fuel generalizing t with
  | zero =>
    intro hn
    have hn : Wire.front kv t.recv = .frame n := hn
    rw [List.eq_nil_of_length_eq_zero (Nat.le_zero.mp hfuel)] at hn
    cases hn
  | succ fuel ih =>
    rw [EvTcpTransport.processLoop]
    split_ifs with hrecv
    · rw [hrecv]
      exact Front.noConfusion
    · cases hf : Wire.front kv t.recv with
      | need =>
        show Wire.front kv t.recv ≠ _
        rw [hf]
        exact Front.noConfusion
      | bad =>
        show Wire.front kv t.recv ≠ _
        rw [hf]
        exact Front.noConfusion
      | frame k =>
        have hpos := Wire.front_frame_pos hf
        dsimp only
        rw [if_neg (hflow _)]
        apply ih
        rw [recv_dispatchMsg (hflow _), List.length_drop]
        omega

theorem front_process (recvHighwater : ℕ) {flow : ℕ → Flow} (hflow : ∀ i, flow i ≠ .stalled)
    (n : ℕ) : Wire.front kv (t.process kv recvHighwater flow).recv ≠ .frame n :=
  front_processLoop (t := { t with bufferSize := recvHighwater < t.recv.length }) hflow
    t.recv.length (Nat.le_refl _) n

end EvTcpTransport

/-! ## §4 A connection -/

/-- What `fwd_msg` sends: a message, or the head of one and the data behind it. -/
inductive MsgPublish
  | message (msg : List UInt8)
  | fragment (msg trail : List UInt8)
deriving DecidableEq

namespace MsgPublish

def bytes : MsgPublish → List UInt8
  | message msg => msg
  | fragment msg trail => msg ++ (trail ++ padding trail.length)

/-- `unpack` takes all of it, as it does when the message came from another transport. -/
def Readable (kv : RaiKv) (pub : MsgPublish) : Prop :=
  ∃ m, CabaMsg.unpack kv pub.bytes = .ok (pub.bytes.length, .ok m)

/-- What is published of a text, in one buffer or with its data behind it. -/
def ofText (kv : RaiKv) (mem : ℕ → UInt8) (key : Octets 64) (t : MsgText) : MsgForm → MsgPublish
  | .inline => message (t.inline kv mem key)
  | .frag trail =>
    let h := kv.crcC t.subject
    let m := (t.opened mem).dataFrag trail.length
    let m := match t.closing with
      | .path => m.closeFrag trail.length h t.flags
      | .zpath u => m.closeZpathFrag trail.length h t.flags u
    fragment (m.signFrag kv t.subject trail key).buf trail

theorem Readable.front {kv : RaiKv} {pub : MsgPublish} (h : pub.Readable kv) :
    Wire.front kv pub.bytes = .frame pub.bytes.length := by
  obtain ⟨m, hm⟩ := h
  rw [Wire.front, hm]

variable (kv : RaiKv) (mem : ℕ → UInt8) (key : Octets 64) {t : MsgText}

theorem bytes_ofText (t : MsgText) (form : MsgForm) :
    (ofText kv mem key t form).bytes = t.written kv mem key form := by
  cases form <;> rfl

/-- What is made in this program is taken as a whole. -/
theorem readable_ofText {form : MsgForm} (hfit : (t.whole form).Fits)
    (hne : (t.whole form).subject ≠ [] ∨ (t.whole form).fields ≠ []) :
    (ofText kv mem key t form).Readable kv := by
  have hbytes : (ofText kv mem key t form).bytes = signedBytes kv key (t.whole form).caba
      (t.whole form).bridge (t.whole form).subject (t.whole form).body := by
    rw [bytes_ofText]
    cases form with
    | inline => exact MsgText.inline_eq kv mem t key hfit.subject hfit.size
    | frag trail =>
      have htrail : trail.length < 2 ^ 32 := hfit.fields (.o fidData trail) (by
        rw [MsgText.whole, MsgText.withData]
        exact List.mem_append_right _ List.mem_cons_self)
      exact MsgText.frag_eq kv mem t key trail hfit.subject htrail hfit.size
  obtain ⟨m, d, hun, -⟩ := MsgText.readsAs_signed kv key hfit hne []
  rw [List.append_nil] at hun
  rw [← hbytes] at hun
  exact ⟨m, hun⟩

end MsgPublish

/-- One direction of a connection: what was sent, what of it is not read yet, and the
transport that reads. -/
structure TcpConn where
  sent : List MsgPublish
  msgsSent : ℕ
  stream : List UInt8
  peer : EvTcpTransport

namespace TcpConn

/-- `ownRoute`: the message came from this transport; `n`: so many bytes arrive at once. -/
inductive Act
  | onMsg (ownRoute : Bool) (pub : MsgPublish)
  | read (n : ℕ)
  | process (flow : ℕ → Flow)

def start : TcpConn := ⟨[], 0, [], .start⟩

def fwdMsg (c : TcpConn) (pub : MsgPublish) : TcpConn :=
  { c with sent := c.sent ++ [pub], stream := c.stream ++ pub.bytes, msgsSent := c.msgsSent + 1 }

def onMsg (c : TcpConn) (ownRoute : Bool) (pub : MsgPublish) : TcpConn :=
  if ownRoute then c else c.fwdMsg pub

/-- Nothing is read or processed once `EV_CLOSE` is set. -/
def step (kv : RaiKv) (recvHighwater : ℕ) (c : TcpConn) : Act → TcpConn
  | .onMsg ownRoute pub => c.onMsg ownRoute pub
  | .read n =>
    if c.peer.close then c
    else { c with
      stream := c.stream.drop n
      peer := { c.peer with recv := c.peer.recv ++ c.stream.take n } }
  | .process flow =>
    if c.peer.close then c else { c with peer := c.peer.process kv recvHighwater flow }

def Ok (kv : RaiKv) (_ : TcpConn) : Act → Prop
  | .onMsg _ pub => pub.Readable kv
  | .read _ => True
  | .process _ => True

variable (kv : RaiKv)

def msgs (c : TcpConn) : List (List UInt8) := c.sent.map MsgPublish.bytes

structure Inv (c : TcpConn) : Prop where
  frames : ∀ m ∈ c.msgs, Wire.front kv m = .frame m.length
  msgsSent : c.msgsSent = c.sent.length
  peer : ∃ b, b ++ c.stream = c.msgs.flatten ∧ c.peer.Inv kv b

variable {kv} {recvHighwater : ℕ} {c : TcpConn}

theorem Inv.fwdMsg (h : Inv kv c) {pub : MsgPublish} (hpub : pub.Readable kv) :
    Inv kv (c.fwdMsg pub) := by
  have hmsgs : (c.fwdMsg pub).msgs = c.msgs ++ [pub.bytes] := List.map_append
  obtain ⟨b, hb, hpeer⟩ := h.peer
  constructor
  · rw [hmsgs]
    intro m hm
    rcases List.mem_append.mp hm with hm | hm
    · exact h.frames m hm
    · obtain rfl := List.mem_singleton.mp hm
      exact hpub.front
  · show c.msgsSent + 1 = _
    rw [h.msgsSent, TcpConn.fwdMsg, List.length_append]
    rfl
  · refine ⟨b, ?_, hpeer⟩
    rw [hmsgs, List.flatten_append, ← hb, List.append_assoc, List.flatten_singleton]
    rfl

theorem Inv.step (h : Inv kv c) (a : Act) (hok : Ok kv c a) :
    Inv kv (c.step kv recvHighwater a) := by
  obtain ⟨b, hb, hpeer⟩ := h.peer
  cases a with
  | onMsg ownRoute pub =>
    cases ownRoute with
    | true => exact h
    | false => exact h.fwdMsg hok
  | read n =>
    rw [TcpConn.step]
    split_ifs with hclose
    · exact h
    · refine ⟨h.frames, h.msgsSent, b ++ c.stream.take n, ?_, ?_⟩
      · rw [List.append_assoc, List.take_append_drop]
        exact hb
      · exact hpeer.read (Bool.not_eq_true _ ▸ hclose) _
  | process flow =>
    rw [TcpConn.step]
    split_ifs
    · exact h
    · exact ⟨h.frames, h.msgsSent, b, hb, hpeer.process recvHighwater flow⟩

theorem inv_start : Inv kv start where
  frames _ hm := absurd hm List.not_mem_nil
  msgsSent := rfl
  peer := ⟨[], rfl, EvTcpTransport.inv_start⟩

theorem Inv.of_reach (h : Run.Reach (TcpConn.step kv recvHighwater) (Ok kv) start c) :
    Inv kv c :=
  h.invariant inv_start fun _ a hc hok => hc.step a hok

/-- What was passed on, and the bytes that are left, are those of the messages. -/
theorem Inv.passed (h : Inv kv c) :
    c.peer.passed <+: c.msgs ∧ c.peer.close = false ∧
      EvTcpTransport.InTurn c.msgs c.peer.dispatched := by
  obtain ⟨b, hb, hpeer⟩ := h.peer
  have hinitial : b <+: c.msgs.flatten := ⟨c.stream, hb⟩
  obtain ⟨hbad, hframes⟩ := Framer.parse_initial (F := Wire.framer kv) h.frames hinitial
  refine ⟨?_, ?_, hpeer.inTurn.mono hframes⟩
  · refine List.IsPrefix.trans ?_ hframes
    rw [hpeer.parse]
    exact List.prefix_append _ _
  · by_contra hc
    rw [Bool.not_eq_false] at hc
    have hparse : (Wire.framer kv).parse c.peer.recv = ⟨[], c.peer.recv, true⟩ :=
      Framer.parse_bad (hpeer.close hc)
    rw [hpeer.parse, hparse] at hbad
    cases hbad

/-- Once everything was read, a pass in which nothing is stalled has the rest of the messages. -/
theorem Inv.passed_all (h : Inv kv c) (hstream : c.stream = []) {flow : ℕ → Flow}
    (hflow : ∀ i, flow i ≠ .stalled) :
    (c.step kv recvHighwater (.process flow)).peer.passed = c.msgs ∧
      (c.step kv recvHighwater (.process flow)).peer.recv = [] := by
  have hstep : c.step kv recvHighwater (.process flow) =
      { c with peer := c.peer.process kv recvHighwater flow } := by
    rw [TcpConn.step, h.passed.2.1, if_neg Bool.false_ne_true]
  obtain ⟨b, hb, hpeer⟩ := h.peer
  rw [hstream, List.append_nil] at hb
  have hall : (Wire.framer kv).parse b = ⟨c.msgs, [], false⟩ := by
    rw [hb]
    exact Framer.parse_flatten h.frames
  have hafter := (hpeer.process recvHighwater flow).parse
  rw [hall] at hafter
  rw [hstep]
  set t := c.peer.process kv recvHighwater flow with ht
  show t.passed = _ ∧ t.recv = _
  cases hf : Wire.front kv t.recv with
  | need =>
    rw [Framer.parse_need hf] at hafter
    have hframes : c.msgs = t.passed ++ [] := congrArg Parsed.frames hafter
    exact ⟨by rw [hframes, List.append_nil], (congrArg Parsed.rest hafter).symm⟩
  | bad =>
    rw [Framer.parse_bad hf] at hafter
    cases congrArg Parsed.bad hafter
  | frame n => exact absurd hf (EvTcpTransport.front_process recvHighwater hflow n)

/-- Whatever the pieces, the order of reading and processing and the answers of the dispatch:
the messages are dispatched in the order they were sent, each as it was sent, the next one only
when the one before was passed on, and none is lost. -/
theorem tcp_in_order (kv : RaiKv) (recvHighwater : ℕ) {c : TcpConn}
    (h : Run.Reach (step kv recvHighwater) (Ok kv) start c) :
    c.peer.passed <+: c.msgs ∧ EvTcpTransport.InTurn c.msgs c.peer.dispatched ∧
      c.peer.close = false ∧ c.msgsSent = c.sent.length ∧
      c.peer.msgsRecv = c.peer.passed.length ∧
      (c.stream = [] → ∀ flow : ℕ → Flow, (∀ i, flow i ≠ .stalled) →
        (c.step kv recvHighwater (.process flow)).peer.passed = c.msgs ∧
          (c.step kv recvHighwater (.process flow)).peer.recv = []) := by
  have hinv := Inv.of_reach h
  obtain ⟨hpassed, hclose, hturn⟩ := hinv.passed
  obtain ⟨b, -, hpeer⟩ := hinv.peer
  refine ⟨hpassed, hturn, hclose, hinv.msgsSent, hpeer.msgsRecv, ?_⟩
  intro hstream flow hflow
  exact hinv.passed_all hstream hflow

/-- Two messages, the second with its data behind it, and one that came over this connection. -/
def samplePub (form : MsgForm) : MsgPublish :=
  .ofText sampleKv (fun _ => 85) (octets 64 9) sampleText form

/-- The reads end inside a head and inside a body, and the way on is stalled once. -/
def sampleActs : List Act :=
  [.onMsg false (samplePub .inline), .onMsg true (samplePub .inline), .read 21,
    .process fun _ => .good, .onMsg false (samplePub (.frag [1, 2, 3])), .read 60,
    .process fun i => if i = 0 then .stalled else .good, .process fun _ => .good, .read 70]

def sampleConn : TcpConn := sampleActs.foldl (step sampleKv 64) start

theorem samplePub_readable (form : MsgForm) (h : form = .inline ∨ form = .frag [1, 2, 3]) :
    (samplePub form).Readable sampleKv := by
  apply MsgPublish.readable_ofText
  · rcases h with rfl | rfl
    · refine ⟨by decide, ?_, by decide⟩
      intro f hf
      simp only [MsgText.whole, sampleText, List.mem_cons, List.not_mem_nil, or_false] at hf
      rcases hf with rfl | rfl | rfl <;> trivial
    · refine ⟨by decide, ?_, by decide⟩
      intro f hf
      simp only [MsgText.whole, MsgText.withData, sampleText, List.mem_append, List.mem_cons,
        List.not_mem_nil, or_false] at hf
      rcases hf with (rfl | rfl | rfl) | rfl
      · trivial
      · trivial
      · trivial
      · show ([1, 2, 3] : List UInt8).length < 2 ^ 32
        decide
  · left
    rcases h with rfl | rfl <;> decide

theorem sampleConn_reach : Run.Reach (step sampleKv 64) (Ok sampleKv) start sampleConn := by
  apply Run.Reach.start.foldl
  have hfirst := samplePub_readable .inline (Or.inl rfl)
  have hsecond := samplePub_readable (.frag [1, 2, 3]) (Or.inr rfl)
  exact ⟨hfirst, hfirst, trivial, trivial, hsecond, trivial, trivial, trivial, trivial, trivial⟩

theorem tcp_in_order_sample :
    sampleConn.peer.dispatched = [((samplePub .inline).bytes, .stalled),
        ((samplePub .inline).bytes, .good)] ∧ sampleConn.stream = [] ∧
      sampleConn.peer.passed <+: sampleConn.msgs ∧
      EvTcpTransport.InTurn sampleConn.msgs sampleConn.peer.dispatched ∧
      (sampleConn.step sampleKv 64 (.process fun _ => .backpressure)).peer.passed =
        [(samplePub .inline).bytes, (samplePub (.frag [1, 2, 3])).bytes] := by
  have hstream : sampleConn.stream = [] := by
    decide +kernel
  obtain ⟨hpassed, hturn, -, -, -, hall⟩ := tcp_in_order sampleKv 64 sampleConn_reach
  refine ⟨by decide +kernel, hstream, hpassed, hturn, ?_⟩
  have hflow : ∀ i : ℕ, (fun _ => Flow.backpressure) i ≠ Flow.stalled := by
    intro i
    exact Flow.noConfusion
  have hsent : sampleConn.sent = [samplePub .inline, samplePub (.frag [1, 2, 3])] := by
    decide +kernel
  rw [(hall hstream _ hflow).1, msgs, hsent, List.map_cons, List.map_cons, List.map_nil]

end TcpConn

end Raims
