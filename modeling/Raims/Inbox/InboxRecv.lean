import Raims.Sub.MatchSeqno
import Raims.Msg.PublishType
import Raims.Lib.Run

/-!
# Messages to the inbox (`SessionMgr::on_msg`, `dispatch_console`)

The messages that a peer sends to the inbox of this node count by path, or by type
if they have no path. A message at or below the number that is recorded is a replay.
A return message, which has a number for its subject, sets what is recorded to its
own number, whatever that is, and an auth message is never taken for a replay.
-/

namespace Raims

/-! ## The model -/

deriving instance DecidableEq for MsgFramePublish

/-- A message to the inbox, with what `decode_msg` and the flags say of it. -/
structure InboxMsg where
  pub : MsgFramePublish
  /-- `get_path`, which is 0 with `CABA_OPT_ZPATH` -/
  path : UInt8
  /-- `get_ztype` -/
  ztype : PublishType
  /-- `CABA_OPT_ANY` -/
  optAny : Bool
  /-- `FID_SUBJECT` -/
  fidSubject : Option Subject
deriving DecidableEq

namespace InboxMsg

/-- The value of a character as a digit, also if it is none. -/
def digit (c : UInt8) : UInt32 := (if c < 128 then c.toUInt32 else c.toUInt32 - 256) - 48

/-- The digits of a number from the last one back to a dot. -/
def digits (ret n : UInt32) : List UInt8 → UInt32
  | [] => ret
  | c :: rest => if c = 46 then ret else digits (ret + digit c * (n * 10)) (n * 10) rest

variable (m : InboxMsg)

/-- The type that `parse_msg_hdr` gives the message. -/
def type : PublishType :=
  if m.path = 0 then m.ztype else if m.optAny then .inbox else .mcastSubject

/-- `inbox_ret`, the number of a subject that ends with a digit. -/
def inboxRet : UInt32 :=
  match m.pub.subject.reverse with
  | [] => 0
  | c :: rest => if 48 ≤ c ∧ c ≤ 57 then digits (digit c) 1 rest else 0

end InboxMsg

/-- What counts in `InboxRecvSeqno`: a path, or a type without a path. -/
inductive RecvPath where
  | path (pathSelect : UInt8)
  | zpath (type : PublishType)
deriving DecidableEq

/-- The constants and functions of raikv, and the prefix of this node. -/
structure InboxKv where
  seqno : SeqnoKv
  sub : Kv
  /-- `kv_hash_uint` -/
  hashUint : UInt32 → UInt32
  /-- the length of `_I.Nonce.` -/
  ibxLen : ℕ

/-- A node, as far as it receives from the inbox. -/
structure InboxNode where
  node : SubNode
  /-- `inbox_tab`: the callbacks of the numbers that wait for a return -/
  inboxTab : RouteVec (Option ℕ)
  /-- `n.inbox_recv` of the peer -/
  recv : RecvPath → UInt64

/-- `match_any_sub`: the callback of the subject, or of the first pattern that
matches it. -/
def SubDB.matchAnySub (kv : SeqnoKv) (subKv : Kv) (db : SubDB) (sub : Subject) : Option ℕ :=
  match db.subTab.lookup ⟨subKv.subjectHash sub, sub⟩ with
  | some rt => rt.onData
  | none =>
    ((List.range (sub.length + 1)).filter fun i => db.bloom.prefCount i ≠ 0).findSome? (fun i =>
      (db.patTab.tab.entries.find? fun e =>
        e.1.hash = subKv.prefixHash sub i && kv.patMatch e.1.value e.2 sub).map
          fun e => e.2.onData) |>.join

/-- The ways of a message in `on_msg`. -/
inductive InboxBranch where
  /-- `on_inbox_auth` -/
  | auth
  /-- the messages that are dispatched in order -/
  | ordered
  /-- `dispatch_console` with a return -/
  | ret
  /-- `dispatch_console` by the subject -/
  | subject
  /-- not a message to an inbox -/
  | other
deriving DecidableEq

namespace InboxNode

variable (kv : InboxKv) (s : InboxNode) (m : InboxMsg)

/-- `next_path_recv`. -/
def recvPath : RecvPath := if m.path ≠ 0 then .path m.path else .zpath m.type

/-- Where `on_msg` sends a message of the type. -/
def branch : InboxBranch :=
  match m.type with
  | .inboxAuth => .auth
  | .inboxPing | .inboxPong | .inboxSync | .inboxSubs | .inboxRem | .inboxResub | .inboxRepsub
  | .inboxAddRte | .inboxSyncReq | .inboxSyncRpy | .inboxBloomReq | .inboxBloomRpy
  | .inboxAdjReq | .inboxAdjRpy | .inboxMeshReq | .inboxMeshRpy | .inboxUcastReq | .inboxUcastRpy
  | .inbox | .inboxAnyRte | .inboxLoss | .inboxConsole =>
    if m.inboxRet ≠ 0 then .ret else .ordered
  | .normal | .inboxTrace | .inboxAck | .mcastSubject =>
    if m.inboxRet ≠ 0 then .ret else .subject
  | _ => .other

def setRecv (path : RecvPath) (seqno : UInt64) : InboxNode :=
  { s with recv := Function.update s.recv path seqno }

/-- The callback of a return. -/
def returnCb : Option ℕ :=
  if m.type ≠ .inbox then
    (s.inboxTab.lookup ⟨kv.hashUint m.inboxRet, m.pub.subject.drop kv.ibxLen⟩).join
  else m.fidSubject.bind (s.node.db.matchAnySub kv.seqno kv.sub)

/-- `on_msg` for a message that is verified, and whether it is dispatched. -/
def onMsg (stamp : UInt64) : InboxNode × Bool :=
  match branch m with
  -- `max_path_recv`, and `on_inbox_auth` in any case
  | .auth =>
    let path := RecvPath.zpath .inboxAuth
    (if s.recv path < m.pub.seqno then s.setRecv path m.pub.seqno else s, true)
  | .ordered =>
    if s.recv (recvPath m) < m.pub.seqno then (s.setRecv (recvPath m) m.pub.seqno, true)
    else (s, false)
  | .ret => (s.setRecv (recvPath m) m.pub.seqno, (s.returnCb kv m).isSome)
  | .subject =>
    let r := s.node.recv kv.seqno m.pub stamp
    ({ s with node := { s.node with seqnoTab := r.seqnoTab } },
      r.status.accepted && r.ctx.cb.isSome)
  | .other => (s, false)

end InboxNode

/-! ## Runs -/

/-- A node with the messages that it dispatched, the last one first. -/
structure InboxRun where
  node : InboxNode
  dispatched : List InboxMsg

namespace InboxRun

open InboxNode

/-- Messages, what the window does besides, and the numbers that wait for a return. -/
inductive Event where
  | msg (m : InboxMsg) (stamp : UInt64)
  | window (e : SubNode.Event)
  | inboxTab (tab : RouteVec (Option ℕ))

def step (kv : InboxKv) (r : InboxRun) : Event → InboxRun
  | .msg m stamp =>
    let q := r.node.onMsg kv m stamp
    ⟨q.1, if q.2 then m :: r.dispatched else r.dispatched⟩
  | .window e => { r with node := { r.node with node := r.node.node.step kv.seqno kv.sub e } }
  | .inboxTab tab => { r with node := { r.node with inboxTab := tab } }

/-- A return is numbered above what is recorded. An auth message that was dispatched does
not come again; a message that is matched by its subject may, if the window is past it. -/
def UnrepeatedMsg (kv : InboxKv) (r : InboxRun) (m : InboxMsg) (stamp : UInt64) :
    InboxBranch → Prop
  | .ret => r.node.recv (recvPath m) < m.pub.seqno
  | .auth => m ∉ r.dispatched
  | .subject => m ∈ r.dispatched → r.node.node.Past kv.seqno m.pub stamp
  | .ordered | .other => True

instance (kv : InboxKv) (r : InboxRun) (m : InboxMsg) (stamp : UInt64) :
    (b : InboxBranch) → Decidable (r.UnrepeatedMsg kv m stamp b)
  | .ret => inferInstanceAs (Decidable (_ < _))
  | .auth => inferInstanceAs (Decidable (m ∉ r.dispatched))
  | .subject => inferInstanceAs (Decidable (_ → _))
  | .ordered | .other => instDecidableTrue

def Unrepeated (kv : InboxKv) (r : InboxRun) : Event → Prop
  | .msg m stamp => r.UnrepeatedMsg kv m stamp (branch m)
  | .window _ => True
  | .inboxTab _ => True

instance (kv : InboxKv) (r : InboxRun) : (e : Event) → Decidable (r.Unrepeated kv e)
  | .msg m stamp => inferInstanceAs (Decidable (r.UnrepeatedMsg kv m stamp (branch m)))
  | .window _ => instDecidableTrue
  | .inboxTab _ => instDecidableTrue

/-- A message that is checked against the record. -/
def Counted (m : InboxMsg) : Prop := branch m = .ret ∨ branch m = .ordered

/-- The counted messages that were dispatched are not above what is recorded. -/
structure Inv (r : InboxRun) : Prop where
  recorded : ∀ m ∈ r.dispatched, Counted m → m.pub.seqno ≤ r.node.recv (recvPath m)
  nodup : r.dispatched.Nodup

section

variable {kv : InboxKv} {r : InboxRun} {m : InboxMsg} {stamp : UInt64}

theorem le_setRecv {s : InboxNode} {path : RecvPath} {seqno : UInt64} (h : s.recv path ≤ seqno)
    (p : RecvPath) : s.recv p ≤ (s.setRecv path seqno).recv p := by
  by_cases hp : p = path
  · subst hp
    simpa [setRecv] using h
  · simp [setRecv, Function.update_of_ne hp]

/-- What is recorded does not go back. -/
theorem recv_le_onMsg (h : r.Unrepeated kv (.msg m stamp)) (p : RecvPath) :
    r.node.recv p ≤ (r.node.onMsg kv m stamp).1.recv p := by
  simp only [Unrepeated] at h
  simp only [onMsg]
  cases hb : branch m with
  | auth =>
    dsimp only
    split
    · exact le_setRecv (UInt64.le_of_lt ‹_›) p
    · exact UInt64.le_refl _
  | ordered =>
    dsimp only
    split
    · exact le_setRecv (UInt64.le_of_lt ‹_›) p
    · exact UInt64.le_refl _
  | ret =>
    rw [hb] at h
    exact le_setRecv (UInt64.le_of_lt h) p
  | subject => exact UInt64.le_refl _
  | other => exact UInt64.le_refl _

/-- A counted message that is dispatched is above the record, and then it is the
record. -/
theorem counted_dispatch (h : r.Unrepeated kv (.msg m stamp)) (hm : Counted m)
    (hd : (r.node.onMsg kv m stamp).2 = true) :
    r.node.recv (recvPath m) < m.pub.seqno ∧
      (r.node.onMsg kv m stamp).1.recv (recvPath m) = m.pub.seqno := by
  simp only [Unrepeated] at h
  simp only [onMsg] at hd ⊢
  rcases hm with hb | hb
  · rw [hb] at h ⊢
    exact ⟨h, by simp [setRecv]⟩
  · rw [hb] at hd ⊢
    dsimp only at hd ⊢
    split at hd
    · rename_i hlt
      rw [if_pos hlt]
      exact ⟨hlt, by simp [setRecv]⟩
    · cases hd

/-- A message that is dispatched was not dispatched before. -/
theorem Inv.not_mem (hi : r.Inv) (h : r.Unrepeated kv (.msg m stamp))
    (hd : (r.node.onMsg kv m stamp).2 = true) : m ∉ r.dispatched := by
  intro hmem
  have hcounted (hm : Counted m) : False := by
    obtain ⟨hlt, -⟩ := counted_dispatch h hm hd
    exact UInt64.lt_irrefl _ (UInt64.lt_of_le_of_lt (hi.recorded m hmem hm) hlt)
  simp only [Unrepeated] at h
  cases hb : branch m with
  | auth =>
    rw [hb] at h
    exact h hmem
  | ordered => exact hcounted (Or.inr hb)
  | ret => exact hcounted (Or.inl hb)
  | subject =>
    rw [hb] at h
    rw [onMsg, hb] at hd
    dsimp only at hd
    rw [(h hmem).recv] at hd
    exact absurd hd (by simp [SeqnoStatus.accepted])
  | other =>
    rw [onMsg, hb] at hd
    cases hd

theorem Inv.msg (hi : r.Inv) (h : r.Unrepeated kv (.msg m stamp)) :
    (step kv r (.msg m stamp)).Inv := by
  have hmono := recv_le_onMsg h
  cases hd : (r.node.onMsg kv m stamp).2 with
  | false =>
    simp only [step, hd, Bool.false_eq_true, if_false]
    exact ⟨fun q hq hc => UInt64.le_trans (hi.recorded q hq hc) (hmono _), hi.nodup⟩
  | true =>
    simp only [step, hd, if_true]
    refine ⟨fun q hq hc => ?_, List.nodup_cons.2 ⟨hi.not_mem h hd, hi.nodup⟩⟩
    rcases List.mem_cons.1 hq with rfl | hq
    · rw [(counted_dispatch h hc hd).2]
      exact UInt64.le_refl _
    · exact UInt64.le_trans (hi.recorded q hq hc) (hmono _)

theorem Inv.step {e : Event} (hi : r.Inv) (h : r.Unrepeated kv e) : (step kv r e).Inv := by
  cases e with
  | msg m stamp => exact hi.msg h
  | window e => exact ⟨hi.recorded, hi.nodup⟩
  | inboxTab tab => exact ⟨hi.recorded, hi.nodup⟩

end

/-! ## Replays -/

/-- What is recorded of a path does not go back with the event. -/
def Advances (kv : InboxKv) (r : InboxRun) (e : Event) : Prop :=
  ∀ p, r.node.recv p ≤ (step kv r e).node.recv p

/-- In every run in which returns count up, auth messages come once and the window is past
what comes again on a subject, no message is dispatched twice and what is recorded does not
go back. -/
theorem inbox_dispatched_once (kv : InboxKv) {s : InboxNode} {r : InboxRun}
    (h : Run.Reach (step kv) (Unrepeated kv) ⟨s, []⟩ r) :
    r.dispatched.Nodup ∧ ∀ e, r.Unrepeated kv e → r.Advances kv e := by
  have hinv : r.Inv := by
    refine h.invariant ?_ ?_
    · exact ⟨by simp, List.nodup_nil⟩
    · exact fun r e hr he => hr.step he
  refine ⟨hinv.nodup, fun e he p => ?_⟩
  cases e with
  | msg m stamp => exact recv_le_onMsg he p
  | window e => exact UInt64.le_refl _
  | inboxTab tab => exact UInt64.le_refl _

/-- The prefix "_I.N.", of five characters. -/
def plainKv : InboxKv where
  seqno := SubNode.plainKv
  sub := SubDB.prefixKv
  hashUint n := n
  ibxLen := 5

/-- A node that waits for a return on "_I.N.7". -/
def waiting : InboxNode where
  node := SubNode.subscribed
  inboxTab := (∅ : RouteVec (Option ℕ)).insert ⟨7, [55]⟩ (some 3)
  recv _ := 0

/-- A return to "_I.N.7". -/
def returned (seqno : UInt64) : InboxMsg where
  pub := ⟨1, 0, 9, [95, 73, 46, 78, 46, 55], [], seqno, 0, 0⟩
  path := 0
  ztype := .inboxConsole
  optAny := false
  fidSubject := none

/-- A ping to "_I.N.ping". -/
def pinged (seqno : UInt64) : InboxMsg where
  pub := ⟨1, 0, 8, [95, 73, 46, 78, 46, 112, 105, 110, 103], [], seqno, 0, 0⟩
  path := 0
  ztype := .inboxPing
  optAny := false
  fidSubject := none

/-- A message to the subject that the console subscribes to, of the frame 2. -/
def subscribedMsg (base : UInt64) : InboxMsg where
  pub := ⟨1, 0, 1, [65], [1], (2 : UInt64) <<< 35 + base, (2 : UInt64) <<< 33, 0⟩
  path := 0
  ztype := .normal
  optAny := false
  fidSubject := none

/-- Two returns in order, a ping that comes twice, and messages to a subject of which the
first comes again. -/
theorem inbox_dispatched_once_ping :
    let r := [.window (.sub (.consoleSubStart [65] (some 4) ∅)), .msg (returned 1) 0,
      .msg (pinged 1) 0, .msg (subscribedMsg 1) 0, .msg (returned 2) 0, .msg (pinged 1) 0,
      .msg (subscribedMsg 2) 0, .msg (subscribedMsg 1) 0].foldl (step plainKv) ⟨waiting, []⟩
    r.dispatched = [subscribedMsg 2, returned 2, subscribedMsg 1, pinged 1, returned 1] ∧
      r.dispatched.Nodup ∧ ∀ e, r.Unrepeated plainKv e → r.Advances plainKv e :=
  ⟨by decide +kernel, inbox_dispatched_once plainKv (Run.Reach.start.foldl
    ⟨trivial, by decide +kernel, by decide +kernel, by decide +kernel, by decide +kernel,
      by decide +kernel, by decide +kernel, by decide +kernel, trivial⟩)⟩

/-- A return that comes twice is dispatched twice, and one that comes late takes the
record back. -/
theorem return_replayed :
    ¬ (∀ (kv : InboxKv) (s : InboxNode) (r : InboxRun),
      Run.Reach (step kv) (fun _ _ => True) ⟨s, []⟩ r → r.dispatched.Nodup) ∧
    ¬ (∀ (kv : InboxKv) (s : InboxNode) (r : InboxRun) (e : Event),
      Run.Reach (step kv) (fun _ _ => True) ⟨s, []⟩ r → r.Advances kv e) := by
  constructor
  · intro h
    have hnodup := h plainKv waiting
      ([.msg (returned 1) 0, .msg (returned 1) 0].foldl (step plainKv) ⟨waiting, []⟩)
      (Run.Reach.start.foldl (Run.allOk_true _ _))
    exact absurd hnodup (by decide +kernel)
  · intro h
    have hle := h plainKv waiting ([.msg (returned 2) 0].foldl (step plainKv) ⟨waiting, []⟩)
      (.msg (returned 1) 0) (Run.Reach.start.foldl (Run.allOk_true _ _)) (.zpath .inboxConsole)
    exact absurd hle (by decide +kernel)

end InboxRun

end Raims
