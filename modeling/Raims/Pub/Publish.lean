import Raims.Pub.PubTab
import Raims.Msg.PublishType
import Raims.Lib.Run

/-!
# Publishing (`SessionMgr::publish`, `forward_ipc`)

A message is published by the console or forwarded from an ipc transport. If its
subject has a service it is numbered by the subject; otherwise it is sent to an
inbox, or numbered by the path it takes. What was published on a subject ascends,
as long as the console publishes no subject that is in the newer generation.
-/

namespace Raims

/-! ## The model -/

/-- `IpcSubjectMatch`, less the parts of the subject that it finds. -/
structure IpcSubjectMatch where
  matchSub : List Subject
  noMatchValue : ℕ
  noSvcValue : ℕ

namespace IpcSubjectMatch

def IPC_NO_MATCH : ℕ := 0

def IPC_IS_INBOX : ℕ := 1

def IPC_IS_INBOX_PREFIX : ℕ := 2

/-- A service: one to five digits. -/
def isService (pre : Subject) : Bool :=
  pre.all (fun c => 48 ≤ c && c ≤ 57) && 0 < pre.length && pre.length ≤ 5

/-- The name after the service of a subject `_7500.NAME`, and if there is one. The
prefix is cut off also if it is not a service. -/
def name (str : Subject) : Subject × Bool :=
  match str with
  | 95 :: rest =>
    match rest.dropWhile (· ≠ 46) with
    | [] => (str, false)
    | _ :: name => (name, isService (rest.takeWhile (· ≠ 46)))
  | _ => (str, false)

/-- `IpcSubjectMatch::match`. -/
def «match» (m : IpcSubjectMatch) (str : Subject) : ℕ :=
  match m.matchSub.findIdx? fun sub => sub.isPrefixOf (name str).1 with
  | some k => k + 1
  | none => if (name str).2 then m.noMatchValue else m.noSvcValue

/-- "_INBOX." -/
def inbox1 : Subject := [95, 73, 78, 66, 79, 88, 46]

/-- "_INBOX" -/
def inbox2 : Subject := [95, 73, 78, 66, 79, 88]

/-- "_SNAP." -/
def snap : Subject := [95, 83, 78, 65, 80, 46]

/-- "_RV.INFO." -/
def rvinfo : Subject := [95, 82, 86, 46, 73, 78, 70, 79, 46]

/-- `set_msg_loss_mode`. -/
def ofMode (wantMsgLossErrors : Bool) : IpcSubjectMatch :=
  if wantMsgLossErrors then ⟨[inbox1, inbox2, snap, rvinfo], IPC_NO_MATCH, 5⟩
  else ⟨[inbox1, inbox2], 3, 3⟩

end IpcSubjectMatch

/-- `PubMcastData`, with what the tables of users and routes say of its subject. -/
structure PubMcastData where
  sub : Subject
  /-- `CABA_OPT_ANY` -/
  optAny : Bool
  uType : PublishType
  seqno : UInt64
  /-- the path that is selected -/
  pathSelect : ℕ
  /-- `is_inbox_sub` -/
  isInboxSub : Option ℕ
  /-- the user of `host_match` -/
  hostMatch : Option ℕ
  /-- `any_match( ).get_destination( )` -/
  anyMatch : Option ℕ

namespace PubMcastData

/-- `PubMcastData()`. -/
def new (sub : Subject) (uType : PublishType) : PubMcastData :=
  ⟨sub, false, uType, 0, 0, none, none, none⟩

/-- "_I." and more. -/
def isInboxPrefix (mc : PubMcastData) : Bool :=
  4 < mc.sub.length && [95, 73, 46].isPrefixOf mc.sub

/-- "_M." and more. -/
def isMcastPrefix (mc : PubMcastData) : Bool :=
  4 < mc.sub.length && [95, 77, 46].isPrefixOf mc.sub

end PubMcastData

/-- A message that is published on a subject. -/
structure PubMsg where
  subject : Subject
  seqno : UInt64
  time : UInt64
  chainSeqno : UInt64
  /-- `CABA_OPT_GLSNO` -/
  glsno : Bool

/-- `SessionMgr`, as far as it publishes. -/
structure SessionMgr where
  timerMonoTime : UInt64
  timerTime : UInt64
  trailingTime : UInt64
  pubWindowMonoTime : UInt64
  pubWindowIval : UInt64
  pubWindowSize : UInt64
  pubWindowCount : ℕ
  ipcSubMatch : IpcSubjectMatch
  pubTab : PubTab
  /-- `user_db.glob_send_seqno` -/
  globSendSeqno : ℕ → UInt64
  /-- `user_db.mcast_send_seqno` -/
  mcastSendSeqno : UInt64
  /-- `bridge_tab[ uid ]->inbox.zpath_seqno` -/
  inboxSend : ℕ × PublishType → UInt64

namespace SessionMgr

/-- `SessionMgr::start`. -/
def start (curMono curTime ival winSize : UInt64) (winCount : ℕ) (wantMsgLossErrors : Bool) :
    SessionMgr where
  timerMonoTime := curMono
  timerTime := curTime
  trailingTime := curTime - ival
  pubWindowMonoTime := curMono + ival
  pubWindowIval := ival
  pubWindowSize := winSize
  pubWindowCount := winCount
  ipcSubMatch := .ofMode wantMsgLossErrors
  pubTab := .new curTime ival
  globSendSeqno := fun _ => 0
  mcastSendSeqno := 0
  inboxSend := fun _ => 0

variable (kv : PubKv) (m : SessionMgr)

def key (sub : Subject) : RouteKey := ⟨kv.subjectHash sub, sub⟩

/-- `inbox.next_send`. -/
def nextSend (uid : ℕ) (t : PublishType) : SessionMgr × UInt64 :=
  let seqno := m.inboxSend (uid, t) + 1
  ({ m with inboxSend := Function.update m.inboxSend (uid, t) seqno }, seqno)

/-- `++glob_send_seqno[ path ]`, without a time or a chain. -/
def globSend (sub : Subject) (path : ℕ) : SessionMgr × PubMsg :=
  let seqno := m.globSendSeqno path + 1
  ({ m with globSendSeqno := Function.update m.globSendSeqno path seqno },
    ⟨sub, seqno, 0, 0, true⟩)

/-- `upsert` and `next_seqno`. -/
def subjectSend (sub : Subject) : SessionMgr × PubMsg :=
  let r := m.pubTab.stamp (key kv sub) m.timerTime m.trailingTime
  ({ m with pubTab := r.1 }, ⟨sub, r.2.seqno, r.2.time, r.2.chainSeqno, false⟩)

/-- The part of `publish` that numbers a message which is not to an inbox or a
multicast prefix. A subject that is in the newer generation is not numbered: the
message has the number it came with. -/
def publishSeqno (mc : PubMcastData) (uType : PublishType) : SessionMgr × PubMsg :=
  if uType.isInbox = false ∧ (m.pubTab.pub.lookup (key kv mc.sub)).isSome then
    (m, ⟨mc.sub, mc.seqno, 0, 0, false⟩)
  else
    let x := m.ipcSubMatch.match mc.sub
    if x = IpcSubjectMatch.IPC_NO_MATCH then m.subjectSend kv mc.sub
    else if x = IpcSubjectMatch.IPC_IS_INBOX ∨ x = IpcSubjectMatch.IPC_IS_INBOX_PREFIX then
      match mc.hostMatch with
      | some uid =>
        let r := m.nextSend uid uType
        (r.1, ⟨mc.sub, r.2, 0, 0, false⟩)
      | none => m.globSend mc.sub mc.pathSelect
    else m.globSend mc.sub mc.pathSelect

/-- `SessionMgr::publish`. A message to any of the subscribers is put into one to
the inbox of a peer, and not published on its subject. -/
def publish (mc : PubMcastData) : SessionMgr × Option PubMsg :=
  if mc.optAny then
    match mc.anyMatch with
    | some uid => ((m.nextSend uid .inboxAnyRte).1, none)
    | none => (m, none)
  else if mc.isInboxPrefix then
    match mc.isInboxSub with
    | some uid =>
      let r := m.nextSend uid (if mc.uType.isInbox then mc.uType else .inbox)
      (r.1, some ⟨mc.sub, r.2, 0, 0, false⟩)
    | none =>
      let r := m.publishSeqno kv mc mc.uType
      (r.1, some r.2)
  else if mc.isMcastPrefix then
    let seqno := m.mcastSendSeqno + 1
    ({ m with mcastSendSeqno := seqno }, some ⟨mc.sub, seqno, 0, 0, false⟩)
  else
    let r := m.publishSeqno kv mc .mcastSubject
    (r.1, some r.2)

/-- `SessionMgr::forward_ipc`, with the path that is selected. A message to a queue
or an inbox is forwarded to a peer, and not published on its subject. -/
def forwardIpc (sub : Subject) (isQueuePub : Bool) (pathSelect : ℕ) : SessionMgr × Option PubMsg :=
  if isQueuePub then (m, none)
  else
    let x := m.ipcSubMatch.match sub
    if x = IpcSubjectMatch.IPC_IS_INBOX ∨ x = IpcSubjectMatch.IPC_IS_INBOX_PREFIX then (m, none)
    else if x = IpcSubjectMatch.IPC_NO_MATCH then
      let r := m.subjectSend kv sub
      (r.1, some r.2)
    else
      let r := m.globSend sub pathSelect
      (r.1, some r.2)

/-- `SessionMgr::timer_expire`, as far as it turns the window. -/
def timerExpire (curMono curTime : UInt64) : SessionMgr :=
  let m := { m with
    timerMonoTime := curMono
    timerTime := curTime
    trailingTime := curTime - m.pubWindowIval }
  if m.pubWindowMonoTime < curMono then
    let winTime := curMono - m.pubWindowMonoTime
    let r := m.pubTab.flip kv m.pubWindowSize m.pubWindowCount curTime
      (m.pubWindowIval * 8 < winTime) (m.pubWindowIval * 16 < winTime)
    { m with
      pubTab := r.1
      pubWindowMonoTime := if r.2 then curMono + m.pubWindowIval else m.pubWindowMonoTime }
  else m

end SessionMgr

/-! ## Runs -/

/-- A node with the messages that it published, the last one first. -/
structure PubNode where
  mgr : SessionMgr
  published : List PubMsg

namespace PubNode

inductive Event where
  | publish (mc : PubMcastData)
  | forwardIpc (sub : Subject) (isQueuePub : Bool) (pathSelect : ℕ)
  | timerExpire (curMono curTime : UInt64)

def step (kv : PubKv) (n : PubNode) : Event → PubNode
  | .publish mc =>
    let r := n.mgr.publish kv mc
    ⟨r.1, r.2.toList ++ n.published⟩
  | .forwardIpc sub isQueuePub pathSelect =>
    let r := n.mgr.forwardIpc kv sub isQueuePub pathSelect
    ⟨r.1, r.2.toList ++ n.published⟩
  | .timerExpire curMono curTime => ⟨n.mgr.timerExpire kv curMono curTime, n.published⟩

/-- The numbers that were published on a subject, the last one first. -/
def seqnos (n : PubNode) (sub : Subject) : List UInt64 :=
  (n.published.filter fun q => q.subject = sub).map PubMsg.seqno

/-- A subject that is numbered by itself. -/
def Numbered (n : PubNode) (sub : Subject) : Prop :=
  n.mgr.ipcSubMatch.match sub = IpcSubjectMatch.IPC_NO_MATCH

instance (n : PubNode) (sub : Subject) : Decidable (n.Numbered sub) :=
  inferInstanceAs (Decidable (_ = _))

/-- No number of the subject is 0 or repeats an earlier one or is behind it. -/
def Ascends (n : PubNode) : Prop :=
  ∀ sub, n.Numbered sub →
    (∀ s ∈ n.seqnos sub, s ≠ 0) ∧ (n.seqnos sub).Pairwise fun later earlier => earlier < later

/-- How many messages of the subject are in the frame. -/
def inFrame (n : PubNode) (sub : Subject) (frame : UInt64) : ℕ :=
  (n.seqnos sub).countP fun s => seqnoFrame s = frame

/-- There are fewer than `2^35` messages of a subject in a frame, this one included. -/
def FrameHasRoom (n : PubNode) (sub : Subject) : Prop :=
  n.Numbered sub → n.inFrame sub (timeFrame n.mgr.timerTime) + 1 < 2 ^ 35

instance (n : PubNode) (sub : Subject) : Decidable (n.FrameHasRoom sub) :=
  inferInstanceAs (Decidable (_ → _))

/-- The clock does not go back, and the frames have room. -/
def Clocked (n : PubNode) : Event → Prop
  | .publish mc => n.FrameHasRoom mc.sub
  | .forwardIpc sub _ _ => n.FrameHasRoom sub
  | .timerExpire curMono curTime =>
    n.mgr.timerMonoTime ≤ curMono ∧ curMono.toNat < 2 ^ 62 ∧ curTime.toNat < 2 ^ 62 ∧
      n.mgr.timerTime.toNat + (curMono.toNat - n.mgr.timerMonoTime.toNat) ≤ curTime.toNat

instance (n : PubNode) : (e : Event) → Decidable (n.Clocked e)
  | .publish mc => inferInstanceAs (Decidable (n.FrameHasRoom mc.sub))
  | .forwardIpc sub _ _ => inferInstanceAs (Decidable (n.FrameHasRoom sub))
  | .timerExpire _ _ => inferInstanceAs (Decidable (_ ∧ _))

/-- The console publishes no subject that is in the newer generation, but to any of its
subscribers. -/
def ConsoleNew (kv : PubKv) (n : PubNode) : Event → Prop
  | .publish mc =>
    mc.optAny = false → n.Numbered mc.sub →
      n.mgr.pubTab.pub.lookup (SessionMgr.key kv mc.sub) = none
  | .forwardIpc _ _ _ => True
  | .timerExpire _ _ => True

instance (kv : PubKv) (n : PubNode) : (e : Event) → Decidable (ConsoleNew kv n e)
  | .publish _ => inferInstanceAs (Decidable (_ → _ → _))
  | .forwardIpc _ _ _ => instDecidableTrue
  | .timerExpire _ _ => instDecidableTrue

/-- The clocks at the start, and the interval: at least 10 seconds. -/
structure Started (curMono curTime ival : UInt64) : Prop where
  ival_ge : 10 ^ 10 ≤ ival.toNat
  ival_le : ival ≤ curTime
  time_lt : curTime.toNat < 2 ^ 62
  mono_lt : curMono.toNat < 2 ^ 62

end PubNode

/-! ## Subjects with a service -/

namespace IpcSubjectMatch

/-- Only a subject with a service is not matched. -/
theorem service_of_ofMode {b : Bool} {sub : Subject} (h : (ofMode b).match sub = IPC_NO_MATCH) :
    (name sub).2 = true := by
  cases hname : (name sub).2 with
  | true => rfl
  | false =>
    simp only [«match», hname, Bool.false_eq_true, if_false] at h
    cases b <;> split at h <;> simp [ofMode, IPC_NO_MATCH] at h

theorem name_of_startsWith {c : UInt8} {sub : Subject} (hc : isService [c] = false) (hdot : c ≠ 46)
    (h : List.isPrefixOf [95, c, 46] sub = true) : (name sub).2 = false := by
  rw [List.isPrefixOf_iff_prefix] at h
  obtain ⟨rest, rfl⟩ := h
  simp [name, hdot, hc]

end IpcSubjectMatch

namespace PubNode

open IpcSubjectMatch SessionMgr

variable {kv : PubKv} {n : PubNode}

/-- A subject of an inbox or of a multicast prefix is not numbered by itself. -/
theorem not_numbered_of_prefix {b : Bool} (hmode : n.mgr.ipcSubMatch = ofMode b)
    {mc : PubMcastData} (h : mc.isInboxPrefix = true ∨ mc.isMcastPrefix = true) :
    ¬ n.Numbered mc.sub := by
  intro hnum
  rw [Numbered, hmode] at hnum
  have hservice := service_of_ofMode hnum
  rcases h with h | h
  · rw [PubMcastData.isInboxPrefix, Bool.and_eq_true] at h
    rw [name_of_startsWith (by decide) (by decide) h.2] at hservice
    cases hservice
  · rw [PubMcastData.isMcastPrefix, Bool.and_eq_true] at h
    rw [name_of_startsWith (by decide) (by decide) h.2] at hservice
    cases hservice

/-- The message of a step that goes another way than by its subject. -/
def Elsewhere (n n' : PubNode) : Prop :=
  ∃ g c i ms,
    n' = ⟨{ n.mgr with globSendSeqno := g, mcastSendSeqno := c, inboxSend := i },
      ms ++ n.published⟩ ∧ ∀ q ∈ ms, ¬ n.Numbered q.subject

theorem elsewhere_self : n.Elsewhere n :=
  ⟨_, _, _, [], rfl, by simp⟩

theorem elsewhere_nextSend (uid : ℕ) (t : PublishType) :
    n.Elsewhere ⟨(n.mgr.nextSend uid t).1, n.published⟩ :=
  ⟨_, _, _, [], rfl, by simp⟩

theorem elsewhere_globSend {sub : Subject} (h : ¬ n.Numbered sub) (path : ℕ) :
    n.Elsewhere ⟨(n.mgr.globSend sub path).1, (n.mgr.globSend sub path).2 :: n.published⟩ :=
  ⟨_, _, _, [_], rfl, by simpa [globSend] using h⟩

/-- A message that `publish` numbers: by its subject, or it goes elsewhere. -/
theorem publishSeqno_cases (kv : PubKv) {mc : PubMcastData} (uType : PublishType)
    (hnew : n.Numbered mc.sub → n.mgr.pubTab.pub.lookup (key kv mc.sub) = none) :
    let r := n.mgr.publishSeqno kv mc uType
    (n.Numbered mc.sub ∧ r = n.mgr.subjectSend kv mc.sub) ∨
      n.Elsewhere ⟨r.1, r.2 :: n.published⟩ := by
  intro r
  by_cases hnum : n.Numbered mc.sub
  · refine Or.inl ⟨hnum, ?_⟩
    have hmatch : n.mgr.ipcSubMatch.match mc.sub = IPC_NO_MATCH := hnum
    simp only [r, publishSeqno, hnew hnum, hmatch]
    simp
  · refine Or.inr ?_
    have hmatch : n.mgr.ipcSubMatch.match mc.sub ≠ IPC_NO_MATCH := hnum
    simp only [r, publishSeqno, if_neg hmatch]
    split
    · exact ⟨_, _, _, [_], rfl, by simpa using hnum⟩
    · split
      · split
        · exact ⟨_, _, _, [_], rfl, by simpa using hnum⟩
        · exact elsewhere_globSend hnum _
      · exact elsewhere_globSend hnum _

/-- What one step does: a message by its subject, one that goes elsewhere, or the
timer. -/
theorem step_cases {b : Bool} (hmode : n.mgr.ipcSubMatch = ofMode b) {e : Event}
    (hclock : n.Clocked e) (hnew : ConsoleNew kv n e) :
    (∃ sub, n.Numbered sub ∧ n.FrameHasRoom sub ∧ step kv n e =
        ⟨(n.mgr.subjectSend kv sub).1, (n.mgr.subjectSend kv sub).2 :: n.published⟩) ∨
      n.Elsewhere (step kv n e) ∨ ∃ curMono curTime, e = .timerExpire curMono curTime := by
  cases e with
  | timerExpire curMono curTime => exact Or.inr (Or.inr ⟨curMono, curTime, rfl⟩)
  | forwardIpc sub isQueuePub pathSelect =>
    simp only [step, forwardIpc]
    by_cases hqueue : isQueuePub = true
    · rw [if_pos hqueue]
      exact Or.inr (Or.inl elsewhere_self)
    rw [if_neg hqueue]
    by_cases hinbox : n.mgr.ipcSubMatch.match sub = IPC_IS_INBOX ∨
        n.mgr.ipcSubMatch.match sub = IPC_IS_INBOX_PREFIX
    · rw [if_pos hinbox]
      exact Or.inr (Or.inl elsewhere_self)
    rw [if_neg hinbox]
    by_cases hnum : n.mgr.ipcSubMatch.match sub = IPC_NO_MATCH
    · rw [if_pos hnum]
      exact Or.inl ⟨sub, hnum, hclock, rfl⟩
    · rw [if_neg hnum]
      exact Or.inr (Or.inl (elsewhere_globSend hnum pathSelect))
  | publish mc =>
    simp only [step, publish]
    by_cases hany : mc.optAny = true
    · rw [if_pos hany]
      cases mc.anyMatch with
      | none => exact Or.inr (Or.inl elsewhere_self)
      | some uid => exact Or.inr (Or.inl (elsewhere_nextSend _ _))
    have hseqno (uType : PublishType) :=
      publishSeqno_cases kv uType (hnew (Bool.eq_false_of_not_eq_true hany))
    rw [if_neg hany]
    by_cases hinbox : mc.isInboxPrefix = true
    · rw [if_pos hinbox]
      have hnot := not_numbered_of_prefix hmode (Or.inl hinbox)
      cases mc.isInboxSub with
      | some uid => exact Or.inr (Or.inl ⟨_, _, _, [_], rfl, by simpa using hnot⟩)
      | none =>
        rcases hseqno mc.uType with ⟨hnum, _⟩ | h
        · exact absurd hnum hnot
        · exact Or.inr (Or.inl h)
    rw [if_neg hinbox]
    by_cases hmcast : mc.isMcastPrefix = true
    · rw [if_pos hmcast]
      have hnot := not_numbered_of_prefix hmode (Or.inr hmcast)
      exact Or.inr (Or.inl ⟨_, _, _, [_], rfl, by simpa using hnot⟩)
    rw [if_neg hmcast]
    rcases hseqno .mcastSubject with ⟨hnum, h⟩ | h
    · refine Or.inl ⟨mc.sub, hnum, hclock, ?_⟩
      rw [h]
      rfl
    · exact Or.inr (Or.inl h)

/-! ## The window -/

/-- The clocks of the window: an entry of the older generation was last used before
the flip, and the next flip is an interval after it. -/
structure Timed (m : SessionMgr) : Prop where
  ival_ge : 10 ^ 10 ≤ m.pubWindowIval.toNat
  trailing : m.trailingTime.toNat + m.pubWindowIval.toNat = m.timerTime.toNat
  time_lt : m.timerTime.toNat < 2 ^ 62
  mono_lt : m.timerMonoTime.toNat < 2 ^ 62
  flip_le : m.pubTab.flipTime.toNat ≤ m.timerTime.toNat
  flip_ival : m.pubTab.flipTime.toNat + m.timerMonoTime.toNat + m.pubWindowIval.toNat ≤
    m.timerTime.toNat + m.pubWindowMonoTime.toNat

/-- No number of the subject is after the entry, and as many as it counts are in
its frame. -/
structure Covers (n : PubNode) (sub : Subject) (p : Pub) : Prop where
  le : ∀ s ∈ n.seqnos sub, s.toNat ≤ p.seqno.toNat
  base : p.seqno.toNat % 2 ^ 35 ≤ n.inFrame sub (seqnoFrame p.seqno)

/-- What the table knows of a subject. -/
structure Kept (kv : PubKv) (n : PubNode) (sub : Subject) : Prop where
  cur : ∀ p, n.mgr.pubTab.pub.lookup (key kv sub) = some p →
    n.Covers sub p ∧ (seqnoFrame p.seqno).toNat ≤ (timeFrame n.mgr.timerTime).toNat
  old : n.mgr.pubTab.pub.lookup (key kv sub) = none →
    ∀ p, n.mgr.pubTab.pubOld.lookup (key kv sub) = some p →
      n.Covers sub p ∧ (seqnoFrame p.seqno).toNat ≤ (timeFrame n.mgr.pubTab.flipTime).toNat
  gone : n.mgr.pubTab.find (key kv sub) = none →
    ∀ s ∈ n.seqnos sub, (seqnoFrame s).toNat < (timeFrame n.mgr.timerTime).toNat

structure Inv (kv : PubKv) (n : PubNode) : Prop where
  mode : ∃ b, n.mgr.ipcSubMatch = ofMode b
  timed : Timed n.mgr
  kept : ∀ sub, n.Numbered sub → Kept kv n sub
  ascends : n.Ascends

/-! ### Frames and times -/

theorem timeFrame_le {a b : UInt64} (h : a.toNat ≤ b.toNat) (hb : b.toNat < 2 ^ 62) :
    (timeFrame a).toNat ≤ (timeFrame b).toNat := by
  rw [toNat_timeFrame_of_lt hb, toNat_timeFrame_of_lt (lt_of_le_of_lt h hb)]
  exact Nat.div_le_div_right h

/-- 10 seconds are more than a frame. -/
theorem timeFrame_lt {a b : UInt64} (h : a.toNat + 10 ^ 10 ≤ b.toNat) (hb : b.toNat < 2 ^ 62) :
    (timeFrame a).toNat < (timeFrame b).toNat := by
  rw [toNat_timeFrame_of_lt hb, toNat_timeFrame_of_lt (by omega)]
  omega

theorem Timed.trailing_frame_lt {m : SessionMgr} (h : Timed m) :
    (timeFrame m.trailingTime).toNat < (timeFrame m.timerTime).toNat := by
  refine timeFrame_lt ?_ h.time_lt
  have h1 := h.trailing
  have h2 := h.ival_ge
  omega

/-- The entry that is found, in either generation. -/
theorem Kept.found {sub : Subject} (hk : Kept kv n sub) (ht : Timed n.mgr) {p : Pub}
    (h : n.mgr.pubTab.find (key kv sub) = some p) :
    n.Covers sub p ∧ (seqnoFrame p.seqno).toNat ≤ (timeFrame n.mgr.timerTime).toNat := by
  rw [PubTab.find] at h
  cases hpub : n.mgr.pubTab.pub.lookup (key kv sub) with
  | some p' =>
    rw [hpub] at h
    cases h
    exact hk.cur p hpub
  | none =>
    rw [hpub] at h
    obtain ⟨hcov, hle⟩ := hk.old hpub p h
    exact ⟨hcov, hle.trans (timeFrame_le ht.flip_le ht.time_lt)⟩

/-! ### A message by its subject -/

/-- The number that comes next on a subject. -/
structure Next (n : PubNode) (sub : Subject) (s' : UInt64) : Prop where
  lt : ∀ s ∈ n.seqnos sub, s.toNat < s'.toNat
  base_pos : 0 < s'.toNat % 2 ^ 35
  base_le : s'.toNat % 2 ^ 35 ≤ n.inFrame sub (seqnoFrame s') + 1
  frame_le : (seqnoFrame s').toNat ≤ (timeFrame n.mgr.timerTime).toNat

/-- A restart in a later frame than all that was published. -/
theorem next_restart {sub : Subject}
    (h : ∀ s ∈ n.seqnos sub, (seqnoFrame s).toNat < (timeFrame n.mgr.timerTime).toNat) :
    n.Next sub (seqnoInit n.mgr.timerTime + 1) where
  lt s hs := by
    have hlt := h s hs
    rw [toNat_seqnoFrame] at hlt
    rw [toNat_seqnoInit_succ]
    omega
  base_pos := by
    rw [toNat_seqnoInit_succ]
    omega
  base_le := by
    rw [toNat_seqnoInit_succ]
    omega
  frame_le := by rw [seqnoFrame_seqnoInit_succ]

/-- The next one of an entry whose frame is not full. -/
theorem next_succ {sub : Subject} {p : Pub} (hcov : n.Covers sub p)
    (hle : (seqnoFrame p.seqno).toNat ≤ (timeFrame n.mgr.timerTime).toNat)
    (hbase : seqnoBase (p.seqno + 1) ≠ 0) : n.Next sub (p.seqno + 1) := by
  obtain ⟨hsucc, hframe⟩ := toNat_succ_of_base hbase
  have hne : (p.seqno + 1).toNat % 2 ^ 35 ≠ 0 := by
    rw [← toNat_seqnoBase]
    exact fun h0 => hbase (UInt64.toNat_inj.1 h0)
  have hcount := hcov.base
  refine ⟨fun s hs => ?_, Nat.pos_of_ne_zero hne, ?_, by rwa [hframe]⟩
  · rw [hsucc]
    exact Nat.lt_succ_of_le (hcov.le s hs)
  · rw [hframe]
    omega

theorem next_of_kept {sub : Subject} (hk : Kept kv n sub) (ht : Timed n.mgr)
    (hroom : n.inFrame sub (timeFrame n.mgr.timerTime) + 1 < 2 ^ 35) :
    n.Next sub (PubTab.nextOf n.mgr.timerTime n.mgr.trailingTime
      (n.mgr.pubTab.find (key kv sub))) := by
  cases hfind : n.mgr.pubTab.find (key kv sub) with
  | none => exact next_restart (hk.gone hfind)
  | some p =>
    obtain ⟨hcov, hle⟩ := hk.found ht hfind
    simp only [PubTab.nextOf]
    by_cases hold : seqnoFrame p.seqno ≤ timeFrame n.mgr.trailingTime ∨
        seqnoBase (p.seqno + 1) = 0
    · rw [if_pos hold]
      have hlt : (seqnoFrame p.seqno).toNat < (timeFrame n.mgr.timerTime).toNat := by
        rcases hold with hold | hfull
        · rw [UInt64.le_iff_toNat_le] at hold
          exact lt_of_le_of_lt hold ht.trailing_frame_lt
        -- a full frame that is the current one has no room
        · refine lt_of_le_of_ne hle fun heq => ?_
          have hcount := hcov.base
          rw [UInt64.toNat_inj.1 heq] at hcount
          have h0 : (seqnoBase (p.seqno + 1)).toNat = 0 := by rw [hfull]; rfl
          rw [toNat_seqnoBase, UInt64.toNat_add, UInt64.toNat_one] at h0
          omega
      refine next_restart fun s hs => lt_of_le_of_lt ?_ hlt
      rw [toNat_seqnoFrame, toNat_seqnoFrame]
      exact Nat.div_le_div_right (hcov.le s hs)
    · rw [if_neg hold]
      exact next_succ hcov hle fun h0 => hold (Or.inr h0)

theorem seqnos_cons_self (m : SessionMgr) (q : PubMsg) :
    PubNode.seqnos ⟨m, q :: n.published⟩ q.subject = q.seqno :: n.seqnos q.subject := by
  simp [seqnos]

theorem seqnos_cons_of_ne (m : SessionMgr) {q : PubMsg} {sub : Subject} (h : q.subject ≠ sub) :
    PubNode.seqnos ⟨m, q :: n.published⟩ sub = n.seqnos sub := by
  simp [seqnos, h]

theorem subjectSend_seqno (sub : Subject) :
    (n.mgr.subjectSend kv sub).2.seqno =
      PubTab.nextOf n.mgr.timerTime n.mgr.trailingTime (n.mgr.pubTab.find (key kv sub)) :=
  n.mgr.pubTab.stamp_seqno _ _ _

theorem subjectSend_timed {m : SessionMgr} (ht : Timed m) (sub : Subject) :
    Timed (m.subjectSend kv sub).1 where
  ival_ge := ht.ival_ge
  trailing := ht.trailing
  time_lt := ht.time_lt
  mono_lt := ht.mono_lt
  flip_le := by
    have h : (m.subjectSend kv sub).1.pubTab.flipTime = m.pubTab.flipTime :=
      m.pubTab.stamp_flipTime _ _ _
    rw [h]
    exact ht.flip_le
  flip_ival := by
    have h : (m.subjectSend kv sub).1.pubTab.flipTime = m.pubTab.flipTime :=
      m.pubTab.stamp_flipTime _ _ _
    rw [h]
    exact ht.flip_ival

/-- The node after a message by its subject. -/
def sent (kv : PubKv) (n : PubNode) (sub : Subject) : PubNode :=
  ⟨(n.mgr.subjectSend kv sub).1, (n.mgr.subjectSend kv sub).2 :: n.published⟩

theorem kept_sent_self {sub : Subject}
    (hnext : n.Next sub (n.mgr.subjectSend kv sub).2.seqno) : Kept kv (sent kv n sub) sub := by
  have hseqnos : (sent kv n sub).seqnos sub =
      (n.mgr.subjectSend kv sub).2.seqno :: n.seqnos sub := seqnos_cons_self _ _
  have hlookup : (sent kv n sub).mgr.pubTab.pub.lookup (key kv sub) =
      some ⟨(n.mgr.subjectSend kv sub).2.seqno, n.mgr.timerTime⟩ :=
    n.mgr.pubTab.stamp_lookup_self _ _ _
  refine ⟨fun p hp => ?_, fun hnone => ?_, fun hnone => ?_⟩
  · rw [hlookup] at hp
    cases hp
    refine ⟨⟨fun s hs => ?_, ?_⟩, hnext.frame_le⟩
    · rw [hseqnos, List.mem_cons] at hs
      rcases hs with rfl | hs
      · exact le_refl _
      · exact (hnext.lt s hs).le
    · rw [inFrame, hseqnos, List.countP_cons_of_pos (by simp)]
      exact hnext.base_le
  · rw [hlookup] at hnone
    cases hnone
  · rw [PubTab.find, hlookup] at hnone
    cases hnone

theorem kept_sent_of_ne {sub sub' : Subject} (hne : sub' ≠ sub) (hk : Kept kv n sub') :
    Kept kv (sent kv n sub) sub' := by
  have hkey : key kv sub' ≠ key kv sub := fun h => hne (congrArg RouteKey.value h)
  have hseqnos : (sent kv n sub).seqnos sub' = n.seqnos sub' :=
    seqnos_cons_of_ne _ (Ne.symm hne)
  obtain ⟨hpub, hold⟩ : (sent kv n sub).mgr.pubTab.pub.lookup (key kv sub') =
        n.mgr.pubTab.pub.lookup (key kv sub') ∧
      (sent kv n sub).mgr.pubTab.pubOld.lookup (key kv sub') =
        n.mgr.pubTab.pubOld.lookup (key kv sub') :=
    n.mgr.pubTab.stamp_lookup_of_ne _ _ _ hkey
  have hcovers {p : Pub} (h : n.Covers sub' p) : (sent kv n sub).Covers sub' p := by
    refine ⟨?_, ?_⟩
    · rw [hseqnos]
      exact h.le
    · rw [inFrame, hseqnos]
      exact h.base
  refine ⟨fun p hp => ?_, fun hnone p hp => ?_, fun hnone => ?_⟩
  · rw [hpub] at hp
    obtain ⟨hcov, hle⟩ := hk.cur p hp
    exact ⟨hcovers hcov, hle⟩
  · rw [hpub] at hnone
    rw [hold] at hp
    obtain ⟨hcov, hle⟩ := hk.old hnone p hp
    refine ⟨hcovers hcov, ?_⟩
    have hflip : (sent kv n sub).mgr.pubTab.flipTime = n.mgr.pubTab.flipTime :=
      n.mgr.pubTab.stamp_flipTime _ _ _
    rw [hflip]
    exact hle
  · rw [PubTab.find, hpub, hold] at hnone
    rw [hseqnos]
    exact hk.gone hnone

theorem ascends_sent {sub : Subject} (h : n.Ascends)
    (hnext : n.Next sub (n.mgr.subjectSend kv sub).2.seqno) : (sent kv n sub).Ascends := by
  intro sub' hnum
  obtain ⟨hpos, hpair⟩ := h sub' hnum
  by_cases hsub : sub' = sub
  · subst hsub
    have hseqnos : (sent kv n sub').seqnos sub' =
        (n.mgr.subjectSend kv sub').2.seqno :: n.seqnos sub' := seqnos_cons_self _ _
    rw [hseqnos]
    refine ⟨?_, List.pairwise_cons.2 ⟨fun s hs => ?_, hpair⟩⟩
    · intro s hs
      rcases List.mem_cons.1 hs with rfl | hs
      · intro h0
        have hbase := hnext.base_pos
        rw [h0] at hbase
        simp at hbase
      · exact hpos s hs
    · rw [UInt64.lt_iff_toNat_lt]
      exact hnext.lt s hs
  · have hseqnos : (sent kv n sub).seqnos sub' = n.seqnos sub' :=
      seqnos_cons_of_ne _ (Ne.symm hsub)
    rw [hseqnos]
    exact ⟨hpos, hpair⟩

theorem inv_sent {sub : Subject} (h : Inv kv n) (hnum : n.Numbered sub)
    (hroom : n.FrameHasRoom sub) : Inv kv (sent kv n sub) := by
  have hnext : n.Next sub (n.mgr.subjectSend kv sub).2.seqno := by
    rw [subjectSend_seqno]
    exact next_of_kept (h.kept sub hnum) h.timed (hroom hnum)
  refine ⟨h.mode, subjectSend_timed h.timed sub, fun sub' hnum' => ?_, ascends_sent h.ascends hnext⟩
  by_cases hsub : sub' = sub
  · subst hsub
    exact kept_sent_self hnext
  · exact kept_sent_of_ne hsub (h.kept sub' hnum')

/-! ### The other steps -/

theorem inv_elsewhere {n' : PubNode} (h : Inv kv n) (he : n.Elsewhere n') : Inv kv n' := by
  obtain ⟨g, c, i, ms, rfl, hms⟩ := he
  have hseqnos (sub : Subject) (hnum : n.Numbered sub) :
      PubNode.seqnos ⟨{ n.mgr with globSendSeqno := g, mcastSendSeqno := c, inboxSend := i },
        ms ++ n.published⟩ sub = n.seqnos sub := by
    have hnil : ms.filter (fun q => q.subject = sub) = [] := by
      refine List.filter_eq_nil_iff.2 fun q hq heq => hms q hq ?_
      rw [of_decide_eq_true heq]
      exact hnum
    rw [seqnos, List.filter_append, hnil, List.nil_append, seqnos]
  refine ⟨h.mode, ⟨h.timed.ival_ge, h.timed.trailing, h.timed.time_lt, h.timed.mono_lt,
    h.timed.flip_le, h.timed.flip_ival⟩, fun sub hnum => ?_, fun sub hnum => ?_⟩
  · have hk := h.kept sub hnum
    have hcovers {p : Pub} (hcov : n.Covers sub p) : PubNode.Covers
        ⟨{ n.mgr with globSendSeqno := g, mcastSendSeqno := c, inboxSend := i },
          ms ++ n.published⟩ sub p := by
      refine ⟨?_, ?_⟩
      · rw [hseqnos sub hnum]
        exact hcov.le
      · rw [inFrame, hseqnos sub hnum]
        exact hcov.base
    refine ⟨fun p hp => ?_, fun hnone p hp => ?_, fun hnone => ?_⟩
    · exact ⟨hcovers (hk.cur p hp).1, (hk.cur p hp).2⟩
    · exact ⟨hcovers (hk.old hnone p hp).1, (hk.old hnone p hp).2⟩
    · rw [hseqnos sub hnum]
      exact hk.gone hnone
  · rw [hseqnos sub hnum]
    exact h.ascends sub hnum

/-- The clock went on and the window did not turn. -/
theorem kept_later {m : SessionMgr} {sub : Subject} (htab : m.pubTab = n.mgr.pubTab)
    (hle : n.mgr.timerTime.toNat ≤ m.timerTime.toNat) (hlt : m.timerTime.toNat < 2 ^ 62)
    (hk : Kept kv n sub) : Kept kv ⟨m, n.published⟩ sub := by
  have hframe := timeFrame_le hle hlt
  refine ⟨fun p hp => ?_, fun hnone p hp => ?_, fun hnone s hs => ?_⟩
  · rw [htab] at hp
    obtain ⟨hcov, hp⟩ := hk.cur p hp
    exact ⟨⟨hcov.le, hcov.base⟩, hp.trans hframe⟩
  · rw [htab] at hnone hp ⊢
    obtain ⟨hcov, hp⟩ := hk.old hnone p hp
    exact ⟨⟨hcov.le, hcov.base⟩, hp⟩
  · rw [htab] at hnone
    exact lt_of_lt_of_le (hk.gone hnone s hs) hframe

/-- The window turned: what is dropped was last used before the flip, and the flip
is an interval ago. -/
theorem kept_flip {m : SessionMgr} {sub : Subject}
    (htab : m.pubTab = ⟨∅, n.mgr.pubTab.pub, m.timerTime, n.mgr.pubTab.flipTime⟩)
    (hle : n.mgr.timerTime.toNat ≤ m.timerTime.toNat) (hlt : m.timerTime.toNat < 2 ^ 62)
    (hflip : n.mgr.pubTab.flipTime.toNat + 10 ^ 10 ≤ m.timerTime.toNat)
    (hk : Kept kv n sub) : Kept kv ⟨m, n.published⟩ sub := by
  have hframe := timeFrame_le hle hlt
  refine ⟨fun p hp => ?_, fun _ p hp => ?_, fun hnone s hs => ?_⟩
  · rw [htab, AList.lookup_empty] at hp
    cases hp
  · rw [htab] at hp ⊢
    obtain ⟨hcov, hp⟩ := hk.cur p hp
    exact ⟨⟨hcov.le, hcov.base⟩, hp.trans hframe⟩
  · have hnone : n.mgr.pubTab.pub.lookup (key kv sub) = none := by
      rw [htab, PubTab.find, AList.lookup_empty] at hnone
      exact hnone
    cases hold : n.mgr.pubTab.pubOld.lookup (key kv sub) with
    | none =>
      have hfind : n.mgr.pubTab.find (key kv sub) = none := by
        rw [PubTab.find, hnone]
        exact hold
      exact lt_of_lt_of_le (hk.gone hfind s hs) hframe
    | some p =>
      obtain ⟨hcov, hp⟩ := hk.old hnone p hold
      have hs' : (seqnoFrame s).toNat ≤ (seqnoFrame p.seqno).toNat := by
        rw [toNat_seqnoFrame, toNat_seqnoFrame]
        exact Nat.div_le_div_right (hcov.le s hs)
      exact lt_of_le_of_lt (hs'.trans hp) (timeFrame_lt hflip hlt)

theorem inv_timerExpire {curMono curTime : UInt64} (h : Inv kv n)
    (hclock : n.Clocked (.timerExpire curMono curTime)) :
    Inv kv (step kv n (.timerExpire curMono curTime)) := by
  obtain ⟨hmono, hmono_lt, htime_lt, htime⟩ := hclock
  rw [UInt64.le_iff_toNat_le] at hmono
  obtain ⟨hival, htrail, -, -, hflip, hflip_ival⟩ := h.timed
  have hle : n.mgr.timerTime.toNat ≤ curTime.toNat := by omega
  have htrail' : (curTime - n.mgr.pubWindowIval).toNat + n.mgr.pubWindowIval.toNat =
      curTime.toNat := by
    rw [UInt64.toNat_sub_of_le _ _ (UInt64.le_iff_toNat_le.2 (by omega))]
    omega
  have hlater : n.mgr.pubTab.flipTime.toNat + curMono.toNat + n.mgr.pubWindowIval.toNat ≤
      curTime.toNat + n.mgr.pubWindowMonoTime.toNat := by omega
  simp only [step, timerExpire]
  split
  · rename_i hwin
    rw [UInt64.lt_iff_toNat_lt] at hwin
    rcases n.mgr.pubTab.flip_cases kv n.mgr.pubWindowSize n.mgr.pubWindowCount curTime
      (n.mgr.pubWindowIval * 8 < curMono - n.mgr.pubWindowMonoTime)
      (n.mgr.pubWindowIval * 16 < curMono - n.mgr.pubWindowMonoTime) with hno | hyes
    · rw [hno]
      exact ⟨h.mode, ⟨hival, htrail', htime_lt, hmono_lt, hflip.trans hle, hlater⟩,
        fun sub hnum => kept_later rfl hle htime_lt (h.kept sub hnum), h.ascends⟩
    · rw [hyes]
      have hlast : n.mgr.pubTab.flipTime.toNat + 10 ^ 10 ≤ curTime.toNat := by omega
      refine ⟨h.mode, ⟨hival, htrail', htime_lt, hmono_lt, le_refl _, ?_⟩,
        fun sub hnum => kept_flip rfl hle htime_lt hlast (h.kept sub hnum), h.ascends⟩
      show curTime.toNat + curMono.toNat + n.mgr.pubWindowIval.toNat ≤
        curTime.toNat + (curMono + n.mgr.pubWindowIval).toNat
      rw [UInt64.toNat_add, Nat.mod_eq_of_lt (by omega), Nat.add_assoc]
  · exact ⟨h.mode, ⟨hival, htrail', htime_lt, hmono_lt, hflip.trans hle, hlater⟩,
      fun sub hnum => kept_later rfl hle htime_lt (h.kept sub hnum), h.ascends⟩

theorem inv_step {e : Event} (h : Inv kv n) (hok : n.Clocked e ∧ ConsoleNew kv n e) :
    Inv kv (step kv n e) := by
  obtain ⟨b, hmode⟩ := h.mode
  rcases step_cases hmode hok.1 hok.2 with ⟨sub, hnum, hroom, hstep⟩ | helse | ⟨m, t, rfl⟩
  · rw [hstep]
    exact inv_sent h hnum hroom
  · exact inv_elsewhere h helse
  · exact inv_timerExpire h hok.1

/-- A node that just started. -/
def start (curMono curTime ival winSize : UInt64) (winCount : ℕ) (wantMsgLossErrors : Bool) :
    PubNode :=
  ⟨.start curMono curTime ival winSize winCount wantMsgLossErrors, []⟩

theorem inv_start {curMono curTime ival : UInt64} (hs : Started curMono curTime ival)
    (winSize : UInt64) (winCount : ℕ) (wantMsgLossErrors : Bool) :
    Inv kv (start curMono curTime ival winSize winCount wantMsgLossErrors) := by
  have hle := UInt64.le_iff_toNat_le.1 hs.ival_le
  have htime := hs.time_lt
  have hmono := hs.mono_lt
  refine ⟨⟨_, rfl⟩, ⟨hs.ival_ge, ?_, htime, hmono, le_refl _, ?_⟩, fun sub _ => ?_, fun sub _ => ?_⟩
  · show (curTime - ival).toNat + ival.toNat = curTime.toNat
    rw [UInt64.toNat_sub_of_le _ _ hs.ival_le]
    omega
  · show curTime.toNat + curMono.toNat + ival.toNat ≤ curTime.toNat + (curMono + ival).toNat
    rw [UInt64.toNat_add, Nat.mod_eq_of_lt (by omega), Nat.add_assoc]
  · refine ⟨fun p hp => ?_, fun _ p hp => ?_, fun _ s hs => ?_⟩
    · cases hp
    · cases hp
    · cases hs
  · exact ⟨fun s hs => absurd hs List.not_mem_nil, List.Pairwise.nil⟩

/-! ## What was published on a subject ascends -/

/-- In every run in which the console publishes no subject that is in the newer
generation, the numbers of a subject ascend and none of them is 0. -/
theorem published_ascends (kv : PubKv) {n : PubNode} {curMono curTime ival : UInt64} (hs : Started curMono curTime ival)
    (winSize : UInt64) (winCount : ℕ) (wantMsgLossErrors : Bool)
    (h : Run.Reach (step kv) (fun n e => n.Clocked e ∧ ConsoleNew kv n e)
      (start curMono curTime ival winSize winCount wantMsgLossErrors) n) : n.Ascends :=
  (h.invariant (inv_start hs winSize winCount wantMsgLossErrors)
    fun _ _ => inv_step).ascends

/-- "_7500.A" -/
def serviceSub : Subject := [95, 55, 53, 48, 48, 46, 65]

def plainKv : PubKv where
  tabSize t := 64 * t.entries.length.toUInt64
  subjectHash _ := 1

/-- A node at 20 s on its clocks, with a window of 10 s. -/
def node20 : PubNode := start 20000000000 20000000000 10000000000 4194304 1024 true

theorem started20 : Started 20000000000 20000000000 10000000000 where
  ival_ge := by decide
  ival_le := by decide
  time_lt := by decide
  mono_lt := by decide

/-- The console publishes a subject, and sends to any of its subscribers; the timer runs,
and an ipc transport publishes the subject twice. -/
theorem published_ascends_console_ipc :
    let n := [.publish (.new serviceSub .mcastSubject),
      .publish { PubMcastData.new serviceSub .mcastSubject with optAny := true },
      .timerExpire 21000000000 21000000000,
      .forwardIpc serviceSub false 0, .forwardIpc serviceSub false 0].foldl (step plainKv) node20
    n.seqnos serviceSub = [68719476739, 68719476738, 68719476737] ∧ n.Ascends :=
  ⟨by decide +kernel, published_ascends plainKv started20 4194304 1024 true
    (Run.Reach.start.foldl ⟨by decide +kernel, by decide +kernel, by decide +kernel,
      by decide +kernel, by decide +kernel, trivial⟩)⟩

/-- The console publishes a subject twice: the second message has no number. -/
theorem console_repeat_not_numbered :
    ¬ ∀ (kv : PubKv) (curMono curTime ival winSize : UInt64) (winCount : ℕ) (loss : Bool)
        (n : PubNode), Started curMono curTime ival →
      Run.Reach (step kv) Clocked (start curMono curTime ival winSize winCount loss) n →
        n.Ascends := by
  intro hall
  have h := hall plainKv 20000000000 20000000000 10000000000 4194304 1024 true
    ([.publish (.new serviceSub .mcastSubject),
      .publish (.new serviceSub .mcastSubject)].foldl (step plainKv) node20) started20
    (Run.Reach.start.foldl ⟨by decide +kernel, by decide +kernel, trivial⟩)
  exact (h serviceSub (by decide +kernel)).1 0 (by decide +kernel) rfl

end PubNode

end Raims
