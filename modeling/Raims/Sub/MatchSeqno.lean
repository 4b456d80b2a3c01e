import Raims.Sub.SeqnoTab
import Raims.Lib.Run

/-!
# Received sequence numbers (`match_seqno`)

A message that was received is first or next in the sequence of its publisher, it
skips some or starts a new frame, or it is a repeat and does not go to the
subscribers. What was accepted from a publisher on a subject ascends, as long as no
message of an older frame is let in.
-/

namespace Raims

/-! ## The model -/

/-- `MsgFramePublish`, with the fields of its header that are decoded. -/
structure MsgFramePublish where
  /-- the uid of the publisher, 0 if it is not known -/
  uid : UInt32
  /-- `min_skew` of the publisher's clock, in two's complement -/
  skew : UInt64
  subjHash : UInt32
  subject : Subject
  /-- the hashes of the subject and its prefixes that are subscribed -/
  hash : List UInt32
  seqno : UInt64
  time : UInt64
  chainSeqno : UInt64

def MsgFramePublish.key (pub : MsgFramePublish) : RouteKey := ⟨pub.subjHash, pub.subject⟩

/-- `tport_mask`. -/
def SubRefs.tportMask (refs : SubRefs) : Finset ℕ := (refs.erase 0).image fun i => i - 1

/-- The part of `match_subscription` that adds a route. -/
def SeqnoArgs.addRoute (ctx : SeqnoArgs) (startSeqno : ℕ) (onData : Option ℕ) (ref : SubRefs) :
    SeqnoArgs :=
  let ctx := { ctx with tportMask := ctx.tportMask ∪ ref.tportMask }
  if ctx.cb = none then { ctx with startSeqno := startSeqno, cb := onData } else ctx

namespace SubDB

variable (kv : SeqnoKv) (db : SubDB) (pub : MsgFramePublish)

/-- The patterns of a prefix hash that match the subject. -/
def matchPatterns (h : UInt32) : List PatRoute :=
  (db.patTab.tab.entries.filter fun e =>
    e.1.hash = h && kv.patMatch e.1.value e.2 pub.subject).map fun e => e.2

/-- `match_subscription`. -/
def matchSubscription (ctx : SeqnoArgs) : SeqnoArgs × Bool :=
  pub.hash.foldl
    (fun r h =>
      if pub.subjHash = h then
        match db.subTab.lookup pub.key with
        | none => r
        | some rt => (r.1.addRoute rt.startSeqno rt.onData rt.ref, true)
      else
        (db.matchPatterns kv pub h).foldl
          (fun r rt => (r.1.addRoute rt.startSeqno rt.onData rt.ref, true)) r)
    (ctx, false)

end SubDB

/-- The part of `SubDB` that receives: the subscriptions and the window. -/
structure SubNode where
  db : SubDB
  seqnoTab : SeqnoTab

namespace SubNode

variable (kv : SeqnoKv) (n : SubNode) (pub : MsgFramePublish)

/-- The message is older than the trailing edge of the window. -/
def isTrailing (ctx : SeqnoArgs) : Bool :=
  pub.uid ≠ 0 && (ctx.time + pub.skew < n.seqnoTab.trailingTime && ctx.time ≠ 0)

/-- The time of the message, the start of its frame if it is not in the frame. -/
def msgTime (ctx : SeqnoArgs) : UInt64 :=
  if seqnoFrame pub.seqno = timeFrame ctx.time then ctx.time else seqnoTime pub.seqno

/-- The result of `match_seqno`. -/
structure Result where
  seqnoTab : SeqnoTab
  ctx : SeqnoArgs
  status : SeqnoStatus

/-- `match_seqno`, when the subscription of the entry is known. The memory of the
records is counted if `restore_uid` was called. -/
def matchEntry (time : UInt64) (t : SeqnoTab) (s : SubSeqno) (ctx : SeqnoArgs) : Result :=
  let q := s.receive kv pub.uid pub.seqno time ctx
  let size (ht : Option UidSeqno) : UInt64 := ht.elim 0 kv.htSize
  let htSize :=
    if s.lastUid ≠ pub.uid then t.seqnoHtSize - size s.seqnoHt + size q.1.seqnoHt
    else t.seqnoHtSize
  ⟨{ t.set pub.key q.1 with seqnoHtSize := htSize }, q.2.1, q.2.2⟩

/-- `match_seqno`. -/
def matchSeqno (ctx : SeqnoArgs) : Result :=
  if n.isTrailing pub ctx then ⟨n.seqnoTab, ctx, .uidRepeat⟩
  else
    let time := msgTime pub ctx
    let u := n.seqnoTab.upsert pub.key
    let start (ctx : SeqnoArgs) : SubSeqno :=
      .init pub.uid pub.seqno ctx.startSeqno time ctx.stamp n.db.updateSeqno ctx.cb ctx.tportMask
    match u.2.1 with
    | none =>
      let m := n.db.matchSubscription kv pub ctx
      if m.2 then ⟨u.1.set pub.key (start m.1), m.1, .uidFirst⟩
      else ⟨u.1.remove pub.key u.2.2, m.1, .notSubscr⟩
    | some s =>
      if s.updateSeqno ≠ n.db.updateSeqno then
        let m := n.db.matchSubscription kv pub ctx
        if m.2 then
          -- a subscription that was started again has a new sequence
          if s.startSeqno ≠ m.1.startSeqno then ⟨u.1.set pub.key (start m.1), m.1, .uidFirst⟩
          else matchEntry kv pub time u.1 { s with updateSeqno := n.db.updateSeqno } m.1
        else ⟨u.1.remove pub.key u.2.2, m.1, .notSubscr⟩
      else
        matchEntry kv pub time u.1 s
          { ctx with startSeqno := s.startSeqno, cb := s.onData, tportMask := s.tportMask }

/-- The arguments of a message that is received at the time `stamp`. -/
def recvArgs (stamp : UInt64) : SeqnoArgs :=
  { SeqnoArgs.new stamp with time := pub.time, chainSeqno := pub.chainSeqno }

def recv (stamp : UInt64) : Result := n.matchSeqno kv pub (recvArgs pub stamp)

/-- What can happen to the window: messages, flips by the timer, and changes of the
subscriptions. -/
inductive Event where
  | recv (pub : MsgFramePublish) (stamp : UInt64)
  | flip (winSize : UInt64) (winCount : ℕ) (curTime : UInt64) (doubleTime quadTime : Bool)
  | sub (e : SubDB.Event)

def step (subKv : Kv) : Event → SubNode
  | .recv pub stamp => { n with seqnoTab := (n.recv kv pub stamp).seqnoTab }
  | .flip winSize winCount curTime doubleTime quadTime =>
    { n with seqnoTab := n.seqnoTab.flip kv winSize winCount curTime doubleTime quadTime }
  | .sub e => { n with db := n.db.step subKv e }

/-! ## A publisher on a subject -/

variable (key : RouteKey) (uid : UInt32)

/-- The matching subscription is unchanged and the window entry is not evicted: the
entry of the subject is there and the event neither starts it again nor drops it. -/
def keeps : Event → Bool
  | .recv pub stamp =>
    if pub.key = key then
      match n.seqnoTab.find key with
      | none => false
      | some s =>
        let m := n.db.matchSubscription kv pub (recvArgs pub stamp)
        s.updateSeqno = n.db.updateSeqno || (m.2 && m.1.startSeqno = s.startSeqno)
    else true
  | .flip winSize winCount curTime doubleTime quadTime =>
    ((n.seqnoTab.flip kv winSize winCount curTime doubleTime quadTime).find key).isSome
  | .sub _ => true

/-- The sequence number that an event accepts from the publisher on the subject. -/
def accepts : Event → List UInt64
  | .recv pub stamp =>
    if pub.uid = uid ∧ pub.key = key ∧ (n.recv kv pub stamp).status.accepted = true then
      [pub.seqno]
    else []
  | _ => []

/-- A node, and what it has accepted from a publisher on a subject since the window
has an entry of it and the subscription is unchanged. -/
structure Watch where
  node : SubNode
  accepted : List UInt64

/-- An event of the node that is watched. -/
def Watch.step (subKv : Kv) (w : Watch) (e : Event) : Watch where
  node := w.node.step kv subKv e
  accepted := (if w.node.keeps kv key e then w.accepted else []) ++ w.node.accepts kv key uid e

/-- A message of the publisher is not of an older frame than the last one accepted,
and counts from 1 in its frame. Then it is not let in by the last branch of
`match_seqno`, which takes it for a new sequence. -/
def InOrder (w : Watch) : Event → Prop
  | .recv pub stamp =>
    pub.uid = uid → pub.key = key → seqnoBase pub.seqno ≠ 0 ∧
      (w.node.keeps kv key (.recv pub stamp) = true →
        w.node.isTrailing pub (recvArgs pub stamp) = false →
        ∀ s, w.node.seqnoTab.find key = some s → ∀ v, s.saved uid = some v →
          seqnoFrame v.seqno ≤ seqnoFrame pub.seqno)
  | _ => True

/-- A message that the window is past: the entry of the subject is kept, and has of the
publisher a sequence number of the frame of the message that is not behind it. -/
def Past (stamp : UInt64) : Prop :=
  n.isTrailing pub (recvArgs pub stamp) = true ∨
    n.keeps kv pub.key (.recv pub stamp) = true ∧ seqnoBase pub.seqno ≠ 0 ∧
      ∃ s ∈ n.seqnoTab.find pub.key, ∃ v ∈ s.saved pub.uid, v.InFrame ∧
        seqnoFrame v.seqno ≤ seqnoFrame pub.seqno ∧ pub.seqno ≤ v.seqno

instance (stamp : UInt64) : Decidable (n.Past kv pub stamp) :=
  inferInstanceAs (Decidable (_ ∨ _ ∧ _ ∧ _))

/-! ### One message -/

section Message

variable {kv n pub key uid} {stamp : UInt64}

theorem timeFrame_msgTime (pub : MsgFramePublish) (ctx : SeqnoArgs) :
    timeFrame (msgTime pub ctx) = seqnoFrame pub.seqno := by
  rw [msgTime]
  split
  · next h => exact h.symm
  · exact timeFrame_seqnoTime _

theorem matchEntry_find (kv : SeqnoKv) (pub : MsgFramePublish) (time : UInt64) (t : SeqnoTab)
    (s : SubSeqno) (ctx : SeqnoArgs) :
    (matchEntry kv pub time t s ctx).seqnoTab.find pub.key =
      some (s.receive kv pub.uid pub.seqno time ctx).1 :=
  SeqnoTab.set_find _ _ _

/-- The entry that a message starts. -/
def started (n : SubNode) (pub : MsgFramePublish) (time : UInt64) (ctx : SeqnoArgs) : SubSeqno :=
  .init pub.uid pub.seqno ctx.startSeqno time ctx.stamp n.db.updateSeqno ctx.cb ctx.tportMask

/-- The arguments with what the entry has of the subscription. -/
def cachedArgs (s : SubSeqno) (ctx : SeqnoArgs) : SeqnoArgs :=
  { ctx with startSeqno := s.startSeqno, cb := s.onData, tportMask := s.tportMask }

/-- The branches of `match_seqno`. The subscription is matched if there is no entry or
if it is older than the subscriptions. -/
theorem recv_branches (kv : SeqnoKv) (n : SubNode) (pub : MsgFramePublish) (stamp : UInt64) :
    let ctx := recvArgs pub stamp
    let time := msgTime pub ctx
    let u := n.seqnoTab.upsert pub.key
    let m := n.db.matchSubscription kv pub ctx
    (n.isTrailing pub ctx = true ∧ n.recv kv pub stamp = ⟨n.seqnoTab, ctx, .uidRepeat⟩) ∨
    (n.isTrailing pub ctx = false ∧
      ((n.seqnoTab.find pub.key = none ∨
          ∃ s, n.seqnoTab.find pub.key = some s ∧ s.updateSeqno ≠ n.db.updateSeqno) ∧
        m.2 = false ∧ n.recv kv pub stamp = ⟨u.1.remove pub.key u.2.2, m.1, .notSubscr⟩ ∨
      (n.seqnoTab.find pub.key = none ∨
          ∃ s, n.seqnoTab.find pub.key = some s ∧ s.updateSeqno ≠ n.db.updateSeqno ∧
            s.startSeqno ≠ m.1.startSeqno) ∧
        m.2 = true ∧
        n.recv kv pub stamp = ⟨u.1.set pub.key (started n pub time m.1), m.1, .uidFirst⟩ ∨
      (∃ s, n.seqnoTab.find pub.key = some s ∧ s.updateSeqno ≠ n.db.updateSeqno ∧
        m.2 = true ∧ s.startSeqno = m.1.startSeqno ∧ n.recv kv pub stamp =
          matchEntry kv pub time u.1 { s with updateSeqno := n.db.updateSeqno } m.1) ∨
      ∃ s, n.seqnoTab.find pub.key = some s ∧ s.updateSeqno = n.db.updateSeqno ∧
        n.recv kv pub stamp = matchEntry kv pub time u.1 s (cachedArgs s ctx))) := by
  intro ctx time u m
  have hfind : u.2.1 = n.seqnoTab.find pub.key := SeqnoTab.upsert_entry n.seqnoTab pub.key
  have hrecv : n.recv kv pub stamp = n.matchSeqno kv pub ctx := rfl
  cases htrail : n.isTrailing pub ctx with
  | true => exact .inl ⟨rfl, by rw [hrecv, matchSeqno, if_pos htrail]⟩
  | false =>
    refine .inr ⟨rfl, ?_⟩
    rw [matchSeqno, htrail, if_neg Bool.false_ne_true] at hrecv
    dsimp only at hrecv
    cases hentry : n.seqnoTab.find pub.key with
    | none =>
      rw [show (n.seqnoTab.upsert pub.key).2.1 = none from hfind.trans hentry] at hrecv
      dsimp only at hrecv
      split at hrecv
      · next hmatch => exact .inr (.inl ⟨.inl rfl, hmatch, hrecv⟩)
      · next hmatch => exact .inl ⟨.inl rfl, Bool.not_eq_true _ ▸ hmatch, hrecv⟩
    | some s =>
      rw [show (n.seqnoTab.upsert pub.key).2.1 = some s from hfind.trans hentry] at hrecv
      dsimp only at hrecv
      split at hrecv
      · next hupd =>
          split at hrecv
          · next hmatch =>
              split at hrecv
              · next hstart =>
                  exact .inr (.inl ⟨.inr ⟨s, rfl, hupd, hstart⟩, hmatch, hrecv⟩)
              · next hstart =>
                  exact .inr (.inr (.inl ⟨s, rfl, hupd, hmatch, not_not.1 hstart, hrecv⟩))
          · next hmatch =>
              exact .inl ⟨.inr ⟨s, rfl, hupd⟩, Bool.not_eq_true _ ▸ hmatch, hrecv⟩
      · next hupd => exact .inr (.inr (.inr ⟨s, rfl, not_not.1 hupd, hrecv⟩))

/-- What a message can do: it is refused by the trailing edge, its subject is not
subscribed, it starts the entry, or it goes to the entry that is there. -/
theorem recv_cases (kv : SeqnoKv) (n : SubNode) (pub : MsgFramePublish) (stamp : UInt64) :
    (n.isTrailing pub (recvArgs pub stamp) = true ∧
        n.recv kv pub stamp = ⟨n.seqnoTab, recvArgs pub stamp, .uidRepeat⟩) ∨
    (n.isTrailing pub (recvArgs pub stamp) = false ∧ n.keeps kv pub.key (.recv pub stamp) = false ∧
        (n.recv kv pub stamp).status = .notSubscr ∧
        (n.recv kv pub stamp).seqnoTab =
          (n.seqnoTab.upsert pub.key).1.remove pub.key (n.seqnoTab.upsert pub.key).2.2) ∨
    (n.isTrailing pub (recvArgs pub stamp) = false ∧ n.keeps kv pub.key (.recv pub stamp) = false ∧
        (n.recv kv pub stamp).status = .uidFirst ∧ ∃ s,
          (n.recv kv pub stamp).seqnoTab = (n.seqnoTab.upsert pub.key).1.set pub.key s ∧
          s.lastUid = pub.uid ∧ s.seqnoHt = none ∧ s.lastSeqno = pub.seqno ∧
          s.lastTime = msgTime pub (recvArgs pub stamp)) ∨
    (n.isTrailing pub (recvArgs pub stamp) = false ∧ n.keeps kv pub.key (.recv pub stamp) = true ∧
        ∃ s s' ctx, n.seqnoTab.find pub.key = some s ∧ (∀ uid, s'.saved uid = s.saved uid) ∧
          n.recv kv pub stamp = matchEntry kv pub (msgTime pub (recvArgs pub stamp))
            (n.seqnoTab.upsert pub.key).1 s' ctx) := by
  simp only [keeps, if_true]
  rcases recv_branches kv n pub stamp with ⟨htrail, h⟩ | ⟨htrail, ⟨hentry, hmatch, h⟩ |
    ⟨hentry, hmatch, h⟩ | ⟨s, hfind, hupd, hmatch, hstart, h⟩ | ⟨s, hfind, hupd, h⟩⟩
  · exact .inl ⟨htrail, h⟩
  · refine .inr (.inl ⟨htrail, ?_, by rw [h], by rw [h]⟩)
    rcases hentry with hfind | ⟨s, hfind, hupd⟩
    · rw [hfind]
    · rw [hfind]
      simp [hupd, hmatch]
  · refine .inr (.inr (.inl ⟨htrail, ?_, by rw [h], _, by rw [h], rfl, rfl, rfl, rfl⟩))
    rcases hentry with hfind | ⟨s, hfind, hupd, hstart⟩
    · rw [hfind]
    · rw [hfind]
      simp [hupd, hmatch, Ne.symm hstart]
  · refine .inr (.inr (.inr ⟨htrail, ?_, s, { s with updateSeqno := n.db.updateSeqno }, _, hfind,
      fun uid => rfl, h⟩))
    rw [hfind]
    simp [hmatch, hstart]
  · refine .inr (.inr (.inr ⟨htrail, ?_, s, s, _, hfind, fun uid => rfl, h⟩))
    rw [hfind]
    simp [hupd]

/-- The window takes a message that it is past for a repeat. -/
theorem Past.recv (h : n.Past kv pub stamp) : (n.recv kv pub stamp).status = .uidRepeat := by
  rcases h with htrail | ⟨hkeep, hbase, s, hs, v, hv, hin, hframe, hle⟩
  · rcases recv_cases kv n pub stamp with ⟨-, hr⟩ | ⟨hnot, -⟩ | ⟨hnot, -⟩ | ⟨hnot, -⟩
    · rw [hr]
    · exact absurd (htrail.symm.trans hnot) (by decide)
    · exact absurd (htrail.symm.trans hnot) (by decide)
    · exact absurd (htrail.symm.trans hnot) (by decide)
  · rcases recv_cases kv n pub stamp with ⟨-, hr⟩ | ⟨-, hk, -, -⟩ | ⟨-, hk, -, -⟩ |
      ⟨-, -, s₁, s', ctx, hfind, hsaved, hr⟩
    · rw [hr]
    · exact absurd (hkeep.symm.trans hk) (by decide)
    · exact absurd (hkeep.symm.trans hk) (by decide)
    · obtain rfl : s₁ = s := Option.some.inj (hfind.symm.trans hs)
      obtain ⟨v', -, hseq⟩ := SubSeqno.receive_some kv ctx ((hsaved _).trans hv) hin
        (timeFrame_msgTime pub (recvArgs pub stamp)) hbase hframe
      rw [hr]
      rcases hseq with ⟨-, hlt, -, -⟩ | ⟨hst, -⟩
      · exact absurd (UInt64.lt_of_le_of_lt hle hlt) (UInt64.lt_irrefl _)
      · exact hst

end Message

/-! ### The invariant -/

/-- Every record of the publisher on the subject is in its frame, in any
generation. -/
def InFrames (key : RouteKey) (uid : UInt32) (t : SeqnoTab) : Prop :=
  ∀ s, t.Holds key s → ∀ v, s.saved uid = some v → v.InFrame

/-- What was accepted ascends, up to the record of the publisher. -/
structure WatchInv (key : RouteKey) (uid : UInt32) (w : Watch) : Prop where
  inFrames : InFrames key uid w.node.seqnoTab
  covered : ∀ x ∈ w.accepted, ∃ s, w.node.seqnoTab.find key = some s ∧
    ∃ v, s.saved uid = some v ∧ x ≤ v.seqno
  ascending : w.accepted.Pairwise (· < ·)

section Invariant

variable {kv : SeqnoKv} {n : SubNode} {pub : MsgFramePublish} {key : RouteKey} {uid : UInt32}
  {t : SeqnoTab} {stamp : UInt64}

theorem InFrames.upsert (h : InFrames key uid t) (key' : RouteKey) :
    InFrames key uid (t.upsert key').1 := by
  intro s hs v hv
  rcases SeqnoTab.upsert_holds hs with hs | ⟨s₀, hs₀, rfl⟩
  · exact h s hs v hv
  · -- the copy left behind has the record of one publisher only
    by_cases huid : s₀.lastUid = uid
    · have hsaved : s₀.saved uid = some s₀.last := if_pos huid
      have hcopied : s₀.copied.saved uid = some ⟨s₀.lastSeqno, s₀.lastTime, 0⟩ := if_pos huid
      obtain rfl := Option.some.inj (hcopied.symm.trans hv)
      have hin := h s₀ hs₀ _ hsaved
      exact hin
    · have hnone : s₀.copied.saved uid = none := if_neg huid
      rw [hnone] at hv
      cases hv

theorem InFrames.set (h : InFrames key uid t) {key' : RouteKey} {s : SubSeqno}
    (hs : key' = key → ∀ v, s.saved uid = some v → v.InFrame) :
    InFrames key uid (t.set key' s) := by
  intro s' hs' v hv
  rcases SeqnoTab.set_holds hs' with ⟨hkey, rfl⟩ | hold
  · exact hs hkey.symm v hv
  · exact h s' hold v hv

/-- A message of another subject. -/
theorem recv_other (hne : pub.key ≠ key) :
    (n.recv kv pub stamp).seqnoTab.find key = n.seqnoTab.find key := by
  have hne' := Ne.symm hne
  have hupsert := SeqnoTab.upsert_find_of_ne (t := n.seqnoTab) hne'
  rcases recv_cases kv n pub stamp with ⟨-, h⟩ | ⟨-, -, -, h⟩ | ⟨-, -, -, s, h, -⟩ |
    ⟨-, -, s, s', ctx, -, -, h⟩
  · rw [h]
  · rw [h, SeqnoTab.remove_find_of_ne hne', hupsert]
  · rw [h, SeqnoTab.set_find_of_ne hne', hupsert]
  · rw [h]
    exact (SeqnoTab.set_find_of_ne hne').trans hupsert

/-- A message that starts the entry of the subject. -/
theorem saved_started {s : SubSeqno} (huid : s.lastUid = pub.uid) (hht : s.seqnoHt = none) :
    s.saved uid = if pub.uid = uid then some s.last else none := by
  rw [SubSeqno.saved, huid, hht]
  rfl

theorem InFrames.recv (h : InFrames key uid n.seqnoTab)
    (hown : pub.uid = uid → pub.key = key → seqnoBase pub.seqno ≠ 0 ∧
      (n.keeps kv key (.recv pub stamp) = true →
        n.isTrailing pub (recvArgs pub stamp) = false →
        ∀ s, n.seqnoTab.find key = some s → ∀ v, s.saved uid = some v →
          seqnoFrame v.seqno ≤ seqnoFrame pub.seqno)) :
    InFrames key uid (n.recv kv pub stamp).seqnoTab := by
  rcases recv_cases kv n pub stamp with ⟨-, hr⟩ | ⟨-, -, -, hr⟩ | ⟨-, -, -, s, hr, huid, hht, hseq, htime⟩ |
    ⟨htrail, hkeep, s, s', ctx, hfind, hsaved, hr⟩
  · rw [hr]
    exact h
  · rw [hr]
    exact fun s hs => h.upsert pub.key s (SeqnoTab.remove_holds hs)
  · rw [hr]
    refine (h.upsert pub.key).set fun _ v hv => ?_
    rw [saved_started huid hht] at hv
    split at hv
    · obtain rfl := Option.some.inj hv
      rw [SeqnoSave.InFrame, SubSeqno.last, htime, hseq]
      exact timeFrame_msgTime _ _
    · cases hv
  · rw [hr]
    refine InFrames.set (h.upsert pub.key) fun hkey v hv => ?_
    subst hkey
    by_cases huid : pub.uid = uid
    · subst huid
      obtain ⟨hbase, hframe⟩ := hown rfl rfl
      cases hold : s.saved pub.uid with
      | none =>
        have hnew := (SubSeqno.receive_none kv ctx pub.seqno
          (msgTime pub (recvArgs pub stamp)) ((hsaved _).trans hold)).2
        obtain rfl := Option.some.inj (hnew.symm.trans hv)
        exact timeFrame_msgTime _ _
      | some v₀ =>
        obtain ⟨v', hv', hseq⟩ := SubSeqno.receive_some kv ctx ((hsaved _).trans hold)
          (h s (SeqnoTab.find_holds hfind) v₀ hold) (timeFrame_msgTime pub (recvArgs pub stamp))
          hbase (hframe hkeep htrail s hfind v₀ hold)
        obtain rfl := Option.some.inj (hv'.symm.trans hv)
        rcases hseq with ⟨-, -, -, hin⟩ | ⟨-, rfl⟩
        · exact hin
        · exact h s (SeqnoTab.find_holds hfind) _ hold
    · rw [SubSeqno.saved_receive_of_ne kv ctx _ _ _ (Ne.symm huid), hsaved] at hv
      exact h s (SeqnoTab.find_holds hfind) v hv

/-- An event that accepts nothing. -/
theorem WatchInv.of_accepts_nil {w : Watch} (h : WatchInv key uid w) {subKv : Kv} {e : Event}
    (hframes : InFrames key uid (w.node.step kv subKv e).seqnoTab)
    (hacc : w.node.accepts kv key uid e = [])
    (hfind : w.node.keeps kv key e = true → ∀ s, w.node.seqnoTab.find key = some s →
      ∃ s', (w.node.step kv subKv e).seqnoTab.find key = some s' ∧ s'.saved uid = s.saved uid) :
    WatchInv key uid (w.step kv key uid subKv e) := by
  cases hkeep : w.node.keeps kv key e with
  | false =>
    have hstep : (w.step kv key uid subKv e).accepted = [] := by simp [Watch.step, hacc, hkeep]
    refine ⟨hframes, fun x hx => ?_, ?_⟩
    · rw [hstep] at hx
      cases hx
    · rw [hstep]
      exact .nil
  | true =>
    have hstep : (w.step kv key uid subKv e).accepted = w.accepted := by
      simp [Watch.step, hacc, hkeep]
    refine ⟨hframes, fun x hx => ?_, ?_⟩
    · rw [hstep] at hx
      obtain ⟨s, hs, v, hv, hle⟩ := h.covered x hx
      obtain ⟨s', hs', hsaved⟩ := hfind hkeep s hs
      exact ⟨s', hs', v, hsaved.trans hv, hle⟩
    · rw [hstep]
      exact h.ascending

/-- An event that accepts a sequence number greater than what was accepted. -/
theorem WatchInv.of_accepts {w : Watch} (h : WatchInv key uid w) {subKv : Kv} {e : Event}
    {x : UInt64} (hframes : InFrames key uid (w.node.step kv subKv e).seqnoTab)
    (hacc : w.node.accepts kv key uid e = [x])
    (hlt : w.node.keeps kv key e = true → ∀ y ∈ w.accepted, y < x) {s : SubSeqno} {v : SeqnoSave}
    (hfind : (w.node.step kv subKv e).seqnoTab.find key = some s) (hv : s.saved uid = some v)
    (hseq : v.seqno = x) : WatchInv key uid (w.step kv key uid subKv e) := by
  have hstep : (w.step kv key uid subKv e).accepted =
      (if w.node.keeps kv key e then w.accepted else []) ++ [x] := by
    rw [Watch.step, hacc]
  have hbelow : ∀ y ∈ (if w.node.keeps kv key e then w.accepted else []), y < x := by
    intro y hy
    split at hy
    · next hkeep => exact hlt hkeep y hy
    · cases hy
  refine ⟨hframes, fun y hy => ⟨s, hfind, v, hv, ?_⟩, ?_⟩
  · rw [hstep, List.mem_append, List.mem_singleton] at hy
    rw [hseq]
    rcases hy with hy | rfl
    · exact UInt64.le_of_lt (hbelow y hy)
    · exact UInt64.le_refl _
  · rw [hstep, List.pairwise_append]
    refine ⟨?_, List.pairwise_singleton _ _, fun y hy z hz => ?_⟩
    · split
      · exact h.ascending
      · exact .nil
    · rw [List.mem_singleton] at hz
      rw [hz]
      exact hbelow y hy

theorem accepts_recv (kv : SeqnoKv) (n : SubNode) (stamp : UInt64) (huid : pub.uid = uid) (hkey : pub.key = key) :
    n.accepts kv key uid (.recv pub stamp) =
      if (n.recv kv pub stamp).status.accepted = true then [pub.seqno] else [] := by
  simp [accepts, huid, hkey]

/-- A message of the publisher on the subject. -/
theorem WatchInv.recv_own {w : Watch} (h : WatchInv key uid w) (subKv : Kv) (huid : pub.uid = uid)
    (hkey : pub.key = key) (hord : InOrder kv key uid w (.recv pub stamp)) :
    WatchInv key uid (w.step kv key uid subKv (.recv pub stamp)) := by
  have hframes : InFrames key uid (w.node.step kv subKv (.recv pub stamp)).seqnoTab :=
    h.inFrames.recv hord
  obtain ⟨hbase, hframe⟩ := hord huid hkey
  have hacc := accepts_recv kv w.node stamp huid hkey
  subst huid hkey
  rcases recv_cases kv w.node pub stamp with ⟨-, hr⟩ | ⟨-, hkeep, hst, hr⟩ |
    ⟨-, hkeep, hst, s, hr, huid, hht, hseq, -⟩ | ⟨htrail, hkeep, s, s', ctx, hfind, hsaved, hr⟩
  · rw [hr] at hacc
    refine h.of_accepts_nil hframes hacc fun _ s hs => ⟨s, ?_, rfl⟩
    rw [step, hr]
    exact hs
  · rw [hst] at hacc
    exact h.of_accepts_nil hframes hacc fun hk => by simp [hkeep] at hk
  · rw [hst] at hacc
    refine h.of_accepts hframes hacc (fun hk => by simp [hkeep] at hk) ?_
      ((saved_started huid hht).trans (if_pos rfl)) hseq
    rw [step, hr]
    exact SeqnoTab.set_find _ _ _
  · have hnew := matchEntry_find kv pub (msgTime pub (recvArgs pub stamp))
      (w.node.seqnoTab.upsert pub.key).1 s' ctx
    rw [← hr] at hnew
    have hstatus : (w.node.recv kv pub stamp).status =
        (s'.receive kv pub.uid pub.seqno (msgTime pub (recvArgs pub stamp)) ctx).2.2 := by
      rw [hr]
      rfl
    cases hold : s.saved pub.uid with
    | none =>
      obtain ⟨hfirst, hv⟩ := SubSeqno.receive_none kv ctx pub.seqno
        (msgTime pub (recvArgs pub stamp)) ((hsaved _).trans hold)
      rw [hstatus, hfirst] at hacc
      refine h.of_accepts hframes hacc (fun _ y hy => ?_) hnew hv rfl
      -- what was accepted has a record
      obtain ⟨s₁, hs₁, v₁, hv₁, -⟩ := h.covered y hy
      obtain rfl := Option.some.inj (hfind.symm.trans hs₁)
      rw [hold] at hv₁
      cases hv₁
    | some v =>
      obtain ⟨v', hv', hs⟩ := SubSeqno.receive_some kv ctx ((hsaved _).trans hold)
        (h.inFrames s (SeqnoTab.find_holds hfind) v hold)
        (timeFrame_msgTime pub (recvArgs pub stamp)) hbase (hframe hkeep htrail s hfind v hold)
      rcases hs with ⟨hst, hlt, hseq, -⟩ | ⟨hst, rfl⟩
      · rw [hstatus, if_pos hst] at hacc
        refine h.of_accepts hframes hacc (fun _ y hy => ?_) hnew hv' hseq
        obtain ⟨s₁, hs₁, v₁, hv₁, hle⟩ := h.covered y hy
        obtain rfl := Option.some.inj (hfind.symm.trans hs₁)
        obtain rfl := Option.some.inj (hold.symm.trans hv₁)
        exact UInt64.lt_of_le_of_lt hle hlt
      · rw [hstatus, hst] at hacc
        refine h.of_accepts_nil hframes hacc fun _ s₁ hs₁ => ⟨_, hnew, ?_⟩
        obtain rfl := Option.some.inj (hfind.symm.trans hs₁)
        rw [hv', hold]

/-- An event that keeps the entry of the subject keeps the record of a publisher,
unless it is a message of it. -/
theorem step_keeps_record (subKv : Kv) {e : Event} (hkeep : n.keeps kv key e = true)
    (hother : ∀ pub stamp, e = .recv pub stamp → ¬ (pub.uid = uid ∧ pub.key = key)) {s : SubSeqno}
    (hs : n.seqnoTab.find key = some s) :
    ∃ s', (n.step kv subKv e).seqnoTab.find key = some s' ∧ s'.saved uid = s.saved uid := by
  cases e with
  | recv pub stamp =>
    by_cases hkey : pub.key = key
    · subst hkey
      have huid : uid ≠ pub.uid := fun heq => hother pub stamp rfl ⟨heq.symm, rfl⟩
      rcases recv_cases kv n pub stamp with ⟨-, hr⟩ | ⟨-, hk, -, -⟩ | ⟨-, hk, -, -⟩ |
        ⟨-, -, s₁, s', ctx, hfind, hsaved, hr⟩
      · refine ⟨s, ?_, rfl⟩
        rw [step, hr]
        exact hs
      · rw [hk] at hkeep
        cases hkeep
      · rw [hk] at hkeep
        cases hkeep
      · have hnew := matchEntry_find kv pub (msgTime pub (recvArgs pub stamp))
          (n.seqnoTab.upsert pub.key).1 s' ctx
        rw [← hr] at hnew
        obtain rfl := Option.some.inj (hfind.symm.trans hs)
        refine ⟨_, hnew, ?_⟩
        rw [SubSeqno.saved_receive_of_ne kv ctx _ _ _ huid, hsaved]
    · exact ⟨s, (SubNode.recv_other hkey).trans hs, rfl⟩
  | flip winSize winCount curTime doubleTime quadTime =>
    obtain ⟨s', hs'⟩ := Option.isSome_iff_exists.1 hkeep
    obtain rfl := Option.some.inj (hs.symm.trans (SeqnoTab.flip_find hs'))
    exact ⟨s, hs', rfl⟩
  | sub e => exact ⟨s, hs, rfl⟩

/-- A message of another publisher, or on another subject. -/
theorem WatchInv.recv_other {w : Watch} (h : WatchInv key uid w) (subKv : Kv)
    (hne : ¬ (pub.uid = uid ∧ pub.key = key)) :
    WatchInv key uid (w.step kv key uid subKv (.recv pub stamp)) := by
  have hframes : InFrames key uid (w.node.step kv subKv (.recv pub stamp)).seqnoTab :=
    h.inFrames.recv fun huid hkey => absurd ⟨huid, hkey⟩ hne
  have hacc : w.node.accepts kv key uid (.recv pub stamp) = [] := by
    rw [accepts, if_neg fun hall => hne ⟨hall.1, hall.2.1⟩]
  refine h.of_accepts_nil hframes hacc fun hkeep s hs => ?_
  refine step_keeps_record subKv hkeep (fun pub' stamp' heq => ?_) hs
  cases heq
  exact hne

theorem WatchInv.step {w : Watch} (h : WatchInv key uid w) (subKv : Kv) {e : Event}
    (hord : InOrder kv key uid w e) : WatchInv key uid (w.step kv key uid subKv e) := by
  cases e with
  | recv pub stamp =>
    by_cases hown : pub.uid = uid ∧ pub.key = key
    · exact h.recv_own subKv hown.1 hown.2 hord
    · exact h.recv_other subKv hown
  | flip winSize winCount curTime doubleTime quadTime =>
    refine h.of_accepts_nil (fun s hs => h.inFrames s (SeqnoTab.flip_holds hs)) rfl
      fun hkeep s hs => ?_
    refine step_keeps_record subKv hkeep (fun pub stamp heq => ?_) hs
    cases heq
  | sub e => exact h.of_accepts_nil h.inFrames rfl fun _ s hs => ⟨s, hs, rfl⟩

end Invariant

/-! ## Runs -/

section Runs

variable {kv : SeqnoKv} {key : RouteKey} {uid : UInt32}

theorem watchInv_start (db : SubDB) (curTime windowIval : UInt64) :
    WatchInv key uid ⟨⟨db, SeqnoTab.new curTime windowIval⟩, []⟩ := by
  refine ⟨fun s hs => ?_, fun x hx => ?_, .nil⟩
  · rcases hs with hs | hs | hs <;> cases hs
  · cases hx

/-- The window is past a sequence number at or below one that was accepted. -/
theorem WatchInv.past {w : Watch} (h : WatchInv key uid w) {pub : MsgFramePublish}
    {stamp : UInt64} (huid : pub.uid = uid) (hkey : pub.key = key)
    (hord : InOrder kv key uid w (.recv pub stamp))
    (hkeep : w.node.keeps kv key (.recv pub stamp) = true) {x : UInt64} (hx : x ∈ w.accepted)
    (hle : pub.seqno ≤ x) : w.node.Past kv pub stamp := by
  obtain ⟨hbase, hframe⟩ := hord huid hkey
  subst huid hkey
  cases htrail : w.node.isTrailing pub (recvArgs pub stamp) with
  | true => exact .inl htrail
  | false =>
    obtain ⟨s, hs, v, hv, hxv⟩ := h.covered x hx
    exact .inr ⟨hkeep, hbase, s, hs, v, hv, h.inFrames s (SeqnoTab.find_holds hs) v hv,
      hframe hkeep htrail s hs v hv, UInt64.le_trans hle hxv⟩

/-- **No sequence number is accepted twice.** In every run in which the messages of
a publisher on a subject come in the order of their frames, what is accepted from it
ascends, and a message at or below what was accepted is a repeat, while the window
has the entry of the subject and the subscription is unchanged. -/
theorem accepted_ascends (kv : SeqnoKv) (subKv : Kv) (key : RouteKey) (uid : UInt32) {db : SubDB}
    {curTime windowIval : UInt64} {w : Watch}
    (h : Run.Reach (Watch.step kv key uid subKv) (InOrder kv key uid)
      ⟨⟨db, SeqnoTab.new curTime windowIval⟩, []⟩ w) :
    w.accepted.Pairwise (· < ·) ∧
      ∀ pub stamp, pub.uid = uid → pub.key = key → InOrder kv key uid w (.recv pub stamp) →
        w.node.keeps kv key (.recv pub stamp) = true → ∀ x ∈ w.accepted, pub.seqno ≤ x →
          (w.node.recv kv pub stamp).status = .uidRepeat := by
  have hinv : WatchInv key uid w := h.invariant (watchInv_start db curTime windowIval)
    fun w e hw hord => hw.step subKv hord
  exact ⟨hinv.ascending, fun pub stamp huid hkey hord hkeep x hx hle =>
    (hinv.past huid hkey hord hkeep hx hle).recv⟩

/-- No patterns match, and the tables have no size. -/
def plainKv : SeqnoKv where
  maxMsgLoss := 1000
  msgFrameLoss := 1001
  htSize _ := 0
  tabSize _ := 0
  patMatch _ _ _ := false

/-- A node that is subscribed to a subject, with a window of ten seconds. -/
def subscribed : SubNode :=
  ⟨(SubDB.init 10 1 11 2).step SubDB.prefixKv (.ipcSubStart [65] 7 0 ∅),
    SeqnoTab.new 25769803776 10000000000⟩

/-- A message on the subject, at the start of its frame. -/
def framed (uid : UInt32) (frame base chain : UInt64) : MsgFramePublish :=
  ⟨uid, 0, 7, [65], [7], frame <<< 35 + base, frame <<< 33, chain⟩

/-- A publisher starts a new frame, while another one publishes. -/
theorem accepted_ascends_newFrame :
    let w := [.recv (framed 1 2 1 0) 0, .recv (framed 2 2 5 0) 0,
      .recv (framed 1 3 1 68719476737) 0].foldl
      (Watch.step plainKv ⟨7, [65]⟩ 1 SubDB.prefixKv) ⟨subscribed, []⟩
    w.accepted.Pairwise (· < ·) ∧
      ∀ pub stamp, pub.uid = 1 → pub.key = ⟨7, [65]⟩ →
        InOrder plainKv ⟨7, [65]⟩ 1 w (.recv pub stamp) →
        w.node.keeps plainKv ⟨7, [65]⟩ (.recv pub stamp) = true → ∀ x ∈ w.accepted, pub.seqno ≤ x →
          (w.node.recv plainKv pub stamp).status = .uidRepeat := by
  refine accepted_ascends plainKv SubDB.prefixKv _ _ (Run.Reach.foldl .start ⟨?_, ?_, ?_, trivial⟩)
  · refine fun _ _ => ⟨by decide, fun _ _ s hs => ?_⟩
    cases hs
  · intro huid
    exact absurd huid (by decide)
  · refine fun _ _ => ⟨by decide, fun _ _ s hs v hv => ?_⟩
    obtain rfl := Option.some.inj hs
    obtain rfl := Option.some.inj hv
    decide

/-- The last message of the old frame comes again after the first one of the new
frame: it is taken for a new sequence and accepted a second time. -/
theorem old_frame_accepted_twice :
    let w := [.recv (framed 1 2 1 0) 0, .recv (framed 1 3 1 68719476737) 0].foldl
      (Watch.step plainKv ⟨7, [65]⟩ 1 SubDB.prefixKv) ⟨subscribed, []⟩
    w.accepted = [68719476737, 103079215105] ∧ (framed 1 2 1 0).seqno = 68719476737 ∧
      w.node.keeps plainKv ⟨7, [65]⟩ (.recv (framed 1 2 1 0) 0) = true ∧
      (w.node.recv plainKv (framed 1 2 1 0) 0).status = .uidCycle ∧
      ¬ (w.step plainKv ⟨7, [65]⟩ 1 SubDB.prefixKv (.recv (framed 1 2 1 0) 0)).accepted.Pairwise
        (· < ·) := by
  decide

end Runs

end SubNode

end Raims
