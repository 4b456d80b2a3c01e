import Raims.Sub.MatchSeqno
import Raims.Sub.SeqnoGenerations

/-!
# What the window forgets

A subject that three flips have passed is gone from the window, and a message that was
accepted before would be first again. Its time is compared with the trailing edge, which
is the time of the flip before the last one: by then the subject had been passed twice,
so everything accepted on it is older than the edge. The comparison is left out for a
message without a time and for this node's own messages.
-/

namespace Raims

/-- A sequence number that was accepted, and the clock when it was. -/
structure Accepted where
  uid : UInt32
  key : RouteKey
  seqno : UInt64
  clock : UInt64

def Accepted.Is (a : Accepted) (pub : MsgFramePublish) : Prop :=
  a.uid = pub.uid ∧ a.key = pub.key ∧ a.seqno = pub.seqno

instance (a : Accepted) (pub : MsgFramePublish) : Decidable (a.Is pub) :=
  inferInstanceAs (Decidable (_ ∧ _ ∧ _))

/-- A node, its clock, and what it has accepted on the subjects it is subscribed to. -/
structure SeqnoHistory where
  node : SubNode
  clock : UInt64
  accepted : List Accepted

namespace SeqnoHistory

open SubNode (Event recvArgs)

variable (kv : SeqnoKv)

def start (db : SubDB) (curTime windowIval : UInt64) : SeqnoHistory :=
  ⟨⟨db, .new curTime windowIval⟩, curTime, []⟩

/-- A subject that is not subscribed is removed and not evicted. -/
def record (accepted : List Accepted) (pub : MsgFramePublish) (stamp : UInt64)
    (status : SeqnoStatus) : List Accepted :=
  let kept := if status = .notSubscr then accepted.filter (·.key ≠ pub.key) else accepted
  if status.accepted then ⟨pub.uid, pub.key, pub.seqno, stamp⟩ :: kept else kept

def step (subKv : Kv) (w : SeqnoHistory) (e : Event) : SeqnoHistory where
  node := w.node.step kv subKv e
  clock :=
    match e with
    | .recv _ stamp => stamp
    | .flip _ _ curTime _ _ => curTime
    | .sub _ => w.clock
  accepted :=
    match e with
    | .recv pub stamp => record w.accepted pub stamp (w.node.recv kv pub stamp).status
    | _ => w.accepted

/-- The clock never goes back. -/
def ClockForward (w : SeqnoHistory) : Event → Prop
  | .recv _ stamp => w.clock ≤ stamp
  | .flip _ _ curTime _ _ => w.clock ≤ curTime
  | .sub _ => True

instance decidableClockForward (w : SeqnoHistory) : ∀ e : Event, Decidable (w.ClockForward e)
  | .recv _ stamp => inferInstanceAs (Decidable (w.clock ≤ stamp))
  | .flip _ _ curTime _ _ => inferInstanceAs (Decidable (w.clock ≤ curTime))
  | .sub _ => inferInstanceAs (Decidable True)

/-- A message that was accepted before has an entry in the window, or it is before the
trailing edge and refused. -/
def NotForgotten (w : SeqnoHistory) : Event → Prop
  | .recv pub stamp =>
    (∃ a ∈ w.accepted, a.Is pub) → (w.node.seqnoTab.find pub.key).isSome = true ∨
      (w.node.isTrailing pub (recvArgs pub stamp) = true ∧
        (w.node.recv kv pub stamp).status = .uidRepeat)
  | _ => True

/-- A message that was accepted before is of another node and has a time, which is, with
the skew, before the clock when it was accepted. -/
def TimedRepeat (w : SeqnoHistory) : Event → Prop
  | .recv pub _ =>
    ∀ a ∈ w.accepted, a.Is pub →
      pub.uid ≠ 0 ∧ pub.time ≠ 0 ∧ pub.time + pub.skew < a.clock
  | _ => True

/-! ## The ages of the entries -/

/-- What is not in the newest generation is older than the last flip, and what is not in
the one after it, older than the flip before. -/
structure Aged (t : SeqnoTab) (a : Accepted) : Prop where
  flip : t.tab.lookup a.key = none → a.clock ≤ t.flipTime
  trailing : t.tab.lookup a.key = none → t.tabOld.lookup a.key = none → a.clock ≤ t.trailingTime

structure Inv (w : SeqnoHistory) : Prop where
  flip_le : w.node.seqnoTab.flipTime ≤ w.clock
  clock_le : ∀ a ∈ w.accepted, a.clock ≤ w.clock
  aged : ∀ a ∈ w.accepted, Aged w.node.seqnoTab a

variable {kv} {subKv : Kv} {w : SeqnoHistory} {n : SubNode} {pub : MsgFramePublish} {stamp : UInt64}
  {a : Accepted} {t t' : SeqnoTab}

theorem Aged.congr (h : Aged t a) (htab : t'.tab.lookup a.key = t.tab.lookup a.key)
    (hold : t'.tabOld.lookup a.key = t.tabOld.lookup a.key) (hflip : t'.flipTime = t.flipTime)
    (htrail : t'.trailingTime = t.trailingTime) : Aged t' a := by
  constructor
  · rw [htab, hflip]
    exact h.flip
  · rw [htab, hold, htrail]
    exact h.trailing

/-- What is in the newest generation is not aged at all. -/
theorem Aged.of_newest {s : SubSeqno} (h : t.tab.lookup a.key = some s) : Aged t a := by
  constructor
  · intro hnone
    rw [h] at hnone
    cases hnone
  · intro hnone
    rw [h] at hnone
    cases hnone

theorem Aged.turned (h : Aged t a) {curTime : UInt64} (hclock : a.clock ≤ curTime) :
    Aged (t.turned curTime) a :=
  ⟨fun _ => hclock, fun _ => h.flip⟩

theorem inv_start (db : SubDB) (curTime windowIval : UInt64) :
    (start db curTime windowIval).Inv where
  flip_le := UInt64.le_refl _
  clock_le _ ha := nomatch ha
  aged _ ha := nomatch ha

/-! ## A message -/

theorem times_upsert (t : SeqnoTab) (key : RouteKey) :
    (t.upsert key).1.flipTime = t.flipTime ∧ (t.upsert key).1.trailingTime = t.trailingTime := by
  unfold SeqnoTab.upsert
  split
  · exact ⟨rfl, rfl⟩
  · split
    · exact ⟨rfl, rfl⟩
    · split
      · exact ⟨rfl, rfl⟩
      · exact ⟨rfl, rfl⟩

/-- A message does not move the edges. -/
theorem times_recv (kv : SeqnoKv) (n : SubNode) (pub : MsgFramePublish) (stamp : UInt64) :
    (n.recv kv pub stamp).seqnoTab.flipTime = n.seqnoTab.flipTime ∧
      (n.recv kv pub stamp).seqnoTab.trailingTime = n.seqnoTab.trailingTime := by
  have hup := times_upsert n.seqnoTab pub.key
  rcases SubNode.recv_branches kv n pub stamp with ⟨-, hr⟩ | ⟨-, ⟨-, -, hr⟩ | ⟨-, -, hr⟩ |
    ⟨s, -, -, -, -, hr⟩ | ⟨s, -, -, hr⟩⟩
  · rw [hr]
    exact ⟨rfl, rfl⟩
  · rw [hr]
    exact hup
  · rw [hr]
    exact hup
  · rw [hr]
    exact hup
  · rw [hr]
    exact hup

/-- A message leaves the entries of the other subjects where they are. -/
theorem lookup_recv_of_ne (kv : SeqnoKv) (n : SubNode) (stamp : UInt64) {key : RouteKey} (hne : key ≠ pub.key) :
    (n.recv kv pub stamp).seqnoTab.tab.lookup key = n.seqnoTab.tab.lookup key ∧
      (n.recv kv pub stamp).seqnoTab.tabOld.lookup key = n.seqnoTab.tabOld.lookup key := by
  obtain ⟨h1, h2, -⟩ := n.seqnoTab.upsert_lookup_of_ne hne
  have hset (s : SubSeqno) :
      ((n.seqnoTab.upsert pub.key).1.tab.insert pub.key s).lookup key =
        n.seqnoTab.tab.lookup key := (AList.lookup_insert_ne hne).trans h1
  have herase (tab : RouteVec SubSeqno) (p : Prop) [Decidable p] :
      (if p then tab.erase pub.key else tab).lookup key = tab.lookup key := by
    split
    · exact AList.lookup_erase_ne hne
    · rfl
  rcases SubNode.recv_branches kv n pub stamp with ⟨-, hr⟩ | ⟨-, ⟨-, -, hr⟩ | ⟨-, -, hr⟩ |
    ⟨s, -, -, -, -, hr⟩ | ⟨s, -, -, hr⟩⟩
  · rw [hr]
    exact ⟨rfl, rfl⟩
  · rw [hr]
    exact ⟨(AList.lookup_erase_ne hne).trans h1, (herase _ _).trans h2⟩
  · rw [hr]
    exact ⟨hset _, h2⟩
  · rw [hr]
    exact ⟨hset _, h2⟩
  · rw [hr]
    exact ⟨hset _, h2⟩

/-- A message is refused by the edge, its subject is removed, or its entry is in the
newest generation. -/
theorem recv_newest (kv : SeqnoKv) (n : SubNode) (pub : MsgFramePublish) (stamp : UInt64) :
    ((n.recv kv pub stamp).seqnoTab = n.seqnoTab ∧ (n.recv kv pub stamp).status = .uidRepeat) ∨
      (n.recv kv pub stamp).status = .notSubscr ∨
      ∃ s, (n.recv kv pub stamp).seqnoTab.tab.lookup pub.key = some s := by
  rcases SubNode.recv_branches kv n pub stamp with ⟨-, hr⟩ | ⟨-, ⟨-, -, hr⟩ | ⟨-, -, hr⟩ |
    ⟨s, -, -, -, -, hr⟩ | ⟨s, -, -, hr⟩⟩
  · rw [hr]
    exact .inl ⟨rfl, rfl⟩
  · rw [hr]
    exact .inr (.inl rfl)
  · rw [hr]
    exact .inr (.inr ⟨_, AList.lookup_insert _⟩)
  · rw [hr]
    exact .inr (.inr ⟨_, AList.lookup_insert _⟩)
  · rw [hr]
    exact .inr (.inr ⟨_, AList.lookup_insert _⟩)

theorem mem_record {accepted : List Accepted} {status : SeqnoStatus}
    (h : a ∈ record accepted pub stamp status) :
    (a ∈ accepted ∧ (status = .notSubscr → a.key ≠ pub.key)) ∨
      (status.accepted = true ∧ a = ⟨pub.uid, pub.key, pub.seqno, stamp⟩) := by
  have hkept {a : Accepted}
      (ha : a ∈ if status = .notSubscr then accepted.filter (·.key ≠ pub.key) else accepted) :
      a ∈ accepted ∧ (status = .notSubscr → a.key ≠ pub.key) := by
    split at ha
    · rw [List.mem_filter, decide_eq_true_eq] at ha
      exact ⟨ha.1, fun _ => ha.2⟩
    · next hne => exact ⟨ha, fun heq => absurd heq hne⟩
  unfold record at h
  dsimp only at h
  split at h
  · next hacc =>
      rcases List.mem_cons.1 h with rfl | h
      · exact .inr ⟨hacc, rfl⟩
      · exact .inl (hkept h)
  · exact .inl (hkept h)

theorem Inv.recv (h : w.Inv) (hclock : w.clock ≤ stamp) :
    (w.step kv subKv (.recv pub stamp)).Inv := by
  obtain ⟨hflip, htrail⟩ := times_recv kv w.node pub stamp
  constructor
  · show (w.node.recv kv pub stamp).seqnoTab.flipTime ≤ stamp
    rw [hflip]
    exact UInt64.le_trans h.flip_le hclock
  · intro a ha
    rcases mem_record ha with ⟨ha, -⟩ | ⟨-, rfl⟩
    · exact UInt64.le_trans (h.clock_le a ha) hclock
    · exact UInt64.le_refl _
  · intro a ha
    show Aged (w.node.recv kv pub stamp).seqnoTab a
    by_cases hkey : a.key = pub.key
    · rcases recv_newest kv w.node pub stamp with ⟨hsame, hrepeat⟩ | hnot | ⟨s, hs⟩
      · rw [hsame]
        rcases mem_record ha with ⟨ha, -⟩ | ⟨hacc, -⟩
        · exact h.aged a ha
        · rw [hrepeat] at hacc
          cases hacc
      · rcases mem_record ha with ⟨-, hne⟩ | ⟨hacc, -⟩
        · exact absurd hkey (hne hnot)
        · rw [hnot] at hacc
          cases hacc
      · rw [← hkey] at hs
        exact .of_newest hs
    · rcases mem_record ha with ⟨ha, -⟩ | ⟨-, rfl⟩
      · obtain ⟨h1, h2⟩ := lookup_recv_of_ne kv w.node stamp hkey
        exact (h.aged a ha).congr h1 h2 hflip htrail
      · exact absurd rfl hkey

/-! ## Runs -/

theorem Inv.step (h : w.Inv) {e : Event} (hclock : w.ClockForward e) :
    (w.step kv subKv e).Inv := by
  cases e with
  | recv pub stamp => exact h.recv hclock
  | flip winSize winCount curTime doubleTime quadTime =>
    have heq : (w.step kv subKv (.flip winSize winCount curTime doubleTime quadTime)).node.seqnoTab =
        if w.node.seqnoTab.flips kv winSize winCount doubleTime quadTime then
          w.node.seqnoTab.turned curTime else w.node.seqnoTab := SeqnoTab.flip_eq _ _ _ _ _ _ _
    have hle : ∀ a ∈ w.accepted, a.clock ≤ curTime := by
      intro a ha
      exact UInt64.le_trans (h.clock_le a ha) hclock
    split at heq
    · constructor
      · rw [heq]
        exact UInt64.le_refl _
      · exact hle
      · intro a ha
        rw [heq]
        exact (h.aged a ha).turned (hle a ha)
    · constructor
      · rw [heq]
        exact UInt64.le_trans h.flip_le hclock
      · exact hle
      · intro a ha
        rw [heq]
        exact h.aged a ha
  | sub e => exact ⟨h.flip_le, h.clock_le, h.aged⟩

theorem Inv.notForgotten (h : w.Inv) {e : Event} (htimed : w.TimedRepeat e) :
    w.NotForgotten kv e := by
  cases e with
  | recv pub stamp =>
    rintro ⟨a, ha, his⟩
    obtain ⟨huid, htime, hlt⟩ := htimed a ha his
    cases hfind : w.node.seqnoTab.find pub.key with
    | some s => exact .inl rfl
    | none =>
      right
      unfold SeqnoTab.find at hfind
      have htab : w.node.seqnoTab.tab.lookup pub.key = none := by
        cases h1 : w.node.seqnoTab.tab.lookup pub.key with
        | none => rfl
        | some p =>
          rw [h1] at hfind
          cases hfind
      have hold : w.node.seqnoTab.tabOld.lookup pub.key = none := by
        rw [htab] at hfind
        cases h2 : w.node.seqnoTab.tabOld.lookup pub.key with
        | none => rfl
        | some p =>
          rw [h2] at hfind
          cases hfind
      rw [← his.2.1] at htab hold
      have hedge := UInt64.lt_of_lt_of_le hlt ((h.aged a ha).trailing htab hold)
      have htrail : w.node.isTrailing pub (recvArgs pub stamp) = true := by
        simp only [SubNode.isTrailing, Bool.and_eq_true, decide_eq_true_eq]
        exact ⟨huid, hedge, htime⟩
      refine ⟨htrail, ?_⟩
      rw [SubNode.recv, SubNode.matchSeqno, if_pos htrail]
  | flip | sub => trivial

/-- **Nothing is accepted again because it was evicted**, as long as what comes again has
the time it was published, before it was accepted. -/
theorem evicted_refused (kv : SeqnoKv) (subKv : Kv) (db : SubDB) (curTime windowIval : UInt64)
    {es : List Event}
    (h : Run.AllOk (step kv subKv) (fun w e => w.ClockForward e ∧ w.TimedRepeat e)
      (start db curTime windowIval) es) :
    Run.AllOk (step kv subKv) (NotForgotten kv) (start db curTime windowIval) es := by
  refine h.imp_of_invariant (fun (w : SeqnoHistory) e (hw : w.Inv) hok => hw.step hok.1) ?_ ?_
  · intro w e hw hok
    exact hw.notForgotten hok.2
  · exact inv_start db curTime windowIval

/-- Flips that nothing puts off. -/
def threeFlips : List Event :=
  [.flip 0 0 30000000000 true false, .flip 0 0 40000000000 true false,
    .flip 0 0 50000000000 true false]

/-- A message on the subscribed subject. -/
def published (time : UInt64) : MsgFramePublish :=
  ⟨1, 0, 7, [65], [7], (3 : UInt64) <<< 35 + 1, time, 0⟩

/-- A message that is received, evicted and received again. -/
def again (time : UInt64) : List Event :=
  .recv (published time) 26000000000 :: threeFlips ++ [.recv (published time) 60000000000]

theorem evicted_refused_again :
    Run.AllOk (step SeqnoStore.fullKv SubDB.prefixKv)
        (fun w e => w.ClockForward e ∧ w.TimedRepeat e)
        (start SubNode.subscribed.db 25769803776 10000000000) (again 25769803776) ∧
      Run.AllOk (step SeqnoStore.fullKv SubDB.prefixKv) (NotForgotten SeqnoStore.fullKv)
        (start SubNode.subscribed.db 25769803776 10000000000) (again 25769803776) := by
  have hok : Run.AllOk (step SeqnoStore.fullKv SubDB.prefixKv)
      (fun w e => w.ClockForward e ∧ w.TimedRepeat e)
      (start SubNode.subscribed.db 25769803776 10000000000) (again 25769803776) := by
    refine ⟨⟨by decide, fun a ha => nomatch ha⟩, ⟨by decide, trivial⟩, ⟨by decide, trivial⟩,
      ⟨by decide, trivial⟩, ⟨by decide, ?_⟩, trivial⟩
    intro a ha _
    obtain rfl := List.mem_singleton.1 ha
    decide
  exact ⟨hok, evicted_refused _ _ _ _ _ hok⟩

/-- The same message without a time is accepted a second time. -/
theorem evicted_accepted_again :
    ¬ ∀ (kv : SeqnoKv) (subKv : Kv) (db : SubDB) (curTime windowIval : UInt64) (es : List Event),
      Run.AllOk (step kv subKv) ClockForward (start db curTime windowIval) es →
        Run.AllOk (step kv subKv) (NotForgotten kv) (start db curTime windowIval) es := by
  intro h
  have hrun := h SeqnoStore.fullKv SubDB.prefixKv SubNode.subscribed.db 25769803776 10000000000
    (again 0) ⟨by decide, by decide, by decide, by decide, by decide, trivial⟩
  have hlast := hrun.2.2.2.2.1
  rcases hlast ⟨_, List.mem_singleton.2 rfl, by decide⟩ with hfound | ⟨htrail, -⟩
  · revert hfound
    decide
  · revert htrail
    decide

end SeqnoHistory

end Raims
