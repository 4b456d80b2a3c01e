import Raims.LinkState.UpdateCost

/-!
# The cost of a link between two nodes

Each side puts the cost of the transport in its heartbeats and its answers to a
challenge, if the cost is its own, and gives what it reads to `update_cost`. A
side that has no cost of its own, or a younger one, yields to the other, and the
other never changes: in whatever order the messages arrive, and however often,
the side that yields ends with the other's cost.

A transport at `COST_BAD` takes no cost, and a cost is sent as text, which does
not give every cost back.
-/

namespace Raims

/-- The text of the cost is read as the same cost. -/
def AdjCost.ReadsBack (c : AdjCost) : Prop := AdjCost.parse c.str = (c, .ok)

instance (c : AdjCost) : Decidable c.ReadsBack :=
  inferInstanceAs (Decidable (AdjCost.parse c.str = (c, .ok)))

/-! ## The two sides -/

/-- What `update_cost` gets of a heartbeat or an authentication message; `version`
counts the changes of the sender's cost before it was sent. -/
structure CostMsg where
  cost : Option (List UInt8)
  tportId : ℕ
  version : ℕ

/-- `FID_ADJ_COST` is looked at only if `parse` returns `COST_OK`. -/
def CostMsg.read (m : CostMsg) : Option AdjCost :=
  m.cost.bind fun text =>
    if (AdjCost.parse text).2 = .ok then some (AdjCost.parse text).1 else none

/-- One side: the node, its transport, and the uid the other side has there. What
follows is the history: the changes of the cost, the versions of the other's cost
that were read, and the messages sent. -/
structure LinkSide where
  node : CostState
  tport : ℕ
  peer : ℕ
  changes : ℕ
  seen : Finset ℕ
  outbox : List CostMsg

namespace LinkSide

variable (s : LinkSide)

def set : AdjacencySpace := s.node.uidConnected s.tport

def cost : AdjCost := s.set.cost

def isAdvertised : Bool := (s.node.flags s.tport).isAdvertised

def startTime : ℕ := s.node.routes.startTime

def send : LinkSide :=
  { s with
    outbox := s.outbox ++
      [⟨if s.isAdvertised then some s.cost.str else none, s.tport, s.changes⟩] }

def receive (m : CostMsg) : LinkSide :=
  let node := (s.node.updateCost s.peer s.tport m.read m.tportId).1
  { s with
    node := node
    changes := if (node.uidConnected s.tport).cost = s.cost then s.changes else s.changes + 1
    seen := insert m.version s.seen }

/-- `s` takes the cost of `o`. -/
def Yields (o : LinkSide) : Prop :=
  o.isAdvertised ∧ (!s.isAdvertised ∨ o.startTime < s.startTime)

/-- `s` is one end of a point-to-point transport whose other end is `o`. -/
structure Joined (s o : LinkSide) : Prop where
  peer : s.peer ≠ 0
  mcast : (s.node.flags s.tport).isMcast = false
  mesh : (s.node.flags s.tport).isMesh = false
  start : s.node.routes.peerStartTime s.peer = o.startTime
  rem : s.set.remUid = 0 ∨ s.set.remUid = s.peer ∧ s.set.remTportId = o.tport
  sent : ∀ m ∈ s.outbox, m.tportId = s.tport

/-- Nothing was sent or read yet. -/
structure Fresh (s : LinkSide) : Prop where
  changes : s.changes = 0
  seen : s.seen = ∅
  outbox : s.outbox = []

end LinkSide

/-- The two sides; a message stays in the outbox, so it may be read any number of
times, in any order, or never. -/
structure CostLink where
  a : LinkSide
  b : LinkSide

namespace CostLink

inductive Event where
  | sendA
  | sendB
  | recvA (i : ℕ)
  | recvB (i : ℕ)

def step (l : CostLink) : Event → CostLink
  | .sendA => { l with a := l.a.send }
  | .sendB => { l with b := l.b.send }
  | .recvA i => { l with a := (l.b.outbox[i]?).elim l.a l.a.receive }
  | .recvB i => { l with b := (l.a.outbox[i]?).elim l.b l.b.receive }

/-- Each side has read a message that was sent after the last change of the
other's cost. -/
def Synced (l : CostLink) : Prop :=
  l.b.changes ∈ l.a.seen ∧ l.a.changes ∈ l.b.seen

instance (l : CostLink) : Decidable l.Synced :=
  inferInstanceAs (Decidable (l.b.changes ∈ l.a.seen ∧ l.a.changes ∈ l.b.seen))

/-- Two nodes of different age, joined by a transport. -/
structure Start (l : CostLink) : Prop where
  joinedA : l.a.Joined l.b
  joinedB : l.b.Joined l.a
  freshA : l.a.Fresh
  freshB : l.b.Fresh
  age : l.a.startTime ≠ l.b.startTime

/-- `x` can take the cost of `w`. -/
def CanTake (x w : LinkSide) : Prop :=
  (x.cost.maxCost ≠ COST_BAD ∨ x.cost = w.cost) ∧ w.cost.ReadsBack

/-- The side that yields can take the other's cost; where neither yields the costs
are the same from the start. -/
structure CanAgree (l : CostLink) : Prop where
  a : l.a.Yields l.b → CanTake l.a l.b
  b : l.b.Yields l.a → CanTake l.b l.a
  neither : ¬ l.a.isAdvertised → ¬ l.b.isAdvertised → l.a.cost = l.b.cost

end CostLink

/-! ## What `update_cost` does to a transport that is in no mesh -/

namespace CostState

variable (g : CostState) (uid t : ℕ) (cost : Option AdjCost) (remTportId : ℕ)

theorem uidConnected_updateCost (hmesh : (g.flags t).isMesh = false) :
    (g.updateCost uid t cost remTportId).1.uidConnected t =
      if (g.uidConnected t).refuses (g.flags t).isMcast uid remTportId then g.uidConnected t
      else
        { ((g.uidConnected t).updateRem (g.remYounger uid t) uid remTportId).getD
            (g.uidConnected t) with
          cost := (g.takenCost uid t cost).getD (g.uidConnected t).cost } := by
  split
  · next href => simp only [updateCost, href, if_true]
  · next href =>
      cases hc : g.takenCost uid t cost with
      | some c =>
        simp only [updateCost, href, hc, appendAdjacency, putSet,
          hmesh]
        exact (uidConnected_putSet g t _ t).trans (if_pos rfl)
      | none =>
        cases hrem : (g.uidConnected t).updateRem (g.remYounger uid t) uid remTportId with
        | none => simp [updateCost, href, hc, hrem]
        | some set =>
          have hcost := (members_updateRem hrem).2
          simp only [updateCost, href, hc, hrem]
          refine ((uidConnected_putSet g t set t).trans (if_pos rfl)).trans ?_
          simp [← hcost]

/-- What no message changes. -/
theorem frame_updateCost :
    (g.updateCost uid t cost remTportId).1.flags = g.flags ∧
      (g.updateCost uid t cost remTportId).1.routes.startTime = g.routes.startTime ∧
      (g.updateCost uid t cost remTportId).1.routes.bridgeTab = g.routes.bridgeTab := by
  rcases updateCost_cases g uid t cost remTportId with heq | ⟨set, -, heq | ⟨-, -, c, -, heq⟩⟩
  · rw [heq]
    exact ⟨rfl, rfl, rfl⟩
  · rw [heq]
    exact ⟨rfl, rfl, rfl⟩
  · rw [heq]
    exact ⟨rfl, rfl, rfl⟩

end CostState

/-! ## One message -/

namespace LinkSide

section Receive

variable {s o : LinkSide} {m : CostMsg}

@[simp] theorem isAdvertised_receive (s : LinkSide) (m : CostMsg) :
    (s.receive m).isAdvertised = s.isAdvertised :=
  congrArg (fun f : ℕ → TportFlags => (f s.tport).isAdvertised)
    (CostState.frame_updateCost s.node s.peer s.tport m.read m.tportId).1

@[simp] theorem startTime_receive (s : LinkSide) (m : CostMsg) :
    (s.receive m).startTime = s.startTime :=
  (CostState.frame_updateCost s.node s.peer s.tport m.read m.tportId).2.1

/-- The remote end does not make a message of the other side be refused. -/
theorem Joined.refuses_iff (h : s.Joined o) (hm : m.tportId = o.tport) :
    s.set.refuses (s.node.flags s.tport).isMcast s.peer m.tportId ↔
      s.cost.maxCost = COST_BAD := by
  have hrem : ¬ (s.set.remUid ≠ 0 ∧
      (s.peer ≠ s.set.remUid ∨ m.tportId ≠ s.set.remTportId)) := by
    rintro ⟨hne, hdiff⟩
    rcases h.rem with h0 | ⟨hu, ht⟩
    · exact hne h0
    · rw [hu, ht, hm] at hdiff
      simp at hdiff
  have hrem' : s.set.remUid ≠ 0 →
      ¬ (s.peer ≠ s.set.remUid ∨ m.tportId ≠ s.set.remTportId) :=
    fun hne hdiff => hrem ⟨hne, hdiff⟩
  simp only [AdjacencySpace.refuses, h.mcast, decide_eq_true_eq]
  constructor
  · rintro (hbad | ⟨hne, -, hdiff⟩)
    · exact hbad
    · exact absurd hdiff (hrem' hne)
  · exact Or.inl

/-- The set after a message. -/
theorem Joined.set_receive (h : s.Joined o) (hm : m.tportId = o.tport) :
    (s.receive m).set =
      if s.cost.maxCost = COST_BAD then s.set
      else
        { (s.set.updateRem (s.node.remYounger s.peer s.tport) s.peer m.tportId).getD s.set with
          cost := (s.node.takenCost s.peer s.tport m.read).getD s.cost } := by
  have hset := CostState.uidConnected_updateCost s.node s.peer s.tport m.read m.tportId h.mesh
  refine hset.trans ?_
  by_cases hbad : s.cost.maxCost = COST_BAD
  · have href : (s.node.uidConnected s.tport).refuses (s.node.flags s.tport).isMcast s.peer
        m.tportId := (h.refuses_iff hm).mpr hbad
    rw [if_pos hbad, if_pos href]
    rfl
  · have href : ¬ (s.node.uidConnected s.tport).refuses (s.node.flags s.tport).isMcast s.peer
        m.tportId := mt (h.refuses_iff hm).mp hbad
    rw [if_neg hbad, if_neg href]
    rfl

theorem Joined.receive (h : s.Joined o) (hm : m.tportId = o.tport) :
    (s.receive m).Joined o := by
  obtain ⟨hflags, hstart, hbridge⟩ :=
    CostState.frame_updateCost s.node s.peer s.tport m.read m.tportId
  refine ⟨h.peer, ?_, ?_, ?_, ?_, h.sent⟩
  · exact (congrArg (fun f : ℕ → TportFlags => (f s.tport).isMcast) hflags).trans h.mcast
  · exact (congrArg (fun f : ℕ → TportFlags => (f s.tport).isMesh) hflags).trans h.mesh
  · refine Eq.trans ?_ h.start
    show (((s.receive m).node.routes.bridgeTab s.peer).elim 0 PeerBridge.startTime) = _
    exact congrArg (fun b : ℕ → Option PeerBridge => (b s.peer).elim 0 PeerBridge.startTime)
      hbridge
  · show (s.receive m).set.remUid = 0 ∨
      (s.receive m).set.remUid = s.peer ∧ (s.receive m).set.remTportId = o.tport
    rw [h.set_receive hm]
    split
    · exact h.rem
    · -- the first message sets the remote end, the others find it set
      simp only [AdjacencySpace.updateRem]
      rcases h.rem with h0 | ⟨hu, ht⟩
      · simp [h0, hm]
      · right
        simp only [hu, h.peer, if_false, if_true]
        split
        · exact ⟨rfl, hm⟩
        · exact ⟨hu, ht⟩

theorem Joined.of_other {o' : LinkSide} (h : s.Joined o) (ht : o'.tport = o.tport)
    (hs : o'.startTime = o.startTime) : s.Joined o' :=
  ⟨h.peer, h.mcast, h.mesh, by rw [h.start, hs], by rw [ht]; exact h.rem, h.sent⟩

theorem Joined.send (h : s.Joined o) : s.send.Joined o := by
  refine ⟨h.peer, h.mcast, h.mesh, h.start, h.rem, ?_⟩
  intro m hm
  rcases List.mem_append.mp hm with hm | hm
  · exact h.sent m hm
  · rw [List.mem_singleton.mp hm]
    rfl

/-- A message without a cost leaves the cost. -/
theorem Joined.cost_receive_none (h : s.Joined o) (hm : m.tportId = o.tport)
    (hread : m.read = none) : (s.receive m).cost = s.cost := by
  show (s.receive m).set.cost = s.cost
  rw [h.set_receive hm, hread]
  split <;> rfl

/-- A side that advertises ignores a younger one. -/
theorem Joined.cost_receive_younger (h : s.Joined o) (hm : m.tportId = o.tport)
    (hadv : s.isAdvertised) (hage : ¬ o.startTime < s.startTime) :
    (s.receive m).cost = s.cost := by
  have htaken : s.node.takenCost s.peer s.tport m.read = none := by
    have hadv' : (s.node.flags s.tport).isAdvertised = true := hadv
    have hage' : ¬ s.node.routes.peerStartTime s.peer < s.node.routes.startTime := by
      rw [h.start]
      exact hage
    cases m.read with
    | none => rfl
    | some c => simp [CostState.takenCost, AdjacencySpace.takes, hadv', hage']
  show (s.receive m).set.cost = s.cost
  rw [h.set_receive hm, htaken]
  split <;> rfl

/-- A side that yields takes the cost it reads, if it is not at `COST_BAD`. -/
theorem Joined.cost_receive_yields (h : s.Joined o) (hm : m.tportId = o.tport)
    (hy : s.Yields o) {c : AdjCost} (hread : m.read = some c)
    (hbad : s.cost.maxCost ≠ COST_BAD ∨ s.cost = c) : (s.receive m).cost = c := by
  show (s.receive m).set.cost = c
  rw [h.set_receive hm]
  split
  · next hb => exact hbad.resolve_left fun hne => hne hb
  · show (s.node.takenCost s.peer s.tport m.read).getD s.cost = c
    have hage : !(s.node.flags s.tport).isAdvertised ∨
        s.node.routes.peerStartTime s.peer < s.node.routes.startTime := by
      rw [h.start]
      exact hy.2
    by_cases heq : s.cost = c
    · have hset : (s.node.uidConnected s.tport).cost = c := heq
      simp [hread, CostState.takenCost, AdjacencySpace.takes, hset, heq, Option.filter]
    · have hset : ¬ (s.node.uidConnected s.tport).cost = c := heq
      simp only [hread, CostState.takenCost, AdjacencySpace.takes, hset, ne_eq,
        not_false_eq_true, true_and, Option.filter]
      rw [if_pos (by simpa using hage)]
      rfl

end Receive

end LinkSide

/-! ## The run -/

namespace CostLink

/-- The side `x` yields to `w`, whose cost has been `cw` all the time; `x` has `cw`
as soon as it has read anything. -/
structure PairInv (cx cw : AdjCost) (x w : LinkSide) : Prop where
  joinedX : x.Joined w
  joinedW : w.Joined x
  yields : x.Yields w
  canTake : (cx.maxCost ≠ COST_BAD ∨ cx = cw) ∧ cw.ReadsBack
  costW : w.cost = cw
  sentW : ∀ m ∈ w.outbox, m.cost = some cw.str
  sentX : ¬ x.isAdvertised → ∀ m ∈ x.outbox, m.cost = none
  costX : x.cost = cx ∨ x.cost = cw
  read : x.seen.Nonempty → x.cost = cw

namespace PairInv

variable {cx cw : AdjCost} {x w : LinkSide}

theorem sendW (h : PairInv cx cw x w) : PairInv cx cw x w.send := by
  refine ⟨h.joinedX.of_other rfl rfl, h.joinedW.send, h.yields, h.canTake, h.costW, ?_,
    h.sentX, h.costX, h.read⟩
  intro m hm
  rcases List.mem_append.mp hm with hm | hm
  · exact h.sentW m hm
  · rw [List.mem_singleton.mp hm]
    show (if w.isAdvertised then some w.cost.str else none) = some cw.str
    rw [if_pos h.yields.1, h.costW]

theorem sendX (h : PairInv cx cw x w) : PairInv cx cw x.send w := by
  refine ⟨h.joinedX.send, h.joinedW.of_other rfl rfl, h.yields, h.canTake, h.costW, h.sentW,
    ?_, h.costX, h.read⟩
  intro hadv m hm
  rcases List.mem_append.mp hm with hm | hm
  · exact h.sentX hadv m hm
  · rw [List.mem_singleton.mp hm]
    exact if_neg hadv

theorem receiveX (h : PairInv cx cw x w) {m : CostMsg} (hm : m ∈ w.outbox) :
    PairInv cx cw (x.receive m) w := by
  have hid := h.joinedW.sent m hm
  have hread : m.read = some cw := by
    have hparse : AdjCost.parse cw.str = (cw, .ok) := h.canTake.2
    simp [CostMsg.read, h.sentW m hm, hparse]
  have hcost : (x.receive m).cost = cw := by
    refine h.joinedX.cost_receive_yields hid h.yields hread ?_
    rcases h.costX with hc | hc
    · rw [hc]
      exact h.canTake.1
    · exact Or.inr hc
  refine ⟨h.joinedX.receive hid, h.joinedW.of_other rfl (x.startTime_receive m), ?_, h.canTake,
    h.costW, h.sentW, ?_, Or.inr hcost, fun _ => hcost⟩
  · simpa [LinkSide.Yields] using h.yields
  · rw [x.isAdvertised_receive m]
    exact h.sentX

theorem receiveW (h : PairInv cx cw x w) {m : CostMsg} (hm : m ∈ x.outbox) :
    PairInv cx cw x (w.receive m) := by
  have hid := h.joinedX.sent m hm
  -- what reaches `w` has no cost, or comes from a younger side
  have hcost : (w.receive m).cost = w.cost := by
    by_cases hadv : x.isAdvertised
    · have hage : w.startTime < x.startTime := by
        simpa [hadv] using h.yields.2
      exact h.joinedW.cost_receive_younger hid h.yields.1 (Nat.not_lt_of_lt hage)
    · refine h.joinedW.cost_receive_none hid ?_
      rw [CostMsg.read, h.sentX hadv m hm]
      rfl
  refine ⟨h.joinedX.of_other rfl (w.startTime_receive m), h.joinedW.receive hid, ?_, h.canTake,
    hcost.trans h.costW, h.sentW, h.sentX, h.costX, h.read⟩
  simpa [LinkSide.Yields] using h.yields

end PairInv

/-- Neither side advertises: no message has a cost. -/
structure QuietInv (c : AdjCost) (x w : LinkSide) : Prop where
  joinedX : x.Joined w
  joinedW : w.Joined x
  silentX : ¬ x.isAdvertised
  silentW : ¬ w.isAdvertised
  costX : x.cost = c
  costW : w.cost = c
  sentX : ∀ m ∈ x.outbox, m.cost = none
  sentW : ∀ m ∈ w.outbox, m.cost = none

namespace QuietInv

variable {c : AdjCost} {x w : LinkSide}

theorem symm (h : QuietInv c x w) : QuietInv c w x :=
  ⟨h.joinedW, h.joinedX, h.silentW, h.silentX, h.costW, h.costX, h.sentW, h.sentX⟩

theorem sendX (h : QuietInv c x w) : QuietInv c x.send w := by
  refine ⟨h.joinedX.send, h.joinedW.of_other rfl rfl, h.silentX, h.silentW, h.costX, h.costW,
    ?_, h.sentW⟩
  intro m hm
  rcases List.mem_append.mp hm with hm | hm
  · exact h.sentX m hm
  · rw [List.mem_singleton.mp hm]
    exact if_neg h.silentX

theorem receiveX (h : QuietInv c x w) {m : CostMsg} (hm : m ∈ w.outbox) :
    QuietInv c (x.receive m) w := by
  have hid := h.joinedW.sent m hm
  have hread : m.read = none := by
    rw [CostMsg.read, h.sentW m hm]
    rfl
  refine ⟨h.joinedX.receive hid, h.joinedW.of_other rfl (x.startTime_receive m), ?_, h.silentW,
    (h.joinedX.cost_receive_none hid hread).trans h.costX, h.costW, h.sentX, h.sentW⟩
  rw [x.isAdvertised_receive m]
  exact h.silentX

end QuietInv

/-- What a run keeps; `agreed` is the cost both sides come to. -/
inductive Inv (agreed : AdjCost) (l : CostLink) : Prop
  | a (cx : AdjCost) : PairInv cx agreed l.a l.b → Inv agreed l
  | b (cx : AdjCost) : PairInv cx agreed l.b l.a → Inv agreed l
  | neither : QuietInv agreed l.a l.b → Inv agreed l

variable {l : CostLink} {agreed : AdjCost}

theorem Inv.step (h : Inv agreed l) (e : Event) : Inv agreed (l.step e) := by
  cases e with
  | sendA =>
    cases h with
    | a cx h => exact .a cx h.sendX
    | b cx h => exact .b cx h.sendW
    | neither h => exact .neither h.sendX
  | sendB =>
    cases h with
    | a cx h => exact .a cx h.sendW
    | b cx h => exact .b cx h.sendX
    | neither h => exact .neither h.symm.sendX.symm
  | recvA i =>
    simp only [CostLink.step]
    cases hm : l.b.outbox[i]? with
    | none => exact h
    | some m =>
      have hmem := List.mem_of_getElem? hm
      cases h with
      | a cx h => exact .a cx (h.receiveX hmem)
      | b cx h => exact .b cx (h.receiveW hmem)
      | neither h => exact .neither (h.receiveX hmem)
  | recvB i =>
    simp only [CostLink.step]
    cases hm : l.a.outbox[i]? with
    | none => exact h
    | some m =>
      have hmem := List.mem_of_getElem? hm
      cases h with
      | a cx h => exact .a cx (h.receiveW hmem)
      | b cx h => exact .b cx (h.receiveX hmem)
      | neither h => exact .neither (h.symm.receiveX hmem).symm

theorem Inv.foldl (h : Inv agreed l) (es : List Event) :
    Inv agreed (es.foldl CostLink.step l) := by
  induction es generalizing l with
  | nil => exact h
  | cons e es ih => exact ih (h.step e)

/-- The first message that a side reads makes its cost the agreed one. -/
theorem Inv.cost_eq (h : Inv agreed l) (ha : l.a.seen.Nonempty) (hb : l.b.seen.Nonempty) :
    l.a.cost = agreed ∧ l.b.cost = agreed := by
  cases h with
  | a cx h => exact ⟨h.read ha, h.costW⟩
  | b cx h => exact ⟨h.costW, h.read hb⟩
  | neither h => exact ⟨h.costX, h.costW⟩

theorem inv_start (hs : l.Start) (hc : l.CanAgree) : ∃ agreed, Inv agreed l := by
  have hsentA : ∀ m ∈ l.a.outbox, False := by simp [hs.freshA.outbox]
  have hsentB : ∀ m ∈ l.b.outbox, False := by simp [hs.freshB.outbox]
  have hseenA : ¬ l.a.seen.Nonempty := by simp [hs.freshA.seen]
  have hseenB : ¬ l.b.seen.Nonempty := by simp [hs.freshB.seen]
  have hpairA : l.a.Yields l.b → Inv l.b.cost l := fun hy =>
    .a l.a.cost ⟨hs.joinedA, hs.joinedB, hy, hc.a hy, rfl, fun m hm => (hsentB m hm).elim,
      fun _ m hm => (hsentA m hm).elim, .inl rfl, fun h => absurd h hseenA⟩
  have hpairB : l.b.Yields l.a → Inv l.a.cost l := fun hy =>
    .b l.b.cost ⟨hs.joinedB, hs.joinedA, hy, hc.b hy, rfl, fun m hm => (hsentA m hm).elim,
      fun _ m hm => (hsentB m hm).elim, .inl rfl, fun h => absurd h hseenB⟩
  by_cases ha : l.a.isAdvertised
  · by_cases hb : l.b.isAdvertised
    · rcases Nat.lt_or_gt_of_ne hs.age with hlt | hlt
      · exact ⟨_, hpairB ⟨ha, .inr hlt⟩⟩
      · exact ⟨_, hpairA ⟨hb, .inr hlt⟩⟩
    · exact ⟨_, hpairB ⟨ha, .inl (by simpa using hb)⟩⟩
  · by_cases hb : l.b.isAdvertised
    · exact ⟨_, hpairA ⟨hb, .inl (by simpa using ha)⟩⟩
    · exact ⟨l.b.cost, .neither ⟨hs.joinedA, hs.joinedB, ha, hb, hc.neither ha hb, rfl,
        fun m hm => (hsentA m hm).elim, fun m hm => (hsentB m hm).elim⟩⟩

theorem seen_step (l : CostLink) (e : Event) :
    l.a.seen ⊆ (l.step e).a.seen ∧ l.b.seen ⊆ (l.step e).b.seen := by
  cases e with
  | sendA => exact ⟨fun _ h => h, fun _ h => h⟩
  | sendB => exact ⟨fun _ h => h, fun _ h => h⟩
  | recvA i =>
    refine ⟨?_, fun _ h => h⟩
    simp only [CostLink.step]
    cases l.b.outbox[i]? with
    | none => exact fun _ h => h
    | some m => exact Finset.subset_insert _ _
  | recvB i =>
    refine ⟨fun _ h => h, ?_⟩
    simp only [CostLink.step]
    cases l.a.outbox[i]? with
    | none => exact fun _ h => h
    | some m => exact Finset.subset_insert _ _

theorem seen_foldl (es : List Event) (l : CostLink) :
    l.a.seen ⊆ (es.foldl CostLink.step l).a.seen ∧
      l.b.seen ⊆ (es.foldl CostLink.step l).b.seen := by
  induction es generalizing l with
  | nil => exact ⟨fun _ h => h, fun _ h => h⟩
  | cons e es ih =>
    obtain ⟨ha, hb⟩ := seen_step l e
    obtain ⟨ha', hb'⟩ := ih (l.step e)
    exact ⟨ha.trans ha', hb.trans hb'⟩

/-- **The two sides agree on the cost**, in every run: once each has read a message
sent after the last change of the other they have one cost, and no later message
changes it. -/
theorem costs_agree (hs : l.Start) (hc : l.CanAgree) (es : List Event)
    (hsync : (es.foldl CostLink.step l).Synced) :
    (es.foldl CostLink.step l).a.cost = (es.foldl CostLink.step l).b.cost ∧
      ∀ es' : List Event, (es'.foldl CostLink.step (es.foldl CostLink.step l)).a.cost =
          (es.foldl CostLink.step l).a.cost ∧
        (es'.foldl CostLink.step (es.foldl CostLink.step l)).b.cost =
          (es.foldl CostLink.step l).b.cost := by
  obtain ⟨agreed, hinv⟩ := inv_start hs hc
  have hnow := hinv.foldl es
  obtain ⟨ha, hb⟩ := hnow.cost_eq ⟨_, hsync.1⟩ ⟨_, hsync.2⟩
  refine ⟨ha.trans hb.symm, fun es' => ?_⟩
  obtain ⟨hsa, hsb⟩ := seen_foldl es' (es.foldl CostLink.step l)
  obtain ⟨ha', hb'⟩ := (hnow.foldl es').cost_eq ⟨_, hsa hsync.1⟩ ⟨_, hsb hsync.2⟩
  exact ⟨ha'.trans ha.symm, hb'.trans hb.symm⟩

/-- A side with one transport, at the given cost, that advertises it. -/
def advertiser (startTime peerStart : ℕ) (cost : AdjCost) : LinkSide where
  node := CostState.start
    { sock := fun _ => none
      nonce := 1
      startTime := startTime
      bridgeTab := fun uid => if uid = 1 then some ⟨2, peerStart⟩ else none
      route := fun _ _ => ⟨⟨7, 1⟩, true, true, false, 0⟩
      tportCount := 1
      transportTab := fun _ =>
        ⟨text "net", text "tcp", none, none, { AdjacencySpace.new with cost := cost }, ∅, 0⟩
      routeList := fun _ => ⟨[], 0⟩
      uidInMesh := fun _ => .empty
      meshCsum := fun _ => 0
      uidInDevice := fun _ => .empty
      adjacencyChange := []
      linkStateSeqno := 0 }
    (fun _ => ⟨false, false, false, true⟩) (fun _ => true)
  tport := 0
  peer := 1
  changes := 0
  seen := ∅
  outbox := []

theorem joined_advertiser (start peerStart : ℕ) (cost cost' : AdjCost) :
    (advertiser start peerStart cost).Joined (advertiser peerStart start cost') :=
  ⟨Nat.one_ne_zero, rfl, rfl, rfl, .inl rfl, by simp [advertiser]⟩

theorem start_advertisers {start start' : ℕ} (h : start ≠ start') (cost cost' : AdjCost) :
    Start ⟨advertiser start start' cost, advertiser start' start cost'⟩ :=
  ⟨joined_advertiser _ _ _ _, joined_advertiser _ _ _ _, ⟨rfl, rfl, rfl⟩, ⟨rfl, rfl, rfl⟩, h⟩

/-- The younger side starts at 500 and the older at 1000. -/
theorem costs_agree_advertisers :
    let l : CostLink :=
      ⟨advertiser 20 10 (AdjCost.const 500), advertiser 10 20 (AdjCost.const 1000)⟩
    let now := [Event.sendB, .recvA 0, .sendA, .recvB 0].foldl CostLink.step l
    now.a.cost = now.b.cost ∧ ∀ es' : List Event,
      (es'.foldl CostLink.step now).a.cost = now.a.cost ∧
      (es'.foldl CostLink.step now).b.cost = now.b.cost := by
  refine costs_agree (start_advertisers (by decide) _ _) ⟨fun _ => ?_, ?_, ?_⟩ _ (by decide)
  · exact ⟨by decide, by decide⟩
  · rintro ⟨-, h | h⟩
    · exact absurd h (by decide)
    · exact absurd h (by decide)
  · intro h
    exact absurd rfl h

/-- A side whose cost is `COST_BAD` takes no cost, though it is the younger one. -/
theorem bad_cost_not_agreed :
    ¬ ∀ l : CostLink, l.Start → ∀ es : List Event, (es.foldl CostLink.step l).Synced →
      (es.foldl CostLink.step l).a.cost = (es.foldl CostLink.step l).b.cost ∧
      ∀ es' : List Event, (es'.foldl CostLink.step (es.foldl CostLink.step l)).a.cost =
          (es.foldl CostLink.step l).a.cost ∧
        (es'.foldl CostLink.step (es.foldl CostLink.step l)).b.cost =
          (es.foldl CostLink.step l).b.cost := by
  intro h
  have hcosts := (h ⟨advertiser 20 10 (AdjCost.const COST_BAD),
    advertiser 10 20 (AdjCost.const 1000)⟩ (start_advertisers (by decide) _ _)
    [.sendA, .sendB, .recvA 0, .recvB 0] (by decide)).1
  exact absurd hcosts (by decide)

end CostLink

end Raims
