import Raims.Inbox.InboxWindow
import Mathlib.Data.List.Basic

/-!
# The two sides of a peer of the inbox transport

The send side of a peer are its number, its send window and its data packets in the send
queue; the recv side are its number, the recv window and the fragments. What an event of
the transport does to the send side is a step of a machine of its own, `SendView.step`.
Where the packets are in memory does not matter here.
-/

namespace Raims

open EvInboxTransport (fillPkts)
open RefWindow

theorem seqnoCmp_eq {a b : ℕ} (h : a < b + 2 ^ 31) (h' : b < a + 2 ^ 31) :
    seqnoCmp a b = a - b := by
  rw [seqnoCmp, Serial.cmp_mod]
  exact Serial.cmp_eq h h'

/-! ## The send side -/

/-- The send side of a peer. -/
structure SendView where
  outSeqno : ℕ
  ack : ℕ
  window : ℕ
  /-- the send window, `p.out` -/
  out : List InboxPkt
  /-- the data packets of the peer in the send queue -/
  queue : List InboxPkt

/-- What can happen to it; `inSeqno` is the number of the recv side. -/
inductive SendEvent where
  | none
  | post (inSeqno : ℕ) (pkts : List (InboxCode × List UInt8))
  | ack (destSeqno : ℕ)
  | write
  | repair (inSeqno : ℕ)

/-- A packet that is sent again. -/
def rexmit (inSeqno : ℕ) (pkt : InboxPkt) : InboxPkt :=
  { pkt with code := pkt.code.setRepair, destSeqno := inSeqno }

namespace SendView

variable (v : SendView)

/-- The packet is not acked. -/
def unacked (pkt : InboxPkt) : Bool := 0 < seqnoCmp pkt.srcSeqno v.window

/-- The end of the send window comes to the queue. -/
def repaired (inSeqno : ℕ) : SendView :=
  { v with
    out := v.out.rdropWhile v.unacked
    queue := v.queue ++ (v.out.rtakeWhile v.unacked).map (rexmit inSeqno) }

/-- The window is moved, and its packets that are acked are given up. -/
def acked (destSeqno : ℕ) : SendView :=
  if 0 < seqnoCmp destSeqno v.window then
    if seqnoCmp v.ack destSeqno < 0 then
      { v with
        ack := destSeqno
        window := destSeqno
        out := v.out.dropWhile fun pkt => seqnoCmp pkt.srcSeqno destSeqno ≤ 0 }
    else { v with window := destSeqno }
  else v

def step : SendEvent → SendView
  | .none => v
  | .post inSeqno pkts =>
    { v with
      outSeqno := v.outSeqno + pkts.length
      queue := v.queue ++ fillPkts v.outSeqno inSeqno pkts }
  | .ack destSeqno => v.acked destSeqno
  | .write => { v with out := v.out ++ v.queue, queue := [] }
  | .repair inSeqno => if 0 < seqnoCmp v.outSeqno v.window then v.repaired inSeqno else v

end SendView

/-- The peer that `dispatch_msg` is for. -/
def Ctl.peer : Ctl → ℕ
  | .idle => 0
  | .pkt q _ | .loop q | .direct q | .elem q _ | .frag q _ => q

namespace InboxHeap

variable (h : InboxHeap) (q : ℕ)

/-- The data packets of a peer, of a part of the queue. -/
def dataOf (q : ℕ) (els : List WinElem) : List InboxPkt :=
  (els.filter fun el => el.peer = q && el.pkt.code.isData).map WinElem.pkt

def sendView : SendView where
  outSeqno := (h.peer q).outSeqno
  ack := (h.peer q).outAckSeqno
  window := (h.peer q).outWindowSeqno
  out := (h.peer q).out.map WinElem.pkt
  queue := dataOf q h.out

/-- The packets of a call. -/
def Call.packets (mtu : UInt32) : Call → Option (ℕ × List (InboxCode × List UInt8))
  | .post q msg => some (q, msgPackets (maxPayload mtu) msg)
  | .postFrag q msg trail => some (q, trailPackets (maxPayload mtu) msg trail)
  | _ => none

/-- The packets that an event posts. -/
def packets : Event → Option (ℕ × List (InboxCode × List UInt8))
  | .call c => if h.ctl.isOutside then c.packets h.mtu else none
  | _ => none

/-- What an event is to the send side of a peer. -/
def sendEvent (e : Event) : SendEvent :=
  match e, h.packets e with
  | .recv r pkt, _ => if r = q ∧ h.ctl.isIdle then .ack pkt.destSeqno else .none
  | .write, _ => if h.ctl.isIdle then .write else .none
  | .repair r, _ => if r = q ∧ h.ctl.isIdle then .repair (h.peer q).inSeqno else .none
  | _, some (r, pkts) => if r = q then .post (h.peer q).inSeqno pkts else .none
  | _, none => .none

/-- The numbers of the peer start again. -/
def Resets : Event → Prop
  | .call (.reset r) => r = q
  | .call (.reassign r _) => r = q
  | _ => False

instance Resets.decidable : ∀ e, Decidable (Resets q e)
  | .call (.reset r) => inferInstanceAs (Decidable (r = q))
  | .call (.reassign r _) => inferInstanceAs (Decidable (r = q))
  | .call (.post _ _) | .call (.postFrag _ _ _) => instDecidableFalse
  | .recv _ _ | .next | .ret | .write | .repair _ | .ack _ _ => instDecidableFalse

/-- An ack is no data packet. -/
def Sends : Event → Prop
  | .ack _ type => type ≠ .data
  | _ => True

instance Sends.decidable : ∀ e, Decidable (Sends e)
  | .ack _ type => inferInstanceAs (Decidable (type ≠ .data))
  | .call _ | .recv _ _ | .next | .ret | .write | .repair _ => instDecidableTrue

/-- The queue is counted, and the send windows have data packets of their peers. -/
structure Queued : Prop where
  count : h.outCount = h.out.length
  own : ∀ k, ∀ el ∈ (h.peer k).out, el.peer = k
  data : ∀ k, ∀ el ∈ (h.peer k).out, el.pkt.code.isData = true

end InboxHeap

/-! ## The packets of a message -/

/-- All packets of a message are data. -/
def AllData (pkts : List (InboxCode × List UInt8)) : Prop := ∀ x ∈ pkts, x.1.isData = true

theorem allData_fragCodes (frags : List (List UInt8)) : AllData (fragCodes frags) := by
  induction frags using fragCodes.induct with
  | case1 => exact fun x hx => absurd hx List.not_mem_nil
  | case2 msg =>
    intro x hx
    rw [fragCodes, List.mem_singleton] at hx
    rw [hx]
    rfl
  | case3 msg rest hne ih =>
    intro x hx
    rw [fragCodes, List.mem_cons] at hx
    · rcases hx with rfl | hx
      · rfl
      · exact ih x hx
    · exact hne

theorem allData_msgPackets (max : ℕ) (msg : List UInt8) : AllData (msgPackets max msg) := by
  rw [msgPackets]
  split
  · intro x hx
    rw [List.mem_singleton.1 hx]
    rfl
  · exact allData_fragCodes _

theorem allData_trailPackets (max : ℕ) (msg trail : List UInt8) :
    AllData (trailPackets max msg trail) := by
  rw [trailPackets]
  split
  · intro x hx
    rw [List.mem_singleton.1 hx]
    rfl
  · exact allData_fragCodes _

theorem isData_fillPkts {pkts : List (InboxCode × List UInt8)} (h : AllData pkts)
    (outSeqno inSeqno : ℕ) : ∀ pkt ∈ fillPkts outSeqno inSeqno pkts, pkt.code.isData = true := by
  induction pkts generalizing outSeqno with
  | nil => exact fun pkt hpkt => absurd hpkt List.not_mem_nil
  | cons x rest ih =>
    intro pkt hpkt
    rw [fillPkts, List.mem_cons] at hpkt
    rcases hpkt with rfl | hpkt
    · exact h x List.mem_cons_self
    · exact ih (fun y hy => h y (List.mem_cons_of_mem x hy)) _ pkt hpkt

namespace InboxHeap

/-! ## What the operations do -/

section

variable {h : InboxHeap} {q k : ℕ}

theorem dataOf_append (q : ℕ) (els els' : List WinElem) :
    dataOf q (els ++ els') = dataOf q els ++ dataOf q els' := by
  rw [dataOf, List.filter_append, List.map_append]
  rfl

theorem dataOf_own {els : List WinElem} (hown : ∀ el ∈ els, el.peer = q)
    (hdata : ∀ el ∈ els, el.pkt.code.isData = true) : dataOf q els = els.map WinElem.pkt := by
  rw [dataOf, List.filter_eq_self.2]
  intro el hel
  simp [hown el hel, hdata el hel]

theorem dataOf_other {els : List WinElem} (hown : ∀ el ∈ els, el.peer = q) (hne : k ≠ q) :
    dataOf k els = [] := by
  rw [dataOf, List.filter_eq_nil_iff.2, List.map_nil]
  intro el hel
  simp [hown el hel, Ne.symm hne]

theorem dataOf_ack {els : List WinElem} (hack : ∀ el ∈ els, el.pkt.code.isData = false) :
    dataOf k els = [] := by
  rw [dataOf, List.filter_eq_nil_iff.2, List.map_nil]
  intro el hel
  simp [hack el hel]

theorem sendView_eq {h' : InboxHeap} (hpeer : h'.peer k = h.peer k) (hout : h'.out = h.out) :
    h'.sendView k = h.sendView k := by
  unfold sendView
  rw [hpeer, hout]

/-- What a post does: the packets are numbered and go to the end of the queue. -/
structure Posted (h h' : InboxHeap) (q : ℕ) (pkts : List (InboxCode × List UInt8))
    (new : List WinElem) : Prop where
  out : h'.out = h.out ++ new
  outCount : h'.outCount = h.outCount + new.length
  pkt : new.map WinElem.pkt = fillPkts (h.peer q).outSeqno (h.peer q).inSeqno pkts
  own : ∀ el ∈ new, el.peer = q
  words : ∀ el ∈ new, 0 < el.cell.words
  peer : h'.peer = Function.update h.peer q
    { h.peer q with outSeqno := (h.peer q).outSeqno + pkts.length }
  ctl : h'.ctl = h.ctl
  sent : h'.sent = h.sent

theorem words_allocWindow (h : InboxHeap) (q : ℕ) (pkt : InboxPkt) :
    0 < (h.allocWindow q pkt).2.cell.words := by
  show 0 < wordsOf (sizeofPktElem + pkt.msg.length % 2 ^ 32)
  unfold wordsOf sizeofPktElem
  omega

theorem posted_postPkt (h : InboxHeap) (q : ℕ) (frag : InboxCode × List UInt8) :
    ∃ el, Posted h (h.postPkt q frag) q [frag] [el] := by
  refine ⟨(h.allocWindow q ⟨frag.1, (h.peer q).outSeqno + 1, (h.peer q).inSeqno, frag.2⟩).2,
    rfl, rfl, rfl, ?_, ?_, rfl, rfl, rfl⟩
  · intro el hel
    rw [List.mem_singleton.1 hel]
    rfl
  · intro el hel
    rw [List.mem_singleton.1 hel]
    exact words_allocWindow _ _ _

theorem posted (h : InboxHeap) (q : ℕ) (pkts : List (InboxCode × List UInt8)) :
    ∃ new, Posted h (pkts.foldl (postPkt q) h) q pkts new := by
  induction pkts generalizing h with
  | nil =>
    exact ⟨[], (List.append_nil _).symm, rfl, rfl, fun _ hel => (by cases hel),
      fun _ hel => (by cases hel), (Function.update_eq_self q h.peer).symm, rfl, rfl⟩
  | cons frag pkts ih =>
    obtain ⟨el, hel⟩ := posted_postPkt h q frag
    obtain ⟨new, hnew⟩ := ih (h.postPkt q frag)
    have hq : (h.postPkt q frag).peer q =
        { h.peer q with outSeqno := (h.peer q).outSeqno + 1 } := by
      rw [hel.peer, Function.update_self]
      rfl
    refine ⟨el :: new, ?_, ?_, ?_, ?_, ?_, ?_, hnew.ctl.trans hel.ctl, hnew.sent.trans hel.sent⟩
    · rw [List.foldl_cons, hnew.out, hel.out, List.append_assoc]
      rfl
    · rw [List.foldl_cons, hnew.outCount, hel.outCount, List.length_cons, List.length_nil,
        List.length_cons, Nat.add_assoc, Nat.add_comm (0 + 1), Nat.zero_add]
    · have hpkt := hel.pkt
      rw [List.map_cons, hnew.pkt, hq]
      rw [List.map_singleton] at hpkt
      rw [(List.cons.inj hpkt).1]
      rfl
    · intro x hx
      rcases List.mem_cons.1 hx with rfl | hx
      · exact hel.own x List.mem_cons_self
      · exact hnew.own x hx
    · intro x hx
      rcases List.mem_cons.1 hx with rfl | hx
      · exact hel.words x List.mem_cons_self
      · exact hnew.words x hx
    · rw [List.foldl_cons, hnew.peer, hq, hel.peer, Function.update_idem, List.length_cons,
        Nat.add_comm pkts.length, ← Nat.add_assoc]

/-- What `write` does: the queue is sent, and its data packets come to the send windows. -/
structure Written (h h' : InboxHeap) : Prop where
  out : h'.out = []
  outCount : h'.outCount = 0
  peer : ∀ k, h'.peer k = { h.peer k with
    out := (h.peer k).out ++ h.out.filter fun el => el.peer = k && el.pkt.code.isData }
  ctl : h'.ctl = h.ctl
  sent : h'.sent = h.sent ++ h.out.map fun el =>
    ⟨(h.peer el.peer).addr, el, (h.peer el.peer).resets⟩
  current : h'.store.current = h.store.current

theorem derefDelete_current (h : InboxHeap) (els : List WinElem) :
    (h.derefDelete els).store.current = h.store.current := by
  refine List.foldlRecOn els (fun a el => Store.derefDelete a el.cell.window)
    (motive := fun a => a.current = h.store.current) rfl fun a ha el _ => ?_
  exact ha

/-- One packet of the queue. -/
theorem writeElem_peer (h : InboxHeap) (el : WinElem) (k : ℕ) :
    (h.writeElem el).peer k = { h.peer k with
      out := (h.peer k).out ++ [el].filter fun el => el.peer = k && el.pkt.code.isData } := by
  have hsame : { h.peer k with out := (h.peer k).out ++ [] } = h.peer k := by
    rw [List.append_nil]
  unfold writeElem
  extract_lets p h'
  show h'.peer k = _
  by_cases hdata : el.pkt.code.isData = true
  · rw [show h' = h.setPeer el.peer { p with out := p.out ++ [el] } from if_pos hdata]
    by_cases hk : k = el.peer
    · subst hk
      rw [peer_setPeer_self, List.filter_cons_of_pos (by simp [hdata])]
      rfl
    · rw [peer_setPeer_of_ne _ _ hk, List.filter_cons_of_neg (by simp [Ne.symm hk])]
      exact hsame.symm
  · rw [show h' = h.derefDelete [el] from if_neg hdata,
      List.filter_cons_of_neg (by simp [hdata])]
    exact hsame.symm

theorem writeElem_rest (h : InboxHeap) (el : WinElem) :
    (h.writeElem el).out = h.out ∧ (h.writeElem el).ctl = h.ctl ∧
      (h.writeElem el).sent =
        h.sent ++ [⟨(h.peer el.peer).addr, el, (h.peer el.peer).resets⟩] ∧
      (h.writeElem el).store.current = h.store.current := by
  unfold writeElem
  extract_lets p h'
  simp only [h']
  split
  · exact ⟨rfl, rfl, rfl, rfl⟩
  · exact ⟨rfl, rfl, rfl, derefDelete_current h [el]⟩

theorem written_writeLoop (h : InboxHeap) {n : ℕ} (hn : n = h.out.length) :
    Written h { writeLoop n h with outCount := 0 } := by
  induction n generalizing h with
  | zero =>
    have hnil : h.out = [] := List.length_eq_zero_iff.1 hn.symm
    refine ⟨hnil, rfl, fun k => ?_, rfl, ?_, rfl⟩
    · show h.peer k = _
      rw [hnil, List.filter_nil, List.append_nil]
    · show h.sent = _
      rw [hnil, List.map_nil, List.append_nil]
  | succ n ih =>
    cases hout : h.out with
    | nil => rw [hout] at hn; cases hn
    | cons el rest =>
      set g := ({ h with out := rest } : InboxHeap) with hg
      have hpeer := writeElem_peer g el
      obtain ⟨hrest, hctl, hsent, hcur⟩ := writeElem_rest g el
      have hlen : n = (g.writeElem el).out.length := by
        rw [hrest]
        rw [hout, List.length_cons] at hn
        exact Nat.succ.inj hn
      have hloop : writeLoop (n + 1) h = writeLoop n (g.writeElem el) := by
        rw [writeLoop, hout]
      have hw := ih (g.writeElem el) hlen
      have haddr : ∀ x : WinElem, ((g.writeElem el).peer x.peer).addr = (h.peer x.peer).addr ∧
          ((g.writeElem el).peer x.peer).resets = (h.peer x.peer).resets := by
        intro x
        rw [hpeer]
        exact ⟨rfl, rfl⟩
      rw [hloop]
      refine ⟨hw.out, rfl, fun k => ?_, hw.ctl.trans hctl, ?_, hw.current.trans hcur⟩
      · rw [hw.peer, hpeer, hrest, hout, List.append_assoc, ← List.filter_append]
        rfl
      · rw [hw.sent, hsent, hrest, hout, List.map_cons, List.append_assoc]
        simp only [haddr]
        rfl

theorem written (hq : h.Queued) : Written h h.write := written_writeLoop h hq.count

end

/-! ## The events -/

section

variable {h : InboxHeap} {q k : ℕ}

theorem sendView_postPkts {pkts : List (InboxCode × List UInt8)} (hdata : AllData pkts)
    (r q : ℕ) : (pkts.foldl (postPkt r) h).sendView q =
      (h.sendView q).step (if r = q then .post (h.peer q).inSeqno pkts else .none) := by
  obtain ⟨new, hnew⟩ := posted h r pkts
  by_cases hq : q = r
  · subst hq
    have hall : ∀ el ∈ new, el.pkt.code.isData = true := by
      intro el hel
      refine isData_fillPkts hdata (h.peer q).outSeqno (h.peer q).inSeqno el.pkt ?_
      rw [← hnew.pkt]
      exact List.mem_map_of_mem hel
    rw [if_pos rfl, sendView, hnew.peer, hnew.out, Function.update_self, dataOf_append,
      dataOf_own hnew.own hall, hnew.pkt]
    rfl
  · rw [if_neg (Ne.symm hq), sendView, hnew.peer, hnew.out, Function.update_of_ne hq,
      dataOf_append, dataOf_other hnew.own hq, List.append_nil]
    rfl

theorem sendView_ackPeer (h : InboxHeap) (r destSeqno q : ℕ) :
    (h.ackPeer r destSeqno).sendView q =
      (h.sendView q).step (if r = q then .ack destSeqno else .none) := by
  by_cases hq : q = r
  · subst hq
    rw [if_pos rfl]
    show _ = (h.sendView q).acked destSeqno
    unfold InboxHeap.ackPeer SendView.acked
    extract_lets p h'
    show _ = if 0 < seqnoCmp destSeqno p.outWindowSeqno then _ else _
    split
    · show _ = if seqnoCmp p.outAckSeqno destSeqno < 0 then _ else _
      split
      · unfold adjustSendWindow sendView
        rw [peer_setPeer_self, peer_setPeer_self, List.dropWhile_map]
        rfl
      · unfold sendView
        rw [peer_setPeer_self]
        rfl
    · rfl
  · rw [if_neg (Ne.symm hq)]
    refine sendView_eq ?_ ?_
    · unfold InboxHeap.ackPeer
      extract_lets p h'
      split
      · split
        · exact (Function.update_of_ne hq _ _).trans (Function.update_of_ne hq _ _)
        · exact Function.update_of_ne hq _ _
      · rfl
    · unfold InboxHeap.ackPeer
      extract_lets p h'
      split
      · split
        · rfl
        · rfl
      · rfl

theorem rdropWhile_map {α β : Type*} (f : α → β) (b : β → Bool) (l : List α) :
    (l.map f).rdropWhile b = (l.rdropWhile (b ∘ f)).map f := by
  unfold List.rdropWhile
  rw [← List.map_reverse, List.dropWhile_map, List.map_reverse]

theorem rtakeWhile_map {α β : Type*} (f : α → β) (b : β → Bool) (l : List α) :
    (l.map f).rtakeWhile b = (l.rtakeWhile (b ∘ f)).map f := by
  unfold List.rtakeWhile
  rw [← List.map_reverse, List.takeWhile_map, List.map_reverse]

theorem sendView_checkWindow (hqueue : h.Queued) (r q : ℕ) :
    (h.checkWindow r).sendView q =
      (h.sendView q).step (if r = q then .repair (h.peer q).inSeqno else .none) := by
  by_cases hq : q = r
  · subst hq
    rw [if_pos rfl]
    show _ = if 0 < seqnoCmp (h.peer q).outSeqno (h.peer q).outWindowSeqno then _ else _
    unfold InboxHeap.checkWindow
    extract_lets p unacked
    split
    · have hsub : ∀ el ∈ p.out.rtakeWhile unacked, el ∈ p.out := fun el hel =>
        (List.rtakeWhile_suffix unacked p.out).mem hel
      unfold SendView.repaired
      show sendView _ q = _
      unfold sendView
      dsimp only
      rw [show ({ h.setPeer q { p with out := p.out.rdropWhile unacked } with
          out := h.out ++ (p.out.rtakeWhile unacked).map fun el =>
            ({ el with pkt := rexmit p.inSeqno el.pkt } : WinElem)
          outCount := h.outCount + (p.out.rtakeWhile unacked).length } : InboxHeap).peer q =
          { p with out := p.out.rdropWhile unacked } from Function.update_self _ _ _]
      have hdata : dataOf q ((p.out.rtakeWhile unacked).map fun el =>
          ({ el with pkt := rexmit p.inSeqno el.pkt } : WinElem)) =
          ((p.out.rtakeWhile unacked).map WinElem.pkt).map (rexmit p.inSeqno) := by
        rw [dataOf_own, List.map_map, List.map_map]
        · rfl
        · intro el hel
          obtain ⟨x, hx, rfl⟩ := List.mem_map.1 hel
          exact hqueue.own q x (hsub x hx)
        · intro el hel
          obtain ⟨x, hx, rfl⟩ := List.mem_map.1 hel
          exact hqueue.data q x (hsub x hx)
      rw [rdropWhile_map, rtakeWhile_map]
      refine congrArg (SendView.mk _ _ _ _) ?_
      exact (dataOf_append q h.out _).trans (congrArg (dataOf q h.out ++ ·) hdata)
    · rfl
  · rw [if_neg (Ne.symm hq)]
    unfold InboxHeap.checkWindow
    extract_lets p unacked
    split
    · have hother : dataOf q ((p.out.rtakeWhile unacked).map fun el =>
          ({ el with pkt := rexmit p.inSeqno el.pkt } : WinElem)) = [] := by
        refine dataOf_other (q := r) ?_ hq
        intro el hel
        obtain ⟨x, hx, rfl⟩ := List.mem_map.1 hel
        exact hqueue.own r x ((List.rtakeWhile_suffix unacked p.out).mem hx)
      show sendView _ q = _
      unfold sendView
      rw [show ({ h.setPeer r { p with out := p.out.rdropWhile unacked } with
          out := h.out ++ (p.out.rtakeWhile unacked).map fun el =>
            ({ el with pkt := rexmit p.inSeqno el.pkt } : WinElem)
          outCount := h.outCount + (p.out.rtakeWhile unacked).length } : InboxHeap).peer q =
          h.peer q from Function.update_of_ne hq _ _]
      refine congrArg (SendView.mk _ _ _ _) ?_
      exact (dataOf_append q h.out _).trans
        ((congrArg (dataOf q h.out ++ ·) hother).trans (List.append_nil _))
    · rfl

theorem sendView_write (hqueue : h.Queued) (q : ℕ) :
    h.write.sendView q = (h.sendView q).step .write := by
  have hw := written hqueue
  unfold sendView
  rw [hw.peer, hw.out, List.map_append]
  rfl

theorem sendView_sendAck (h : InboxHeap) (r q : ℕ) {type : InboxPktType} (htype : type ≠ .data) :
    (h.sendAck r type).sendView q = h.sendView q := by
  unfold InboxHeap.sendAck
  extract_lets p x
  show SendView.mk _ _ _ _ (dataOf q (h.out ++ [x.2])) = _
  have hnil : dataOf q [x.2] = [] := dataOf_ack fun el hel => by
    rw [List.mem_singleton.1 hel]
    exact decide_eq_false htype
  rw [dataOf_append, hnil, List.append_nil]
  rfl

/-! ### Dispatch -/

/-- What `dispatch_msg` does with a packet. -/
inductive MsgStep (h : InboxHeap) (q : ℕ) (pkt : InboxPkt) : InboxHeap → Prop
  | direct (hnext : h.isNext q pkt) (hwhole : pkt.code.isFragment = false) :
      MsgStep h q pkt
        { h.setPeer q { h.peer q with inSeqno := pkt.srcSeqno } with ctl := .direct q }
  | rollup (hnext : h.isNext q pkt) (hfrag : pkt.code.isFragment = true)
      (hroll : pkt.code.isRollup = true) :
      MsgStep h q pkt ((h.setPeer q { h.peer q with inSeqno := pkt.srcSeqno }).dispatchFragMsg q
        pkt.msg.length)
  | part (hnext : h.isNext q pkt) (hfrag : pkt.code.isFragment = true)
      (hroll : pkt.code.isRollup = false) :
      MsgStep h q pkt { h.pushFrag q pkt with ctl := .loop q }
  | early (hnext : ¬ h.isNext q pkt) (hlt : seqnoCmp (h.peer q).inSeqno pkt.srcSeqno < 0)
      (hnew : repeated pkt.srcSeqno (h.peer q).inList = false) :
      MsgStep h q pkt { h.pushIn q pkt with ctl := .loop q }
  | drop (hnext : ¬ h.isNext q pkt)
      (hold : seqnoCmp (h.peer q).inSeqno pkt.srcSeqno < 0 →
        repeated pkt.srcSeqno (h.peer q).inList = true) :
      MsgStep h q pkt { h with ctl := .idle }

theorem dispatchMsg_cases (h : InboxHeap) (q : ℕ) (pkt : InboxPkt) :
    MsgStep h q pkt (h.dispatchMsg q pkt) := by
  unfold dispatchMsg
  extract_lets p
  split
  · next hnext =>
    split
    · next hwhole => exact .direct hnext hwhole
    · next hfrag =>
      split
      · next hroll => exact .rollup hnext (by simpa using hfrag) hroll
      · next hroll => exact .part hnext (by simpa using hfrag) (by simpa using hroll)
  · next hnext =>
    split
    · next hlt =>
      split
      · next hrep => exact .drop hnext fun _ => hrep
      · next hrep => exact .early hnext hlt (by simpa using hrep)
    · next hlt => exact .drop hnext fun h => absurd h hlt

/-- What a turn of the loop of `dispatch_msg` does. -/
inductive InStep (h : InboxHeap) (q : ℕ) : InboxHeap → Prop
  | elem {el : WinElem} {rest : List WinElem} (hin : (h.peer q).inList = el :: rest)
      (hnext : h.isNext q el.pkt) (hwhole : el.pkt.code.isFragment = false) :
      InStep h q { h.popIn q el rest with ctl := .elem q el }
  | rollup {el : WinElem} {rest : List WinElem} (hin : (h.peer q).inList = el :: rest)
      (hnext : h.isNext q el.pkt) (hfrag : el.pkt.code.isFragment = true)
      (hroll : el.pkt.code.isRollup = true) :
      InStep h q ((h.popFrag q el rest).dispatchFragMsg q 0)
  | part {el : WinElem} {rest : List WinElem} (hin : (h.peer q).inList = el :: rest)
      (hnext : h.isNext q el.pkt) (hfrag : el.pkt.code.isFragment = true)
      (hroll : el.pkt.code.isRollup = false) :
      InStep h q (h.popFrag q el rest)
  | done (hgap : ∀ el ∈ (h.peer q).inList.head?, ¬ h.isNext q el.pkt) :
      InStep h q { h with ctl := .idle }

theorem dispatchIn_cases (h : InboxHeap) (q : ℕ) :
    InStep h q (h.dispatchIn q (h.peer q).inList) := by
  cases hin : (h.peer q).inList with
  | nil =>
    refine .done fun el hel => ?_
    rw [hin] at hel
    cases hel
  | cons el rest =>
    show InStep h q (ite _ _ _)
    split
    · next hnext =>
      split
      · next hwhole => exact .elem hin hnext hwhole
      · next hfrag =>
        split
        · next hroll => exact .rollup hin hnext (by simpa using hfrag) hroll
        · next hroll => exact .part hin hnext (by simpa using hfrag) (by simpa using hroll)
    · next hnext =>
      refine .done fun x hx => ?_
      rw [hin] at hx
      obtain rfl := Option.some.inj hx
      exact hnext

theorem peer_dispatchFragMsg (h : InboxHeap) (q : ℕ) (p : WinPeer) (len : ℕ) :
    ((h.setPeer q p).dispatchFragMsg q len).peer =
      Function.update h.peer q { p with fragList := [] } := by
  refine (Function.update_idem _ _ _).trans ?_
  rw [peer_setPeer_self]

theorem step_loop (hctl : h.ctl = .loop q) :
    h.step .next = h.dispatchIn q (h.peer q).inList := by
  show h.next h.ctl = _
  rw [hctl]
  rfl

theorem step_pkt {pkt : InboxPkt} (hctl : h.ctl = .pkt q pkt) :
    h.step .next = h.dispatchMsg q pkt := by
  show h.next h.ctl = _
  rw [hctl]
  rfl

/-- The recv side of one peer changes, and no packet is sent. -/
structure RecvOnly (h h' : InboxHeap) (r : ℕ) : Prop where
  peer : ∃ n inList fragList, h'.peer = Function.update h.peer r
    { h.peer r with inSeqno := n, inList := inList, fragList := fragList }
  out : h'.out = h.out
  outCount : h'.outCount = h.outCount
  sent : h'.sent = h.sent

theorem recvOnly_same {h' : InboxHeap} (r : ℕ) (hpeer : h'.peer = h.peer) (hout : h'.out = h.out)
    (hcount : h'.outCount = h.outCount) (hsent : h'.sent = h.sent) : RecvOnly h h' r :=
  ⟨⟨_, _, _, hpeer.trans (Function.update_eq_self r h.peer).symm⟩, hout, hcount, hsent⟩

theorem recvOnly_dispatchMsg (h : InboxHeap) (r : ℕ) (pkt : InboxPkt) :
    RecvOnly h (h.dispatchMsg r pkt) r := by
  have hcases := dispatchMsg_cases h r pkt
  generalize h.dispatchMsg r pkt = g at hcases ⊢
  cases hcases with
  | direct hnext hwhole => exact ⟨⟨_, _, _, rfl⟩, rfl, rfl, rfl⟩
  | rollup hnext hfrag hroll =>
    exact ⟨⟨_, _, _, peer_dispatchFragMsg h r _ _⟩, rfl, rfl, rfl⟩
  | part hnext hfrag hroll => exact ⟨⟨_, _, _, rfl⟩, rfl, rfl, rfl⟩
  | early hnext hlt hnew => exact ⟨⟨_, _, _, rfl⟩, rfl, rfl, rfl⟩
  | drop hnext hold => exact recvOnly_same r rfl rfl rfl rfl

theorem recvOnly_dispatchIn (h : InboxHeap) (r : ℕ) :
    RecvOnly h (h.dispatchIn r (h.peer r).inList) r := by
  have hcases := dispatchIn_cases h r
  generalize h.dispatchIn r (h.peer r).inList = g at hcases ⊢
  cases hcases with
  | elem hin hnext hwhole => exact ⟨⟨_, _, _, rfl⟩, rfl, rfl, rfl⟩
  | rollup hin hnext hfrag hroll =>
    exact ⟨⟨_, _, _, peer_dispatchFragMsg h r _ _⟩, rfl, rfl, rfl⟩
  | part hin hnext hfrag hroll => exact ⟨⟨_, _, _, rfl⟩, rfl, rfl, rfl⟩
  | done hgap => exact recvOnly_same r rfl rfl rfl rfl

theorem recvOnly_next (h : InboxHeap) : RecvOnly h (h.next h.ctl) h.ctl.peer := by
  cases hctl : h.ctl with
  | pkt r pkt => exact recvOnly_dispatchMsg h r pkt
  | loop r => exact recvOnly_dispatchIn h r
  | idle => exact recvOnly_same 0 rfl rfl rfl rfl
  | direct r => exact recvOnly_same r rfl rfl rfl rfl
  | elem r el => exact recvOnly_same r rfl rfl rfl rfl
  | frag r buf => exact recvOnly_same r rfl rfl rfl rfl

theorem ret_same (h : InboxHeap) (c : Ctl) : (h.ret c).peer = h.peer ∧ (h.ret c).out = h.out ∧
    (h.ret c).outCount = h.outCount ∧ (h.ret c).sent = h.sent := by
  cases c with
  | frag r buf =>
    unfold ret derefWindow
    dsimp only
    split
    · exact ⟨rfl, rfl, rfl, rfl⟩
    · exact ⟨rfl, rfl, rfl, rfl⟩
  | _ => exact ⟨rfl, rfl, rfl, rfl⟩

theorem RecvOnly.sendView {h' : InboxHeap} {r : ℕ} (hr : RecvOnly h h' r) (q : ℕ) :
    h'.sendView q = h.sendView q := by
  obtain ⟨n, inList, fragList, hpeer⟩ := hr.peer
  unfold InboxHeap.sendView
  rw [hpeer, hr.out]
  by_cases hq : q = r
  · subst hq
    rw [Function.update_self]
  · rw [Function.update_of_ne hq]

theorem RecvOnly.queued {h' : InboxHeap} {r : ℕ} (hr : RecvOnly h h' r) (hq : h.Queued) :
    h'.Queued := by
  obtain ⟨n, inList, fragList, hpeer⟩ := hr.peer
  have hout : ∀ k, (h'.peer k).out = (h.peer k).out := by
    intro k
    rw [hpeer]
    by_cases hk : k = r
    · subst hk
      rw [Function.update_self]
    · rw [Function.update_of_ne hk]
  refine ⟨?_, fun k el hel => hq.own k el (hout k ▸ hel), fun k el hel =>
    hq.data k el (hout k ▸ hel)⟩
  rw [hr.outCount, hr.out]
  exact hq.count

/-! ### Steps -/

theorem sendView_setPeer (h : InboxHeap) {r : ℕ} (hne : r ≠ q) (p : WinPeer) :
    (h.setPeer r p).sendView q = h.sendView q :=
  sendView_eq (peer_setPeer_of_ne h p (Ne.symm hne)) rfl

theorem sendView_resetPeer (h : InboxHeap) {r : ℕ} (hne : r ≠ q) :
    (h.resetPeer r).sendView q = h.sendView q :=
  sendView_setPeer (h.derefDelete _) hne _

theorem sendView_reassignPeer (h : InboxHeap) {r : ℕ} (hne : r ≠ q) (addr : List UInt8) :
    (h.reassignPeer r addr).sendView q = h.sendView q := by
  unfold reassignPeer
  split
  · exact (sendView_setPeer (h.resetPeer r) hne _).trans (sendView_resetPeer h hne)
  · rfl

/-- What an event can be to the send side of a peer. -/
inductive SendCase (h : InboxHeap) (q : ℕ) (e : Event) : SendEvent → Prop
  | none : SendCase h q e .none
  | post {pkts : List (InboxCode × List UInt8)} (hpkts : h.packets e = some (q, pkts)) :
      SendCase h q e (.post (h.peer q).inSeqno pkts)
  | ack {pkt : InboxPkt} (he : e = .recv q pkt) : SendCase h q e (.ack pkt.destSeqno)
  | write (he : e = .write) : SendCase h q e .write
  | repair (he : e = .repair q) (hidle : h.ctl.isIdle = true) :
      SendCase h q e (.repair (h.peer q).inSeqno)

theorem sendEvent_cases (h : InboxHeap) (q : ℕ) (e : Event) :
    SendCase h q e (h.sendEvent q e) := by
  cases e with
  | call c =>
    simp only [sendEvent]
    cases hpkts : h.packets (.call c) with
    | none => exact .none
    | some x =>
      obtain ⟨k, pkts⟩ := x
      dsimp only
      split
      · next hk =>
        subst hk
        exact .post hpkts
      · exact .none
  | recv k pkt =>
    simp only [sendEvent]
    split
    · next hk =>
      rw [hk.1]
      exact .ack rfl
    · exact .none
  | write =>
    simp only [sendEvent]
    split
    · exact .write rfl
    · exact .none
  | repair k =>
    simp only [sendEvent]
    split
    · next hk => exact .repair (by rw [hk.1]) hk.2
    · exact .none
  | next => exact .none
  | ret => exact .none
  | ack k type => exact .none

/-- An event is to the send side of a peer what it is in `SendView.step`. -/
theorem sendView_step (hqueue : h.Queued) {e : Event} (hsends : Sends e) (hres : ¬ Resets q e) :
    (h.step e).sendView q = (h.sendView q).step (h.sendEvent q e) := by
  cases e with
  | call c =>
    unfold InboxHeap.step
    dsimp only
    split
    · next hout =>
      cases c with
      | post r msg =>
        refine (sendView_postPkts (allData_msgPackets _ _) r q).trans ?_
        simp only [sendEvent, packets, Call.packets, hout, if_true]
      | postFrag r msg trail =>
        refine (sendView_postPkts (allData_trailPackets _ _ _) r q).trans ?_
        simp only [sendEvent, packets, Call.packets, hout, if_true]
      | reset r =>
        refine (sendView_resetPeer h hres).trans ?_
        simp only [sendEvent, packets, Call.packets, hout, if_true]
        rfl
      | reassign r addr =>
        refine (sendView_reassignPeer h hres addr).trans ?_
        simp only [sendEvent, packets, Call.packets, hout, if_true]
        rfl
    · next hout => simp [sendEvent, packets, hout, SendView.step]
  | recv r pkt =>
    unfold InboxHeap.step
    dsimp only
    split
    · next hidle =>
      refine (sendView_eq rfl rfl : _ = (h.ackPeer r pkt.destSeqno).sendView q).trans ?_
      rw [sendView_ackPeer]
      simp [sendEvent, hidle]
    · next hidle => simp [sendEvent, hidle, SendView.step]
  | next => exact (recvOnly_next h).sendView q
  | ret => exact sendView_eq (congrFun (ret_same h h.ctl).1 q) (ret_same h h.ctl).2.1
  | write =>
    unfold InboxHeap.step
    dsimp only
    split
    · next hidle =>
      rw [sendView_write hqueue]
      simp [sendEvent, hidle]
    · next hidle => simp [sendEvent, hidle, SendView.step]
  | repair r =>
    unfold InboxHeap.step
    dsimp only
    split
    · next hidle =>
      rw [sendView_checkWindow hqueue]
      simp [sendEvent, hidle]
    · next hidle => simp [sendEvent, hidle, SendView.step]
  | ack r type =>
    unfold InboxHeap.step
    dsimp only
    split
    · exact sendView_sendAck h r q hsends
    · rfl

theorem Queued.of_out {h' : InboxHeap} (hq : h.Queued) (hcount : h'.outCount = h'.out.length)
    (hsub : ∀ k, ∀ el ∈ (h'.peer k).out, el ∈ (h.peer k).out) : h'.Queued :=
  ⟨hcount, fun k el hel => hq.own k el (hsub k el hel), fun k el hel =>
    hq.data k el (hsub k el hel)⟩

theorem Queued.setPeer (hq : h.Queued) {p : WinPeer} (hp : ∀ el ∈ p.out, el ∈ (h.peer q).out) :
    (h.setPeer q p).Queued := by
  refine hq.of_out hq.count fun k el hel => ?_
  by_cases hk : k = q
  · subst hk
    rw [peer_setPeer_self] at hel
    exact hp el hel
  · rwa [peer_setPeer_of_ne h p hk] at hel

theorem Queued.derefDelete (hq : h.Queued) (els : List WinElem) : (h.derefDelete els).Queued :=
  hq.of_out hq.count fun _ _ hel => hel

theorem Queued.postPkts (hq : h.Queued) (r : ℕ) (pkts : List (InboxCode × List UInt8)) :
    (pkts.foldl (postPkt r) h).Queued := by
  obtain ⟨new, hnew⟩ := posted h r pkts
  refine hq.of_out ?_ fun k el hel => ?_
  · rw [hnew.outCount, hnew.out, List.length_append, hq.count]
  · rw [hnew.peer] at hel
    by_cases hk : k = r
    · subst hk
      rwa [Function.update_self] at hel
    · rwa [Function.update_of_ne hk] at hel

theorem Queued.ackPeer (hq : h.Queued) (r destSeqno : ℕ) : (h.ackPeer r destSeqno).Queued := by
  unfold InboxHeap.ackPeer
  extract_lets p h'
  have hset : h'.Queued := hq.setPeer fun _ hel => hel
  split
  · split
    · exact (hset.derefDelete _).setPeer fun el hel => (List.dropWhile_sublist _).subset hel
    · exact hset
  · exact hq

theorem Queued.resetPeer (hq : h.Queued) (r : ℕ) : (h.resetPeer r).Queued :=
  (hq.derefDelete _).setPeer fun el hel => by cases hel

theorem Queued.call (hq : h.Queued) (c : Call) : (h.call c).Queued := by
  cases c with
  | post r msg => exact hq.postPkts r _
  | postFrag r msg trail => exact hq.postPkts r _
  | reset r => exact hq.resetPeer r
  | reassign r addr =>
    show (h.reassignPeer r addr).Queued
    unfold reassignPeer
    split
    · exact (hq.resetPeer r).setPeer fun _ hel => hel
    · exact hq

theorem Queued.checkWindow (hq : h.Queued) (r : ℕ) : (h.checkWindow r).Queued := by
  unfold InboxHeap.checkWindow
  extract_lets p unacked
  split
  · have hset : (h.setPeer r { p with out := p.out.rdropWhile unacked }).Queued :=
      hq.setPeer fun el hel => (List.rdropWhile_prefix unacked p.out).mem hel
    refine ⟨?_, hset.own, hset.data⟩
    show h.outCount + _ = List.length (h.out ++ _)
    rw [List.length_append, List.length_map, hq.count]
  · exact hq

theorem Queued.write (hq : h.Queued) : h.write.Queued := by
  have hw := written hq
  have hmem : ∀ {k el}, el ∈ (h.write.peer k).out → el ∈ (h.peer k).out ∨
      el.peer = k ∧ el.pkt.code.isData = true := by
    intro k el hel
    rw [hw.peer] at hel
    refine (List.mem_append.1 hel).imp_right fun hel => ?_
    have hprop := (List.mem_filter.1 hel).2
    simpa using hprop
  refine ⟨by rw [hw.out, hw.outCount]; rfl, fun k el hel => ?_, fun k el hel => ?_⟩
  · exact (hmem hel).elim (hq.own k el) And.left
  · exact (hmem hel).elim (hq.data k el) And.right

theorem Queued.ite {b : Bool} {g : InboxHeap} (hq : h.Queued) (hg : g.Queued) :
    (if b then g else h).Queued := by
  split
  · exact hg
  · exact hq

theorem Queued.step (hq : h.Queued) (e : Event) : (h.step e).Queued := by
  cases e with
  | call c => exact hq.ite (hq.call c)
  | recv r pkt => exact hq.ite ((hq.ackPeer r pkt.destSeqno).of_out
      (hq.ackPeer r pkt.destSeqno).count fun _ _ hel => hel)
  | next => exact (recvOnly_next h).queued hq
  | ret =>
    obtain ⟨hpeer, hout, hcount, -⟩ := ret_same h h.ctl
    refine hq.of_out ?_ fun k el hel => ?_
    · show (h.ret h.ctl).outCount = (h.ret h.ctl).out.length
      rw [hcount, hout, hq.count]
    · have hel' : el ∈ ((h.ret h.ctl).peer k).out := hel
      rwa [hpeer] at hel'
  | write => exact hq.ite hq.write
  | repair r => exact hq.ite (hq.checkWindow r)
  | ack r type =>
    refine hq.ite (hq.of_out ?_ fun _ _ hel => hel)
    show h.outCount + 1 = (h.out ++ [_]).length
    rw [List.length_append, hq.count]
    rfl

theorem queued_start (mtu : { mtu : UInt32 // mtu ≠ 48 }) (addr : ℕ → List UInt8) :
    (start mtu addr).Queued :=
  ⟨rfl, fun _ _ hel => (by cases hel), fun _ _ hel => (by cases hel)⟩

/-! ## The recv side -/

/-- The recv side of a peer. -/
structure RecvView where
  inSeqno : ℕ
  inList : List WinElem
  fragList : List WinElem

def recvView (h : InboxHeap) (q : ℕ) : RecvView :=
  ⟨(h.peer q).inSeqno, (h.peer q).inList, (h.peer q).fragList⟩

theorem recvView_setPeer (h : InboxHeap) {r : ℕ} {p : WinPeer}
    (hin : p.inSeqno = (h.peer r).inSeqno) (hlist : p.inList = (h.peer r).inList)
    (hfrag : p.fragList = (h.peer r).fragList) (q : ℕ) :
    (h.setPeer r p).recvView q = h.recvView q := by
  unfold recvView
  by_cases hq : q = r
  · subst hq
    rw [peer_setPeer_self, hin, hlist, hfrag]
  · rw [peer_setPeer_of_ne h p hq]

theorem recvView_setPeer_of_ne (h : InboxHeap) {r : ℕ} (hne : r ≠ q) (p : WinPeer) :
    (h.setPeer r p).recvView q = h.recvView q := by
  unfold recvView
  rw [peer_setPeer_of_ne h p (Ne.symm hne)]

theorem recvView_ackPeer (h : InboxHeap) (r destSeqno q : ℕ) :
    (h.ackPeer r destSeqno).recvView q = h.recvView q := by
  unfold InboxHeap.ackPeer
  extract_lets p h'
  have hset : h'.recvView q = h.recvView q :=
    recvView_setPeer h (p := { p with outWindowSeqno := destSeqno }) rfl rfl rfl q
  split
  · split
    · unfold adjustSendWindow
      refine (recvView_setPeer (h'.derefDelete _) ?_ ?_ ?_ q).trans hset
      · rfl
      · rfl
      · rfl
    · exact hset
  · rfl

theorem recvView_call (h : InboxHeap) {c : Call} (hres : ¬ Resets q (.call c)) :
    (h.call c).recvView q = h.recvView q := by
  have hpost : ∀ (r : ℕ) (pkts : List (InboxCode × List UInt8)),
      (pkts.foldl (postPkt r) h).recvView q = h.recvView q := by
    intro r pkts
    obtain ⟨new, hnew⟩ := posted h r pkts
    refine Eq.trans ?_ (recvView_setPeer h (r := r)
      (p := { h.peer r with outSeqno := (h.peer r).outSeqno + pkts.length }) rfl rfl rfl q)
    unfold recvView
    rw [hnew.peer]
    rfl
  cases c with
  | post r msg => exact hpost r _
  | postFrag r msg trail => exact hpost r _
  | reset r => exact recvView_setPeer_of_ne (h.derefDelete _) hres _
  | reassign r addr =>
    show (h.reassignPeer r addr).recvView q = _
    unfold reassignPeer
    split
    · exact (recvView_setPeer_of_ne (h.resetPeer r) hres _).trans
        (recvView_setPeer_of_ne (h.derefDelete _) hres _)
    · rfl

theorem recvView_step (hqueue : h.Queued) {e : Event} (hres : ¬ Resets q e) (hnext : e ≠ .next) :
    (h.step e).recvView q = h.recvView q := by
  have hite : ∀ {b : Bool} {g : InboxHeap}, g.recvView q = h.recvView q →
      (if b then g else h).recvView q = h.recvView q := by
    intro b g hg
    split
    · exact hg
    · rfl
  cases e with
  | call c => exact hite (recvView_call h hres)
  | recv r pkt => exact hite (recvView_ackPeer h r pkt.destSeqno q)
  | next => exact absurd rfl hnext
  | ret =>
    show recvView (h.ret h.ctl) q = _
    unfold recvView
    rw [(ret_same h h.ctl).1]
  | write =>
    refine hite ?_
    unfold recvView
    rw [(written hqueue).peer]
  | repair r =>
    refine hite ?_
    unfold InboxHeap.checkWindow
    extract_lets p unacked
    split
    · exact recvView_setPeer h (p := { p with out := p.out.rdropWhile unacked }) rfl rfl rfl q
    · rfl
  | ack r type => exact hite rfl

end

end InboxHeap

end Raims
