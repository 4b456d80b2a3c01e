import Raims.Inbox.InboxMemory
import Raims.Inbox.MessagePieces
import Raims.Lib.Run

/-!
# Delivery between two inbox transports

Whatever the sender does with its windows and the network with the datagrams, a packet
carries the piece of its number, and the receiver hands on the messages in order, each
once. This is so while the packets in memory stay what they are: it fails when the
memory of a message is given up from the wrong window, and when an ack is written that
was the last packet of its window.
-/

namespace Raims

open RefWindow
open Reassembly (Kind)

/-- How much further than the next number the recv window begins: `dispatch_msg` goes on
until there is a gap. -/
def Ctl.gap (r : ℕ) : Ctl → ℕ
  | .loop q | .direct q | .elem q _ | .frag q _ => if q = r then 0 else 1
  | _ => 1

/-- The transport of the sender and of the receiver, the datagrams from the one to the
other that were written at any time, and the messages that were posted. -/
structure InboxPair where
  src : InboxMem
  dst : InboxMem
  net : List InboxPkt
  posted : List (List UInt8)

namespace InboxPair

open EvInboxTransport (fillPkts)

/-- Something happens at the sender or at the receiver, or the network delivers a
datagram. -/
inductive Event where
  | src (e : InboxHeap.Event)
  | dst (e : InboxHeap.Event)
  | deliver (pkt : InboxPkt)

variable (q r : ℕ)

/-- The datagrams to the peer `q` that a step writes: `write` gives up the acks before
they are sent. -/
def wire (m m' : InboxMem) : List InboxPkt :=
  ((m'.heap.sent.drop m.heap.sent.length).filter fun x => x.el.peer = q).map fun x =>
    m'.load x.el.cell

/-- The message to the peer `q` that an event posts. -/
def message (h : InboxHeap) : InboxHeap.Event → List (List UInt8)
  | .call (.post k msg) => if h.ctl.isOutside ∧ k = q then [msg] else []
  | .call (.postFrag k msg trail) =>
    if h.ctl.isOutside ∧ k = q then [trailBytes msg trail] else []
  | _ => []

/-- The receiver is the peer `q` of the sender, the sender the peer `r` of the
receiver. -/
def step (s : InboxPair) : Event → InboxPair
  | .src e =>
    { s with src := s.src.step e
             net := s.net ++ wire q s.src (s.src.step e)
             posted := s.posted ++ message q s.src.view e }
  | .dst e => { s with dst := s.dst.step e }
  | .deliver pkt => { s with dst := s.dst.step (.recv r pkt) }

/-- The event is a packet of the peer. -/
def Receives : InboxHeap.Event → Prop
  | .recv k _ => k = r
  | _ => False

instance Receives.decidable : ∀ e, Decidable (Receives r e)
  | .recv k _ => inferInstanceAs (Decidable (k = r))
  | .call _ | .next | .ret | .write | .repair _ | .ack _ _ => instDecidableFalse

/-- The peers stay resolved and are not reset, and fewer than `2^31` packets are
outstanding: those that the receiver did not read, and those from a datagram on that is
delivered. What comes to the receiver from the sender was written; a datagram may be
lost, or come any number of times and in any order. -/
def Outstanding (s : InboxPair) : Event → Prop
  | .src e => InboxHeap.Sends e ∧ ¬ InboxHeap.Resets q e ∧
      ∀ x ∈ s.src.view.packets e, x.1 = q →
        (s.src.heap.peer q).outSeqno + x.2.length < (s.dst.heap.peer r).inSeqno + 2 ^ 31
  | .dst e => ¬ InboxHeap.Resets r e ∧ ¬ Receives r e
  | .deliver pkt => pkt ∈ s.net ∧ (s.src.heap.peer q).outSeqno + 1 < pkt.srcSeqno + 2 ^ 31

instance Outstanding.decidable (s : InboxPair) : ∀ e, Decidable (Outstanding q r s e)
  | .src e => inferInstanceAs (Decidable (InboxHeap.Sends e ∧ ¬ InboxHeap.Resets q e ∧
      ∀ x ∈ s.src.view.packets e, x.1 = q → _))
  | .dst e => inferInstanceAs (Decidable (¬ InboxHeap.Resets r e ∧ ¬ Receives r e))
  | .deliver pkt => inferInstanceAs (Decidable (pkt ∈ s.net ∧ _))

/-- When the queue is written, the window of an ack is the current one or has a data
packet in it. -/
def AcksKept (h : InboxHeap) : InboxHeap.Event → Prop
  | .write => ∀ el ∈ h.out, el.peer = q → el.pkt.code.isData = false →
      h.store.current q = some el.cell.window ∨
        ∃ o ∈ h.elems q, o.pkt.code.isData = true ∧ o.cell.window = el.cell.window
  | _ => True

instance AcksKept.decidable (h : InboxHeap) : ∀ e, Decidable (AcksKept q h e)
  | .write => inferInstanceAs (Decidable (∀ el ∈ h.out, el.peer = q → _ → _))
  | .call _ | .recv _ _ | .next | .ret | .repair _ | .ack _ _ => instDecidableTrue

/-- Memory that is in use is not given up. -/
def Kept (s : InboxPair) : Event → Prop
  | .src e => s.src.view.RetsKept e ∧ AcksKept q s.src.view e
  | .dst e => s.dst.view.RetsKept e
  | .deliver _ => True

instance Kept.decidable (s : InboxPair) : ∀ e, Decidable (Kept q s e)
  | .src e => inferInstanceAs (Decidable (s.src.view.RetsKept e ∧ AcksKept q s.src.view e))
  | .dst e => inferInstanceAs (Decidable (s.dst.view.RetsKept e))
  | .deliver _ => instDecidableTrue

def start (src dst : { mtu : UInt32 // mtu ≠ 48 }) (addr addr' : ℕ → List UInt8)
    (junk junk' : List (Write InboxPkt) → Cell → InboxPkt) : InboxPair :=
  ⟨.start (.start src addr) junk, .start (.start dst addr') junk', [], []⟩

/-! ## The receiver -/

/-- What the receiver of a peer has: messages that are complete, the parts of the next,
and packets after a gap. -/
structure Received (P : List (Kind × List UInt8)) (r : ℕ) (v : InboxHeap.RecvView) (c : Ctl)
    (d : List (List UInt8)) : Prop where
  consumed : Consumed P v.inSeqno (v.fragList.map fun el => el.pkt.msg) d
  ahead : Ahead P (v.inSeqno + c.gap r) v.inList
  pkt : ∀ pkt, c = .pkt r pkt → Holds P pkt ∧ v.inSeqno + 1 < pkt.srcSeqno + 2 ^ 31

section

variable {P : List (Kind × List UInt8)} {q r : ℕ} {m : InboxMem} {d : List (List UInt8)}

theorem dispatchedOf_step (hm : m.Inv) (e : InboxHeap.Event) (r : ℕ) :
    (m.step e).dispatchedOf r = m.dispatchedOf r ++
      ((InboxMem.handed (m.step e).load m.heap m.heap.ctl (m.heap.step e).ctl).filter
        fun x => x.1 = r).map Prod.snd := by
  have hdisp : (m.step e).dispatched = m.dispatched ++
      InboxMem.handed (m.step e).load m.view m.view.ctl (m.view.step e).ctl := rfl
  unfold InboxMem.dispatchedOf
  rw [hdisp, hm.view, List.filter_append, List.map_append]

/-- The next packet compares as its number does. -/
theorem isNext_iff {h : InboxHeap} {pkt : InboxPkt}
    (hle : pkt.srcSeqno < (h.peer r).inSeqno + 2 ^ 31)
    (hlt : (h.peer r).inSeqno + 1 < pkt.srcSeqno + 2 ^ 31) :
    h.isNext r pkt ↔ pkt.srcSeqno = (h.peer r).inSeqno + 1 := by
  unfold InboxHeap.isNext
  rw [seqnoCmp_eq hlt (by omega)]
  constructor
  · intro h
    omega
  · intro h
    omega

/-- The recv side where `dispatch_msg` is in its loop. -/
theorem Received.of_gap_zero {v : InboxHeap.RecvView} {c : Ctl}
    (hcons : Consumed P v.inSeqno (v.fragList.map fun el => el.pkt.msg) d)
    (hahead : Ahead P v.inSeqno v.inList) (hgap : c.gap r = 0) : Received P r v c d := by
  refine ⟨hcons, ?_, ?_⟩
  · rwa [hgap]
  · rintro pkt rfl
    cases hgap

theorem recvView_update {h g : InboxHeap} {p : WinPeer}
    (hpeer : g.peer = Function.update h.peer r p) :
    g.recvView r = ⟨p.inSeqno, p.inList, p.fragList⟩ := by
  unfold InboxHeap.recvView
  rw [hpeer, Function.update_self]

/-- A message of the peer is handed on. -/
theorem dispatched_self (d : List (List UInt8)) (r : ℕ) (msg : List UInt8) :
    d ++ (([(r, msg)] : List (ℕ × List UInt8)).filter fun x => x.1 = r).map Prod.snd =
      d ++ [msg] := by
  rw [List.filter_cons_of_pos (by simp)]
  rfl

/-- `dispatch_msg` of a packet of the peer. -/
theorem Received.dispatchMsg (hm : m.Inv) {pkt : InboxPkt} (hctl : m.heap.ctl = .pkt r pkt)
    (h : Received P r (m.heap.recvView r) m.heap.ctl (m.dispatchedOf r)) :
    Received P r ((m.heap.step .next).recvView r) (m.heap.step .next).ctl
      ((m.step .next).dispatchedOf r) := by
  have hpkt := (h.pkt pkt hctl).1
  have hlt : (m.heap.peer r).inSeqno + 1 < pkt.srcSeqno + 2 ^ 31 := (h.pkt pkt hctl).2
  have hcons := h.consumed
  have hahead : Ahead P ((m.heap.peer r).inSeqno + 1) (m.heap.peer r).inList := by
    have hahead := h.ahead
    rwa [hctl] at hahead
  have hnear : P.length < (m.heap.peer r).inSeqno + 2 ^ 31 := hcons.near
  have hle := hpkt.le
  have hnext_iff : m.heap.isNext r pkt ↔ pkt.srcSeqno = (m.heap.peer r).inSeqno + 1 :=
    isNext_iff (by omega) hlt
  have hstep := InboxHeap.step_pkt hctl
  rw [dispatchedOf_step hm, hctl, hstep]
  have hcases := InboxHeap.dispatchMsg_cases m.heap r pkt
  generalize m.heap.dispatchMsg r pkt = g at hcases hstep ⊢
  cases hcases with
  | direct hnext hwhole =>
    rw [recvView_update rfl]
    show Received P r _ (.direct r) (_ ++ List.map Prod.snd (List.filter _ [(r, pkt.msg)]))
    rw [dispatched_self]
    refine .of_gap_zero (hcons.whole hpkt (hnext_iff.1 hnext) hwhole) ?_ (if_pos rfl)
    exact hahead.mono (hnext_iff.1 hnext).le
  | rollup hnext hfrag hroll =>
    have hgather := InboxMem.gather_pkt (q := r) hm hctl hstep
    rw [recvView_update (InboxHeap.peer_dispatchFragMsg m.heap r _ _)]
    show Received P r _ (.frag r _) (_ ++ List.map Prod.snd (List.filter _
      [(r, InboxMem.gather _ (m.heap.peer r).fragList ++ pkt.msg)]))
    rw [dispatched_self, hgather]
    have hlast := hcons.last hpkt (hnext_iff.1 hnext) hfrag hroll
    rw [List.flatten_append, List.flatten_singleton, ← List.flatMap_def] at hlast
    exact .of_gap_zero hlast (hahead.mono (hnext_iff.1 hnext).le) (if_pos rfl)
  | part hnext hfrag hroll =>
    rw [recvView_update (p := { m.heap.peer r with
      inSeqno := pkt.srcSeqno
      fragList := (m.heap.peer r).fragList ++ [(m.heap.allocWindow r pkt).2] }) rfl]
    show Received P r _ (.loop r) (_ ++ [])
    rw [List.append_nil]
    refine .of_gap_zero ?_ (hahead.mono (hnext_iff.1 hnext).le) (if_pos rfl)
    rw [List.map_append]
    exact hcons.part hpkt (hnext_iff.1 hnext) hfrag hroll
  | early hnext hearly hnew =>
    have hgt : (m.heap.peer r).inSeqno < pkt.srcSeqno := by
      rw [seqnoCmp_eq (by omega) (by omega)] at hearly
      omega
    rw [recvView_update (p := { m.heap.peer r with
      inList := InboxHeap.insertIn (m.heap.allocWindow r pkt).2 (m.heap.peer r).inList }) rfl]
    show Received P r _ (.loop r) (_ ++ [])
    rw [List.append_nil]
    refine .of_gap_zero hcons ?_ (if_pos rfl)
    exact ((hahead.mono (Nat.le_succ _)).insertIn (x := (m.heap.allocWindow r pkt).2) hnear hpkt hgt
      hnew).1
  | drop hnext hold =>
    show Received P r (m.heap.recvView r) .idle (_ ++ [])
    rw [List.append_nil]
    exact ⟨hcons, hahead, fun _ h => by cases h⟩

/-- A turn of the loop of `dispatch_msg`. -/
theorem Received.dispatchIn (hm : m.Inv) (hctl : m.heap.ctl = .loop r)
    (h : Received P r (m.heap.recvView r) m.heap.ctl (m.dispatchedOf r)) :
    Received P r ((m.heap.step .next).recvView r) (m.heap.step .next).ctl
      ((m.step .next).dispatchedOf r) := by
  have hcons := h.consumed
  have hahead : Ahead P (m.heap.peer r).inSeqno (m.heap.peer r).inList := by
    have hahead := h.ahead
    rwa [hctl, show (Ctl.loop r).gap r = 0 from if_pos rfl] at hahead
  have hnear : P.length < (m.heap.peer r).inSeqno + 2 ^ 31 := hcons.near
  have hnext_iff : ∀ {el rest}, (m.heap.peer r).inList = el :: rest →
      (m.heap.isNext r el.pkt ↔ el.pkt.srcSeqno = (m.heap.peer r).inSeqno + 1) := by
    intro el rest hin
    have hmem : el ∈ (m.heap.peer r).inList := hin ▸ List.mem_cons_self
    have hlt := hahead.lt el hmem
    have hle := (hahead.holds el hmem).le
    exact isNext_iff (by omega) (by omega)
  have hstep := InboxHeap.step_loop hctl
  rw [dispatchedOf_step hm, hctl, hstep]
  have hcases := InboxHeap.dispatchIn_cases m.heap r
  generalize m.heap.dispatchIn r (m.heap.peer r).inList = g at hcases hstep ⊢
  cases hcases with
  | @elem el rest hin hnext hwhole =>
    have heq := (hnext_iff hin).1 hnext
    rw [hin] at hahead
    rw [recvView_update (p := { m.heap.peer r with
      inSeqno := el.pkt.srcSeqno
      inList := rest }) rfl]
    show Received P r _ (.elem r el) (_ ++ List.map Prod.snd (List.filter _ [(r, el.pkt.msg)]))
    rw [dispatched_self]
    exact .of_gap_zero (hcons.whole (hahead.holds el List.mem_cons_self) heq hwhole) hahead.tail
      (if_pos rfl)
  | @rollup el rest hin hnext hfrag hroll =>
    have heq := (hnext_iff hin).1 hnext
    have hgather := InboxMem.gather_loop (q := r) hm hctl hin hstep
    rw [show m.heap.popFrag r el rest = m.heap.setPeer r { m.heap.peer r with
        inSeqno := el.pkt.srcSeqno
        inList := rest
        fragList := (m.heap.peer r).fragList ++ [el] } from rfl,
      recvView_update (InboxHeap.peer_dispatchFragMsg m.heap r _ _)]
    show Received P r _ (.frag r _) (_ ++ List.map Prod.snd (List.filter _
      [(r, InboxMem.gather _ ((m.heap.peer r).fragList ++ (m.heap.peer r).inList.take 1))]))
    rw [dispatched_self, hgather, List.flatMap_append]
    rw [hin] at hahead
    have hlast := hcons.last (hahead.holds el List.mem_cons_self) heq hfrag hroll
    rw [List.flatten_append, List.flatten_singleton, ← List.flatMap_def] at hlast
    rw [List.flatMap_singleton]
    exact .of_gap_zero hlast hahead.tail (if_pos rfl)
  | @part el rest hin hnext hfrag hroll =>
    have heq := (hnext_iff hin).1 hnext
    rw [hin] at hahead
    have hctl' : (m.heap.popFrag r el rest).ctl = .loop r := hctl
    rw [recvView_update (p := { m.heap.peer r with
      inSeqno := el.pkt.srcSeqno
      inList := rest
      fragList := (m.heap.peer r).fragList ++ [el] }) rfl, hctl']
    show Received P r _ (.loop r) (_ ++ [])
    rw [List.append_nil]
    refine .of_gap_zero ?_ hahead.tail (if_pos rfl)
    rw [List.map_append]
    exact hcons.part (hahead.holds el List.mem_cons_self) heq hfrag hroll
  | done hgap =>
    show Received P r (m.heap.recvView r) .idle (_ ++ [])
    rw [List.append_nil]
    refine ⟨hcons, hahead.gap fun el hel heq => ?_, fun _ h => by cases h⟩
    obtain ⟨rest, hin⟩ := List.head?_eq_some_iff.1 hel
    exact hgap el hel ((hnext_iff hin).2 heq)

/-! ### Where nothing of the peer is dispatched -/

theorem handed_self (load : Cell → InboxPkt) (h : InboxHeap) (c : Ctl) :
    InboxMem.handed load h c c = [] := by
  cases c with
  | _ => rfl

/-- What is dispatched of another peer. -/
structure Elsewhere (r : ℕ) (load : Cell → InboxPkt) (h g : InboxHeap) : Prop where
  handed : (InboxMem.handed load h h.ctl g.ctl).filter (fun x => x.1 = r) = []
  gap : g.ctl.gap r = 1
  pkt : ∀ pkt, g.ctl ≠ .pkt r pkt

theorem elsewhere_dispatchMsg (load : Cell → InboxPkt) {h : InboxHeap} {k : ℕ} (hne : k ≠ r)
    {pkt : InboxPkt} (hctl : h.ctl = .pkt k pkt) : Elsewhere r load h (h.dispatchMsg k pkt) := by
  have hcases := InboxHeap.dispatchMsg_cases h k pkt
  generalize h.dispatchMsg k pkt = g at hcases ⊢
  have hnil : ∀ msg : List UInt8, [(k, msg)].filter (fun x => x.1 = r) = [] := fun msg =>
    List.filter_cons_of_neg (by simpa using hne)
  cases hcases with
  | direct hnext hwhole =>
    exact ⟨by rw [hctl]; exact hnil _, if_neg hne, fun _ h => by cases h⟩
  | rollup hnext hfrag hroll =>
    exact ⟨by rw [hctl]; exact hnil _, if_neg hne, fun _ h => by cases h⟩
  | part hnext hfrag hroll => exact ⟨by rw [hctl]; rfl, if_neg hne, fun _ h => by cases h⟩
  | early hnext hearly hnew => exact ⟨by rw [hctl]; rfl, if_neg hne, fun _ h => by cases h⟩
  | drop hnext hold => exact ⟨by rw [hctl]; rfl, rfl, fun _ h => by cases h⟩

theorem elsewhere_dispatchIn (load : Cell → InboxPkt) {h : InboxHeap} {k : ℕ} (hne : k ≠ r)
    (hctl : h.ctl = .loop k) : Elsewhere r load h (h.dispatchIn k (h.peer k).inList) := by
  have hcases := InboxHeap.dispatchIn_cases h k
  generalize h.dispatchIn k (h.peer k).inList = g at hcases ⊢
  have hnil : ∀ msg : List UInt8, [(k, msg)].filter (fun x => x.1 = r) = [] := fun msg =>
    List.filter_cons_of_neg (by simpa using hne)
  cases hcases with
  | elem hin hnext hwhole =>
    exact ⟨by rw [hctl]; exact hnil _, if_neg hne, fun _ h => by cases h⟩
  | rollup hin hnext hfrag hroll =>
    exact ⟨by rw [hctl]; exact hnil _, if_neg hne, fun _ h => by cases h⟩
  | @part el rest hin hnext hfrag hroll =>
    have hsame : (h.popFrag k el rest).ctl = .loop k := hctl
    refine ⟨?_, ?_, ?_⟩
    · rw [hsame, hctl]
      rfl
    · rw [hsame]
      exact if_neg hne
    · rw [hsame]
      intro pkt heq
      cases heq
  | done hgap => exact ⟨by rw [hctl]; rfl, rfl, fun _ h => by cases h⟩

/-- Only where the transport is changes. -/
theorem Received.setCtl {v : InboxHeap.RecvView} {c c' : Ctl} (h : Received P r v c d)
    (hgap : c'.gap r = c.gap r)
    (hpkt : ∀ pkt, c' = .pkt r pkt → Holds P pkt ∧ v.inSeqno + 1 < pkt.srcSeqno + 2 ^ 31) :
    Received P r v c' d := by
  refine ⟨h.consumed, ?_, hpkt⟩
  rw [hgap]
  exact h.ahead

theorem Received.next (hm : m.Inv)
    (h : Received P r (m.heap.recvView r) m.heap.ctl (m.dispatchedOf r)) :
    Received P r ((m.heap.step .next).recvView r) (m.heap.step .next).ctl
      ((m.step .next).dispatchedOf r) := by
  have hother : ∀ k, k ≠ r → m.heap.ctl.peer = k → m.heap.ctl.gap r = 1 →
      Elsewhere r (m.step .next).load m.heap (m.heap.step .next) →
      Received P r ((m.heap.step .next).recvView r) (m.heap.step .next).ctl
        ((m.step .next).dispatchedOf r) := by
    intro k hne hpeer hgap helse
    obtain ⟨n, inList, fragList, hupdate⟩ := (InboxHeap.recvOnly_next m.heap).peer
    have hview : (m.heap.step .next).recvView r = m.heap.recvView r := by
      show InboxHeap.recvView (m.heap.next m.heap.ctl) r = _
      unfold InboxHeap.recvView
      rw [hupdate, hpeer, Function.update_of_ne (Ne.symm hne)]
    rw [dispatchedOf_step hm, helse.handed, hview]
    rw [List.map_nil, List.append_nil]
    exact h.setCtl (helse.gap.trans hgap.symm) fun pkt heq => absurd heq (helse.pkt pkt)
  have hsame : m.heap.step .next = m.heap →
      Received P r ((m.heap.step .next).recvView r) (m.heap.step .next).ctl
        ((m.step .next).dispatchedOf r) := by
    intro hstep
    rw [dispatchedOf_step hm, hstep, handed_self]
    rw [List.filter_nil, List.map_nil, List.append_nil]
    exact h
  cases hctl : m.heap.ctl with
  | pkt k pkt =>
    have hstep : m.heap.step .next = m.heap.dispatchMsg k pkt := by
      show m.heap.next m.heap.ctl = _
      rw [hctl]
      rfl
    by_cases hk : k = r
    · subst hk
      exact h.dispatchMsg hm hctl
    · refine hother k hk (by rw [hctl]; rfl) (by rw [hctl]; rfl) ?_
      rw [hstep]
      exact elsewhere_dispatchMsg _ hk hctl
  | loop k =>
    have hstep : m.heap.step .next = m.heap.dispatchIn k (m.heap.peer k).inList := by
      show m.heap.next m.heap.ctl = _
      rw [hctl]
      rfl
    by_cases hk : k = r
    · subst hk
      exact h.dispatchIn hm hctl
    · refine hother k hk (by rw [hctl]; rfl) (by rw [hctl]; exact if_neg hk) ?_
      rw [hstep]
      exact elsewhere_dispatchIn _ hk hctl
  | idle => exact hsame (by show m.heap.next m.heap.ctl = _; rw [hctl]; rfl)
  | direct k => exact hsame (by show m.heap.next m.heap.ctl = _; rw [hctl]; rfl)
  | elem k el => exact hsame (by show m.heap.next m.heap.ctl = _; rw [hctl]; rfl)
  | frag k buf => exact hsame (by show m.heap.next m.heap.ctl = _; rw [hctl]; rfl)

/-- Where the transport is after an event that is not a turn of `dispatch_msg`. -/
theorem ctl_step (h : InboxHeap) (hq : h.Queued) {e : InboxHeap.Event} (hnext : e ≠ .next)
    (load : Cell → InboxPkt) :
    InboxMem.handed load h h.ctl (h.step e).ctl = [] ∧ (h.step e).ctl.gap r = h.ctl.gap r ∧
      ∀ pkt, (h.step e).ctl = .pkt r pkt →
        h.ctl = .pkt r pkt ∨ e = .recv r pkt ∧ pkt.code.isData = true := by
  have hsame : ∀ {g : InboxHeap}, g.ctl = h.ctl →
      InboxMem.handed load h h.ctl g.ctl = [] ∧ g.ctl.gap r = h.ctl.gap r ∧
        ∀ pkt, g.ctl = .pkt r pkt →
          h.ctl = .pkt r pkt ∨ e = .recv r pkt ∧ pkt.code.isData = true := by
    intro g hg
    rw [hg]
    exact ⟨handed_self load h h.ctl, rfl, fun pkt hpkt => Or.inl hpkt⟩
  have hite : ∀ {b : Bool} {g : InboxHeap}, g.ctl = h.ctl → (if b then g else h).ctl = h.ctl := by
    intro b g hg
    split
    · exact hg
    · rfl
  cases e with
  | call c =>
    refine hsame (hite ?_)
    cases c with
    | post k msg =>
      obtain ⟨new, hnew⟩ := InboxHeap.posted h k (msgPackets (maxPayload h.mtu) msg)
      exact hnew.ctl
    | postFrag k msg trail =>
      obtain ⟨new, hnew⟩ := InboxHeap.posted h k (trailPackets (maxPayload h.mtu) msg trail)
      exact hnew.ctl
    | reset k => rfl
    | reassign k addr =>
      show (h.reassignPeer k addr).ctl = _
      unfold InboxHeap.reassignPeer
      split
      · rfl
      · rfl
  | recv k pkt =>
    cases hidle : h.ctl.isIdle with
    | false =>
      refine hsame ?_
      unfold InboxHeap.step
      dsimp only
      rw [hidle]
      rfl
    | true =>
      have hctl := InboxMem.ctl_of_isIdle hidle
      have hstep : (h.step (.recv k pkt)).ctl = if pkt.code.isData then .pkt k pkt else .idle := by
        unfold InboxHeap.step
        dsimp only
        rw [if_pos hidle]
        rfl
      rw [hstep, hctl]
      split
      · next hdata =>
        refine ⟨rfl, rfl, fun pkt' heq => Or.inr ?_⟩
        cases heq
        exact ⟨rfl, hdata⟩
      · exact ⟨rfl, rfl, fun _ heq => by cases heq⟩
  | next => exact absurd rfl hnext
  | ret =>
    rw [show (h.step .ret).ctl = (h.ret h.ctl).ctl from rfl]
    have hstay : ∀ c, (h.ret c).ctl = c → InboxMem.handed load h c (h.ret c).ctl = [] ∧
        (h.ret c).ctl.gap r = c.gap r ∧ ∀ pkt, (h.ret c).ctl = .pkt r pkt →
          c = .pkt r pkt ∨ InboxHeap.Event.ret = .recv r pkt ∧ pkt.code.isData = true := by
      intro c hc
      rw [hc]
      exact ⟨handed_self load h c, rfl, fun pkt hpkt => Or.inl hpkt⟩
    cases hctl : h.ctl with
    | direct k => exact ⟨rfl, rfl, fun _ heq => by cases heq⟩
    | elem k el => exact ⟨rfl, rfl, fun _ heq => by cases heq⟩
    | frag k buf => exact ⟨rfl, rfl, fun _ heq => by cases heq⟩
    | idle => exact hstay _ hctl
    | pkt k pkt => exact hstay _ hctl
    | loop k => exact hstay _ hctl
  | write => exact hsame (hite (InboxHeap.written hq).ctl)
  | repair k =>
    refine hsame (hite ?_)
    unfold InboxHeap.checkWindow
    extract_lets p unacked
    split
    · rfl
    · rfl
  | ack k type => exact hsame (hite rfl)

theorem Received.step (hm : m.Inv) {e : InboxHeap.Event}
    (h : Received P r (m.heap.recvView r) m.heap.ctl (m.dispatchedOf r))
    (hres : ¬ InboxHeap.Resets r e)
    (hrecv : ∀ pkt, e = .recv r pkt → pkt.code.isData = true →
      Holds P pkt ∧ (m.heap.peer r).inSeqno + 1 < pkt.srcSeqno + 2 ^ 31) :
    Received P r ((m.step e).heap.recvView r) (m.step e).heap.ctl ((m.step e).dispatchedOf r) := by
  rw [hm.heap_step]
  by_cases hnext : e = .next
  · subst hnext
    exact h.next hm
  · obtain ⟨hnil, hgap, hpkt⟩ := ctl_step (r := r) m.heap hm.queued hnext (m.step e).load
    rw [dispatchedOf_step hm, hnil, InboxHeap.recvView_step hm.queued hres hnext]
    rw [List.filter_nil, List.map_nil, List.append_nil]
    refine h.setCtl hgap fun pkt heq => ?_
    rcases hpkt pkt heq with hold | ⟨rfl, hdata⟩
    · exact h.pkt pkt hold
    · exact hrecv pkt rfl hdata

/-! ## The sender -/

/-- The packets of the send side carry the pieces of their numbers. -/
def Packed (P : List (Kind × List UInt8)) (v : SendView) : Prop :=
  ∀ pkt ∈ v.out ++ v.queue, Holds P pkt

/-- The pieces that an event of the send side adds. -/
def piecesOf : SendEvent → List (Kind × List UInt8)
  | .post _ pkts => pieces pkts
  | _ => []

theorem outSeqno_step (v : SendView) (e : SendEvent) :
    (v.step e).outSeqno = v.outSeqno + (piecesOf e).length := by
  cases e with
  | post n pkts =>
    show v.outSeqno + pkts.length = v.outSeqno + (pieces pkts).length
    rw [pieces, List.length_map]
  | ack destSeqno =>
    show (v.acked destSeqno).outSeqno = _
    unfold SendView.acked
    split
    · split
      · rfl
      · rfl
    · rfl
  | repair n =>
    show (if _ then _ else _ : SendView).outSeqno = _
    split
    · rfl
    · rfl
  | none => rfl
  | write => rfl

theorem Packed.step {v : SendView} (h : Packed P v) (hlen : P.length = v.outSeqno) (e : SendEvent) :
    Packed (P ++ piecesOf e) (v.step e) := by
  have hkeep : ∀ pkt ∈ v.out ++ v.queue, Holds (P ++ piecesOf e) pkt := fun pkt hpkt =>
    (h pkt hpkt).append _
  cases e with
  | none => exact hkeep
  | post n pkts =>
    intro pkt hpkt
    rw [SendView.step, ← List.append_assoc] at hpkt
    rcases List.mem_append.1 hpkt with hpkt | hpkt
    · exact hkeep pkt hpkt
    · rw [← hlen] at hpkt
      exact holds_fillPkts n hpkt
  | ack destSeqno =>
    show Packed _ (v.acked destSeqno)
    unfold SendView.acked
    split
    · split
      · intro pkt hpkt
        refine hkeep pkt ((List.mem_append.1 hpkt).elim (fun hpkt => ?_) (List.mem_append_right _))
        exact List.mem_append_left _ ((List.dropWhile_sublist _).subset hpkt)
      · exact hkeep
    · exact hkeep
  | write =>
    intro pkt hpkt
    rw [SendView.step, List.append_nil] at hpkt
    exact hkeep pkt hpkt
  | repair n =>
    show Packed _ (if _ then _ else _ : SendView)
    split
    · intro pkt hpkt
      rcases List.mem_append.1 hpkt with hpkt | hpkt
      · exact hkeep pkt (List.mem_append_left _ ((List.rdropWhile_prefix _ _).mem hpkt))
      · rcases List.mem_append.1 hpkt with hpkt | hpkt
        · exact hkeep pkt (List.mem_append_right _ hpkt)
        · obtain ⟨x, hx, rfl⟩ := List.mem_map.1 hpkt
          exact hkeep x (List.mem_append_left _ ((List.rtakeWhile_suffix _ _).mem hx))
    · exact hkeep

/-- An event posts its message. -/
theorem posts_step (h : InboxHeap) (q : ℕ) (e : InboxHeap.Event) (d : List (List UInt8)) :
    (piecesOf (h.sendEvent q e)).foldl Reassembly.join (d, []) = (d ++ message q h e, []) := by
  have hnone : (d, ([] : List (List UInt8))) = (d ++ [], []) := by rw [List.append_nil]
  cases e with
  | call c =>
    cases hout : h.ctl.isOutside with
    | false => cases c with
      | _ => simp [InboxHeap.sendEvent, InboxHeap.packets, piecesOf, message, hout]
    | true =>
      cases c with
      | post k msg =>
        by_cases hk : k = q
        · simp only [InboxHeap.sendEvent, InboxHeap.packets, InboxHeap.Call.packets, hout, hk,
            if_true, message, and_self]
          exact foldl_join_msgPackets _ _ _
        · simp [InboxHeap.sendEvent, InboxHeap.packets, InboxHeap.Call.packets, hout, hk, message,
            piecesOf]
      | postFrag k msg trail =>
        by_cases hk : k = q
        · simp only [InboxHeap.sendEvent, InboxHeap.packets, InboxHeap.Call.packets, hout, hk,
            if_true, message, and_self]
          exact foldl_join_trailPackets _ _ _ _
        · simp [InboxHeap.sendEvent, InboxHeap.packets, InboxHeap.Call.packets, hout, hk, message,
            piecesOf]
      | reset k => simp [InboxHeap.sendEvent, InboxHeap.packets, InboxHeap.Call.packets, hout,
          message, piecesOf]
      | reassign k addr => simp [InboxHeap.sendEvent, InboxHeap.packets, InboxHeap.Call.packets,
          hout, message, piecesOf]
  | recv k pkt =>
    simp only [InboxHeap.sendEvent, message]
    split
    · exact hnone
    · exact hnone
  | write =>
    simp only [InboxHeap.sendEvent, message]
    split
    · exact hnone
    · exact hnone
  | repair k =>
    simp only [InboxHeap.sendEvent, message]
    split
    · exact hnone
    · exact hnone
  | next => exact hnone
  | ret => exact hnone
  | ack k type => exact hnone

/-- Only a post to the peer adds pieces. -/
theorem piecesOf_eq (h : InboxHeap) (q : ℕ) (e : InboxHeap.Event) :
    piecesOf (h.sendEvent q e) = [] ∨
      ∃ pkts, h.packets e = some (q, pkts) ∧ piecesOf (h.sendEvent q e) = pieces pkts := by
  have hcases := InboxHeap.sendEvent_cases h q e
  generalize h.sendEvent q e = se at hcases ⊢
  cases hcases with
  | post hpkts => exact Or.inr ⟨_, hpkts, rfl⟩
  | _ => exact Or.inl rfl

/-! ### Datagrams -/

theorem sent_step (h : InboxHeap) {e : InboxHeap.Event}
    (hne : ¬ (e = .write ∧ h.ctl.isIdle = true)) : (h.step e).sent = h.sent := by
  have hite : ∀ {b : Bool} {g : InboxHeap}, g.sent = h.sent →
      (if b then g else h).sent = h.sent := by
    intro b g hg
    split
    · exact hg
    · rfl
  cases e with
  | call c =>
    refine hite ?_
    cases c with
    | post k msg =>
      obtain ⟨new, hnew⟩ := InboxHeap.posted h k (msgPackets (maxPayload h.mtu) msg)
      exact hnew.sent
    | postFrag k msg trail =>
      obtain ⟨new, hnew⟩ := InboxHeap.posted h k (trailPackets (maxPayload h.mtu) msg trail)
      exact hnew.sent
    | reset k => rfl
    | reassign k addr =>
      show (h.reassignPeer k addr).sent = _
      unfold InboxHeap.reassignPeer
      split
      · rfl
      · rfl
  | recv k pkt =>
    refine hite ?_
    show (h.ackPeer k pkt.destSeqno).sent = _
    unfold InboxHeap.ackPeer
    extract_lets p h'
    split
    · split
      · rfl
      · rfl
    · rfl
  | next => exact (InboxHeap.recvOnly_next h).sent
  | ret => exact (InboxHeap.ret_same h h.ctl).2.2.2
  | write =>
    show (if h.ctl.isIdle then h.write else h).sent = h.sent
    rw [if_neg fun hidle => hne ⟨rfl, hidle⟩]
  | repair k =>
    refine hite ?_
    unfold InboxHeap.checkWindow
    extract_lets p unacked
    split
    · rfl
    · rfl
  | ack k type => exact hite rfl

/-- A packet is sent as it is in the queue. -/
theorem mem_wire (hm : m.Inv) {e : InboxHeap.Event} (hkept : m.heap.RetsKept e)
    (hacks : AcksKept q m.heap e) {pkt : InboxPkt} (hpkt : pkt ∈ wire q m (m.step e)) :
    ∃ el ∈ m.heap.out, el.peer = q ∧ el.pkt = pkt := by
  obtain ⟨x, hx, rfl⟩ := List.mem_map.1 hpkt
  obtain ⟨hx, hpeer⟩ := List.mem_filter.1 hx
  have hpeer : x.el.peer = q := of_decide_eq_true hpeer
  rw [hm.heap_step] at hx
  by_cases hwrite : e = .write ∧ m.heap.ctl.isIdle = true
  · obtain ⟨rfl, hidle⟩ := hwrite
    have hstep : m.heap.step .write = m.heap.write := if_pos hidle
    have hw := InboxHeap.written hm.queued
    rw [hstep, hw.sent, List.drop_left] at hx
    obtain ⟨el, hel, rfl⟩ := List.mem_map.1 hx
    refine ⟨el, hel, hpeer, ?_⟩
    have helem : el ∈ m.heap.elems q :=
      List.mem_append_left _ (List.mem_filter.2 ⟨hel, decide_eq_true hpeer⟩)
    have hinv := (hm.step hkept).heap
    rw [hm.heap_step, hstep] at hinv
    -- the window of the packet is still there when it is sent
    have hthere : ∃ win, m.heap.write.store.windows el.cell.window = some win := by
      have hlive : ∀ o ∈ m.heap.elems q, o.pkt.code.isData = true →
          ∃ win, m.heap.write.store.windows o.cell.window = some win := by
        intro o ho hdata
        obtain ⟨win, hwin, -⟩ := hinv.sound.cell (InboxMem.mem_live
          ((InboxMem.mem_elems_write hm.queued).2 ⟨ho, Or.inr hdata⟩))
        exact ⟨win, hwin⟩
      by_cases hdata : el.pkt.code.isData = true
      · exact hlive el helem hdata
      · rcases hacks el hel hpeer (Bool.eq_false_iff.2 hdata) with hcur | ⟨o, ho, hdata', heq⟩
        · rw [← hw.current] at hcur
          obtain ⟨win, hwin, -⟩ := hinv.sound.current hcur
          exact ⟨win, hwin⟩
        · exact heq ▸ hlive o ho hdata'
    obtain ⟨win, hwin⟩ := hthere
    have hmem : (m.step .write).mem = m.mem := by
      rw [hm.mem_step, hstep]
      unfold InboxMem.written
      rw [hw.out, hw.ctl, InboxMem.copied_self, List.drop_nil]
      rfl
    show el.pkt = (m.step .write).load el.cell
    unfold InboxMem.load
    rw [hm.heap_step, hstep, hwin]
    dsimp only
    rw [hmem, hm.stored.pkt q el helem]
    rfl
  · rw [sent_step m.heap hwrite, List.drop_length] at hx
    cases hx

/-! ## Both -/

/-- The packets of the sender and of the network carry the pieces of what was posted,
and the receiver read the first of them. -/
structure Inv (q r : ℕ) (P : List (Kind × List UInt8)) (s : InboxPair) : Prop where
  src : s.src.Inv
  dst : s.dst.Inv
  length : P.length = (s.src.heap.peer q).outSeqno
  read : Reassembly.read P = (s.posted, [])
  packed : Packed P (s.src.heap.sendView q)
  net : ∀ pkt ∈ s.net, pkt.code.isData = true → Holds P pkt
  received : Received P r (s.dst.heap.recvView r) s.dst.heap.ctl (s.dst.dispatchedOf r)

variable {s : InboxPair}

/-- More pieces are posted. -/
theorem Received.append {v : InboxHeap.RecvView} {c : Ctl} (h : Received P r v c d)
    {P' : List (Kind × List UInt8)} (hnear : (P ++ P').length < v.inSeqno + 2 ^ 31) :
    Received (P ++ P') r v c d := by
  have hle := h.consumed.le
  refine ⟨⟨?_, hnear, ?_⟩, ⟨h.ahead.sorted, h.ahead.lt, fun el hel =>
    (h.ahead.holds el hel).append _⟩, fun pkt hpkt => ?_⟩
  · exact hle.trans (by rw [List.length_append]; exact Nat.le_add_right _ _)
  · rw [List.take_append_of_le_length hle]
    exact h.consumed.read
  · exact ⟨(h.pkt pkt hpkt).1.append _, (h.pkt pkt hpkt).2⟩

theorem Inv.src_step (h : Inv q r P s) {e : InboxHeap.Event} (hok : Outstanding q r s (.src e))
    (hkept : Kept q s (.src e)) :
    Inv q r (P ++ piecesOf (s.src.heap.sendEvent q e)) (step q r s (.src e)) := by
  obtain ⟨hsends, hres, hposts⟩ := hok
  obtain ⟨hrets, hacks⟩ := hkept
  rw [h.src.view] at hposts hrets hacks
  have hview := InboxHeap.sendView_step h.src.queued hsends hres
  have hlen : (P ++ piecesOf (s.src.heap.sendEvent q e)).length =
      ((s.src.heap.step e).peer q).outSeqno := by
    have houtSeqno := congrArg SendView.outSeqno hview
    rw [outSeqno_step] at houtSeqno
    rw [List.length_append, h.length]
    exact houtSeqno.symm
  refine ⟨h.src.step hrets, h.dst, ?_, ?_, ?_, fun pkt hpkt hdata => ?_, ?_⟩
  · show _ = ((s.src.step e).heap.peer q).outSeqno
    rw [h.src.heap_step]
    exact hlen
  · show _ = (s.posted ++ message q s.src.view e, [])
    rw [Reassembly.read_append, h.read, h.src.view]
    exact posts_step _ q e _
  · show Packed _ ((s.src.step e).heap.sendView q)
    rw [h.src.heap_step, hview]
    exact h.packed.step h.length _
  · rcases List.mem_append.1 hpkt with hpkt | hpkt
    · exact (h.net pkt hpkt hdata).append _
    · obtain ⟨el, hel, hpeer, rfl⟩ := mem_wire h.src hrets hacks hpkt
      refine (h.packed el.pkt (List.mem_append_right _ (List.mem_map_of_mem ?_))).append _
      refine List.mem_filter.2 ⟨hel, ?_⟩
      simp [hpeer, hdata]
  · refine h.received.append ?_
    have hnear := h.received.consumed.near
    rcases piecesOf_eq s.src.heap q e with hnil | ⟨pkts, hpkts, hpieces⟩
    · rw [hnil, List.append_nil]
      exact hnear
    · have hlt := hposts _ hpkts rfl
      rw [List.length_append, hpieces, h.length, pieces, List.length_map]
      exact hlt

theorem Inv.step (h : Inv q r P s) {e : Event} (hok : Outstanding q r s e) (hkept : Kept q s e) :
    ∃ P, Inv q r P (step q r s e) := by
  cases e with
  | src e => exact ⟨_, h.src_step hok hkept⟩
  | dst e =>
    have hrets : s.dst.view.RetsKept e := hkept
    rw [h.dst.view] at hrets
    refine ⟨P, h.src, h.dst.step hrets, h.length, h.read, h.packed, h.net, ?_⟩
    refine h.received.step h.dst hok.1 fun pkt heq => ?_
    subst heq
    exact absurd rfl hok.2
  | deliver pkt =>
    obtain ⟨hpkt, hnear⟩ := hok
    refine ⟨P, h.src, h.dst.step trivial, h.length, h.read, h.packed, h.net, ?_⟩
    refine h.received.step h.dst (fun h => h) fun pkt' heq hdata => ?_
    cases heq
    refine ⟨h.net pkt hpkt hdata, ?_⟩
    have hle := h.received.consumed.le
    rw [h.length] at hle
    have hseqno : (s.dst.heap.peer r).inSeqno ≤ (s.src.heap.peer q).outSeqno := hle
    omega

theorem inv_start (src dst : { mtu : UInt32 // mtu ≠ 48 }) (addr addr' : ℕ → List UInt8)
    (junk junk' : List (Write InboxPkt) → Cell → InboxPkt) :
    Inv q r [] (start src dst addr addr' junk junk') where
  src := InboxMem.inv_start src addr junk
  dst := InboxMem.inv_start dst addr' junk'
  length := rfl
  read := rfl
  packed _ hpkt := absurd hpkt List.not_mem_nil
  net _ hpkt := absurd hpkt List.not_mem_nil
  received := by
    refine ⟨⟨le_rfl, ?_, rfl⟩, ⟨.nil, fun _ hel => absurd hel List.not_mem_nil,
      fun _ hel => absurd hel List.not_mem_nil⟩, fun _ heq => by cases heq⟩
    show 0 < 0 + 2 ^ 31
    omega

/-- The messages that the receiver hands on are the first that were posted. -/
theorem dispatched_prefix_posted (q r : ℕ) (src dst : { mtu : UInt32 // mtu ≠ 48 })
    (addr addr' : ℕ → List UInt8) (junk junk' : List (Write InboxPkt) → Cell → InboxPkt)
    {s : InboxPair} (hrun : Run.Reach (step q r) (fun s e => Outstanding q r s e ∧ Kept q s e)
      (start src dst addr addr' junk junk') s) : s.dst.dispatchedOf r <+: s.posted := by
  have hinv : ∃ P, Inv q r P s := by
    refine @Run.Reach.invariant _ _ _ _ _ (fun s => ∃ P, Inv q r P s)
      ⟨[], inv_start src dst addr addr' junk junk'⟩ ?_ s hrun
    rintro s e ⟨P, h⟩ ⟨hok, hkept⟩
    exact h.step hok hkept
  obtain ⟨P, h⟩ := hinv
  have hprefix := Reassembly.read_take_prefix P (s.dst.heap.recvView r).inSeqno
  rwa [h.received.consumed.read, h.read] at hprefix

end

/-- Two messages of two fragments each, the second with a trail: the datagrams come in
reverse, the third of them twice and the first only when it is repaired. The receiver
sends a message while the first one is dispatched. -/
def reversed : List Event :=
  let last : InboxPkt := ⟨InboxCode.message.setRollup, 2, 0, [3]⟩
  [.src (.call (.post 1 [1, 2, 3])), .src (.call (.postFrag 1 [4] [5])), .src .write,
    .deliver ⟨InboxCode.message.setRollup, 4, 0, [0]⟩, .dst .next, .dst .next,
    .deliver ⟨InboxCode.message.setFragment, 3, 0, [4, 5]⟩, .dst .next, .dst .next,
    .deliver last, .dst .next, .dst .next, .deliver last, .dst .next,
    .dst (.ack 2 .rack), .dst .write, .src (.recv 1 ⟨⟨.rack, false, false, false⟩, 0, 0, []⟩),
    .src (.repair 1), .src (.ack 1 .sack), .src .write,
    .deliver ⟨InboxCode.message.setFragment.setRepair, 1, 0, [1, 2]⟩, .dst .next, .dst .next,
    .dst (.call (.post 2 [6])), .dst .ret, .dst .next, .dst .next, .dst .ret, .dst .next,
    .dst .write]

theorem dispatched_prefix_posted_reversed :
    let s := reversed.foldl (step 1 2)
      (start ⟨50, by decide⟩ ⟨1500, by decide⟩ (fun _ => []) (fun _ => [])
        InboxMem.blank InboxMem.blank)
    s.dst.dispatchedOf 2 = [[1, 2, 3], [4, 5, 0]] ∧ s.dst.dispatchedOf 2 <+: s.posted :=
  ⟨by decide +kernel, dispatched_prefix_posted 1 2 ⟨50, by decide⟩ ⟨1500, by decide⟩ _ _ _ _
    (Run.Reach.start.foldl (by decide +kernel))⟩

/-- While the receiver dispatches the first message it sends one that does not fit its
window. So the memory of the first is given up from the next window, which has one
reference too few. The first fragment of the second message comes behind the packet that
is sent; when this is acked the window starts again, and another packet takes the place
of the fragment. -/
def overwritten : List Event :=
  let large := List.replicate 16280 0
  [.src (.call (.post 1 [1, 2])), .src .write, .src (.call (.post 1 [3, 4])), .src .write,
    .deliver ⟨InboxCode.message.setFragment, 1, 0, [1]⟩, .dst .next, .dst .next,
    .deliver ⟨InboxCode.message.setRollup, 2, 0, [2]⟩, .dst .next,
    .dst (.call (.post 2 large)), .dst .ret, .dst .next,
    .deliver ⟨InboxCode.message.setFragment, 3, 0, [3]⟩, .dst .next, .dst .next, .dst .write,
    .src (.recv 1 ⟨.message, 1, 2, large⟩), .src .next, .src .ret, .src .next,
    .src (.ack 1 .rack), .src .write,
    .deliver ⟨⟨.rack, false, false, false⟩, 4, 1, []⟩,
    .dst (.call (.post 2 large)), .dst (.call (.post 2 [9])),
    .deliver ⟨InboxCode.message.setRollup, 4, 0, [4]⟩, .dst .next]

/-- A message that was never posted is handed on. -/
theorem overwritten_not_posted :
    ¬ ∀ (q r : ℕ) (src dst : { mtu : UInt32 // mtu ≠ 48 }) (addr addr' : ℕ → List UInt8)
      (junk junk' : List (Write InboxPkt) → Cell → InboxPkt) (s : InboxPair),
      Run.Reach (step q r) (Outstanding q r) (start src dst addr addr' junk junk') s →
        s.dst.dispatchedOf r <+: s.posted := by
  intro h
  have hok : Run.AllOk (step 1 2) (Outstanding 1 2) (start ⟨49, by decide⟩ ⟨20000, by decide⟩
      (fun _ => []) (fun _ => []) InboxMem.blank InboxMem.blank) overwritten := by decide +kernel
  have hrun := h 1 2 _ _ _ _ _ _ _ (Run.Reach.start.foldl hok)
  have hnot : ¬ (overwritten.foldl (step 1 2) (start ⟨49, by decide⟩ ⟨20000, by decide⟩
      (fun _ => []) (fun _ => []) InboxMem.blank InboxMem.blank)).dst.dispatchedOf 2 <+:
      (overwritten.foldl (step 1 2) (start ⟨49, by decide⟩ ⟨20000, by decide⟩
      (fun _ => []) (fun _ => []) InboxMem.blank InboxMem.blank)).posted := by
    decide +kernel
  exact hnot hrun

end InboxPair

end Raims
