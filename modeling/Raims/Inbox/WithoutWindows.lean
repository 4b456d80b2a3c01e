import Raims.Inbox.PeerTable
import Raims.Inbox.SendWindow

/-!
# The transport with and without the memory of its windows

`EvInboxTransport` has the packets themselves in its lists, and the timers; `InboxMem`
has the windows that the packets are in, and may be called while a message is dispatched.
Where no such call comes the two do the same: every state of the transport that has no
windows is one of the transport that has them, with the same lists, the same send queue
and the same messages handed on, and no memory that is in use is given up on the way.
-/

namespace Raims

open EvInboxTransport (fillPkts consume drain dispatchPkt)
open InboxHeap (postPkt peer_setPeer_self)
open RefWindow

/-! ## The same lists -/

/-- What a peer has to do with packets. -/
@[ext]
structure PeerView where
  outSeqno : ℕ
  outAckSeqno : ℕ
  outWindowSeqno : ℕ
  inSeqno : ℕ
  out : List InboxPkt
  inList : List InboxPkt
  fragList : List InboxPkt

def InboxPeer.view (p : InboxPeer) : PeerView :=
  ⟨p.outSeqno, p.outAckSeqno, p.outWindowSeqno, p.inSeqno, p.out, p.inList, p.fragList⟩

def WinPeer.view (w : WinPeer) : PeerView :=
  ⟨w.outSeqno, w.outAckSeqno, w.outWindowSeqno, w.inSeqno, w.out.map WinElem.pkt,
    w.inList.map WinElem.pkt, w.fragList.map WinElem.pkt⟩

/-- The packet without its place. -/
def WinElem.pktElem (el : WinElem) : InboxPktElem := ⟨el.peer, el.pkt⟩

/-- The two transports have the same packets in the same lists. -/
structure SameLists (h : InboxHeap) (t : EvInboxTransport) : Prop where
  mtu : h.mtu = t.mtu
  peer : ∀ q, (h.peer q).view = (t.peer q).view
  out : h.out.map WinElem.pktElem = t.out
  outCount : h.outCount = t.outCount

section

variable {w w' : WinPeer} {p p' : InboxPeer} {h g : InboxHeap} {t : EvInboxTransport} {q : ℕ}

theorem view_outSeqno (hv : w.view = p.view) : w.outSeqno = p.outSeqno :=
  congrArg PeerView.outSeqno hv

theorem view_outAckSeqno (hv : w.view = p.view) : w.outAckSeqno = p.outAckSeqno :=
  congrArg PeerView.outAckSeqno hv

theorem view_outWindowSeqno (hv : w.view = p.view) : w.outWindowSeqno = p.outWindowSeqno :=
  congrArg PeerView.outWindowSeqno hv

theorem view_inSeqno (hv : w.view = p.view) : w.inSeqno = p.inSeqno :=
  congrArg PeerView.inSeqno hv

theorem view_out (hv : w.view = p.view) : w.out.map WinElem.pkt = p.out :=
  congrArg PeerView.out hv

theorem view_inList (hv : w.view = p.view) : w.inList.map WinElem.pkt = p.inList :=
  congrArg PeerView.inList hv

theorem view_fragList (hv : w.view = p.view) : w.fragList.map WinElem.pkt = p.fragList :=
  congrArg PeerView.fragList hv

/-- The send window changes. -/
theorem view_send (hv : w.view = p.view) {els : List WinElem} {out : List InboxPkt}
    (hout : els.map WinElem.pkt = out) :
    ({ w with out := els } : WinPeer).view = ({ p with out := out } : InboxPeer).view := by
  subst hout
  exact congrArg (fun v : PeerView => { v with out := els.map WinElem.pkt }) hv

/-- The recv side changes. -/
theorem view_recv (hv : w.view = p.view) (n : ℕ) {els frags : List WinElem}
    {l fs : List InboxPkt} (hin : els.map WinElem.pkt = l) (hfrag : frags.map WinElem.pkt = fs) :
    ({ w with inSeqno := n, inList := els, fragList := frags } : WinPeer).view =
      ({ p with inSeqno := n, inList := l, fragList := fs } : InboxPeer).view := by
  subst hin hfrag
  exact congrArg (fun v : PeerView => { v with
    inSeqno := n, inList := els.map WinElem.pkt, fragList := frags.map WinElem.pkt }) hv

/-- One peer changes, and the queue stays. -/
theorem SameLists.setPeer (hs : SameLists h t) (hmtu : g.mtu = h.mtu) (hout : g.out = h.out)
    (hcount : g.outCount = h.outCount) (hpeer : g.peer = Function.update h.peer q w)
    (hv : w.view = p.view) : SameLists g (t.setPeer q p) := by
  refine ⟨hmtu.trans hs.mtu, fun k => ?_, ?_, hcount.trans hs.outCount⟩
  · show (g.peer k).view = (Function.update t.peer q p k).view
    rw [hpeer]
    by_cases hk : k = q
    · subst hk
      rw [Function.update_self, Function.update_self]
      exact hv
    · rw [Function.update_of_ne hk, Function.update_of_ne hk]
      exact hs.peer k
  · rw [hout]
    exact hs.out

/-- What the transport without windows has besides changes. -/
theorem SameLists.same {t' : EvInboxTransport} (hs : SameLists h t) (hmtu : t'.mtu = t.mtu)
    (hpeer : ∀ k, (t'.peer k).view = (t.peer k).view) (hout : t'.out = t.out)
    (hcount : t'.outCount = t.outCount) : SameLists h t' :=
  ⟨hs.mtu.trans hmtu.symm, fun k => (hs.peer k).trans (hpeer k).symm, hs.out.trans hout.symm,
    hs.outCount.trans hcount.symm⟩

/-- A change of the timers or the bits of a peer. -/
theorem view_update (t : EvInboxTransport) (hv : p.view = (t.peer q).view) (k : ℕ) :
    (Function.update t.peer q p k).view = (t.peer k).view := by
  by_cases hk : k = q
  · subst hk
    rw [Function.update_self]
    exact hv
  · rw [Function.update_of_ne hk]

theorem SameLists.touch (hs : SameLists h t) (hv : p.view = (t.peer q).view) :
    SameLists h (t.setPeer q p) :=
  hs.same rfl (view_update t hv) rfl rfl

theorem SameLists.pushActive (hs : SameLists h t) (hv : p.view = (t.peer q).view) :
    SameLists h (t.pushActive q p) :=
  hs.same rfl (view_update t hv) rfl rfl

theorem SameLists.pushActiveRecv (hs : SameLists h t) (q : ℕ) :
    SameLists h (t.pushActiveRecv q) := by
  unfold EvInboxTransport.pushActiveRecv
  split
  · exact hs
  · exact hs.pushActive rfl

theorem SameLists.pushActiveWindow (hs : SameLists h t) (q : ℕ) :
    SameLists h (t.pushActiveWindow q) :=
  hs.pushActive rfl

/-! ### Acks -/

theorem SameLists.ackPeer (hs : SameLists h t) (q destSeqno : ℕ) :
    SameLists (h.ackPeer q destSeqno)
      (t.setPeer q (EvInboxTransport.ackPeer (t.peer q) destSeqno)) := by
  have hv := hs.peer q
  have hwindow := view_outWindowSeqno hv
  have hack := view_outAckSeqno hv
  unfold InboxHeap.ackPeer EvInboxTransport.ackPeer
  extract_lets w h' p
  rw [show w.outWindowSeqno = (t.peer q).outWindowSeqno from hwindow]
  split
  · rw [show w.outAckSeqno = p.outAckSeqno from hack]
    split
    · refine hs.setPeer (w := { w with
        outWindowSeqno := destSeqno
        out := w.out.dropWhile fun el => seqnoCmp el.pkt.srcSeqno destSeqno ≤ 0
        outAckSeqno := destSeqno }) rfl rfl rfl ?_ ?_
      · refine (Function.update_idem _ _ _).trans ?_
        rw [show h'.peer q = { w with outWindowSeqno := destSeqno } from peer_setPeer_self h q _]
      · have hout : (w.out.dropWhile fun el => seqnoCmp el.pkt.srcSeqno destSeqno ≤ 0).map
            WinElem.pkt =
            (t.peer q).out.dropWhile fun el => seqnoCmp el.srcSeqno destSeqno ≤ 0 := by
          rw [← view_out hv, List.dropWhile_map]
          rfl
        exact congrArg (fun v : PeerView =>
          { v with outAckSeqno := destSeqno, outWindowSeqno := destSeqno }) (view_send hv hout)
    · refine hs.setPeer (w := { w with outWindowSeqno := destSeqno }) rfl rfl rfl rfl ?_
      exact congrArg (fun v : PeerView => { v with outWindowSeqno := destSeqno }) hv
  · exact hs.touch rfl

/-! ### The send queue -/

theorem pktElem_of_own {els : List WinElem} (hown : ∀ el ∈ els, el.peer = q) :
    els.map WinElem.pktElem = (els.map WinElem.pkt).map fun pkt => ⟨q, pkt⟩ := by
  rw [List.map_map]
  refine List.map_congr_left fun el hel => ?_
  show InboxPktElem.mk el.peer el.pkt = ⟨q, el.pkt⟩
  rw [hown el hel]

/-- Packets of one peer come to the queue. -/
theorem SameLists.push (hs : SameLists h t) {new : List WinElem} {pkts : List InboxPkt}
    (hmtu : g.mtu = h.mtu) (hpeer : g.peer = h.peer) (hout : g.out = h.out ++ new)
    (hcount : g.outCount = h.outCount + new.length) (hown : ∀ el ∈ new, el.peer = q)
    (hpkts : new.map WinElem.pkt = pkts) :
    SameLists g { t with
      out := t.out ++ pkts.map fun pkt => ⟨q, pkt⟩
      outCount := t.outCount + pkts.length } := by
  refine ⟨hmtu.trans hs.mtu, fun k => ?_, ?_, ?_⟩
  · rw [hpeer]
    exact hs.peer k
  · rw [hout, List.map_append, hs.out, pktElem_of_own hown, hpkts]
  · rw [hcount, hs.outCount, ← hpkts, List.length_map]

theorem length_fillPkts (outSeqno inSeqno : ℕ) (pkts : List (InboxCode × List UInt8)) :
    (fillPkts outSeqno inSeqno pkts).length = pkts.length := by
  induction pkts generalizing outSeqno with
  | nil => rfl
  | cons x rest ih => rw [fillPkts, List.length_cons, ih, List.length_cons]

theorem mtu_postPkts (h : InboxHeap) (q : ℕ) (pkts : List (InboxCode × List UInt8)) :
    (pkts.foldl (postPkt q) h).mtu = h.mtu :=
  List.foldlRecOn pkts (postPkt q) (motive := fun g : InboxHeap => g.mtu = h.mtu) rfl
    fun _ hg _ _ => hg

theorem SameLists.postPkts (hs : SameLists h t) (q : ℕ) (pkts : List (InboxCode × List UInt8)) :
    SameLists (pkts.foldl (postPkt q) h) (t.postPkts q pkts) := by
  obtain ⟨new, hnew⟩ := InboxHeap.posted h q pkts
  have hv := hs.peer q
  have hset : SameLists ({ pkts.foldl (postPkt q) h with out := h.out, outCount := h.outCount })
      (t.setPeer q { t.peer q with outSeqno := (t.peer q).outSeqno + pkts.length }) := by
    refine hs.setPeer ?_ rfl rfl hnew.peer ?_
    · exact mtu_postPkts h q pkts
    · exact congrArg (fun v : PeerView => { v with outSeqno := v.outSeqno + pkts.length }) hv
  have hpush := hset.push (g := pkts.foldl (postPkt q) h) rfl rfl hnew.out hnew.outCount hnew.own
    hnew.pkt
  rw [view_outSeqno hv, view_inSeqno hv, length_fillPkts] at hpush
  exact hpush

theorem mtu_ret (h : InboxHeap) (c : Ctl) : (h.ret c).mtu = h.mtu := by
  cases c with
  | frag q buf =>
    unfold InboxHeap.ret InboxHeap.derefWindow
    dsimp only
    split
    · rfl
    · rfl
  | _ => rfl

theorem SameLists.sendAck (hs : SameLists h t) (q : ℕ) (type : InboxPktType) :
    SameLists (h.sendAck q type) { t with
      out := t.out ++ [⟨q, EvInboxTransport.ackPkt (t.peer q) type⟩]
      outCount := t.outCount + 1 } := by
  have hv := hs.peer q
  have hpush := hs.push (g := h.sendAck q type) (q := q) rfl rfl rfl rfl
    (fun el hel => by rw [List.mem_singleton.1 hel]; rfl) rfl
  have hack : EvInboxTransport.ackPkt (t.peer q) type =
      ⟨⟨type, false, false, false⟩, (h.peer q).outSeqno, (h.peer q).inSeqno, []⟩ := by
    rw [view_outSeqno hv, view_inSeqno hv]
    rfl
  rw [hack]
  exact hpush

theorem SameLists.repairWindow (hs : SameLists h t) (hq : h.Queued)
    (hgt : 0 < seqnoCmp (h.peer q).outSeqno (h.peer q).outWindowSeqno) :
    SameLists (h.checkWindow q) (t.repairWindow q).1 := by
  have hv := hs.peer q
  set b := EvInboxTransport.unacked (t.peer q) with hb
  have hunacked : (fun el : WinElem =>
      decide (0 < seqnoCmp el.pkt.srcSeqno (h.peer q).outWindowSeqno)) = b ∘ WinElem.pkt := by
    rw [view_outWindowSeqno hv]
    rfl
  have htake : ((h.peer q).out.rtakeWhile (b ∘ WinElem.pkt)).map WinElem.pkt =
      (t.peer q).out.rtakeWhile b := by
    rw [← InboxHeap.rtakeWhile_map, view_out hv]
  have hdrop : ((h.peer q).out.rdropWhile (b ∘ WinElem.pkt)).map WinElem.pkt =
      (t.peer q).out.rdropWhile b := by
    rw [← InboxHeap.rdropWhile_map, view_out hv]
  have hset : SameLists
      (h.setPeer q { h.peer q with out := (h.peer q).out.rdropWhile (b ∘ WinElem.pkt) })
      (t.setPeer q { t.peer q with out := (t.peer q).out.rdropWhile b }) := by
    exact hs.setPeer rfl rfl rfl rfl (view_send hv hdrop)
  set again := ((h.peer q).out.rtakeWhile (b ∘ WinElem.pkt)).map fun el : WinElem =>
    { el with pkt := rexmit (h.peer q).inSeqno el.pkt } with hagain
  have hcheck : h.checkWindow q =
      { h.setPeer q { h.peer q with out := (h.peer q).out.rdropWhile (b ∘ WinElem.pkt) } with
        out := h.out ++ again
        outCount := h.outCount + again.length } := by
    unfold InboxHeap.checkWindow
    rw [if_pos hgt, hunacked, hagain, List.length_map]
    rfl
  have hown : ∀ el ∈ again, el.peer = q := by
    intro el hel
    obtain ⟨x, hx, rfl⟩ := List.mem_map.1 hel
    exact hq.own q x ((List.rtakeWhile_suffix _ _).mem hx)
  have hpkts : again.map WinElem.pkt =
      ((t.peer q).out.rtakeWhile b).map (EvInboxTransport.rexmit (t.peer q)) := by
    rw [← htake, List.map_map, List.map_map]
    refine List.map_congr_left fun el _ => ?_
    show rexmit (h.peer q).inSeqno el.pkt = EvInboxTransport.rexmit (t.peer q) el.pkt
    rw [view_inSeqno hv]
    rfl
  have hpush := hset.push (g := h.checkWindow q) (by rw [hcheck]) (by rw [hcheck])
    (by rw [hcheck]; rfl) (by rw [hcheck]; rfl) hown hpkts
  rw [List.map_map, List.length_map] at hpush
  unfold EvInboxTransport.repairWindow
  extract_lets p resent
  split
  · next hempty =>
    have hnil : (t.peer q).out.rtakeWhile b = [] := List.isEmpty_iff.1 hempty
    rw [hnil, SendView.rdropWhile_of_rtakeWhile_nil hnil] at hpush
    refine hpush.same rfl (fun k => (view_update t rfl k).symm) ?_ rfl
    exact (List.append_nil t.out).symm
  · exact hpush

/-- `check_window`, for the packets. -/
theorem SameLists.checkWindow (hs : SameLists h t) (hq : h.Queued) (q : ℕ) :
    SameLists (h.checkWindow q) (t.checkWindow q).1 := by
  have hv := hs.peer q
  unfold EvInboxTransport.checkWindow
  extract_lets r p
  have hr : SameLists (h.checkWindow q) r.1 := by
    by_cases hgt : 0 < seqnoCmp (h.peer q).outSeqno (h.peer q).outWindowSeqno
    · have hgt' := hgt
      rw [view_outSeqno hv, view_outWindowSeqno hv] at hgt'
      rw [show r = t.repairWindow q from if_pos hgt']
      exact hs.repairWindow hq hgt
    · have hgt' := hgt
      rw [view_outSeqno hv, view_outWindowSeqno hv] at hgt'
      rw [show r = (t, false) from if_neg hgt', show h.checkWindow q = h from if_neg hgt]
      exact hs
  split
  · have htouch : SameLists (h.checkWindow q)
        (r.1.setPeer q { p with inAckSeqno := p.inWindowSeqno }) := hr.touch rfl
    exact htouch.pushActiveRecv q
  · exact hr

/-- A data packet comes to the window of its peer. -/
theorem view_writeElem (el : WinElem) (t : EvInboxTransport) (k : ℕ)
    (hv : w.view = (t.peer k).view) :
    ({ w with out := w.out ++ [el].filter fun el => el.peer = k && el.pkt.code.isData } :
      WinPeer).view = ((t.writeElem el.pktElem).peer k).view := by
  have hsend : ((t.pushActiveSend el.peer).peer k).view = (t.peer k).view := by
    refine view_update t ?_ k
    rfl
  unfold EvInboxTransport.writeElem
  by_cases hdata : el.pkt.code.isData = true
  · rw [if_pos (show el.pktElem.pkt.code.isData = true from hdata)]
    extract_lets t'
    show _ = (Function.update t'.peer el.peer { t'.peer el.peer with
      out := (t'.peer el.peer).out ++ [el.pkt] } k).view
    by_cases hk : k = el.peer
    · subst hk
      rw [Function.update_self, List.filter_cons_of_pos (by simp [hdata])]
      have hall := congrArg (fun v : PeerView => { v with out := v.out ++ [el.pkt] })
        (hv.trans hsend.symm)
      refine Eq.trans ?_ hall
      exact PeerView.ext rfl rfl rfl rfl List.map_append rfl rfl
    · rw [Function.update_of_ne hk, List.filter_cons_of_neg (by simp [Ne.symm hk]),
        List.filter_nil, List.append_nil]
      exact hv.trans hsend.symm
  · rw [if_neg (show ¬ el.pktElem.pkt.code.isData = true from hdata),
      List.filter_cons_of_neg (by simp [hdata]), List.filter_nil, List.append_nil]
    exact hv

/-- The data packets of a peer come to its window, in the order of the queue. -/
theorem view_writeElems (els : List WinElem) (t : EvInboxTransport) (k : ℕ)
    (hv : w.view = (t.peer k).view) :
    ({ w with out := w.out ++ els.filter fun el => el.peer = k && el.pkt.code.isData } :
      WinPeer).view =
      (((els.map WinElem.pktElem).foldl EvInboxTransport.writeElem t).peer k).view := by
  induction els generalizing w t with
  | nil =>
    rw [List.filter_nil, List.append_nil]
    exact hv
  | cons el els ih =>
    rw [List.map_cons, List.foldl_cons, ← ih (t.writeElem el.pktElem) (view_writeElem el t k hv)]
    refine PeerView.ext rfl rfl rfl rfl ?_ rfl rfl
    show List.map WinElem.pkt (w.out ++ (el :: els).filter _) =
      List.map WinElem.pkt ((w.out ++ [el].filter _) ++ els.filter _)
    rw [List.append_assoc, ← List.filter_append]
    rfl

theorem writeElems_rest (els : List InboxPktElem) (t : EvInboxTransport) :
    (els.foldl EvInboxTransport.writeElem t).mtu = t.mtu ∧
      (els.foldl EvInboxTransport.writeElem t).out = t.out ∧
      (els.foldl EvInboxTransport.writeElem t).outCount = t.outCount ∧
      (els.foldl EvInboxTransport.writeElem t).dispatched = t.dispatched := by
  induction els generalizing t with
  | nil => exact ⟨rfl, rfl, rfl, rfl⟩
  | cons el els ih =>
    rw [List.foldl_cons]
    obtain ⟨hmtu, hout, hcount, hdisp⟩ := ih (t.writeElem el)
    have hrest : (t.writeElem el).mtu = t.mtu ∧ (t.writeElem el).out = t.out ∧
        (t.writeElem el).outCount = t.outCount ∧ (t.writeElem el).dispatched = t.dispatched := by
      unfold EvInboxTransport.writeElem
      split
      · exact ⟨rfl, rfl, rfl, rfl⟩
      · exact ⟨rfl, rfl, rfl, rfl⟩
    exact ⟨hmtu.trans hrest.1, hout.trans hrest.2.1, hcount.trans hrest.2.2.1,
      hdisp.trans hrest.2.2.2⟩

theorem mtu_writeElem (h : InboxHeap) (el : WinElem) : (h.writeElem el).mtu = h.mtu := by
  unfold InboxHeap.writeElem
  extract_lets p h'
  simp only [h']
  split
  · rfl
  · rfl

theorem mtu_writeLoop (n : ℕ) (h : InboxHeap) : (InboxHeap.writeLoop n h).mtu = h.mtu := by
  induction n generalizing h with
  | zero => rfl
  | succ n ih =>
    unfold InboxHeap.writeLoop
    split
    · rfl
    · rw [ih, mtu_writeElem]

/-- The queue is written. -/
theorem SameLists.write (hs : SameLists h t) (hq : h.Queued) : SameLists h.write t.write := by
  have hw := InboxHeap.written hq
  have hcount : t.outCount = t.out.length := by
    rw [← hs.outCount, hq.count, ← hs.out, List.length_map]
  have hwriting : t.writing = h.out.map WinElem.pktElem := by
    rw [EvInboxTransport.writing, hcount, List.take_length, hs.out]
  have hwrite : t.write = (h.out.map WinElem.pktElem).foldl EvInboxTransport.writeElem
      { t with out := [], outCount := 0 } := by
    rw [EvInboxTransport.write, hwriting, hcount, List.drop_length]
  obtain ⟨hmtu, hout, hcount, -⟩ := writeElems_rest (h.out.map WinElem.pktElem)
    { t with out := [], outCount := 0 }
  rw [hwrite]
  refine ⟨?_, fun k => ?_, ?_, ?_⟩
  · exact (mtu_writeLoop _ h).trans (hs.mtu.trans hmtu.symm)
  · rw [hw.peer]
    exact view_writeElems h.out { t with out := [], outCount := 0 } k (hs.peer k)
  · rw [hw.out, hout]
    rfl
  · rw [hw.outCount, hcount]

/-- `InboxPeer::reset` -/
theorem SameLists.resetPeer (hs : SameLists h t) (q : ℕ) :
    SameLists (h.resetPeer q) (t.setPeer q .zero) := by
  refine hs.setPeer rfl rfl rfl rfl ?_
  rfl

end

/-! ## Messages -/

namespace EvInboxTransport

/-- A peer after packets of it, and the messages that they completed. -/
def deliver (t : EvInboxTransport) (q : ℕ) (p : InboxPeer) (msgs : List (List UInt8)) :
    EvInboxTransport :=
  { t.setPeer q p with dispatched := t.dispatched ++ msgs.map (q, ·) }

theorem deliver_self (t : EvInboxTransport) (q : ℕ) : t.deliver q (t.peer q) [] = t := by
  unfold deliver setPeer
  rw [Function.update_eq_self, List.map_nil, List.append_nil]

theorem consume_whole (p : InboxPeer) {pkt : InboxPkt} (hwhole : pkt.code.isFragment = false) :
    consume p pkt = ({ p with inSeqno := pkt.srcSeqno }, some pkt.msg) :=
  if_pos hwhole

theorem consume_rollup (p : InboxPeer) {pkt : InboxPkt} (hfrag : pkt.code.isFragment = true)
    (hroll : pkt.code.isRollup = true) :
    consume p pkt = ({ p with inSeqno := pkt.srcSeqno, fragList := [] },
      some ((p.fragList ++ [pkt]).flatMap InboxPkt.msg)) := by
  unfold consume
  rw [if_neg (by simp [hfrag]), if_pos hroll]

theorem consume_part (p : InboxPeer) {pkt : InboxPkt} (hfrag : pkt.code.isFragment = true)
    (hroll : pkt.code.isRollup = false) :
    consume p pkt =
      ({ p with inSeqno := pkt.srcSeqno, fragList := p.fragList ++ [pkt] }, none) := by
  unfold consume
  rw [if_neg (by simp [hfrag]), if_neg (by simp [hroll])]

theorem consume_inList (p : InboxPeer) (pkt : InboxPkt) (l : List InboxPkt) :
    consume { p with inList := l } pkt =
      ({ (consume p pkt).1 with inList := l }, (consume p pkt).2) := by
  unfold consume
  split
  · rfl
  · split
    · rfl
    · rfl

end EvInboxTransport

namespace InboxMem

/-- The transport with windows came to `m`, where it is in `dispatch_msg` as `c` says, and
the one without is `t`. -/
structure Reads (s₀ m : InboxMem) (c : Ctl) (t : EvInboxTransport) : Prop where
  reach : Run.Reach step (fun m e => m.view.RetsKept e) s₀ m
  inv : m.Inv
  ctl : m.heap.ctl = c
  same : SameLists m.heap t
  dispatched : m.dispatched = t.dispatched

section

variable {s₀ m : InboxMem} {t t' : EvInboxTransport} {q : ℕ} {c c' : Ctl}

/-- One event of the transport with windows. -/
theorem Reads.step (h : Reads s₀ m c t) {e : InboxHeap.Event} (hkept : m.heap.RetsKept e)
    {msgs : List (ℕ × List UInt8)} (hctl : (m.heap.step e).ctl = c')
    (hmsgs : handed (m.step e).load m.heap c c' = msgs)
    (hsame : SameLists (m.heap.step e) t') (hdisp : t'.dispatched = t.dispatched ++ msgs) :
    Reads s₀ (m.step e) c' t' := by
  have hheap := h.inv.heap_step e
  have hdispatched : (m.step e).dispatched = m.dispatched ++
      handed (m.step e).load m.view m.view.ctl (m.view.step e).ctl := rfl
  refine ⟨h.reach.snoc e ?_, h.inv.step hkept, ?_, ?_, ?_⟩
  · rw [h.inv.view]
    exact hkept
  · rw [hheap, hctl]
  · rw [hheap]
    exact hsame
  · rw [hdispatched, h.inv.view, h.ctl, hctl, hmsgs, h.dispatched, hdisp]

/-- The peer changes in `dispatch_msg`. -/
theorem sameLists_deliver {h g : InboxHeap} {w : WinPeer} {p p' : InboxPeer}
    {d d' : List (List UInt8)} (hs : SameLists h (t.deliver q p d)) (hmtu : g.mtu = h.mtu)
    (hout : g.out = h.out) (hcount : g.outCount = h.outCount)
    (hpeer : g.peer = Function.update h.peer q w) (hv : w.view = p'.view) :
    SameLists g (t.deliver q p' d') := by
  refine (hs.setPeer hmtu hout hcount hpeer hv).same rfl (fun k => ?_) rfl rfl
  show _ = (Function.update (Function.update t.peer q p) q p' k).view
  rw [Function.update_idem]
  rfl

/-- `dispatch_msg2` returns. -/
theorem Reads.ret (h : Reads s₀ m c t) (hkept : m.heap.RetKept c)
    (hctl : ∀ h : InboxHeap, (h.ret c).ctl = .loop q)
    (hmsgs : handed (m.step .ret).load m.heap c (.loop q) = []) :
    Reads s₀ (m.step .ret) (.loop q) t := by
  have hret : m.heap.step .ret = m.heap.ret c := by
    rw [← h.ctl]
    rfl
  obtain ⟨hpeer, hout, hcount, -⟩ := InboxHeap.ret_same m.heap c
  refine h.step ?_ ?_ hmsgs ?_ (List.append_nil _).symm
  · show m.heap.RetKept m.heap.ctl
    rwa [h.ctl]
  · rw [hret]
    exact hctl _
  · rw [hret]
    refine ⟨?_, fun k => ?_, ?_, hcount.trans h.same.outCount⟩
    · exact (mtu_ret m.heap c).trans h.same.mtu
    · rw [hpeer]
      exact h.same.peer k
    · rw [hout]
      exact h.same.out

/-- An event while nothing is dispatched, and after which nothing is. -/
theorem Reads.idle (h : Reads s₀ m .idle t) {e : InboxHeap.Event} (hkept : m.heap.RetsKept e)
    (hctl : (m.heap.step e).ctl = .idle) (hsame : SameLists (m.heap.step e) t')
    (hdisp : t'.dispatched = t.dispatched) : Reads s₀ (m.step e) .idle t' :=
  h.step hkept hctl rfl hsame (hdisp.trans (List.append_nil _).symm)

theorem view_deliver {h : InboxHeap} {p : InboxPeer} {d : List (List UInt8)}
    (hs : SameLists h (t.deliver q p d)) : (h.peer q).view = p.view := by
  refine (hs.peer q).trans ?_
  rw [show (t.deliver q p d).peer q = p from Function.update_self _ _ _]

/-- A turn of `dispatch_msg`. -/
theorem Reads.next {p : InboxPeer} {d : List (List UInt8)} {g : InboxHeap} {w : WinPeer}
    (h : Reads s₀ m c (t.deliver q p d)) (p' : InboxPeer) (ms : List (List UInt8))
    (hstep : m.heap.step .next = g)
    (hmtu : g.mtu = m.heap.mtu) (hout : g.out = m.heap.out) (hcount : g.outCount = m.heap.outCount)
    (hpeer : g.peer = Function.update m.heap.peer q w) (hv : w.view = p'.view) (hctl : g.ctl = c')
    (hmsgs : handed (m.step .next).load m.heap c c' = ms.map (q, ·)) :
    Reads s₀ (m.step .next) c' (t.deliver q p' (d ++ ms)) := by
  refine h.step trivial ?_ hmsgs ?_ ?_
  · rw [hstep, hctl]
  · rw [hstep]
    exact sameLists_deliver h.same hmtu hout hcount hpeer hv
  · show t.dispatched ++ (d ++ ms).map (q, ·) = (t.dispatched ++ d.map (q, ·)) ++ ms.map (q, ·)
    rw [List.map_append, List.append_assoc]

/-- The buffer of a rollup is in the current window. -/
theorem retKept_dispatchFragMsg (h : InboxHeap) (q len : ℕ) :
    (h.dispatchFragMsg q len).RetKept (h.dispatchFragMsg q len).ctl := by
  unfold InboxHeap.dispatchFragMsg
  extract_lets w r
  show (w.fragList.foldl (fun a el => a.deref el.cell.window) r.1).current q = some r.2.window
  have hcur := foldl_deref_current (w.fragList.map WinElem.cell) r.1
  rw [List.foldl_map] at hcur
  rw [hcur]
  exact current_alloc _ _ _ _

/-- The head of the recv window is the next packet. -/
theorem Reads.turn {p : InboxPeer} {d : List (List UInt8)} {el : WinElem} {els : List WinElem}
    (h : Reads s₀ m (.loop q) (t.deliver q p d)) (hin : (m.heap.peer q).inList = el :: els)
    (hnext : m.heap.isNext q el.pkt) :
    ∃ m', Reads s₀ m' (.loop q) (t.deliver q
      { (consume p el.pkt).1 with inList := els.map WinElem.pkt }
      (d ++ (consume p el.pkt).2.toList)) := by
  have hv := view_deliver h.same
  have hfrags := view_fragList hv
  have hparts : ((m.heap.peer q).fragList ++ [el]).map WinElem.pkt = p.fragList ++ [el.pkt] := by
    rw [List.map_append, hfrags]
    rfl
  have hstep := InboxHeap.step_loop h.ctl
  have hcases := InboxHeap.dispatchIn_cases m.heap q
  generalize m.heap.dispatchIn q (m.heap.peer q).inList = g at hcases hstep
  cases hcases with
  | done hgap =>
    refine absurd hnext (hgap el ?_)
    rw [hin]
    rfl
  | @elem x xs hin' hx hwhole =>
    obtain ⟨rfl, rfl⟩ := List.cons.inj (hin.symm.trans hin')
    rw [EvInboxTransport.consume_whole p hwhole]
    have hturn := h.next { p with inSeqno := el.pkt.srcSeqno, inList := els.map WinElem.pkt }
      [el.pkt.msg] hstep rfl rfl rfl rfl
      (view_recv hv el.pkt.srcSeqno rfl hfrags) rfl rfl
    exact ⟨_, hturn.ret trivial (fun _ => rfl) rfl⟩
  | @rollup x xs hin' hx hfrag hroll =>
    obtain ⟨rfl, rfl⟩ := List.cons.inj (hin.symm.trans hin')
    rw [EvInboxTransport.consume_rollup p hfrag hroll]
    have hgather := gather_loop h.inv h.ctl hin hstep
    have hturn := h.next
      { p with inSeqno := el.pkt.srcSeqno, inList := els.map WinElem.pkt, fragList := [] }
      [(p.fragList ++ [el.pkt]).flatMap InboxPkt.msg] hstep rfl rfl rfl
      (InboxHeap.peer_dispatchFragMsg m.heap q _ 0)
      (view_recv hv el.pkt.srcSeqno rfl rfl) rfl ?_
    · refine ⟨_, hturn.ret ?_ (fun _ => rfl) rfl⟩
      rw [h.inv.heap_step, hstep]
      exact retKept_dispatchFragMsg _ q 0
    · show [(q, gather _ ((m.heap.peer q).fragList ++ (m.heap.peer q).inList.take 1))] = _
      rw [hgather, ← hparts, List.flatMap_map]
      rfl
  | @part x xs hin' hx hfrag hroll =>
    obtain ⟨rfl, rfl⟩ := List.cons.inj (hin.symm.trans hin')
    rw [EvInboxTransport.consume_part p hfrag hroll]
    exact ⟨_, h.next _ [] hstep rfl rfl rfl rfl
      (view_recv hv el.pkt.srcSeqno rfl hparts) h.ctl rfl⟩

/-- The loop of `dispatch_msg`, with the returns of what it dispatches. -/
theorem Reads.loop {l : List InboxPkt} {p : InboxPeer} {d : List (List UInt8)}
    (h : Reads s₀ m (.loop q) (t.deliver q { p with inList := l } d)) :
    ∃ m', Reads s₀ m' .idle (t.deliver q (drain p l).1 (d ++ (drain p l).2)) := by
  induction l generalizing m p d with
  | nil =>
    have hv := view_deliver h.same
    have hnil : (m.heap.peer q).inList = [] := List.map_eq_nil_iff.1 (view_inList hv)
    have hstep := InboxHeap.step_loop h.ctl
    rw [hnil] at hstep
    exact ⟨_, h.next _ [] hstep rfl rfl rfl (Function.update_eq_self q _).symm hv rfl rfl⟩
  | cons pkt rest ih =>
    have hv := view_deliver h.same
    have hseqno : (m.heap.peer q).inSeqno = p.inSeqno := congrArg PeerView.inSeqno hv
    obtain ⟨el, els, hin, rfl, rfl⟩ := List.map_eq_cons_iff.1 (view_inList hv)
    have hiff : m.heap.isNext q el.pkt ↔ seqnoCmp (p.inSeqno + 1) el.pkt.srcSeqno = 0 := by
      unfold InboxHeap.isNext
      rw [hseqno]
    unfold drain
    by_cases hnext : m.heap.isNext q el.pkt
    · rw [if_neg (not_not.2 (hiff.1 hnext))]
      obtain ⟨m', h'⟩ := h.turn hin hnext
      rw [EvInboxTransport.consume_inList] at h'
      obtain ⟨m'', h''⟩ := ih (p := (consume p el.pkt).1) h'
      rw [List.append_assoc] at h''
      exact ⟨m'', h''⟩
    · rw [if_pos (mt hiff.2 hnext)]
      have hstep := InboxHeap.step_loop h.ctl
      rw [hin, InboxHeap.dispatchIn, if_neg hnext] at hstep
      exact ⟨_, h.next _ [] hstep rfl rfl rfl (Function.update_eq_self q _).symm hv rfl rfl⟩

/-- A packet that arrives in sequence. -/
theorem Reads.consume {p : InboxPeer} {d : List (List UInt8)} {pkt : InboxPkt}
    (h : Reads s₀ m (.pkt q pkt) (t.deliver q p d)) (hnext : m.heap.isNext q pkt) :
    ∃ m', Reads s₀ m' (.loop q) (t.deliver q (consume p pkt).1
      (d ++ (consume p pkt).2.toList)) := by
  have hv := view_deliver h.same
  have hin := view_inList hv
  have hfrags := view_fragList hv
  have hstep := InboxHeap.step_pkt h.ctl
  have hcases := InboxHeap.dispatchMsg_cases m.heap q pkt
  generalize m.heap.dispatchMsg q pkt = g at hcases hstep
  cases hcases with
  | early hne hlt hnew => exact absurd hnext hne
  | drop hne hold => exact absurd hnext hne
  | direct hx hwhole =>
    rw [EvInboxTransport.consume_whole p hwhole]
    have hturn := h.next { p with inSeqno := pkt.srcSeqno } [pkt.msg] hstep
      rfl rfl rfl rfl (view_recv hv pkt.srcSeqno hin hfrags) rfl rfl
    exact ⟨_, hturn.ret trivial (fun _ => rfl) rfl⟩
  | rollup hx hfrag hroll =>
    rw [EvInboxTransport.consume_rollup p hfrag hroll]
    have hgather := gather_pkt h.inv h.ctl hstep
    have hturn := h.next { p with inSeqno := pkt.srcSeqno, fragList := [] }
      [(p.fragList ++ [pkt]).flatMap InboxPkt.msg] hstep rfl rfl rfl
      (InboxHeap.peer_dispatchFragMsg m.heap q _ _)
      (view_recv hv pkt.srcSeqno hin rfl) rfl ?_
    · refine ⟨_, hturn.ret ?_ (fun _ => rfl) rfl⟩
      rw [h.inv.heap_step, hstep]
      exact retKept_dispatchFragMsg _ q _
    · show [(q, gather _ (m.heap.peer q).fragList ++ pkt.msg)] = _
      rw [hgather, ← hfrags, List.flatMap_append, List.flatMap_map, List.flatMap_singleton]
      rfl
  | part hx hfrag hroll =>
    rw [EvInboxTransport.consume_part p hfrag hroll]
    have hparts : ((m.heap.peer q).fragList ++ [(m.heap.allocWindow q pkt).2]).map WinElem.pkt =
        p.fragList ++ [pkt] := by
      rw [List.map_append, hfrags]
      rfl
    exact ⟨_, h.next _ [] hstep rfl rfl rfl rfl
      (view_recv hv pkt.srcSeqno hin hparts) rfl rfl⟩

/-- The recv window has the packet, or it comes to its place. -/
theorem insertIn_map (x : WinElem) (els : List WinElem) :
    EvInboxTransport.insertIn x.pkt (els.map WinElem.pkt) =
      if InboxHeap.repeated x.pkt.srcSeqno els then none
      else some ((InboxHeap.insertIn x els).map WinElem.pkt) := by
  induction els with
  | nil => rfl
  | cons el els ih =>
    rw [List.map_cons, EvInboxTransport.insertIn, InboxHeap.repeated, InboxHeap.insertIn]
    split
    · split
      · next heq => rw [if_pos (by simpa using heq)]
      · next hne =>
        rw [if_neg (by simpa using hne)]
        rfl
    · rw [ih]
      split
      · rfl
      · rfl

/-- `dispatch_msg`, with the returns of what it dispatches. -/
theorem Reads.dispatchPkt {pkt : InboxPkt} (h : Reads s₀ m (.pkt q pkt) t) :
    ∃ m', Reads s₀ m' .idle (t.deliver q (dispatchPkt (t.peer q) pkt).1
      (dispatchPkt (t.peer q) pkt).2) := by
  have hstart : Reads s₀ m (.pkt q pkt) (t.deliver q (t.peer q) []) := by
    rwa [EvInboxTransport.deliver_self]
  have hv := h.same.peer q
  have hseqno : (m.heap.peer q).inSeqno = (t.peer q).inSeqno := view_inSeqno hv
  have hiff : m.heap.isNext q pkt ↔ seqnoCmp ((t.peer q).inSeqno + 1) pkt.srcSeqno = 0 := by
    unfold InboxHeap.isNext
    rw [hseqno]
  unfold EvInboxTransport.dispatchPkt
  by_cases hnext : m.heap.isNext q pkt
  · rw [if_pos (hiff.1 hnext)]
    obtain ⟨m', h'⟩ := hstart.consume hnext
    exact Reads.loop (p := (EvInboxTransport.consume (t.peer q) pkt).1) h'
  · rw [if_neg (mt hiff.2 hnext)]
    have hstep := InboxHeap.step_pkt h.ctl
    rw [InboxHeap.dispatchMsg, if_neg hnext, hseqno] at hstep
    by_cases hlt : seqnoCmp (t.peer q).inSeqno pkt.srcSeqno < 0
    · have hmap := insertIn_map (m.heap.allocWindow q pkt).2 (m.heap.peer q).inList
      rw [view_inList hv, show (m.heap.allocWindow q pkt).2.pkt = pkt from rfl] at hmap
      rw [if_pos hlt] at hstep ⊢
      rw [hmap]
      by_cases hrep : InboxHeap.repeated pkt.srcSeqno (m.heap.peer q).inList = true
      · rw [if_pos hrep] at hstep ⊢
        exact ⟨_, hstart.next _ [] hstep rfl rfl rfl (Function.update_eq_self q _).symm hv rfl rfl⟩
      · rw [if_neg hrep] at hstep ⊢
        set inList := (InboxHeap.insertIn (m.heap.allocWindow q pkt).2
          (m.heap.peer q).inList).map WinElem.pkt with hin
        have hloop : Reads s₀ (m.step .next) (.loop q)
            (t.deliver q { t.peer q with inList := inList } ([] ++ [])) :=
          hstart.next _ [] hstep rfl rfl rfl rfl
            (congrArg (fun v : PeerView => { v with inList := inList }) hv) rfl rfl
        exact hloop.loop
    · rw [if_neg hlt] at hstep ⊢
      exact ⟨_, hstart.next _ [] hstep rfl rfl rfl (Function.update_eq_self q _).symm hv rfl rfl⟩

end

/-! ## Runs -/

/-- The transport without windows is in a state that the one with windows comes to, where
nothing is dispatched. -/
def Covers (s₀ : InboxMem) (t : EvInboxTransport) : Prop := ∃ m, Reads s₀ m .idle t

section

variable {s₀ m : InboxMem} {t : EvInboxTransport} {q : ℕ}

theorem Reads.isIdle (h : Reads s₀ m .idle t) : m.heap.ctl.isIdle = true := by
  rw [h.ctl]
  rfl

theorem Reads.isOutside (h : Reads s₀ m .idle t) : m.heap.ctl.isOutside = true := by
  rw [h.ctl]
  rfl

/-- A message is posted. -/
theorem Reads.call (h : Reads s₀ m .idle t) {c : InboxHeap.Call}
    {pkts : List (InboxCode × List UInt8)} (hcall : m.heap.call c = pkts.foldl (postPkt q) m.heap) :
    Reads s₀ (m.step (.call c)) .idle (t.postPkts q pkts) := by
  have hstep : m.heap.step (.call c) = pkts.foldl (postPkt q) m.heap := by
    rw [← hcall]
    exact if_pos h.isOutside
  obtain ⟨new, hnew⟩ := InboxHeap.posted m.heap q pkts
  refine h.idle trivial ?_ ?_ rfl
  · rw [hstep, hnew.ctl, h.ctl]
  · rw [hstep]
    exact h.same.postPkts q pkts

theorem Covers.postMsg (h : Covers s₀ t) (q : ℕ) (msg : List UInt8) :
    Covers s₀ (t.postMsg q msg) := by
  obtain ⟨m, hm⟩ := h
  refine ⟨_, hm.call (c := .post q msg) ?_⟩
  rw [← hm.same.mtu]
  rfl

theorem Covers.postFragMsg (h : Covers s₀ t) (q : ℕ) (msg trail : List UInt8) :
    Covers s₀ (t.postFragMsg q msg trail) := by
  obtain ⟨m, hm⟩ := h
  refine ⟨_, hm.call (c := .postFrag q msg trail) ?_⟩
  rw [← hm.same.mtu]
  rfl

/-- A peer is reset, and is no longer active. -/
theorem Covers.reset (h : Covers s₀ t) (q : ℕ) (active : List ℕ) :
    Covers s₀ { t.setPeer q .zero with active := active } := by
  obtain ⟨m, hm⟩ := h
  have hstep : m.heap.step (.call (.reset q)) = m.heap.resetPeer q := if_pos hm.isOutside
  refine ⟨_, hm.idle (e := .call (.reset q)) trivial ?_ ?_ rfl⟩
  · rw [hstep]
    exact hm.ctl
  · rw [hstep]
    exact (hm.same.resetPeer q).same rfl (fun _ => rfl) rfl rfl

theorem Covers.write (h : Covers s₀ t) : Covers s₀ t.write := by
  obtain ⟨m, hm⟩ := h
  have hstep : m.heap.step .write = m.heap.write := if_pos hm.isIdle
  refine ⟨_, hm.idle (e := .write) trivial ?_ ?_ ?_⟩
  · rw [hstep, (InboxHeap.written hm.inv.queued).ctl, hm.ctl]
  · rw [hstep]
    exact hm.same.write hm.inv.queued
  · exact (writeElems_rest t.writing { t with out := t.out.drop t.outCount, outCount := 0 }).2.2.2

/-- What only the transport without windows has may change. -/
theorem Covers.same {t' : EvInboxTransport} (h : Covers s₀ t) (hmtu : t'.mtu = t.mtu)
    (hpeer : ∀ k, (t'.peer k).view = (t.peer k).view) (hout : t'.out = t.out)
    (hcount : t'.outCount = t.outCount) (hdisp : t'.dispatched = t.dispatched) : Covers s₀ t' := by
  obtain ⟨m, hm⟩ := h
  exact ⟨m, hm.reach, hm.inv, hm.ctl, hm.same.same hmtu hpeer hout hcount,
    hm.dispatched.trans hdisp.symm⟩

theorem Covers.touch {p : InboxPeer} (h : Covers s₀ t) (hv : p.view = (t.peer q).view) :
    Covers s₀ (t.setPeer q p) :=
  h.same rfl (view_update t hv) rfl rfl rfl

theorem dispatched_pushActiveRecv (t : EvInboxTransport) (q : ℕ) :
    (t.pushActiveRecv q).dispatched = t.dispatched := by
  unfold EvInboxTransport.pushActiveRecv
  split
  · rfl
  · rfl

theorem dispatched_checkWindow (t : EvInboxTransport) (q : ℕ) :
    (t.checkWindow q).1.dispatched = t.dispatched := by
  have hrepair : (t.repairWindow q).1.dispatched = t.dispatched := by
    unfold EvInboxTransport.repairWindow
    extract_lets p again
    split
    · rfl
    · rfl
  unfold EvInboxTransport.checkWindow
  extract_lets r p
  have hr : r.1.dispatched = t.dispatched := by
    simp only [r]
    split
    · exact hrepair
    · rfl
  split
  · exact (dispatched_pushActiveRecv _ q).trans hr
  · exact hr

theorem Covers.checkWindow (h : Covers s₀ t) (q : ℕ) : Covers s₀ (t.checkWindow q).1 := by
  obtain ⟨m, hm⟩ := h
  have hstep : m.heap.step (.repair q) = m.heap.checkWindow q := if_pos hm.isIdle
  refine ⟨_, hm.idle (e := .repair q) trivial ?_ ?_ (dispatched_checkWindow t q)⟩
  · rw [hstep, ← hm.ctl]
    unfold InboxHeap.checkWindow
    extract_lets p unacked
    split
    · rfl
    · rfl
  · rw [hstep]
    exact hm.same.checkWindow hm.inv.queued q

/-- A packet arrives. -/
theorem Reads.recv {t' : EvInboxTransport} (h : Reads s₀ m .idle t) (q : ℕ) (pkt : InboxPkt)
    (hsame : SameLists (m.heap.ackPeer q pkt.destSeqno) t') (hdisp : t'.dispatched = t.dispatched) :
    Reads s₀ (m.step (.recv q pkt)) (if pkt.code.isData then .pkt q pkt else .idle) t' := by
  have hstep : m.heap.step (.recv q pkt) = m.heap.process q pkt := if_pos h.isIdle
  have hmsgs : handed (m.step (.recv q pkt)).load m.heap .idle
      (if pkt.code.isData then .pkt q pkt else .idle) = [] := by
    split
    · rfl
    · rfl
  refine h.step trivial ?_ hmsgs ?_ (hdisp.trans (List.append_nil _).symm)
  · rw [hstep]
    rfl
  · rw [hstep]
    exact ⟨hsame.mtu, hsame.peer, hsame.out, hsame.outCount⟩

theorem Covers.process (h : Covers s₀ t) (q : ℕ) (pkt : InboxPkt) :
    Covers s₀ (t.process q pkt) := by
  obtain ⟨m, hm⟩ := h
  have hack := hm.same.ackPeer q pkt.destSeqno
  unfold EvInboxTransport.process
  extract_lets p isNew chg t₁ t₂
  have ht₁ : SameLists (m.heap.ackPeer q pkt.destSeqno) t₁ := by
    refine hack.same rfl (fun k => ?_) rfl rfl
    show (Function.update t.peer q _ k).view = (Function.update t.peer q p k).view
    by_cases hk : k = q
    · subst hk
      rw [Function.update_self, Function.update_self]
      split
      · rfl
      · rfl
    · rw [Function.update_of_ne hk, Function.update_of_ne hk]
  have ht₂ : SameLists (m.heap.ackPeer q pkt.destSeqno) t₂ := by
    simp only [t₂]
    split
    · exact ht₁.pushActiveWindow q
    · exact ht₁
  have hdisp : t₂.dispatched = t.dispatched := by
    simp only [t₂]
    split
    · rfl
    · rfl
  by_cases hdata : pkt.code.isData = true
  · rw [if_pos hdata]
    have hrecv := hm.recv q pkt (ht₂.pushActiveRecv q)
      ((dispatched_pushActiveRecv t₂ q).trans hdisp)
    rw [if_pos hdata] at hrecv
    exact hrecv.dispatchPkt
  · rw [if_neg hdata]
    have hrecv := hm.recv q pkt ht₂ hdisp
    rw [if_neg hdata] at hrecv
    exact ⟨_, hrecv⟩

/-! ### Timers -/

theorem view_windowTimerExpire (p : InboxPeer) (now : ℕ) :
    (p.windowTimerExpire now).1.view = p.view := by
  unfold InboxPeer.windowTimerExpire
  split
  · rfl
  · rfl

theorem view_sendTimerExpire (p : InboxPeer) (now : ℕ) :
    (p.sendTimerExpire now).1.view = p.view := by
  unfold InboxPeer.sendTimerExpire
  split
  · rfl
  · rfl

theorem view_recvTimerExpire (p : InboxPeer) (now : ℕ) :
    (p.recvTimerExpire now).1.view = p.view := by
  unfold InboxPeer.recvTimerExpire
  split
  · rfl
  · rfl

theorem Covers.timerWindow (h : Covers s₀ t) (q now : ℕ) : Covers s₀ (t.timerWindow q now) := by
  unfold EvInboxTransport.timerWindow
  extract_lets p w t₁ r
  have ht₁ : Covers s₀ t₁ := h.touch (view_windowTimerExpire p now)
  have hr : Covers s₀ r.1 := ht₁.checkWindow q
  split
  · exact h
  · split
    · exact ht₁
    · split
      · exact hr
      · exact hr.touch rfl

/-- An ack is sent. -/
theorem Covers.sendAck (h : Covers s₀ t) (q : ℕ) (type : InboxPktType) :
    Covers s₀ { t with
      out := t.out ++ [⟨q, EvInboxTransport.ackPkt (t.peer q) type⟩]
      outCount := t.outCount + 1 } := by
  obtain ⟨m, hm⟩ := h
  have hstep : m.heap.step (.ack q type) = m.heap.sendAck q type := if_pos hm.isIdle
  refine ⟨_, hm.idle (e := .ack q type) trivial ?_ ?_ rfl⟩
  · rw [hstep]
    exact hm.ctl
  · rw [hstep]
    exact hm.same.sendAck q type

theorem Covers.timerAck (h : Covers s₀ t) (q now : ℕ) : Covers s₀ (t.timerAck q now) := by
  unfold EvInboxTransport.timerAck
  extract_lets p r isRack _ p₁ s isSack _ p₂ _ t₁
  have hr : r.1.view = p.view := by
    simp only [r]
    split
    · exact view_recvTimerExpire p now
    · rfl
  have hp₁ : p₁.view = p.view := by
    simp only [p₁]
    split
    · exact hr
    · exact hr
  have hs : s.1.view = p.view := by
    simp only [s]
    split
    · exact (view_sendTimerExpire p₁ now).trans hp₁
    · exact hp₁
  have hp₂ : p₂.view = p.view := by
    simp only [p₂]
    split
    · exact hs
    · exact hs
  have ht₁ : Covers s₀ t₁ := by
    simp only [t₁]
    split
    · have hack : Covers s₀ (t.setPeer q { p₂ with inAckSeqno := p₂.inSeqno }) := h.touch hp₂
      have hsent := hack.sendAck q (if isRack then .rack else .sack)
      rwa [show (t.setPeer q { p₂ with inAckSeqno := p₂.inSeqno }).peer q =
        { p₂ with inAckSeqno := p₂.inSeqno } from Function.update_self _ _ _] at hsent
    · exact h.touch hp₂
  split
  · exact ht₁
  · exact ht₁.same rfl (fun _ => rfl) rfl rfl rfl

theorem Covers.timerExpire (h : Covers s₀ t) (now : ℕ) : Covers s₀ (t.timerExpire now) := by
  refine List.foldlRecOn t.active (EvInboxTransport.timerPeer now) (motive := Covers s₀) ?_ ?_
  · exact h.same rfl (fun _ => rfl) rfl rfl rfl
  · intro t' ht' q _
    exact (ht'.timerWindow q now).timerAck q now

end

end InboxMem

namespace InboxPeers

open InboxMem (Covers)

variable {s₀ : InboxMem} {s : InboxPeers}

/-! ### Peers that are resolved -/

theorem covers_resetPeer (h : Covers s₀ s.tport) (q : ℕ) : Covers s₀ (s.resetPeer q).tport :=
  h.reset q _

theorem tport_matchSrc (s : InboxPeers) (uid myPeerId destPeerId : UInt32) :
    (s.matchSrc uid myPeerId destPeerId).1.tport = s.tport := by
  obtain heq | ⟨q, -, heq⟩ := matchSrc_cases s uid myPeerId destPeerId
  · rw [heq]
  · rw [heq]
    rfl

theorem covers_matchSrc (h : Covers s₀ s.tport) (uid myPeerId destPeerId : UInt32) :
    Covers s₀ (s.matchSrc uid myPeerId destPeerId).1.tport := by
  rwa [tport_matchSrc]

theorem covers_restartSrc (h : Covers s₀ s.tport) (q : ℕ) (hdr : InboxHdr) :
    Covers s₀ (s.restartSrc q hdr).tport := by
  unfold restartSrc
  extract_lets p
  split
  · show Covers s₀ (if p.destUid ≠ noUid then s.resetPeer q else s).tport
    split
    · exact covers_resetPeer h q
    · exact h
  · exact h

theorem covers_resolvePkt (h : Covers s₀ s.tport) (hdr : InboxHdr) (addr : List UInt8) :
    Covers s₀ (s.resolvePkt hdr addr).1.tport := by
  have h' := covers_matchSrc h hdr.destUid hdr.destId hdr.ident
  unfold resolvePkt
  generalize s.matchSrc hdr.destUid hdr.destId hdr.ident = r at h'
  obtain ⟨s', q⟩ := r
  cases q with
  | some q => exact h'
  | none =>
    show Covers s₀ (s'.resolveSrcUid hdr addr).1.tport
    unfold resolveSrcUid
    split
    · exact covers_restartSrc h' _ hdr
    · extract_lets q s''
      exact covers_restartSrc (s := s''.setIds q _) h' q hdr

theorem tport_learnUids (s : InboxPeers) (q : ℕ) (hdr : InboxHdr) :
    (s.learnUids q hdr).tport = s.tport := by
  have hsrc : (s.learnSrc q hdr).tport = s.tport := by
    unfold learnSrc
    split
    · rfl
    · rfl
  unfold learnUids
  split
  · rfl
  · unfold learnDest
    split
    · exact hsrc
    · exact hsrc

theorem covers_reassignPeer (h : Covers s₀ s.tport) (q : ℕ) (uid : UInt32)
    (addr : Option (List UInt8)) (urlHash : UInt32) :
    Covers s₀ (s.reassignPeer q uid addr urlHash).1.tport := by
  unfold reassignPeer
  split
  · exact h
  · split
    · exact h
    · exact covers_resetPeer h q

theorem covers_resolveDestUid (h : Covers s₀ s.tport) (uid : UInt32) (addr : List UInt8)
    (urlHash : UInt32) : Covers s₀ (s.resolveDestUid uid addr urlHash).1.tport := by
  have hpick : (s.pickDest uid addr urlHash).1.tport = s.tport := by
    unfold pickDest
    split
    · rfl
    · rfl
  unfold resolveDestUid
  extract_lets r
  have hr : Covers s₀ r.1.tport := by
    rwa [show r.1.tport = s.tport from hpick]
  have htake : Covers s₀ (r.1.takeSrc r.2 uid).tport := by
    unfold takeSrc
    split
    · show Covers s₀ (if (r.1.ids r.2).srcUid ≠ noUid then r.1.resetPeer r.2 else r.1).tport
      split
      · exact covers_resetPeer hr r.2
      · exact hr
    · exact hr
  unfold noteUrl
  split
  · exact htake
  · exact htake

theorem covers_resolveMsg (h : Covers s₀ s.tport) (uid : UInt32) (addr : Option (List UInt8))
    (urlHash : UInt32) : Covers s₀ (s.resolveMsg uid addr urlHash).1.tport := by
  have h' := covers_matchSrc h uid 0 0
  unfold resolveMsg
  generalize s.matchSrc uid 0 0 = r at h'
  obtain ⟨s', q⟩ := r
  cases q with
  | some q =>
    dsimp only
    split
    · exact h'
    · split
      · exact h'
      · exact covers_reassignPeer h' q uid addr urlHash
  | none =>
    dsimp only
    split
    · exact h'
    · exact covers_resolveDestUid h' uid _ urlHash

theorem covers_shutdownPeer (h : Covers s₀ s.tport) (uid urlHash : UInt32) :
    Covers s₀ (s.shutdownPeer uid urlHash).tport := by
  have h' := covers_matchSrc h uid 0 0
  unfold shutdownPeer
  generalize s.matchSrc uid 0 0 = r at h'
  obtain ⟨s', q⟩ := r
  cases q with
  | some q =>
    dsimp only
    split
    · exact covers_resetPeer h' q
    · exact h'
  | none => exact h'

theorem covers_step (h : Covers s₀ s.tport) (e : Event) : Covers s₀ (s.step e).tport := by
  cases e with
  | recv hdr addr pkt =>
    have hlearn := tport_learnUids (s.resolvePkt hdr addr).1 (s.resolvePkt hdr addr).2 hdr
    have hres := covers_resolvePkt h hdr addr
    rw [← hlearn] at hres
    exact hres.process _ pkt
  | send uid addr urlHash msg trail =>
    have hres := covers_resolveMsg h uid addr urlHash
    show Covers s₀ (s.onMsg uid addr urlHash msg trail).tport
    unfold onMsg
    generalize s.resolveMsg uid addr urlHash = r at hres
    obtain ⟨s', q⟩ := r
    cases q with
    | none => exact hres
    | some q =>
      show Covers s₀ (if trail = [] then s'.tport.postMsg q msg
        else s'.tport.postFragMsg q msg trail)
      split
      · exact hres.postMsg q msg
      · exact hres.postFragMsg q msg trail
  | shutdown uid urlHash => exact covers_shutdownPeer h uid urlHash
  | write => exact h.write
  | timer now => exact h.timerExpire now

/-- **Every run of the transport without windows, whatever packets come and whichever peers
are resolved or given up, is one of the transport with them in which no memory that is in
use is given up: the packets of every peer, the queue and the messages handed on are the
same.** -/
theorem covers_run (mtu : { mtu : UInt32 // mtu ≠ 48 }) (now : ℕ) (id : UInt32)
    (addr : ℕ → List UInt8) (junk : List (RefWindow.Write InboxPkt) → RefWindow.Cell → InboxPkt)
    (es : List Event) :
    Covers (.start (.start mtu addr) junk)
      (es.foldl step (start (.listen mtu.1 mtu.2 now) id)).tport := by
  refine List.foldlRecOn es step (motive := fun s : InboxPeers =>
    Covers (.start (.start mtu addr) junk) s.tport) ?_ fun s hs e _ => covers_step hs e
  exact ⟨_, .start, InboxMem.inv_start mtu addr junk, rfl,
    ⟨rfl, fun _ => rfl, rfl, rfl⟩, rfl⟩

end InboxPeers

end Raims
