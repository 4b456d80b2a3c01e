import Raims.Inbox.InboxWindow

/-!
# Packets from before a reset

`reset_peer` drops the packets in the lists of a peer and starts its numbers again. The
packets that wait in the send queue of the transport are not dropped: they keep a number
of the time before, and `write` sends them to the address that the peer has then and puts
them into its send window. So a peer has packets of one numbering only, as long as no
data packet of it waits when it is reset.
-/

namespace Raims

namespace InboxHeap

variable (h : InboxHeap) (q : ℕ)

/-- The packets in the lists of the peer. -/
def lists : List WinElem := (h.peer q).out ++ ((h.peer q).inList ++ (h.peer q).fragList)

/-- No data packet from before the last reset of its peer is in a list of the peer, and
none was sent after a reset. -/
structure Unmixed : Prop where
  lists : ∀ q, ∀ el ∈ h.lists q, el.born = (h.peer q).resets
  sent : ∀ s ∈ h.sent, s.el.pkt.code.isData = true → s.el.born = s.resets

/-! ## When a peer is reset -/

/-- No data packet of the peer waits in the send queue. -/
def QueueClear : Prop := ∀ el ∈ h.out, el.peer = q → el.pkt.code.isData = false

instance : Decidable (h.QueueClear q) := inferInstanceAs (Decidable (∀ el ∈ h.out, _))

/-- A peer is reset only when its packets are written. -/
def ResetClear (h : InboxHeap) : Event → Prop
  | .call (.reset q) => h.QueueClear q
  | .call (.reassign q addr) => addr.length = (h.peer q).addr.length → h.QueueClear q
  | _ => True

instance (h : InboxHeap) : (e : Event) → Decidable (h.ResetClear e)
  | .call (.reset q) => inferInstanceAs (Decidable (h.QueueClear q))
  | .call (.reassign q addr) =>
    inferInstanceAs (Decidable (addr.length = (h.peer q).addr.length → h.QueueClear q))
  | .call (.post _ _) => instDecidableTrue
  | .call (.postFrag _ _ _) => instDecidableTrue
  | .recv _ _ => instDecidableTrue
  | .next => instDecidableTrue
  | .ret => instDecidableTrue
  | .write => instDecidableTrue
  | .repair _ => instDecidableTrue
  | .ack _ _ => instDecidableTrue

/-! ## The invariant -/

structure Fresh : Prop where
  lists : ∀ q, ∀ el ∈ h.lists q, el.peer = q ∧ el.born = (h.peer q).resets
  queue : ∀ el ∈ h.out, el.pkt.code.isData = true → el.born = (h.peer el.peer).resets
  sent : ∀ s ∈ h.sent, s.el.pkt.code.isData = true → s.el.born = s.resets

variable {h q} {h' : InboxHeap}

theorem Fresh.unmixed (hf : h.Fresh) : h.Unmixed where
  lists k el hel := (hf.lists k el hel).2
  sent := hf.sent

/-- No peer is reset, and what is new in a list or in the queue is made for the peer now. -/
theorem Fresh.of_step (hf : h.Fresh) (hres : ∀ k, (h'.peer k).resets = (h.peer k).resets)
    (hlists : ∀ k, ∀ el ∈ h'.lists k,
      el ∈ h.lists k ∨ el.peer = k ∧ el.born = (h.peer k).resets)
    (hqueue : ∀ el ∈ h'.out, el.pkt.code.isData = true →
      el ∈ h.out ∨ el.born = (h.peer el.peer).resets)
    (hsent : h'.sent = h.sent) : h'.Fresh where
  lists k el hel := by
    rw [hres]
    rcases hlists k el hel with hold | hnew
    · exact hf.lists k el hold
    · exact hnew
  queue el hel hdata := by
    rw [hres]
    rcases hqueue el hel hdata with hold | hnew
    · exact hf.queue el hold hdata
    · exact hnew
  sent := by
    rw [hsent]
    exact hf.sent

theorem resets_setPeer {p : WinPeer} (hp : p.resets = (h.peer q).resets) (k : ℕ) :
    ((h.setPeer q p).peer k).resets = (h.peer k).resets := by
  by_cases hk : k = q
  · subst hk
    rw [peer_setPeer_self, hp]
  · rw [peer_setPeer_of_ne h p hk]

/-- The lists of one peer change. -/
theorem Fresh.setPeer (hf : h.Fresh) {p : WinPeer} (hres : p.resets = (h.peer q).resets)
    (hp : ∀ el ∈ p.out ++ (p.inList ++ p.fragList),
      el ∈ h.lists q ∨ el.peer = q ∧ el.born = (h.peer q).resets) : (h.setPeer q p).Fresh := by
  refine hf.of_step (resets_setPeer hres) ?_ (fun el hel _ => Or.inl hel) rfl
  intro k el hel
  unfold InboxHeap.lists at hel
  by_cases hk : k = q
  · subst hk
    rw [peer_setPeer_self] at hel
    exact hp el hel
  · rw [peer_setPeer_of_ne h p hk] at hel
    exact Or.inl hel

/-- Neither the memory nor where the transport is matters. -/
theorem Fresh.congr (hf : h.Fresh) (hpeer : h'.peer = h.peer) (hout : h'.out = h.out)
    (hsent : h'.sent = h.sent) : h'.Fresh := by
  refine hf.of_step (fun k => by rw [hpeer]) ?_ ?_ hsent
  · intro k el hel
    unfold InboxHeap.lists at hel ⊢
    rw [hpeer] at hel
    exact Or.inl hel
  · intro el hel _
    rw [hout] at hel
    exact Or.inl hel

theorem mem_lists {el : WinElem} : el ∈ h.lists q ↔
    el ∈ (h.peer q).out ∨ el ∈ (h.peer q).inList ∨ el ∈ (h.peer q).fragList := by
  unfold lists
  rw [List.mem_append, List.mem_append]

theorem fresh_start (mtu : { mtu : UInt32 // mtu ≠ 48 }) (addr : ℕ → List UInt8) :
    (start mtu addr).Fresh where
  lists _ _ hel := by cases hel
  queue _ hel := by cases hel
  sent _ hs := by cases hs

/-! ### Receiving -/

theorem Fresh.adjustSendWindow (hf : h.Fresh) : (h.adjustSendWindow q).Fresh := by
  have hmem : (h.derefDelete ((h.peer q).out.takeWhile fun el =>
      seqnoCmp el.pkt.srcSeqno (h.peer q).outWindowSeqno ≤ 0)).Fresh := hf.congr rfl rfl rfl
  refine hmem.setPeer rfl fun el hel => Or.inl (mem_lists.2 ?_)
  rcases List.mem_append.1 hel with hel | hel
  · exact Or.inl ((List.dropWhile_sublist _).subset hel)
  · exact Or.inr (List.mem_append.1 hel)

theorem Fresh.ackPeer (hf : h.Fresh) (destSeqno : ℕ) : (h.ackPeer q destSeqno).Fresh := by
  unfold InboxHeap.ackPeer
  extract_lets p h'
  have hset : h'.Fresh := hf.setPeer rfl fun el hel => Or.inl hel
  split
  · split
    · exact hset.adjustSendWindow
    · exact hset
  · exact hf

theorem Fresh.dispatchFragMsg (hf : h.Fresh) (len : ℕ) : (h.dispatchFragMsg q len).Fresh := by
  have hset : (h.setPeer q { h.peer q with fragList := [] }).Fresh := by
    refine hf.setPeer rfl fun el hel => Or.inl (mem_lists.2 ?_)
    rw [List.append_nil] at hel
    rcases List.mem_append.1 hel with hel | hel
    · exact Or.inl hel
    · exact Or.inr (Or.inl hel)
  exact hset.congr rfl rfl rfl

theorem mem_insertIn {x el : WinElem} {els : List WinElem} (hel : el ∈ insertIn x els) :
    el = x ∨ el ∈ els := by
  induction els with
  | nil => exact Or.inl (List.mem_singleton.1 hel)
  | cons y rest ih =>
    unfold insertIn at hel
    split at hel
    · exact List.mem_cons.1 hel
    · rcases List.mem_cons.1 hel with rfl | hel
      · exact Or.inr List.mem_cons_self
      · exact (ih hel).imp_right (List.mem_cons_of_mem y)

theorem Fresh.pushFrag (hf : h.Fresh) (pkt : InboxPkt) : (h.pushFrag q pkt).Fresh := by
  have hmem : (h.allocWindow q pkt).1.Fresh := hf.congr rfl rfl rfl
  refine hmem.setPeer rfl fun el hel => ?_
  rcases List.mem_append.1 hel with hel | hel
  · exact Or.inl (mem_lists.2 (Or.inl hel))
  · rcases List.mem_append.1 hel with hel | hel
    · exact Or.inl (mem_lists.2 (Or.inr (Or.inl hel)))
    · rcases List.mem_append.1 hel with hel | hel
      · exact Or.inl (mem_lists.2 (Or.inr (Or.inr hel)))
      · rw [List.mem_singleton.1 hel]
        exact Or.inr ⟨rfl, rfl⟩

theorem Fresh.pushIn (hf : h.Fresh) (pkt : InboxPkt) : (h.pushIn q pkt).Fresh := by
  have hmem : (h.allocWindow q pkt).1.Fresh := hf.congr rfl rfl rfl
  refine hmem.setPeer rfl fun el hel => ?_
  rcases List.mem_append.1 hel with hel | hel
  · exact Or.inl (mem_lists.2 (Or.inl hel))
  · rcases List.mem_append.1 hel with hel | hel
    · rcases mem_insertIn hel with rfl | hel
      · exact Or.inr ⟨rfl, rfl⟩
      · exact Or.inl (mem_lists.2 (Or.inr (Or.inl hel)))
    · exact Or.inl (mem_lists.2 (Or.inr (Or.inr hel)))

theorem Fresh.dispatchMsg (hf : h.Fresh) (pkt : InboxPkt) : (h.dispatchMsg q pkt).Fresh := by
  have hset : (h.setPeer q { h.peer q with inSeqno := pkt.srcSeqno }).Fresh :=
    hf.setPeer rfl fun el hel => Or.inl hel
  unfold InboxHeap.dispatchMsg
  extract_lets p
  split
  · split
    · exact hset.congr rfl rfl rfl
    · split
      · exact hset.dispatchFragMsg _
      · exact (hf.pushFrag pkt).congr rfl rfl rfl
  · split
    · split
      · exact hf.congr rfl rfl rfl
      · exact (hf.pushIn pkt).congr rfl rfl rfl
    · exact hf.congr rfl rfl rfl

theorem Fresh.popFrag (hf : h.Fresh) {el : WinElem} {rest : List WinElem}
    (hin : (h.peer q).inList = el :: rest) : (h.popFrag q el rest).Fresh := by
  refine hf.setPeer rfl fun x hx => Or.inl (mem_lists.2 ?_)
  rw [hin, List.mem_cons]
  simp only [List.mem_append, List.mem_singleton] at hx
  rcases hx with hx | hx | hx | hx
  · exact Or.inl hx
  · exact Or.inr (Or.inl (Or.inr hx))
  · exact Or.inr (Or.inr hx)
  · exact Or.inr (Or.inl (Or.inl hx))

theorem Fresh.popIn (hf : h.Fresh) {el : WinElem} {rest : List WinElem}
    (hin : (h.peer q).inList = el :: rest) : (h.popIn q el rest).Fresh := by
  refine hf.setPeer rfl fun x hx => Or.inl (mem_lists.2 ?_)
  rw [hin, List.mem_cons]
  simp only [List.mem_append] at hx
  rcases hx with hx | hx | hx
  · exact Or.inl hx
  · exact Or.inr (Or.inl (Or.inr hx))
  · exact Or.inr (Or.inr hx)

theorem Fresh.dispatchIn (hf : h.Fresh) : (h.dispatchIn q (h.peer q).inList).Fresh := by
  cases hin : (h.peer q).inList with
  | nil => exact hf.congr rfl rfl rfl
  | cons el rest =>
    show (ite _ _ _ : InboxHeap).Fresh
    split
    · split
      · exact (hf.popIn hin).congr rfl rfl rfl
      · split
        · exact (hf.popFrag hin).dispatchFragMsg 0
        · exact hf.popFrag hin
    · exact hf.congr rfl rfl rfl

theorem Fresh.next (hf : h.Fresh) : (h.next h.ctl).Fresh := by
  cases h.ctl with
  | pkt q pkt => exact hf.dispatchMsg pkt
  | loop q => exact hf.dispatchIn
  | idle => exact hf
  | direct q => exact hf
  | elem q el => exact hf
  | frag q buf => exact hf

theorem Fresh.ret (hf : h.Fresh) : (h.ret h.ctl).Fresh := by
  cases h.ctl with
  | direct q => exact hf.congr rfl rfl rfl
  | elem q el => exact hf.congr rfl rfl rfl
  | frag q buf =>
    unfold InboxHeap.ret derefWindow
    dsimp only
    split
    · exact hf.congr rfl rfl rfl
    · exact hf.congr rfl rfl rfl
  | idle => exact hf
  | pkt q pkt => exact hf
  | loop q => exact hf

/-! ### Sending -/

/-- A packet is made and comes to the send queue. -/
theorem Fresh.pushOut (hf : h.Fresh) (pkt : InboxPkt) :
    ((h.allocWindow q pkt).1.pushOut (h.allocWindow q pkt).2).Fresh := by
  refine hf.of_step (fun _ => rfl) (fun _ el hel => Or.inl hel) ?_ rfl
  intro el hel _
  rcases List.mem_append.1 hel with hel | hel
  · exact Or.inl hel
  · rw [List.mem_singleton.1 hel]
    exact Or.inr rfl

theorem Fresh.postPkt (hf : h.Fresh) (frag : InboxCode × List UInt8) :
    (h.postPkt q frag).Fresh := by
  unfold InboxHeap.postPkt
  extract_lets p r
  have hset := (hf.pushOut (q := q) ⟨frag.1, p.outSeqno + 1, p.inSeqno, frag.2⟩).setPeer (q := q)
    (p := { p with outSeqno := p.outSeqno + 1 }) rfl fun el hel => Or.inl hel
  exact hset

theorem Fresh.foldl_postPkt (hf : h.Fresh) (frags : List (InboxCode × List UInt8)) :
    (frags.foldl (InboxHeap.postPkt q) h).Fresh := by
  induction frags generalizing h with
  | nil => exact hf
  | cons frag frags ih => exact ih (hf.postPkt frag)

theorem Fresh.checkWindow (hf : h.Fresh) : (h.checkWindow q).Fresh := by
  unfold InboxHeap.checkWindow
  extract_lets p unacked
  split
  · have hsplit : p.out.rdropWhile unacked ++ p.out.rtakeWhile unacked = p.out :=
      List.rdropWhile_append_rtakeWhile
    have hset : (h.setPeer q { p with out := p.out.rdropWhile unacked }).Fresh := by
      refine hf.setPeer rfl fun el hel => Or.inl (mem_lists.2 ?_)
      rcases List.mem_append.1 hel with hel | hel
      · exact Or.inl (hsplit ▸ List.mem_append_left _ hel)
      · exact Or.inr (List.mem_append.1 hel)
    refine hset.of_step (fun _ => rfl) (fun _ el hel => Or.inl hel) ?_ rfl
    intro el hel _
    rcases List.mem_append.1 hel with hel | hel
    · exact Or.inl hel
    · -- what is sent again was in the send window
      obtain ⟨x, hx, rfl⟩ := List.mem_map.1 hel
      obtain ⟨hpeer, hborn⟩ := hf.lists q x
        (mem_lists.2 (Or.inl (hsplit ▸ List.mem_append_right _ hx)))
      right
      show x.born = ((h.setPeer q _).peer x.peer).resets
      rw [hpeer, peer_setPeer_self]
      exact hborn
  · exact hf

/-- The head of the send queue is written. -/
theorem Fresh.writeElem (hf : h.Fresh) {el : WinElem} {rest : List WinElem}
    (hout : h.out = el :: rest) : ({ h with out := rest }.writeElem el).Fresh := by
  have hrest : Fresh { h with out := rest } := by
    refine hf.of_step (fun _ => rfl) (fun _ x hx => Or.inl hx) (fun x hx _ => Or.inl ?_) rfl
    rw [hout]
    exact List.mem_cons_of_mem el hx
  have hdata : el.pkt.code.isData = true → el.born = (h.peer el.peer).resets :=
    hf.queue el (hout ▸ List.mem_cons_self)
  -- the packet that is sent, whatever becomes of it then
  have hsent : ∀ {g : InboxHeap}, g.Fresh →
      Fresh { g with sent := h.sent ++ [⟨(h.peer el.peer).addr, el, (h.peer el.peer).resets⟩] } := by
    intro g hg
    refine ⟨hg.lists, hg.queue, fun s hs hs' => ?_⟩
    rcases List.mem_append.1 hs with hs | hs
    · exact hf.sent s hs hs'
    · rw [List.mem_singleton.1 hs] at hs' ⊢
      exact hdata hs'
  unfold InboxHeap.writeElem
  extract_lets p h'
  by_cases hd : el.pkt.code.isData = true
  · have hh' : h' = InboxHeap.setPeer { h with out := rest } el.peer
        { p with out := p.out ++ [el] } := if_pos hd
    rw [hh']
    refine hsent (hrest.setPeer rfl fun x hx => ?_)
    simp only [List.mem_append, List.mem_singleton] at hx
    rcases hx with (hx | rfl) | hx
    · exact Or.inl (mem_lists.2 (Or.inl hx))
    · exact Or.inr ⟨rfl, hdata hd⟩
    · exact Or.inl (mem_lists.2 (Or.inr hx))
  · have hh' : h' = { h with out := rest }.derefDelete [el] := if_neg hd
    rw [hh']
    exact hsent (hrest.congr rfl rfl rfl)

theorem Fresh.writeLoop (hf : h.Fresh) (n : ℕ) : (writeLoop n h).Fresh := by
  induction n generalizing h with
  | zero => exact hf
  | succ n ih =>
    unfold InboxHeap.writeLoop
    split
    · exact hf
    · next hout => exact ih (hf.writeElem hout)

/-! ### Peers -/

/-- A reset drops what is in the lists; in the queue there must be nothing to drop. -/
theorem Fresh.resetPeer (hf : h.Fresh) (hclear : h.QueueClear q) : (h.resetPeer q).Fresh := by
  refine ⟨fun k el hel => ?_, fun el hel hdata => ?_, hf.sent⟩
  · unfold InboxHeap.lists InboxHeap.resetPeer at hel
    by_cases hk : k = q
    · subst hk
      rw [peer_setPeer_self] at hel
      cases hel
    · rw [peer_setPeer_of_ne _ _ hk] at hel
      unfold InboxHeap.resetPeer
      rw [peer_setPeer_of_ne _ _ hk]
      exact hf.lists k el hel
  · have hne : el.peer ≠ q := by
      intro heq
      rw [hclear el hel heq] at hdata
      cases hdata
    unfold InboxHeap.resetPeer
    rw [peer_setPeer_of_ne _ _ hne]
    exact hf.queue el hel hdata

theorem Fresh.call (hf : h.Fresh) (c : Call) (hclear : h.ResetClear (.call c)) :
    (h.call c).Fresh := by
  cases c with
  | post q msg => exact hf.foldl_postPkt _
  | postFrag q msg trail => exact hf.foldl_postPkt _
  | reset q => exact hf.resetPeer hclear
  | reassign q addr =>
    unfold InboxHeap.call InboxHeap.reassignPeer
    dsimp only
    split
    · next hlen => exact (hf.resetPeer (hclear hlen)).setPeer rfl fun el hel => Or.inl hel
    · exact hf

/-! ## Runs -/

theorem fresh_ite {b : Bool} {g : InboxHeap} (hf : h.Fresh) (hg : g.Fresh) :
    (if b then g else h).Fresh := by
  split
  · exact hg
  · exact hf

theorem fresh_step (hf : h.Fresh) (e : Event) (hclear : h.ResetClear e) : (h.step e).Fresh := by
  cases e with
  | call c => exact fresh_ite hf (hf.call c hclear)
  | recv q pkt => exact fresh_ite hf ((hf.ackPeer pkt.destSeqno).congr rfl rfl rfl)
  | next => exact hf.next
  | ret => exact hf.ret
  | write => exact fresh_ite hf ((hf.writeLoop h.outCount).congr rfl rfl rfl)
  | repair q => exact fresh_ite hf hf.checkWindow
  | ack q type => exact fresh_ite hf (hf.pushOut _)

/-- **If no data packet of a peer waits in the send queue whenever the peer is reset, no
packet from before a reset is sent after it or comes to a list of the peer.** -/
theorem unmixed_of_resetClear (mtu : { mtu : UInt32 // mtu ≠ 48 }) (addr : ℕ → List UInt8)
    (h : InboxHeap) (hr : Run.Reach step ResetClear (start mtu addr) h) : h.Unmixed :=
  Fresh.unmixed (hr.invariant (fresh_start mtu addr)
    fun _ e hf hclear => fresh_step hf e hclear)

/-- A message is written before the peer is reset, and one after. -/
def resetWritten : List Event :=
  [.call (.post 0 [1]), .write, .call (.reassign 0 [2]), .call (.post 0 [3]), .write]

theorem unmixed_resetWritten :
    Run.AllOk step ResetClear (start ⟨1500, by decide⟩ fun _ => [1]) resetWritten ∧
      (run (start ⟨1500, by decide⟩ fun _ => [1]) resetWritten).Unmixed := by
  have hok : Run.AllOk step ResetClear (start ⟨1500, by decide⟩ fun _ => [1]) resetWritten := by
    decide
  exact ⟨hok, unmixed_of_resetClear ⟨1500, by decide⟩ (fun _ => [1]) _ (Run.Reach.start.foldl hok)⟩

/-- The peer is reset while the message waits in the send queue. -/
def resetQueued : List Event :=
  [.call (.post 0 [1]), .call (.reassign 0 [2]), .write]

theorem resetQueued_not_unmixed :
    ¬ ∀ k, (run (start ⟨1500, by decide⟩ fun _ => [1]) (resetQueued.take k)).Unmixed := by
  intro hall
  have hu : (run (start ⟨1500, by decide⟩ fun _ => [1]) resetQueued).Unmixed := hall 3
  have hlists := hu.lists 0
  revert hlists
  decide

end InboxHeap

end Raims
