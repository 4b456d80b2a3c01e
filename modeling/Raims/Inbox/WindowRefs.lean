import Raims.Inbox.InboxWindow

/-!
# What a window of the inbox transport is referred to by

A window counts the packets that are in it and in some list, what is dispatched from it,
and one more if it is the current window of its peer. This fails in `dispatch_frag_msg`
only: it gives up the fragments with `deref`, so that a window is never freed when they
are the last that is in it, and it gives up its buffer with `deref` of the window that is
current when the message was dispatched, which is another one if a send in between did
not fit.
-/

namespace Raims

open RefWindow

/-- The memory of what is dispatched. -/
def Ctl.cells (q : ℕ) : Ctl → List Cell
  | .elem q' el => if q' = q then [el.cell] else []
  | .frag q' buf => if q' = q then [buf] else []
  | _ => []

namespace InboxHeap

variable (h : InboxHeap) (q : ℕ)

/-- The packets of the peer in the send queue and in its lists. -/
def elems : List WinElem :=
  h.out.filter (fun el => el.peer = q) ++
    ((h.peer q).out ++ ((h.peer q).inList ++ (h.peer q).fragList))

/-- The memory of the peer that is in use. -/
def live (q : ℕ) : List Cell := (h.elems q).map WinElem.cell ++ h.ctl.cells q

/-- The windows are counted as they are used, they are there as long as they are, and
what is in one window does not overlap. -/
structure Counted : Prop where
  refs : ∀ w win, h.store.windows w = some win → win.refs = held h.store h.live win.owner w
  freed : ∀ q w, (∃ win, h.store.windows w = some win ∧ win.owner = q) ↔
    0 < held h.store h.live q w
  apart : ∀ q, (h.live q).Pairwise Apart

/-! ## When the fragments and the buffer are given up -/

/-- The bytes fit into the window, which is the current one of the peer. -/
def HasRoom (bytes w : ℕ) : Prop :=
  h.store.current q = some w ∧ ∃ win, h.store.windows w = some win ∧ bytes ≤ win.avail * 8

/-- The window of each fragment has another packet in it, or it is the current window
and has room for the buffer. -/
def FragsKept (len : ℕ) : Prop :=
  ∀ el ∈ (h.peer q).fragList,
    h.HasRoom q (fragLen (h.peer q).fragList + len) el.cell.window ∨
      ∃ o ∈ h.out.filter (fun el => el.peer = q) ++ ((h.peer q).out ++ (h.peer q).inList),
        o.cell.window = el.cell.window

/-- `FragsKept`, if the recv window goes on with a packet that rolls up. -/
def LoopKept : List WinElem → Prop
  | [] => True
  | el :: rest =>
    h.isNext q el.pkt → el.pkt.code.isFragment = true → el.pkt.code.isRollup = true →
      (h.popFrag q el rest).FragsKept q 0

/-- What is given up without being freed is not the last that is in its window. -/
def NextKept : Ctl → Prop
  | .pkt q pkt =>
    h.isNext q pkt → pkt.code.isFragment = true → pkt.code.isRollup = true →
      h.FragsKept q pkt.msg.length
  | .loop q => h.LoopKept q (h.peer q).inList
  | _ => True

/-- The current window is the one of the buffer. -/
def RetKept : Ctl → Prop
  | .frag q buf => h.store.current q = some buf.window
  | _ => True

def Kept (h : InboxHeap) : Event → Prop
  | .next => h.NextKept h.ctl
  | .ret => h.RetKept h.ctl
  | _ => True

/-! ## The invariant -/

structure Inv : Prop where
  sound : Sound h.store h.live
  owned : ∀ q, ∀ el ∈ (h.peer q).out, el.peer = q

variable {h q}

theorem Inv.counted (hi : h.Inv) (hused : Used h.store) : h.Counted where
  refs _ _ hw := hi.sound.refs hw
  freed _ _ := hi.sound.owner_iff hused
  apart := hi.sound.apart

theorem inv_start (mtu : { mtu : UInt32 // mtu ≠ 48 }) (addr : ℕ → List UInt8) :
    (start mtu addr).Inv := by
  have hlive : ∀ k, (start mtu addr).live k = [] := fun _ => rfl
  refine ⟨⟨?_, ?_, ?_, fun _ => rfl, ?_, ?_⟩, ?_⟩
  · intro w win hw
    cases hw
  · intro k c hc
    rw [hlive] at hc
    cases hc
  · intro k w hw
    cases hw
  · intro w win hw
    cases hw
  · intro k
    rw [hlive]
    exact List.Pairwise.nil
  · intro k el hel
    cases hel

/-! ### Three kinds of steps -/

variable {h' : InboxHeap}

/-- The packets are moved. -/
theorem sound_of_perm (hs : Sound h.store h.live) (hstore : h'.store = h.store)
    (hlive : ∀ k, (h'.live k).Perm (h.live k)) : Sound h'.store h'.live := by
  rw [hstore]
  exact hs.perm hlive

/-- Packets are given up. -/
theorem sound_of_release (hs : Sound h.store h.live) {els : List WinElem}
    (hstore : h'.store = (h.derefDelete els).store)
    (hself : (els.map WinElem.cell ++ h'.live q).Perm (h.live q))
    (hne : ∀ k, k ≠ q → h'.live k = h.live k) : Sound h'.store h'.live := by
  have hadd : Sound h.store (addCells h'.live q (els.map WinElem.cell)) := by
    refine hs.perm fun k => ?_
    unfold addCells
    by_cases hk : k = q
    · subst hk
      rw [Function.update_self]
      exact hself
    · rw [Function.update_of_ne hk, hne k hk]
  have hdone := hadd.foldl_derefDelete
  rw [List.foldl_map] at hdone
  rw [hstore]
  exact hdone

/-- Memory is taken. -/
theorem sound_of_alloc (hs : Sound h.store h.live) {bytes : ℕ}
    (hstore : h'.store = (h.store.alloc wbufSize q bytes).1)
    (hself : (h'.live q).Perm ((h.store.alloc wbufSize q bytes).2 :: h.live q))
    (hne : ∀ k, k ≠ q → h'.live k = h.live k) : Sound h'.store h'.live := by
  rw [hstore]
  refine (hs.alloc wbufSize q bytes).perm fun k => ?_
  unfold addCell
  by_cases hk : k = q
  · subst hk
    rw [Function.update_self]
    exact hself
  · rw [Function.update_of_ne hk, hne k hk]

/-! ### The lists of the peers -/

theorem live_congr {k : ℕ} (hout : h'.out = h.out) (hpeer : h'.peer k = h.peer k)
    (hctl : h'.ctl.cells k = h.ctl.cells k) : h'.live k = h.live k := by
  unfold live elems
  rw [hout, hpeer, hctl]

theorem elems_eq {k : ℕ} {out : List WinElem} {p : WinPeer} (hout : h.out = out)
    (hpeer : h.peer k = p) :
    h.elems k = out.filter (fun el => el.peer = k) ++ (p.out ++ (p.inList ++ p.fragList)) := by
  rw [elems, hout, hpeer]

/-- The lists of the peer with the same packets in them. -/
theorem live_setPeer (h : InboxHeap) {p : WinPeer}
    (hp : (p.out ++ (p.inList ++ p.fragList)).Perm
      ((h.peer q).out ++ ((h.peer q).inList ++ (h.peer q).fragList))) (k : ℕ) :
    ((h.setPeer q p).live k).Perm (h.live k) := by
  by_cases hk : k = q
  · subst hk
    unfold live elems
    rw [peer_setPeer_self]
    exact ((hp.append_left _).map _).append_right _
  · exact List.Perm.of_eq (live_congr rfl (peer_setPeer_of_ne h p hk) rfl)

/-- What is owned stays so if the send windows have no other packets. -/
theorem owned_setPeer (ho : ∀ k, ∀ el ∈ (h.peer k).out, el.peer = k) {p : WinPeer}
    (hp : ∀ el ∈ p.out, el.peer = q) :
    ∀ k, ∀ el ∈ ((h.setPeer q p).peer k).out, el.peer = k := by
  intro k el hel
  by_cases hk : k = q
  · subst hk
    rw [peer_setPeer_self] at hel
    exact hp el hel
  · rw [peer_setPeer_of_ne h p hk] at hel
    exact ho k el hel

/-- The numbers of a peer change, and not its lists. -/
theorem Inv.setPeer (hi : h.Inv) {p : WinPeer} (hout : p.out = (h.peer q).out)
    (hin : p.inList = (h.peer q).inList) (hfrag : p.fragList = (h.peer q).fragList) :
    (h.setPeer q p).Inv := by
  refine ⟨sound_of_perm hi.sound rfl (live_setPeer h ?_), owned_setPeer hi.owned ?_⟩
  · rw [hout, hin, hfrag]
  · rw [hout]
    exact hi.owned q

/-- Where the transport is changes, and nothing is dispatched. -/
theorem Inv.setCtl (hi : h.Inv) {c : Ctl} (hc : ∀ k, c.cells k = h.ctl.cells k) :
    Inv { h with ctl := c } :=
  ⟨sound_of_perm hi.sound rfl fun k => List.Perm.of_eq (live_congr rfl rfl (hc k)), hi.owned⟩

theorem insertIn_perm (x : WinElem) (els : List WinElem) : (insertIn x els).Perm (x :: els) := by
  induction els with
  | nil => exact List.Perm.refl _
  | cons el rest ih =>
    unfold insertIn
    split
    · exact List.Perm.refl _
    · exact (ih.cons el).trans (List.Perm.swap x el rest)

/-! ### Sending -/

/-- A packet is made and comes to the send queue. -/
theorem Inv.pushOut (hi : h.Inv) (pkt : InboxPkt) :
    ((h.allocWindow q pkt).1.pushOut (h.allocWindow q pkt).2).Inv := by
  refine ⟨sound_of_alloc (q := q) hi.sound rfl ?_ ?_, hi.owned⟩
  · have hpeer : (h.allocWindow q pkt).2.peer = q := rfl
    unfold live elems InboxHeap.pushOut
    show ((List.filter _ (h.out ++ [(h.allocWindow q pkt).2]) ++ _).map _ ++ _).Perm _
    rw [List.filter_append, List.filter_cons_of_pos (by simp [hpeer]), List.filter_nil,
      List.append_assoc, List.map_append, List.append_assoc]
    refine List.perm_middle.trans (List.Perm.cons _ ?_)
    rw [List.map_append, List.append_assoc]
    exact List.Perm.refl _
  · intro k hk
    have hne : (h.allocWindow q pkt).2.peer ≠ k := fun heq => hk heq.symm
    unfold live elems InboxHeap.pushOut
    show (List.filter _ (h.out ++ [(h.allocWindow q pkt).2]) ++ _).map _ ++ _ = _
    rw [List.filter_append, List.filter_cons_of_neg (by simpa using hne), List.filter_nil,
      List.append_nil]
    rfl

theorem Inv.postPkt (hi : h.Inv) (frag : InboxCode × List UInt8) : (h.postPkt q frag).Inv := by
  unfold InboxHeap.postPkt
  extract_lets p r
  have hset := (hi.pushOut (q := q) ⟨frag.1, p.outSeqno + 1, p.inSeqno, frag.2⟩).setPeer (q := q)
    (p := { p with outSeqno := p.outSeqno + 1 }) rfl rfl rfl
  exact hset

theorem Inv.foldl_postPkt (hi : h.Inv) (frags : List (InboxCode × List UInt8)) :
    (frags.foldl (InboxHeap.postPkt q) h).Inv := by
  induction frags generalizing h with
  | nil => exact hi
  | cons frag frags ih => exact ih (hi.postPkt frag)

theorem Inv.sendAck (hi : h.Inv) (type : InboxPktType) : (h.sendAck q type).Inv := hi.pushOut _

theorem Inv.checkWindow (hi : h.Inv) : (h.checkWindow q).Inv := by
  unfold InboxHeap.checkWindow
  extract_lets p unacked
  split
  · have hsplit : p.out.rdropWhile unacked ++ p.out.rtakeWhile unacked = p.out :=
      List.rdropWhile_append_rtakeWhile
    have howned : ∀ el ∈ p.out.rtakeWhile unacked, el.peer = q := fun el hel =>
      hi.owned q el (hsplit ▸ List.mem_append_right _ hel)
    refine ⟨sound_of_perm hi.sound rfl fun k => ?_, owned_setPeer hi.owned fun el hel =>
      hi.owned q el (hsplit ▸ List.mem_append_left _ hel)⟩
    set again := (p.out.rtakeWhile unacked).map fun el =>
      ({ el with pkt := { el.pkt with
        code := el.pkt.code.setRepair, destSeqno := p.inSeqno } } : WinElem) with hagain
    have hcells : again.map WinElem.cell = (p.out.rtakeWhile unacked).map WinElem.cell := by
      rw [hagain, List.map_map]
      rfl
    have hpeer : ∀ el ∈ again, el.peer = q := by
      intro el hel
      obtain ⟨el', hel', rfl⟩ := List.mem_map.1 hel
      exact howned el' hel'
    by_cases hk : k = q
    · subst hk
      have hfilter : again.filter (fun el => el.peer = k) = again :=
        List.filter_eq_self.2 fun el hel => decide_eq_true (hpeer el hel)
      have hcount : (h.peer k).out.map WinElem.cell =
          (p.out.rdropWhile unacked).map WinElem.cell ++
            (p.out.rtakeWhile unacked).map WinElem.cell := by
        rw [← List.map_append, hsplit]
      unfold live
      rw [elems_eq (k := k) rfl (Function.update_self _ _ _), List.filter_append, hfilter, elems]
      refine List.Perm.append_right _ (List.perm_iff_count.2 fun c => ?_)
      simp only [List.map_append, List.count_append, hcells, hcount]
      show _ + (_ + (List.count c ((h.peer k).inList.map _) +
        List.count c ((h.peer k).fragList.map _))) = _
      omega
    · have hfilter : again.filter (fun el => el.peer = k) = [] :=
        List.filter_eq_nil_iff.2 fun el hel => by simpa [hpeer el hel] using Ne.symm hk
      unfold live
      rw [elems_eq (k := k) rfl (Function.update_of_ne hk _ _), List.filter_append, hfilter,
        List.append_nil]
      exact List.Perm.refl _
  · exact hi

/-- The head of the send queue is written. -/
theorem Inv.writeElem (hi : h.Inv) {el : WinElem} {rest : List WinElem}
    (hout : h.out = el :: rest) : ({ h with out := rest }.writeElem el).Inv := by
  have hself : (h.out.filter fun x => x.peer = el.peer) =
      el :: rest.filter fun x => x.peer = el.peer := by
    rw [hout, List.filter_cons_of_pos (by simp)]
  have hother : ∀ k, k ≠ el.peer → (h.out.filter fun x => x.peer = k) =
      rest.filter fun x => x.peer = k := by
    intro k hk
    rw [hout, List.filter_cons_of_neg (by simpa using Ne.symm hk)]
  unfold InboxHeap.writeElem
  extract_lets p h'
  by_cases hdata : el.pkt.code.isData = true
  · have hh' : h' = InboxHeap.setPeer { h with out := rest } el.peer
        { p with out := p.out ++ [el] } := if_pos hdata
    rw [hh']
    refine ⟨sound_of_perm hi.sound rfl fun k => ?_, ?_⟩
    · unfold live
      by_cases hk : k = el.peer
      · subst hk
        rw [elems_eq (k := el.peer) (rfl : _ = rest) (Function.update_self _ _ _), elems, hself]
        refine List.Perm.append_right _ (List.perm_iff_count.2 fun c => ?_)
        simp only [List.map_append, List.map_cons, List.map_nil, List.count_append,
          List.cons_append, List.count_cons, List.count_nil]
        show _ + (List.count c ((h.peer el.peer).out.map _) + _ +
          (List.count c ((h.peer el.peer).inList.map _) +
            List.count c ((h.peer el.peer).fragList.map _))) = _
        omega
      · rw [elems_eq (k := k) rfl (Function.update_of_ne hk _ _), elems, hother k hk]
        exact List.Perm.refl _
    · refine owned_setPeer (h := { h with out := rest }) hi.owned fun x hx => ?_
      rcases List.mem_append.1 hx with hx | hx
      · exact hi.owned _ x hx
      · rw [List.mem_singleton.1 hx]
  · have hh' : h' = { h with out := rest }.derefDelete [el] := if_neg hdata
    rw [hh']
    have hstore : ({ h with out := rest }.derefDelete [el]).store = (h.derefDelete [el]).store := rfl
    refine ⟨sound_of_release (q := el.peer) hi.sound hstore ?_ ?_, hi.owned⟩
    · unfold live
      rw [elems_eq (k := el.peer) rfl rfl, elems, hself]
      exact List.Perm.refl _
    · intro k hk
      unfold live
      rw [elems_eq (k := k) rfl rfl, elems, hother k hk]
      rfl

theorem Inv.writeLoop (hi : h.Inv) (n : ℕ) : (writeLoop n h).Inv := by
  induction n generalizing h with
  | zero => exact hi
  | succ n ih =>
    unfold InboxHeap.writeLoop
    split
    · exact hi
    · next hout => exact ih (hi.writeElem hout)

theorem Inv.write (hi : h.Inv) : h.write.Inv :=
  ⟨(hi.writeLoop h.outCount).sound, (hi.writeLoop h.outCount).owned⟩

/-! ### Peers -/

/-- Packets of the lists of a peer are given up. -/
theorem Inv.derefDelete (hi : h.Inv) {els : List WinElem} {p : WinPeer}
    (hp : (els ++ (p.out ++ (p.inList ++ p.fragList))).Perm
      ((h.peer q).out ++ ((h.peer q).inList ++ (h.peer q).fragList)))
    (hout : ∀ el ∈ p.out, el ∈ (h.peer q).out) : ((h.derefDelete els).setPeer q p).Inv := by
  refine ⟨sound_of_release (q := q) hi.sound rfl ?_ ?_,
    owned_setPeer (h := h.derefDelete els) hi.owned fun el hel => hi.owned q el (hout el hel)⟩
  · unfold live
    rw [elems_eq (k := q) rfl (peer_setPeer_self _ _ _), elems, ← List.append_assoc]
    refine List.Perm.append_right _ ?_
    rw [← List.map_append]
    refine List.Perm.map _ (List.Perm.trans ?_ (hp.append_left _))
    exact List.perm_append_comm_assoc _ _ _
  · intro k hk
    exact live_congr rfl (Function.update_of_ne hk _ _) rfl

theorem Inv.adjustSendWindow (hi : h.Inv) : (h.adjustSendWindow q).Inv := by
  unfold InboxHeap.adjustSendWindow
  extract_lets p acked
  refine hi.derefDelete ?_ fun el hel => (List.dropWhile_sublist acked).subset hel
  rw [← List.append_assoc, List.takeWhile_append_dropWhile]

theorem Inv.ackPeer (hi : h.Inv) (destSeqno : ℕ) : (h.ackPeer q destSeqno).Inv := by
  unfold InboxHeap.ackPeer
  extract_lets p h'
  have hset : h'.Inv := hi.setPeer rfl rfl rfl
  split
  · split
    · exact hset.adjustSendWindow
    · exact hset
  · exact hi

theorem Inv.resetPeer (hi : h.Inv) : (h.resetPeer q).Inv := by
  refine hi.derefDelete ?_ fun el hel => by cases hel
  rw [List.append_nil, List.append_nil, List.append_nil, List.append_assoc]

theorem Inv.reassignPeer (hi : h.Inv) (addr : List UInt8) : (h.reassignPeer q addr).Inv := by
  unfold InboxHeap.reassignPeer
  split
  · exact hi.resetPeer.setPeer rfl rfl rfl
  · exact hi

theorem Inv.call (hi : h.Inv) (c : Call) : (h.call c).Inv := by
  cases c with
  | post q msg => exact hi.foldl_postPkt _
  | postFrag q msg trail => exact hi.foldl_postPkt _
  | reset q => exact hi.resetPeer
  | reassign q addr => exact hi.reassignPeer addr

/-! ### Fragments -/

theorem live_dispatchFragMsg (h : InboxHeap) (q len : ℕ) :
    (h.dispatchFragMsg q len).live q =
      (h.out.filter (fun el => el.peer = q) ++ ((h.peer q).out ++ (h.peer q).inList)).map
        WinElem.cell ++ [(h.store.alloc wbufSize q (fragLen (h.peer q).fragList + len)).2] := by
  unfold live
  rw [elems_eq (h := h.dispatchFragMsg q len) rfl (Function.update_self _ _ _), List.append_nil]
  congr 1
  exact if_pos rfl

/-- The windows of the fragments stay in use, once more said of the state that follows. -/
theorem fragsKept_iff (hi : h.Inv) {len : ℕ} :
    h.FragsKept q len ↔ ∀ el ∈ (h.peer q).fragList,
      0 < held (h.store.alloc wbufSize q (fragLen (h.peer q).fragList + len)).1
        (h.dispatchFragMsg q len).live q el.cell.window := by
  refine forall₂_congr fun el hel => ?_
  have hmem : el.cell ∈ h.live q := by
    refine List.mem_append_left _ (List.mem_map_of_mem ?_)
    exact List.mem_append_right _ (List.mem_append_right _ (List.mem_append_right _ hel))
  have hcur := hi.sound.current_alloc wbufSize q (fragLen (h.peer q).fragList + len)
  rw [held_pos_iff, live_dispatchFragMsg, HasRoom, ← hi.sound.current_alloc_iff hmem wbufSize]
  constructor
  · rintro (hroom | ⟨o, ho, heq⟩)
    · exact Or.inl hroom
    · exact Or.inr ⟨o.cell, List.mem_append_left _ (List.mem_map_of_mem ho), heq⟩
  · rintro (hroom | ⟨c, hc, heq⟩)
    · exact Or.inl hroom
    · rcases List.mem_append.1 hc with hc | hc
      · obtain ⟨o, ho, rfl⟩ := List.mem_map.1 hc
        exact Or.inr ⟨o, ho, heq⟩
      · -- the buffer is in the current window
        rw [List.mem_singleton.1 hc] at heq
        exact Or.inl (heq ▸ hcur)

/-- Before the fragments are given up, they are in use besides what is left and the
buffer. -/
theorem sound_addCells_frag (hi : h.Inv) (hctl : ∀ k, h.ctl.cells k = []) (len : ℕ) :
    Sound (h.store.alloc wbufSize q (fragLen (h.peer q).fragList + len)).1
      (addCells (h.dispatchFragMsg q len).live q ((h.peer q).fragList.map WinElem.cell)) := by
  refine (hi.sound.alloc wbufSize q _).perm fun k => ?_
  unfold addCells addCell
  by_cases hk : k = q
  · subst hk
    rw [Function.update_self, Function.update_self, live_dispatchFragMsg]
    unfold live elems
    rw [hctl]
    refine List.perm_iff_count.2 fun c => ?_
    simp only [List.map_append, List.count_append, List.count_cons, List.count_nil]
    omega
  · rw [Function.update_of_ne hk, Function.update_of_ne hk]
    refine List.Perm.of_eq (live_congr rfl (Function.update_of_ne hk _ _) ?_)
    rw [hctl]
    exact if_neg (Ne.symm hk)

theorem Inv.dispatchFragMsg (hi : h.Inv) (hctl : ∀ k, h.ctl.cells k = []) (len : ℕ) :
    (h.dispatchFragMsg q len).Inv := by
  have hsound := (sound_addCells_frag (q := q) hi hctl len).foldl_deref
  rw [List.foldl_map] at hsound
  exact ⟨hsound, owned_setPeer (h := h) hi.owned (hi.owned q)⟩

/-- No window is left behind if those of the fragments are kept. -/
theorem used_dispatchFragMsg (hi : h.Inv) (hused : Used h.store) (hctl : ∀ k, h.ctl.cells k = [])
    {len : ℕ} (hkept : h.FragsKept q len) : Used (h.dispatchFragMsg q len).store := by
  have halloc := hused.alloc wbufSize q (fragLen (h.peer q).fragList + len)
  have hfold := halloc.foldl_deref (sound_addCells_frag (q := q) hi hctl len) (by
    intro c hc
    obtain ⟨el, hel, rfl⟩ := List.mem_map.1 hc
    exact (fragsKept_iff hi).1 hkept el hel)
  rw [List.foldl_map] at hfold
  exact hfold

theorem fragsKept_of_counted (hi : h.Inv) (hctl : ∀ k, h.ctl.cells k = []) {len : ℕ}
    (hc : (h.dispatchFragMsg q len).Counted) : h.FragsKept q len := by
  refine (fragsKept_iff hi).2 fun el hel => ?_
  have hadd := sound_addCells_frag (q := q) hi hctl len
  have hmem : el.cell ∈ addCells (h.dispatchFragMsg q len).live q
      ((h.peer q).fragList.map WinElem.cell) q := by
    rw [addCells, Function.update_self]
    exact List.mem_append_left _ (List.mem_map_of_mem hel)
  obtain ⟨win, hwin, howner, -⟩ := hadd.cell hmem
  have hthere := foldl_deref_owner ((h.peer q).fragList.map WinElem.cell)
    ⟨win, hwin, howner⟩
  have hcur := foldl_deref_current ((h.peer q).fragList.map WinElem.cell)
    (h.store.alloc wbufSize q (fragLen (h.peer q).fragList + len)).1
  rw [List.foldl_map] at hthere hcur
  have hpos := (hc.freed q el.cell.window).1 hthere
  unfold held at hpos ⊢
  rw [← hcur]
  exact hpos

/-! ### Receiving -/

theorem ctl_ackPeer (h : InboxHeap) (q destSeqno : ℕ) : (h.ackPeer q destSeqno).ctl = h.ctl := by
  unfold InboxHeap.ackPeer
  extract_lets p h'
  split
  · split
    · rfl
    · rfl
  · rfl

theorem Inv.process (hi : h.Inv) (hctl : ∀ k, h.ctl.cells k = []) (pkt : InboxPkt) :
    (h.process q pkt).Inv := by
  refine (hi.ackPeer pkt.destSeqno).setCtl fun k => ?_
  rw [ctl_ackPeer, hctl]
  split
  · rfl
  · rfl

/-- A packet is made, and a list of the peer has it. -/
theorem Inv.pushList (hi : h.Inv) {pkt : InboxPkt} {p : WinPeer}
    (hout : p.out = (h.peer q).out)
    (hp : (p.inList ++ p.fragList).Perm
      ((h.allocWindow q pkt).2 :: ((h.peer q).inList ++ (h.peer q).fragList))) :
    ((h.allocWindow q pkt).1.setPeer q p).Inv := by
  refine ⟨sound_of_alloc (q := q) hi.sound rfl ?_ ?_, owned_setPeer (h := h) hi.owned ?_⟩
  · unfold live
    rw [elems_eq (h := (h.allocWindow q pkt).1.setPeer q p) rfl (peer_setPeer_self _ _ _), elems,
      hout, ← List.cons_append]
    refine List.Perm.append_right _ ?_
    have hlists := ((hp.append_left (h.peer q).out).append_left
      (h.out.filter fun el => el.peer = q)).map WinElem.cell
    refine hlists.trans (List.perm_iff_count.2 fun c => ?_)
    simp only [List.map_append, List.map_cons, List.count_append, List.count_cons]
    show _ + (_ + (_ + _ + if (h.store.alloc wbufSize q _).2 == c then 1 else 0)) = _
    omega
  · intro k hk
    exact live_congr rfl (Function.update_of_ne hk _ _) rfl
  · rw [hout]
    exact hi.owned q

theorem Inv.dispatchMsg (hi : h.Inv) (hctl : ∀ k, h.ctl.cells k = []) (pkt : InboxPkt) :
    (h.dispatchMsg q pkt).Inv := by
  have hnone : ∀ {g : InboxHeap} {c : Ctl}, g.Inv → g.ctl = h.ctl → (∀ k, c.cells k = []) →
      Inv { g with ctl := c } := by
    intro g c hg hgc hc
    refine hg.setCtl fun k => ?_
    rw [hgc, hctl, hc]
  have hset : (h.setPeer q { h.peer q with inSeqno := pkt.srcSeqno }).Inv := hi.setPeer rfl rfl rfl
  unfold InboxHeap.dispatchMsg
  extract_lets p
  split
  · split
    · exact hnone hset rfl fun _ => rfl
    · split
      · exact hset.dispatchFragMsg hctl _
      · refine hnone (hi.pushList rfl ?_) rfl fun _ => rfl
        rw [← List.append_assoc]
        exact List.perm_append_singleton _ _
  · split
    · split
      · exact hnone hi rfl fun _ => rfl
      · refine hnone (hi.pushList rfl ?_) rfl fun _ => rfl
        exact (insertIn_perm _ _).append_right _
    · exact hnone hi rfl fun _ => rfl

/-- The head of the recv window comes to the fragments. -/
theorem Inv.popFrag (hi : h.Inv) {el : WinElem} {rest : List WinElem}
    (hin : (h.peer q).inList = el :: rest) : (h.popFrag q el rest).Inv := by
  refine ⟨sound_of_perm hi.sound rfl (live_setPeer h ?_), owned_setPeer hi.owned (hi.owned q)⟩
  refine List.Perm.append_left _ ?_
  rw [hin, ← List.append_assoc]
  exact List.perm_append_singleton _ _

theorem Inv.dispatchIn (hi : h.Inv) (hctl : h.ctl = .loop q) :
    (h.dispatchIn q (h.peer q).inList).Inv := by
  have hcells : ∀ k, h.ctl.cells k = [] := fun k => by rw [hctl]; rfl
  have hidle : Inv { h with ctl := .idle } := hi.setCtl fun k => (hcells k).symm
  cases hin : (h.peer q).inList with
  | nil => exact hidle
  | cons el rest =>
    show (ite _ _ _ : InboxHeap).Inv
    split
    · split
      · -- the packet leaves the list and is dispatched
        refine ⟨sound_of_perm hi.sound rfl fun k => ?_, owned_setPeer hi.owned (hi.owned q)⟩
        unfold live
        by_cases hk : k = q
        · subst hk
          rw [elems_eq (h := { h.popIn k el rest with ctl := .elem k el }) (rfl : _ = h.out)
            (Function.update_self _ _ _), elems, hin, hctl]
          refine List.perm_iff_count.2 fun c => ?_
          have hcell : Ctl.cells k (.elem k el) = [el.cell] := if_pos rfl
          have hloop : Ctl.cells k (.loop k) = [] := rfl
          simp only [List.map_append, List.map_cons, List.count_append, List.count_cons, hcell,
            hloop, List.count_nil, List.cons_append]
          omega
        · have hcell : Ctl.cells k (.elem q el) = [] := if_neg (Ne.symm hk)
          rw [elems_eq (h := { h.popIn q el rest with ctl := .elem q el }) (rfl : _ = h.out)
            (Function.update_of_ne hk _ _), hcell, hcells, elems]
      · split
        · exact (hi.popFrag hin).dispatchFragMsg hcells 0
        · exact hi.popFrag hin
    · exact hidle

theorem Inv.next (hi : h.Inv) : (h.next h.ctl).Inv := by
  cases hctl : h.ctl with
  | pkt q pkt => exact hi.dispatchMsg (fun k => by rw [hctl]; rfl) pkt
  | loop q => exact hi.dispatchIn hctl
  | idle => exact hi
  | direct q => exact hi
  | elem q el => exact hi
  | frag q buf => exact hi

theorem used_next (hi : h.Inv) (hused : Used h.store) (hkept : h.NextKept h.ctl) :
    Used (h.next h.ctl).store := by
  cases hctl : h.ctl with
  | pkt q pkt =>
    have hcells : ∀ k, h.ctl.cells k = [] := fun k => by rw [hctl]; rfl
    rw [hctl] at hkept
    show Used (h.dispatchMsg q pkt).store
    unfold InboxHeap.dispatchMsg
    extract_lets p
    split
    · next hnext =>
      split
      · exact hused
      · next hfrag =>
        split
        · next hrollup =>
          have hset : (h.setPeer q { p with inSeqno := pkt.srcSeqno }).Inv := hi.setPeer rfl rfl rfl
          have hfrags := hkept hnext (by simpa using hfrag) hrollup
          refine used_dispatchFragMsg hset hused hcells ?_
          unfold FragsKept at hfrags ⊢
          rw [peer_setPeer_self]
          exact hfrags
        · exact hused.alloc _ _ _
    · split
      · split
        · exact hused
        · exact hused.alloc _ _ _
      · exact hused
  | loop q =>
    have hcells : ∀ k, h.ctl.cells k = [] := fun k => by rw [hctl]; rfl
    rw [hctl] at hkept
    unfold NextKept at hkept
    dsimp only at hkept
    show Used (h.dispatchIn q (h.peer q).inList).store
    cases hin : (h.peer q).inList with
    | nil => exact hused
    | cons el rest =>
      rw [hin] at hkept
      show Used (ite _ _ _ : InboxHeap).store
      split
      · next hnext =>
        split
        · exact hused
        · next hfrag =>
          split
          · next hrollup =>
            exact used_dispatchFragMsg (hi.popFrag hin) hused hcells
              (hkept hnext (by simpa using hfrag) hrollup)
          · exact hused
      · exact hused
  | idle => exact hused
  | direct q => exact hused
  | elem q el => exact hused
  | frag q buf => exact hused

theorem nextKept_of_counted (hi : h.Inv) (hc : (h.next h.ctl).Counted) : h.NextKept h.ctl := by
  cases hctl : h.ctl with
  | pkt q pkt =>
    intro hnext hfrag hrollup
    have hset : (h.setPeer q { h.peer q with inSeqno := pkt.srcSeqno }).Inv :=
      hi.setPeer rfl rfl rfl
    rw [hctl, InboxHeap.next, InboxHeap.dispatchMsg, if_pos hnext,
      if_neg (by rw [hfrag]; decide), if_pos hrollup] at hc
    have hkept := fragsKept_of_counted hset
      (fun k => show h.ctl.cells k = [] by rw [hctl]; rfl) hc
    unfold FragsKept at hkept ⊢
    rw [peer_setPeer_self] at hkept
    exact hkept
  | loop q =>
    show h.LoopKept q (h.peer q).inList
    rw [hctl] at hc
    have hloop : (h.dispatchIn q (h.peer q).inList).Counted := hc
    cases hin : (h.peer q).inList with
    | nil => trivial
    | cons el rest =>
      intro hnext hfrag hrollup
      rw [hin, InboxHeap.dispatchIn, if_pos hnext, if_neg (by rw [hfrag]; decide),
        if_pos hrollup] at hloop
      exact fragsKept_of_counted (hi.popFrag hin)
        (fun k => show h.ctl.cells k = [] by rw [hctl]; rfl) hloop
  | idle => trivial
  | direct q => trivial
  | elem q el => trivial
  | frag q buf => trivial

/-! ### The return of `dispatch_msg2` -/

/-- What is dispatched is in use besides the lists. -/
theorem sound_addCell_ctl (hi : h.Inv) {c : Cell}
    (hself : h.ctl.cells q = [c]) (hne : ∀ k, k ≠ q → h.ctl.cells k = []) :
    Sound h.store (addCell (InboxHeap.live { h with ctl := .loop q }) q c) := by
  refine hi.sound.perm fun k => ?_
  unfold addCell live
  by_cases hk : k = q
  · subst hk
    rw [Function.update_self, hself]
    refine List.Perm.trans ?_ (List.perm_append_singleton _ _).symm
    exact (List.Perm.of_eq (List.append_nil _)).cons c
  · rw [Function.update_of_ne hk, hne k hk]
    exact List.Perm.refl _

theorem sound_addCell_buf (hi : h.Inv) {buf : Cell} (hctl : h.ctl = .frag q buf) :
    Sound h.store (addCell (InboxHeap.live { h with ctl := .loop q }) q buf) := by
  refine sound_addCell_ctl hi ?_ fun k hk => ?_
  · rw [hctl]
    exact if_pos rfl
  · rw [hctl]
    exact if_neg (Ne.symm hk)

theorem Inv.ret (hi : h.Inv) (hkept : h.RetKept h.ctl) : (h.ret h.ctl).Inv := by
  cases hctl : h.ctl with
  | direct q => exact hi.setCtl fun k => by rw [hctl]; rfl
  | elem q el =>
    have hadd : Sound h.store (addCell (InboxHeap.live { h with ctl := .loop q }) q el.cell) := by
      refine sound_addCell_ctl hi ?_ fun k hk => ?_
      · rw [hctl]
        exact if_pos rfl
      · rw [hctl]
        exact if_neg (Ne.symm hk)
    exact ⟨hadd.derefDelete, hi.owned⟩
  | frag q buf =>
    rw [hctl] at hkept
    have hcur : h.store.current q = some buf.window := hkept
    have hadd := sound_addCell_buf hi hctl
    have hsound := hadd.deref
    refine ⟨?_, ?_⟩
    · unfold InboxHeap.ret derefWindow
      dsimp only
      rw [hcur]
      exact hsound
    · unfold InboxHeap.ret derefWindow
      dsimp only
      rw [hcur]
      exact hi.owned
  | idle => exact hi
  | pkt q pkt => exact hi
  | loop q => exact hi

theorem used_ret (hi : h.Inv) (hused : Used h.store) (hkept : h.RetKept h.ctl) :
    Used (h.ret h.ctl).store := by
  cases hctl : h.ctl with
  | elem q el => exact hused.derefDelete _
  | frag q buf =>
    have hret := hi.ret hkept
    rw [hctl] at hkept hret
    have hcur : h.store.current q = some buf.window := hkept
    have hstore : (h.ret (.frag q buf)).store = h.store.deref buf.window := by
      unfold InboxHeap.ret derefWindow
      dsimp only
      rw [hcur]
    intro w win hwin
    by_cases hw : w = buf.window
    · -- the window of the buffer is still the current one
      subst hw
      have hrefs := hret.sound.refs hwin
      obtain ⟨win', hwin', howner⟩ := hret.sound.current (k := q) (by rw [hstore]; exact hcur)
      obtain rfl : win' = win := Option.some.inj (hwin'.symm.trans hwin)
      rw [hrefs, howner]
      refine held_pos_iff.2 (Or.inl ?_)
      rw [hstore]
      exact hcur
    · rw [hstore] at hwin
      exact hused w win ((Function.update_of_ne hw _ _).symm.trans hwin)
  | direct q => exact hused
  | idle => exact hused
  | pkt q pkt => exact hused
  | loop q => exact hused

theorem retKept_of_counted (hi : h.Inv) (hc : (h.ret h.ctl).Counted) : h.RetKept h.ctl := by
  cases hctl : h.ctl with
  | frag q buf =>
    show h.store.current q = some buf.window
    by_contra hne
    obtain ⟨win, hwin, howner, hrefs⟩ := (sound_addCell_buf hi hctl).cell_addCell
    rw [hctl] at hc
    -- another window is given up: this one has its buffer still counted
    have hsame : (h.derefWindow q).store.windows buf.window = some win ∧
        (h.derefWindow q).store.current = h.store.current ∧
        InboxHeap.live { h.derefWindow q with ctl := .loop q } =
          InboxHeap.live { h with ctl := .loop q } := by
      unfold derefWindow
      cases hcur : h.store.current q with
      | none => exact ⟨hwin, rfl, rfl⟩
      | some w =>
        have hw : buf.window ≠ w := fun heq => hne (hcur.trans (congrArg some heq.symm))
        exact ⟨(Function.update_of_ne hw _ _).trans hwin, rfl, rfl⟩
    obtain ⟨hwindow, hcurrent, hlive⟩ := hsame
    have hcount := hc.refs buf.window win hwindow
    have hheld : held (h.derefWindow q).store
        (InboxHeap.live { h.derefWindow q with ctl := .loop q }) q buf.window =
        held h.store (InboxHeap.live { h with ctl := .loop q }) q buf.window := by
      unfold held
      rw [hcurrent, hlive]
    have hcount' : win.refs = held (h.derefWindow q).store
        (InboxHeap.live { h.derefWindow q with ctl := .loop q }) q buf.window := howner ▸ hcount
    rw [hheld, hrefs] at hcount'
    exact absurd hcount' (Nat.succ_ne_self _)
  | idle => trivial
  | pkt q pkt => trivial
  | loop q => trivial
  | direct q => trivial
  | elem q el => trivial

/-! ## Windows that are left behind -/

theorem used_derefDelete (hused : Used h.store) (els : List WinElem) :
    Used (h.derefDelete els).store :=
  List.foldlRecOn els (fun a el => Store.derefDelete a el.cell.window) (motive := Used) hused
    fun _ ha el _ => ha.derefDelete el.cell.window

theorem used_foldl_postPkt (hused : Used h.store) (q : ℕ) (frags : List (InboxCode × List UInt8)) :
    Used (frags.foldl (InboxHeap.postPkt q) h).store :=
  List.foldlRecOn frags (InboxHeap.postPkt q) (motive := fun g => Used g.store) hused
    fun _ hg _ _ => hg.alloc _ _ _

theorem used_call (hused : Used h.store) (c : Call) : Used (h.call c).store := by
  cases c with
  | post q msg => exact used_foldl_postPkt hused q _
  | postFrag q msg trail => exact used_foldl_postPkt hused q _
  | reset q => exact used_derefDelete hused _
  | reassign q addr =>
    show Used (h.reassignPeer q addr).store
    unfold InboxHeap.reassignPeer
    split
    · exact used_derefDelete hused _
    · exact hused

theorem used_ackPeer (hused : Used h.store) (q destSeqno : ℕ) :
    Used (h.ackPeer q destSeqno).store := by
  unfold InboxHeap.ackPeer
  extract_lets p h'
  split
  · split
    · exact used_derefDelete (h := h') hused _
    · exact hused
  · exact hused

theorem used_checkWindow (hused : Used h.store) (q : ℕ) : Used (h.checkWindow q).store := by
  unfold InboxHeap.checkWindow
  extract_lets p unacked
  split
  · exact hused
  · exact hused

theorem used_writeLoop (hused : Used h.store) (n : ℕ) : Used (writeLoop n h).store := by
  induction n generalizing h with
  | zero => exact hused
  | succ n ih =>
    unfold InboxHeap.writeLoop
    split
    · exact hused
    · next el rest _ =>
      refine ih ?_
      unfold InboxHeap.writeElem
      extract_lets p h'
      show Used h'.store
      simp only [h']
      split
      · exact hused
      · exact used_derefDelete (h := { h with out := rest }) hused [el]

theorem used_ite {b : Bool} {g : InboxHeap} (hused : Used h.store)
    (hg : b = true → Used g.store) : Used (if b then g else h).store := by
  split
  · next hb => exact hg hb
  · exact hused

/-! ## Runs -/

theorem cells_of_isIdle (hctl : h.ctl.isIdle = true) (k : ℕ) : h.ctl.cells k = [] := by
  cases hc : h.ctl with
  | idle => rfl
  | pkt q pkt => rw [hc] at hctl; cases hctl
  | loop q => rw [hc] at hctl; cases hctl
  | direct q => rw [hc] at hctl; cases hctl
  | elem q el => rw [hc] at hctl; cases hctl
  | frag q buf => rw [hc] at hctl; cases hctl

theorem inv_ite {b : Bool} {g : InboxHeap} (hi : h.Inv) (hg : b = true → g.Inv) :
    (if b then g else h).Inv := by
  split
  · next hb => exact hg hb
  · exact hi

/-- When a message that was put together is dispatched, its window is still current. -/
def RetsKept (h : InboxHeap) : Event → Prop
  | .ret => h.RetKept h.ctl
  | _ => True

instance : ∀ c, Decidable (h.RetKept c)
  | .frag q buf => inferInstanceAs (Decidable (h.store.current q = some buf.window))
  | .idle | .pkt _ _ | .loop _ | .direct _ | .elem _ _ => instDecidableTrue

instance RetsKept.decidable (h : InboxHeap) : ∀ e, Decidable (h.RetsKept e)
  | .ret => inferInstanceAs (Decidable (h.RetKept h.ctl))
  | .call _ | .recv _ _ | .next | .write | .repair _ | .ack _ _ => instDecidableTrue

theorem Kept.retsKept {e : Event} (hkept : h.Kept e) : h.RetsKept e := by
  cases e with
  | ret => exact hkept
  | _ => trivial

theorem inv_step (hi : h.Inv) (e : Event) (hkept : h.RetsKept e) : (h.step e).Inv := by
  cases e with
  | call c => exact inv_ite hi fun _ => hi.call c
  | recv q pkt => exact inv_ite hi fun hidle => hi.process (cells_of_isIdle hidle) pkt
  | next => exact hi.next
  | ret => exact hi.ret hkept
  | write => exact inv_ite hi fun _ => hi.write
  | repair q => exact inv_ite hi fun _ => hi.checkWindow
  | ack q type => exact inv_ite hi fun _ => hi.sendAck type

theorem used_step (hi : h.Inv) (hused : Used h.store) (e : Event) (hkept : h.Kept e) :
    Used (h.step e).store := by
  cases e with
  | call c => exact used_ite hused fun _ => used_call hused c
  | recv q pkt => exact used_ite hused fun _ => used_ackPeer hused q pkt.destSeqno
  | next => exact used_next hi hused hkept
  | ret => exact used_ret hi hused hkept
  | write => exact used_ite hused fun _ => used_writeLoop hused _
  | repair q => exact used_ite hused fun _ => used_checkWindow hused q
  | ack q type => exact used_ite hused fun _ => hused.alloc _ _ _

theorem kept_of_counted (hi : h.Inv) (e : Event) (hc : (h.step e).Counted) : h.Kept e := by
  cases e with
  | next => exact nextKept_of_counted hi hc
  | ret => exact retKept_of_counted hi hc
  | call c => trivial
  | recv q pkt => trivial
  | write => trivial
  | repair q => trivial
  | ack q type => trivial

/-- **The windows are counted right in every state of a run if and only if
`dispatch_frag_msg` never gives up the last reference to a window, and no window but the
one of its buffer is current when it returns.** -/
theorem counted_iff_kept (mtu : { mtu : UInt32 // mtu ≠ 48 }) (addr : ℕ → List UInt8)
    (es : List Event) :
    (∀ k, (run (start mtu addr) (es.take k)).Counted) ↔
      Run.AllOk step Kept (start mtu addr) es := by
  unfold run
  exact (Run.allOk_iff_good (fun (g : InboxHeap) (hi : g.Inv ∧ Used g.store) => hi.1.counted hi.2)
    (fun _ e hi hkept => ⟨inv_step hi.1 e hkept.retsKept, used_step hi.1 hi.2 e hkept⟩)
    (fun _ e hi hc => kept_of_counted hi.1 e hc)
    ⟨inv_start mtu addr, fun _ _ hw => (by cases hw)⟩ es).symm

/-- A message in a fragment and a rollup of as many bytes. -/
def rollup (msg : List UInt8) : List Event :=
  [.recv 0 ⟨InboxCode.message.setFragment, 1, 0, msg⟩, .next, .next,
    .recv 0 ⟨InboxCode.message.setRollup, 2, 0, msg⟩, .next]

/-- The buffer of 18000 bytes is in a new window, and the one of the fragment is not freed. -/
theorem windows_rollup (msg : List UInt8) (hlen : msg.length = 9000) :
    (run (start ⟨1500, by decide⟩ fun _ => []) (rollup msg)).store.windows 0 =
      some ⟨0, 2048, 1131, 917, 0⟩ := by
  simp [rollup, run, step, start, Ctl.isIdle, InboxHeap.process, InboxHeap.ackPeer,
    InboxHeap.next, InboxHeap.dispatchMsg, isNext, pushFrag, allocWindow, InboxHeap.dispatchIn,
    InboxHeap.dispatchFragMsg, InboxHeap.setPeer, fragLen, hlen, seqnoCmp, Serial.cmp,
    InboxCode.isData, InboxCode.message, InboxCode.setFragment, InboxCode.setRollup, Store.alloc,
    Store.prepare, Store.take, Store.newWindow, Store.setWindow, Store.deref, Store.derefDelete,
    Window.bump, Window.fits, wbufSize, sizeofPktElem, wordsOf]

theorem rollup_not_counted :
    ¬ ∀ k, (run (start ⟨1500, by decide⟩ fun _ => [])
      ((rollup (List.replicate 9000 0)).take k)).Counted := by
  intro hall
  have hc : (run (start ⟨1500, by decide⟩ fun _ => [])
      (rollup (List.replicate 9000 0))).Counted := hall 5
  have hwindow := windows_rollup (List.replicate 9000 0) List.length_replicate
  have hrefs := hc.refs 0 _ hwindow
  have hpos := (hc.freed 0 0).1 ⟨_, hwindow, rfl⟩
  rw [← hrefs] at hpos
  exact absurd hpos (Nat.lt_irrefl 0)

end InboxHeap

end Raims
