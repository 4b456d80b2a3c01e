import Raims.Inbox.InboxView
import Raims.Inbox.WindowRefs
import Raims.Lib.CellLog

/-!
# What is in the windows of the inbox transport

The lists of the transport point to packets that are in windows. What such a packet is,
is read from its place when it is needed. This is the packet that was put there, as long
as the window is there and nothing that was made later overlaps it; else it may be
anything. So a packet stays what it is while the windows are counted right, and for this
the fragments do not matter: their windows may be left behind, but are never freed or
started again too early.
-/

namespace Raims

open RefWindow

/-- The transport with the memory of its windows. -/
structure InboxMem where
  heap : InboxHeap
  mem : List (Write InboxPkt)
  /-- what is read where memory is freed, or overwritten in part -/
  junk : List (Write InboxPkt) → Cell → InboxPkt
  /-- the messages that were handed to `dispatch_msg2`, and the peers they came from -/
  dispatched : List (ℕ × List UInt8)

/-- The element with what is at its place. -/
def WinElem.reload (load : Cell → InboxPkt) (el : WinElem) : WinElem :=
  { el with pkt := load el.cell }

def WinPeer.reload (load : Cell → InboxPkt) (p : WinPeer) : WinPeer :=
  { p with
    out := p.out.map (WinElem.reload load)
    inList := p.inList.map (WinElem.reload load)
    fragList := p.fragList.map (WinElem.reload load) }

def InboxHeap.reload (h : InboxHeap) (load : Cell → InboxPkt) : InboxHeap :=
  { h with
    peer := fun q => (h.peer q).reload load
    out := h.out.map (WinElem.reload load) }

namespace InboxMem

variable (m : InboxMem)

def start (h : InboxHeap) (junk : List (Write InboxPkt) → Cell → InboxPkt) : InboxMem :=
  ⟨h, [], junk, []⟩

/-- Memory that reads as an empty packet. -/
def blank : List (Write InboxPkt) → Cell → InboxPkt := fun _ _ => ⟨.message, 0, 0, []⟩

/-- The packet at a place. -/
def load (c : Cell) : InboxPkt :=
  match m.heap.store.windows c.window with
  | some _ => (lastWrite m.mem c).getD (m.junk m.mem c)
  | none => m.junk m.mem c

/-- The transport with the packets that are in its memory. -/
def view : InboxHeap := m.heap.reload m.load

/-! ## What a step writes and hands on -/

/-- A packet is put to its place. -/
def put (el : WinElem) : Write InboxPkt := ⟨el.cell, some el.pkt⟩

/-- `copy_pkt_to_window`, or the message that `dispatch_frag_msg` puts together. -/
def copied (h : InboxHeap) : Ctl → Ctl → List (Write InboxPkt)
  | .pkt q pkt, .loop _ => [put (h.allocWindow q pkt).2]
  | .pkt _ _, .frag _ buf => [⟨buf, none⟩]
  | .loop _, .frag _ buf => [⟨buf, none⟩]
  | _, _ => []

/-- The writes of a step, the last one first: packets that come to the send queue are
made, or are changed to be sent again. -/
def written (h h' : InboxHeap) : List (Write InboxPkt) :=
  ((h'.out.drop h.out.length).map put).reverse ++ copied h h.ctl h'.ctl

/-- The bytes of the fragments, one after the other. -/
def gather (load : Cell → InboxPkt) (els : List WinElem) : List UInt8 :=
  els.flatMap fun el => (load el.cell).msg

/-- The message that a step hands to `dispatch_msg2`; `load` reads the fragments when
they are copied. -/
def handed (load : Cell → InboxPkt) (h : InboxHeap) : Ctl → Ctl → List (ℕ × List UInt8)
  | .pkt _ pkt, .direct q => [(q, pkt.msg)]
  | .pkt _ pkt, .frag q _ => [(q, gather load (h.peer q).fragList ++ pkt.msg)]
  | .loop _, .elem q el => [(q, el.pkt.msg)]
  | .loop _, .frag q _ =>
    [(q, gather load ((h.peer q).fragList ++ (h.peer q).inList.take 1))]
  | _, _ => []

def step (e : InboxHeap.Event) : InboxMem :=
  let h := m.view
  let h' := h.step e
  let m' := { m with heap := h', mem := written h h' ++ m.mem }
  { m' with dispatched := m.dispatched ++ handed m'.load h h.ctl h'.ctl }

/-- The messages of a peer. -/
def dispatchedOf (q : ℕ) : List (List UInt8) :=
  (m.dispatched.filter fun d => d.1 = q).map Prod.snd

/-! ## Packets that stay what they are -/

/-- Every packet in a list is what was put to its place last. -/
structure Stored (h : InboxHeap) (mem : List (Write InboxPkt)) : Prop where
  words : ∀ k, ∀ el ∈ h.elems k, 0 < el.cell.words
  pkt : ∀ k, ∀ el ∈ h.elems k, lastWrite mem el.cell = some el.pkt

section

variable {h h' : InboxHeap} {mem : List (Write InboxPkt)} {q : ℕ}

/-- No packet is new. -/
theorem Stored.subset (hs : Stored h mem) (hsub : ∀ k, ∀ el ∈ h'.elems k, el ∈ h.elems k) :
    Stored h' mem :=
  ⟨fun k el hel => hs.words k el (hsub k el hel), fun k el hel => hs.pkt k el (hsub k el hel)⟩

theorem apart_elems (hi : h.Inv) (q : ℕ) : (h.elems q).Pairwise fun x y => Apart x.cell y.cell := by
  have hpair := (List.pairwise_append.1 (hi.sound.apart q)).1
  exact List.pairwise_map.1 hpair

/-- Memory of two peers is in two windows. -/
theorem apart_of_ne (hi : h.Inv) {k : ℕ} (hne : k ≠ q) {c d : Cell} (hc : c ∈ h.live q)
    (hd : d ∈ h.live k) : Apart c d := by
  refine apart_of_window_ne fun heq => ?_
  obtain ⟨win, hwin, howner, -⟩ := hi.sound.cell hc
  obtain ⟨win', hwin', howner', -⟩ := hi.sound.cell hd
  rw [heq, hwin'] at hwin
  obtain rfl := Option.some.inj hwin
  exact hne (howner'.symm.trans howner)

theorem mem_live {k : ℕ} {el : WinElem} (hel : el ∈ h.elems k) : el.cell ∈ h.live k :=
  List.mem_append_left _ (List.mem_map_of_mem hel)

/-- Packets of one peer are put to places of their own. -/
theorem Stored.put (hs : Stored h mem) (hi' : h'.Inv) (new old : List WinElem)
    (hself : (h'.elems q).Perm (new ++ old)) (hold : ∀ el ∈ old, el ∈ h.elems q)
    (hne : ∀ k, k ≠ q → ∀ el ∈ h'.elems k, el ∈ h.elems k)
    (hwords : ∀ el ∈ new, 0 < el.cell.words) :
    Stored h' ((new.map InboxMem.put).reverse ++ mem) := by
  have hpair : (new ++ old).Pairwise fun x y => Apart x.cell y.cell :=
    (hself.pairwise_iff fun h => h.symm).1 (apart_elems hi' q)
  obtain ⟨hnew, -, hcross⟩ := List.pairwise_append.1 hpair
  have hputs : (new.map InboxMem.put).reverse.Pairwise fun x y => Apart x.cell y.cell := by
    rw [List.pairwise_reverse, List.pairwise_map]
    exact hnew.imp fun h => h.symm
  have happ : ∀ {k el}, el ∈ h'.elems k → (k = q → el ∈ old) →
      ∀ x ∈ (new.map InboxMem.put).reverse, Apart x.cell el.cell := by
    intro k el hel hq x hx
    obtain ⟨y, hy, rfl⟩ := List.mem_map.1 (List.mem_reverse.1 hx)
    by_cases hk : k = q
    · exact hcross y hy el (hq hk)
    · exact apart_of_ne hi' hk
        (mem_live (hself.mem_iff.2 (List.mem_append_left _ hy))) (mem_live hel)
  refine ⟨fun k el hel => ?_, fun k el hel => ?_⟩
  · by_cases hk : k = q
    · subst hk
      exact (List.mem_append.1 (hself.mem_iff.1 hel)).elim (hwords el) fun h =>
        hs.words k el (hold el h)
    · exact hs.words k el (hne k hk el hel)
  · by_cases hk : k = q
    · subst hk
      rcases List.mem_append.1 (hself.mem_iff.1 hel) with hmem | hmem
      · exact lastWrite_append_of_mem (x := InboxMem.put el) hputs
          (List.mem_reverse.2 (List.mem_map_of_mem hmem)) (hwords el hmem)
      · rw [lastWrite_append_of_apart (happ hel fun _ => hmem)]
        exact hs.pkt k el (hold el hmem)
    · rw [lastWrite_append_of_apart (happ hel fun h => absurd h hk)]
      exact hs.pkt k el (hne k hk el hel)

/-- The message that is put together overlaps no packet. -/
theorem Stored.buffer (hs : Stored h mem) (hi' : h'.Inv) {buf : Cell}
    (hbuf : buf ∈ h'.ctl.cells q) (hsub : ∀ k, ∀ el ∈ h'.elems k, el ∈ h.elems k) :
    Stored h' (⟨buf, none⟩ :: mem) := by
  have hlive : buf ∈ h'.live q := List.mem_append_right _ hbuf
  refine ⟨(hs.subset hsub).words, fun k el hel => ?_⟩
  rw [lastWrite_cons_of_apart]
  · exact hs.pkt k el (hsub k el hel)
  · by_cases hk : k = q
    · subst hk
      exact ((List.pairwise_append.1 (hi'.sound.apart k)).2.2 el.cell
        (List.mem_map_of_mem hel) buf hbuf).symm
    · exact apart_of_ne hi' hk hlive (mem_live hel)

/-! ### Writes of the events -/

theorem copied_self (h : InboxHeap) (c : Ctl) : copied h c c = [] := by
  cases c with
  | _ => rfl

theorem written_of_out (hout : h'.out = h.out) : written h h' = copied h h.ctl h'.ctl := by
  unfold written
  rw [hout, List.drop_length]
  rfl

theorem written_of_push {new : List WinElem} (hout : h'.out = h.out ++ new)
    (hctl : h'.ctl = h.ctl) : written h h' = (new.map put).reverse := by
  unfold written
  rw [hout, List.drop_left, hctl, copied_self, List.append_nil]

/-- Packets of one peer come to the send queue. -/
theorem Stored.push (hs : Stored h mem) (hi' : h'.Inv) (new : List WinElem)
    (hout : h'.out = h.out ++ new) (hctl : h'.ctl = h.ctl) (hown : ∀ el ∈ new, el.peer = q)
    (hwords : ∀ el ∈ new, 0 < el.cell.words)
    (hlists : ∀ k, ∀ el ∈ (h'.peer k).out ++ ((h'.peer k).inList ++ (h'.peer k).fragList),
      el ∈ h.elems k) : Stored h' (written h h' ++ mem) := by
  have hself : new.filter (fun el => el.peer = q) = new :=
    List.filter_eq_self.2 fun el hel => by simpa using hown el hel
  rw [written_of_push hout hctl]
  refine hs.put (q := q) hi' new (h.out.filter (fun el => el.peer = q) ++
    ((h'.peer q).out ++ ((h'.peer q).inList ++ (h'.peer q).fragList))) ?_ ?_ ?_ hwords
  · unfold InboxHeap.elems
    rw [hout, List.filter_append, hself, List.append_assoc]
    exact List.perm_append_comm_assoc _ _ _
  · intro el hel
    rcases List.mem_append.1 hel with hel | hel
    · exact List.mem_append_left _ hel
    · exact hlists q el hel
  · intro k hk el hel
    have hnil : new.filter (fun el => el.peer = k) = [] :=
      List.filter_eq_nil_iff.2 fun x hx => by simpa [hown x hx] using Ne.symm hk
    unfold InboxHeap.elems at hel
    rw [hout, List.filter_append, hnil, List.append_nil] at hel
    rcases List.mem_append.1 hel with hel | hel
    · exact List.mem_append_left _ hel
    · exact hlists k el hel

theorem mem_elems_lists {k : ℕ} {el : WinElem}
    (hel : el ∈ (h.peer k).out ++ ((h.peer k).inList ++ (h.peer k).fragList)) : el ∈ h.elems k :=
  List.mem_append_right _ hel

theorem stored_postPkts (hs : Stored h mem) (r : ℕ) (pkts : List (InboxCode × List UInt8))
    (hi' : (pkts.foldl (InboxHeap.postPkt r) h).Inv) :
    Stored (pkts.foldl (InboxHeap.postPkt r) h)
      (written h (pkts.foldl (InboxHeap.postPkt r) h) ++ mem) := by
  obtain ⟨new, hnew⟩ := InboxHeap.posted h r pkts
  refine hs.push hi' new hnew.out hnew.ctl hnew.own hnew.words fun k el hel => ?_
  rw [hnew.peer] at hel
  by_cases hk : k = r
  · subst hk
    rw [Function.update_self] at hel
    exact mem_elems_lists hel
  · rw [Function.update_of_ne hk] at hel
    exact mem_elems_lists hel

/-- No packet is new, and none is written. -/
theorem Stored.same (hs : Stored h mem) (hout : h'.out = h.out)
    (hcopied : copied h h.ctl h'.ctl = [])
    (hlists : ∀ k, ∀ el ∈ (h'.peer k).out ++ ((h'.peer k).inList ++ (h'.peer k).fragList),
      el ∈ h.elems k) : Stored h' (written h h' ++ mem) := by
  rw [written_of_out hout, hcopied]
  refine hs.subset fun k el hel => ?_
  unfold InboxHeap.elems at hel
  rw [hout] at hel
  exact (List.mem_append.1 hel).elim (List.mem_append_left _) (hlists k el)

/-- The lists of one peer have no packet that is new. -/
theorem lists_setPeer {p : WinPeer} (hpeer : h'.peer = Function.update h.peer q p)
    (hp : ∀ el ∈ p.out ++ (p.inList ++ p.fragList), el ∈ h.elems q) (k : ℕ) :
    ∀ el ∈ (h'.peer k).out ++ ((h'.peer k).inList ++ (h'.peer k).fragList), el ∈ h.elems k := by
  intro el hel
  rw [hpeer] at hel
  by_cases hk : k = q
  · subst hk
    rw [Function.update_self] at hel
    exact hp el hel
  · rw [Function.update_of_ne hk] at hel
    exact mem_elems_lists hel

theorem stored_resetPeer (hs : Stored h mem) (r : ℕ) :
    Stored (h.resetPeer r) (written h (h.resetPeer r) ++ mem) :=
  hs.same rfl (copied_self h h.ctl) (lists_setPeer (q := r) rfl fun el hel => by cases hel)

theorem stored_reassignPeer (hs : Stored h mem) (r : ℕ) (addr : List UInt8) :
    Stored (h.reassignPeer r addr) (written h (h.reassignPeer r addr) ++ mem) := by
  unfold InboxHeap.reassignPeer
  split
  · refine hs.same rfl (copied_self h h.ctl) (lists_setPeer (q := r)
      (p := ⟨addr, 0, 0, 0, 0, [], [], [], (h.peer r).resets + 1⟩) ?_ fun el hel => by cases hel)
    show Function.update (Function.update h.peer r _) r _ = _
    rw [Function.update_idem]
    unfold InboxHeap.resetPeer
    rw [InboxHeap.peer_setPeer_self]
  · exact hs.same rfl (copied_self h h.ctl) fun k el hel => mem_elems_lists hel

theorem ackPeer_rest (h : InboxHeap) (r destSeqno : ℕ) :
    (h.ackPeer r destSeqno).out = h.out ∧
      ∃ p, (h.ackPeer r destSeqno).peer = Function.update h.peer r p ∧
        (∀ el ∈ p.out, el ∈ (h.peer r).out) ∧ p.inList = (h.peer r).inList ∧
          p.fragList = (h.peer r).fragList := by
  unfold InboxHeap.ackPeer
  extract_lets p h'
  split
  · split
    · refine ⟨rfl, _, Function.update_idem _ _ _, fun el hel => ?_, ?_, ?_⟩
      · have hmem := (List.dropWhile_sublist _).subset hel
        rwa [InboxHeap.peer_setPeer_self] at hmem
      · rw [InboxHeap.peer_setPeer_self]
      · rw [InboxHeap.peer_setPeer_self]
    · exact ⟨rfl, _, rfl, fun _ hel => hel, rfl, rfl⟩
  · exact ⟨rfl, _, (Function.update_eq_self r h.peer).symm, fun _ hel => hel, rfl, rfl⟩

theorem stored_process (hs : Stored h mem) (hidle : h.ctl = .idle) (r : ℕ) (pkt : InboxPkt) :
    Stored (h.process r pkt) (written h (h.process r pkt) ++ mem) := by
  obtain ⟨hout, p, hpeer, hsub, hin, hfrag⟩ := ackPeer_rest h r pkt.destSeqno
  have hcopied : copied h h.ctl (h.process r pkt).ctl = [] := by
    rw [hidle]
    rfl
  have hpeer' : (h.process r pkt).peer = Function.update h.peer r p := hpeer
  refine hs.same hout hcopied (lists_setPeer hpeer' fun el hel => ?_)
  refine mem_elems_lists ?_
  rw [hin, hfrag] at hel
  exact (List.mem_append.1 hel).elim (fun h => List.mem_append_left _ (hsub el h))
    (List.mem_append_right _)

theorem stored_checkWindow (hs : Stored h mem) (hq : h.Queued) (r : ℕ)
    (hi' : (h.checkWindow r).Inv) :
    Stored (h.checkWindow r) (written h (h.checkWindow r) ++ mem) := by
  unfold InboxHeap.checkWindow
  extract_lets p unacked
  split
  · next hlt =>
    rw [show h.checkWindow r = _ from if_pos hlt] at hi'
    have hsuffix : ∀ el ∈ p.out.rtakeWhile unacked, el ∈ p.out := fun el hel =>
      (List.rtakeWhile_suffix unacked p.out).mem hel
    have hmem : ∀ el ∈ p.out, el ∈ h.elems r := fun el hel =>
      mem_elems_lists (List.mem_append_left _ hel)
    refine hs.push (q := r) hi' _ rfl rfl ?_ ?_ (lists_setPeer (q := r) rfl fun el hel => ?_)
    · intro el hel
      obtain ⟨x, hx, rfl⟩ := List.mem_map.1 hel
      exact hq.own r x (hsuffix x hx)
    · intro el hel
      obtain ⟨x, hx, rfl⟩ := List.mem_map.1 hel
      exact hs.words r x (hmem x (hsuffix x hx))
    · rcases List.mem_append.1 hel with hel | hel
      · exact hmem el ((List.rdropWhile_prefix unacked p.out).mem hel)
      · exact mem_elems_lists (List.mem_append_right _ hel)
  · exact hs.same rfl (copied_self h h.ctl) fun k el hel => mem_elems_lists hel

theorem stored_sendAck (hs : Stored h mem) (r : ℕ) (type : InboxPktType)
    (hi' : (h.sendAck r type).Inv) :
    Stored (h.sendAck r type) (written h (h.sendAck r type) ++ mem) := by
  unfold InboxHeap.sendAck
  extract_lets p x
  refine hs.push (q := r) hi' [x.2] rfl rfl ?_ ?_ fun k el hel => mem_elems_lists hel
  · intro el hel
    rw [List.mem_singleton.1 hel]
    rfl
  · intro el hel
    rw [List.mem_singleton.1 hel]
    exact InboxHeap.words_allocWindow _ _ _

/-- The packets that stay when the queue is written are those of the lists and of the
queue. -/
theorem mem_elems_write (hq : h.Queued) {k : ℕ} {el : WinElem} :
    el ∈ h.write.elems k ↔ el ∈ h.elems k ∧
      (el ∈ (h.peer k).out ++ ((h.peer k).inList ++ (h.peer k).fragList) ∨
        el.pkt.code.isData = true) := by
  have hw := InboxHeap.written hq
  unfold InboxHeap.elems
  rw [hw.out, hw.peer]
  simp only [List.filter_nil, List.nil_append, List.mem_append, List.mem_filter,
    Bool.and_eq_true, decide_eq_true_eq]
  tauto

theorem stored_write (hs : Stored h mem) (hq : h.Queued) (hidle : h.ctl = .idle) :
    Stored h.write (written h h.write ++ mem) := by
  have hw := InboxHeap.written hq
  have hnil : written h h.write = [] := by
    unfold written
    rw [hw.out, hidle, List.drop_nil]
    rfl
  rw [hnil]
  exact hs.subset fun k el hel => ((mem_elems_write hq).1 hel).1

/-! ### Dispatch -/

/-- A packet that arrived is put to its place. -/
theorem Stored.receive (hs : Stored h mem) (hi' : h'.Inv) (hout : h'.out = h.out) (pkt : InboxPkt)
    (hcopied : copied h h.ctl h'.ctl = [InboxMem.put (h.allocWindow q pkt).2]) {p : WinPeer}
    (hpeer : h'.peer = Function.update h.peer q p) (hpout : p.out = (h.peer q).out)
    (hp : (p.inList ++ p.fragList).Perm
      ((h.allocWindow q pkt).2 :: ((h.peer q).inList ++ (h.peer q).fragList))) :
    Stored h' (written h h' ++ mem) := by
  rw [written_of_out hout, hcopied]
  refine hs.put (q := q) hi' [(h.allocWindow q pkt).2] (h.elems q) ?_
    (fun _ hel => hel) (fun k hk el hel => ?_) fun el hel => ?_
  · unfold InboxHeap.elems
    rw [hout, hpeer, Function.update_self, hpout]
    refine (List.Perm.append_left _ (List.Perm.append_left _ hp)).trans ?_
    rw [List.singleton_append]
    exact (List.Perm.append_left _ List.perm_middle).trans List.perm_middle
  · unfold InboxHeap.elems at hel ⊢
    rwa [hout, hpeer, Function.update_of_ne hk] at hel
  · rw [List.mem_singleton.1 hel]
    exact InboxHeap.words_allocWindow _ _ _

/-- The message that is put together. -/
theorem Stored.rollup (hs : Stored h mem) {p : WinPeer} (len : ℕ)
    (hp : ∀ el ∈ p.out ++ (p.inList ++ p.fragList), el ∈ h.elems q)
    (hcopied : ∀ buf, copied h h.ctl (.frag q buf) = [⟨buf, none⟩])
    (hi' : ((h.setPeer q p).dispatchFragMsg q len).Inv) :
    Stored ((h.setPeer q p).dispatchFragMsg q len)
      (written h ((h.setPeer q p).dispatchFragMsg q len) ++ mem) := by
  have hwritten : written h ((h.setPeer q p).dispatchFragMsg q len) =
      copied h h.ctl ((h.setPeer q p).dispatchFragMsg q len).ctl := written_of_out rfl
  rw [hwritten, show copied h h.ctl ((h.setPeer q p).dispatchFragMsg q len).ctl = _ from hcopied _]
  refine hs.buffer hi' (q := q) ?_ fun k el hel => ?_
  · show _ ∈ Ctl.cells q (.frag q _)
    rw [show ∀ buf, Ctl.cells q (.frag q buf) = [buf] from fun _ => if_pos rfl]
    exact List.mem_singleton_self _
  · unfold InboxHeap.elems at hel
    rcases List.mem_append.1 hel with hel | hel
    · exact List.mem_append_left _ hel
    · refine lists_setPeer (InboxHeap.peer_dispatchFragMsg h q p len) (fun x hx => hp x ?_) k el hel
      rw [List.append_nil] at hx
      rw [← List.append_assoc]
      exact List.mem_append_left _ hx

theorem stored_dispatchMsg (hs : Stored h mem) {pkt : InboxPkt} (hctl : h.ctl = .pkt q pkt)
    (hi' : (h.dispatchMsg q pkt).Inv) :
    Stored (h.dispatchMsg q pkt) (written h (h.dispatchMsg q pkt) ++ mem) := by
  have hcases := InboxHeap.dispatchMsg_cases h q pkt
  generalize h.dispatchMsg q pkt = g at hcases hi' ⊢
  cases hcases with
  | direct hnext hwhole =>
    refine hs.same rfl (by rw [hctl]; rfl) (lists_setPeer (q := q) rfl fun el hel => ?_)
    exact mem_elems_lists hel
  | rollup hnext hfrag hroll =>
    exact hs.rollup _ (fun el hel => mem_elems_lists hel) (fun buf => by rw [hctl]; rfl) hi'
  | part hnext hfrag hroll =>
    refine hs.receive (q := q) hi' rfl pkt (by rw [hctl]; rfl) rfl rfl ?_
    rw [← List.append_assoc]
    exact List.perm_append_singleton _ _
  | early hnext hlt hnew =>
    refine hs.receive (q := q) hi' rfl pkt (by rw [hctl]; rfl) rfl rfl ?_
    exact (InboxHeap.insertIn_perm _ _).append_right _
  | drop hnext hold =>
    exact hs.same rfl (by rw [hctl]; rfl) fun k el hel => mem_elems_lists hel

theorem stored_dispatchIn (hs : Stored h mem) (hctl : h.ctl = .loop q)
    (hi' : (h.dispatchIn q (h.peer q).inList).Inv) :
    Stored (h.dispatchIn q (h.peer q).inList)
      (written h (h.dispatchIn q (h.peer q).inList) ++ mem) := by
  have hcases := InboxHeap.dispatchIn_cases h q
  generalize h.dispatchIn q (h.peer q).inList = g at hcases hi' ⊢
  cases hcases with
  | @elem el rest hin hnext hwhole =>
    refine hs.same rfl (by rw [hctl]; rfl) (lists_setPeer (q := q) rfl fun x hx => ?_)
    refine mem_elems_lists ?_
    rw [hin]
    simp only [List.mem_append, List.mem_cons] at hx ⊢
    tauto
  | @rollup el rest hin hnext hfrag hroll =>
    refine hs.rollup _ (fun x hx => mem_elems_lists ?_) (fun buf => by rw [hctl]; rfl) hi'
    rw [hin]
    simp only [List.mem_append, List.mem_cons] at hx ⊢
    tauto
  | @part el rest hin hnext hfrag hroll =>
    have hself : copied h h.ctl (h.popFrag q el rest).ctl = [] := copied_self h h.ctl
    refine hs.same rfl hself (lists_setPeer (q := q) rfl fun x hx => ?_)
    refine mem_elems_lists ?_
    rw [hin]
    simp only [List.mem_append, List.mem_cons] at hx ⊢
    tauto
  | done hgap => exact hs.same rfl (by rw [hctl]; rfl) fun k el hel => mem_elems_lists hel

theorem stored_ret (hs : Stored h mem) : Stored (h.ret h.ctl) (written h (h.ret h.ctl) ++ mem) := by
  obtain ⟨hpeer, hout, -, -⟩ := InboxHeap.ret_same h h.ctl
  refine hs.same hout ?_ fun k el hel => ?_
  · cases hctl : h.ctl with
    | pkt r pkt => exact (congrArg (copied h (.pkt r pkt)) hctl).trans (copied_self h _)
    | loop r => exact (congrArg (copied h (.loop r)) hctl).trans (copied_self h _)
    | _ => rfl
  · rw [hpeer] at hel
    exact mem_elems_lists hel

theorem ctl_of_isIdle (hidle : h.ctl.isIdle = true) : h.ctl = .idle := by
  cases hctl : h.ctl with
  | idle => rfl
  | _ => rw [hctl] at hidle; cases hidle

/-- A step keeps the packets as they are. -/
theorem Stored.step (hs : Stored h mem) (hi : h.Inv) (hq : h.Queued) (e : InboxHeap.Event)
    (hkept : h.RetsKept e) : Stored (h.step e) (written h (h.step e) ++ mem) := by
  have hi' := InboxHeap.inv_step hi e hkept
  have hsame : Stored h (written h h ++ mem) :=
    hs.same rfl (copied_self h h.ctl) fun k el hel => mem_elems_lists hel
  have hite : ∀ {b : Bool} {g : InboxHeap}, (if b then g else h).Inv →
      (b = true → g.Inv → Stored g (written h g ++ mem)) →
      Stored (if b then g else h) (written h (if b then g else h) ++ mem) := by
    intro b g hinv hg
    cases b with
    | true => exact hg rfl hinv
    | false => exact hsame
  cases e with
  | call c =>
    refine hite hi' fun _ hinv => ?_
    cases c with
    | post r msg => exact stored_postPkts hs r _ hinv
    | postFrag r msg trail => exact stored_postPkts hs r _ hinv
    | reset r => exact stored_resetPeer hs r
    | reassign r addr => exact stored_reassignPeer hs r addr
  | recv r pkt => exact hite hi' fun hidle _ => stored_process hs (ctl_of_isIdle hidle) r pkt
  | next =>
    have hnext : (h.next h.ctl).Inv := hi'
    show Stored (h.next h.ctl) (written h (h.next h.ctl) ++ mem)
    cases hctl : h.ctl with
    | pkt r pkt =>
      rw [hctl] at hnext
      exact stored_dispatchMsg hs hctl hnext
    | loop r =>
      rw [hctl] at hnext
      exact stored_dispatchIn hs hctl hnext
    | _ => exact hsame
  | ret => exact stored_ret hs
  | write => exact hite hi' fun hidle _ => stored_write hs hq (ctl_of_isIdle hidle)
  | repair r => exact hite hi' fun _ hinv => stored_checkWindow hs hq r hinv
  | ack r type => exact hite hi' fun _ hinv => stored_sendAck hs r type hinv

/-! ## Runs -/

/-- The fragments are read as they are when they are put together. -/
theorem gather_fragList (hi : h.Inv) (hs : Stored h mem) (hctl : ∀ k, h.ctl.cells k = []) {len : ℕ}
    {g : InboxMem} (hheap : g.heap = h.dispatchFragMsg q len)
    (hmem : g.mem = ⟨(h.store.alloc InboxHeap.wbufSize q
      (InboxHeap.fragLen (h.peer q).fragList + len)).2, none⟩ :: mem) :
    gather g.load (h.peer q).fragList = (h.peer q).fragList.flatMap fun el => el.pkt.msg := by
  unfold gather
  refine List.flatMap_congr fun el hel => ?_
  have helem : el ∈ h.elems q :=
    mem_elems_lists (List.mem_append_right _ (List.mem_append_right _ hel))
  have hadd := InboxHeap.sound_addCells_frag (q := q) hi hctl len
  have hin : el.cell ∈ addCells (h.dispatchFragMsg q len).live q
      ((h.peer q).fragList.map WinElem.cell) q := by
    rw [addCells, Function.update_self]
    exact List.mem_append_left _ (List.mem_map_of_mem hel)
  -- the window of the fragment is still there, and the message is apart from it
  obtain ⟨win, hwin, howner, -⟩ := hadd.cell hin
  obtain ⟨win', hthere, -⟩ := foldl_deref_owner ((h.peer q).fragList.map WinElem.cell)
    ⟨win, hwin, howner⟩
  rw [List.foldl_map] at hthere
  have hstore : g.heap.store.windows el.cell.window = some win' := by
    rw [hheap]
    exact hthere
  have hapart := hadd.apart q
  rw [addCells, Function.update_self, InboxHeap.live_dispatchFragMsg] at hapart
  have hbuf := (List.pairwise_append.1 hapart).2.2 el.cell (List.mem_map_of_mem hel) _
    (List.mem_append_right _ (List.mem_singleton_self _))
  unfold load
  rw [hstore]
  dsimp only
  rw [hmem, lastWrite_cons_of_apart hbuf.symm, hs.pkt q el helem]
  rfl

end

/-- The windows are counted, the queue is in order, and the packets are what they are. -/
structure Inv (m : InboxMem) : Prop where
  heap : m.heap.Inv
  queued : m.heap.Queued
  stored : Stored m.heap m.mem

variable {m : InboxMem} {q : ℕ} {el : WinElem}

theorem load_eq (hi : m.heap.Inv) (hs : Stored m.heap m.mem) (hel : el ∈ m.heap.elems q) :
    m.load el.cell = el.pkt := by
  obtain ⟨win, hwin, -⟩ := hi.sound.cell (mem_live hel)
  unfold load
  rw [hwin]
  dsimp only
  rw [hs.pkt q el hel]
  rfl

/-- What is in memory is what the lists say. -/
theorem Inv.view (h : m.Inv) : m.view = m.heap := by
  have hload : ∀ {els : List WinElem} {k : ℕ}, (∀ el ∈ els, el ∈ m.heap.elems k) →
      els.map (WinElem.reload m.load) = els := by
    intro els k hels
    refine (List.map_congr_left fun el hel => ?_).trans (List.map_id els)
    show ({ el with pkt := m.load el.cell } : WinElem) = el
    rw [load_eq h.heap h.stored (hels el hel)]
  have hpeer : (fun q => (m.heap.peer q).reload m.load) = m.heap.peer := by
    funext k
    unfold WinPeer.reload
    rw [hload fun el hel => mem_elems_lists (List.mem_append_left _ hel),
      hload fun el hel => mem_elems_lists (List.mem_append_right _ (List.mem_append_left _ hel)),
      hload fun el hel => mem_elems_lists (List.mem_append_right _ (List.mem_append_right _ hel))]
  have hout : m.heap.out.map (WinElem.reload m.load) = m.heap.out := by
    refine (List.map_congr_left fun el hel => ?_).trans (List.map_id _)
    show ({ el with pkt := m.load el.cell } : WinElem) = el
    rw [load_eq (q := el.peer) h.heap h.stored
      (List.mem_append_left _ (List.mem_filter.2 ⟨hel, by simp⟩))]
  unfold InboxMem.view InboxHeap.reload
  rw [hpeer, hout]

theorem Inv.heap_step (h : m.Inv) (e : InboxHeap.Event) : (m.step e).heap = m.heap.step e := by
  unfold InboxMem.step
  rw [h.view]

theorem Inv.mem_step (h : m.Inv) (e : InboxHeap.Event) :
    (m.step e).mem = written m.heap (m.heap.step e) ++ m.mem := by
  unfold InboxMem.step
  rw [h.view]

theorem Inv.step (h : m.Inv) {e : InboxHeap.Event} (hkept : m.heap.RetsKept e) :
    (m.step e).Inv := by
  refine ⟨?_, ?_, ?_⟩
  · rw [h.heap_step]
    exact InboxHeap.inv_step h.heap e hkept
  · rw [h.heap_step]
    exact h.queued.step e
  · rw [h.heap_step, h.mem_step]
    exact h.stored.step h.heap h.queued e hkept

/-- When a message is put together, its fragments are read as they are. -/
theorem gather_rollup (hm : m.Inv) {p : WinPeer} {len : ℕ} (hset : (m.heap.setPeer q p).Inv)
    (hlists : ∀ x ∈ p.out ++ (p.inList ++ p.fragList), x ∈ m.heap.elems q)
    (hctl : m.heap.ctl = .loop q ∨ ∃ pkt, m.heap.ctl = .pkt q pkt)
    (hstep : m.heap.step .next = (m.heap.setPeer q p).dispatchFragMsg q len) :
    gather (m.step .next).load p.fragList = p.fragList.flatMap fun el => el.pkt.msg := by
  have hstored : Stored (m.heap.setPeer q p) m.mem :=
    hm.stored.subset fun k x hx =>
      (List.mem_append.1 hx).elim (List.mem_append_left _) (lists_setPeer rfl hlists k x)
  have hcells : ∀ k, m.heap.ctl.cells k = [] := by
    rcases hctl with hctl | ⟨pkt, hctl⟩
    · exact fun k => by rw [hctl]; rfl
    · exact fun k => by rw [hctl]; rfl
  have hcopied : ∀ buf, copied m.heap m.heap.ctl (.frag q buf) = [⟨buf, none⟩] := by
    rcases hctl with hctl | ⟨pkt, hctl⟩
    · exact fun buf => by rw [hctl]; rfl
    · exact fun buf => by rw [hctl]; rfl
  have hheap := hm.heap_step .next
  have hmem := hm.mem_step .next
  rw [hstep] at hheap hmem
  have hwritten : written m.heap ((m.heap.setPeer q p).dispatchFragMsg q len) =
      copied m.heap m.heap.ctl (.frag q _) := written_of_out rfl
  rw [hwritten, hcopied] at hmem
  have hgather := gather_fragList (q := q) hset hstored hcells hheap hmem
  rwa [InboxHeap.peer_setPeer_self] at hgather

/-- The rollup arrives. -/
theorem gather_pkt (hm : m.Inv) {pkt : InboxPkt} (hctl : m.heap.ctl = .pkt q pkt) {n len : ℕ}
    (hstep : m.heap.step .next =
      (m.heap.setPeer q { m.heap.peer q with inSeqno := n }).dispatchFragMsg q len) :
    gather (m.step .next).load (m.heap.peer q).fragList =
      (m.heap.peer q).fragList.flatMap fun el => el.pkt.msg := by
  have hset : (m.heap.setPeer q { m.heap.peer q with inSeqno := n }).Inv :=
    hm.heap.setPeer rfl rfl rfl
  exact gather_rollup (p := { m.heap.peer q with inSeqno := n }) hm hset
    (fun _ hx => mem_elems_lists hx) (.inr ⟨pkt, hctl⟩) hstep

/-- The rollup is the head of the recv window. -/
theorem gather_loop (hm : m.Inv) (hctl : m.heap.ctl = .loop q) {rest : List WinElem}
    (hin : (m.heap.peer q).inList = el :: rest)
    (hstep : m.heap.step .next = (m.heap.popFrag q el rest).dispatchFragMsg q 0) :
    gather (m.step .next).load ((m.heap.peer q).fragList ++ (m.heap.peer q).inList.take 1) =
      ((m.heap.peer q).fragList ++ [el]).flatMap fun el => el.pkt.msg := by
  rw [show (m.heap.peer q).inList.take 1 = [el] by rw [hin]; rfl]
  have hpop : (m.heap.popFrag q el rest).Inv := hm.heap.popFrag hin
  refine gather_rollup (p := { m.heap.peer q with
    inSeqno := el.pkt.srcSeqno
    inList := rest
    fragList := (m.heap.peer q).fragList ++ [el] }) hm hpop (fun x hx => mem_elems_lists ?_)
    (.inl hctl) hstep
  rw [hin]
  simp only [List.mem_append, List.mem_cons] at hx ⊢
  tauto

theorem inv_start (mtu : { mtu : UInt32 // mtu ≠ 48 }) (addr : ℕ → List UInt8)
    (junk : List (Write InboxPkt) → Cell → InboxPkt) :
    (start (InboxHeap.start mtu addr) junk).Inv := by
  have helems : ∀ k, (InboxHeap.start mtu addr).elems k = [] := fun _ => rfl
  refine ⟨InboxHeap.inv_start mtu addr, InboxHeap.queued_start mtu addr, ?_, ?_⟩
  · intro k el hel
    have hnil : el ∈ (InboxHeap.start mtu addr).elems k := hel
    rw [helems] at hnil
    cases hnil
  · intro k el hel
    have hnil : el ∈ (InboxHeap.start mtu addr).elems k := hel
    rw [helems] at hnil
    cases hnil

end InboxMem

end Raims
