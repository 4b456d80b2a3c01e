import Raims.Inbox.InboxMemory
import Raims.Lib.Run
import Mathlib.Data.List.Nodup
import Mathlib.Data.List.Range

/-!
# The send window of the inbox transport

The packets of a peer that are not acked are in its send window or in the send queue
of the transport, once, and the window is sorted: the acks are taken from its head,
the repairs from its tail. This holds as long as the window is not repaired behind
packets of the peer that wait in the queue; these come to the window before the
repaired ones, and then it is not sorted any more. And it holds as long as the packets in
memory stay what they are.
-/

namespace Raims

open EvInboxTransport (fillPkts)
open RefWindow

namespace SendView

/-! ## Packets in a row -/

/-- The packets of the window and then of the queue count from `lo` to the last number,
and all that is not acked is among them. -/
structure InRow (v : SendView) (lo : ℕ) : Prop where
  seqnos : (v.out ++ v.queue).map InboxPkt.srcSeqno = List.range' (lo + 1) (v.outSeqno - lo)
  lo_le : lo ≤ v.window
  window_le : v.window ≤ v.outSeqno
  lt : v.outSeqno < lo + 2 ^ 31

section

variable {v : SendView} {lo : ℕ}

theorem InRow.length (h : InRow v lo) : (v.out ++ v.queue).length = v.outSeqno - lo := by
  have hlen := congrArg List.length h.seqnos
  rwa [List.length_map, List.length_range'] at hlen

theorem InRow.mem (h : InRow v lo) {el : InboxPkt} (hel : el ∈ v.out ++ v.queue) :
    lo < el.srcSeqno ∧ el.srcSeqno ≤ v.outSeqno := by
  have hmem : el.srcSeqno ∈ (v.out ++ v.queue).map InboxPkt.srcSeqno :=
    List.mem_map_of_mem hel
  rw [h.seqnos, List.mem_range'_1] at hmem
  omega

/-- The comparison of a packet with the window is that of the numbers. -/
theorem InRow.cmp_window (h : InRow v lo) {el : InboxPkt} (hel : el ∈ v.out ++ v.queue)
    {dest : ℕ} (hlo : lo ≤ dest) (hdest : dest ≤ v.outSeqno) :
    seqnoCmp el.srcSeqno dest = el.srcSeqno - dest := by
  obtain ⟨hgt, hle⟩ := h.mem hel
  have hlt := h.lt
  exact seqnoCmp_eq (by omega) (by omega)

theorem InRow.pairwise (h : InRow v lo) :
    (v.out ++ v.queue).Pairwise fun a b => a.srcSeqno < b.srcSeqno := by
  rw [← List.pairwise_map, h.seqnos]
  exact List.pairwise_lt_range'

/-! ### Acks -/

/-- The head of the window goes while it is acked. -/
theorem dropWhile_range {out queue : List InboxPkt} {lo dest last : ℕ}
    (h : (out ++ queue).map InboxPkt.srcSeqno = List.range' (lo + 1) (last - lo))
    (hcmp : ∀ el ∈ out, seqnoCmp el.srcSeqno dest = el.srcSeqno - dest) (hlo : lo ≤ dest) :
    ∃ lo', lo ≤ lo' ∧ lo' ≤ dest ∧
      ((out.dropWhile fun el => seqnoCmp el.srcSeqno dest ≤ 0) ++ queue).map InboxPkt.srcSeqno =
        List.range' (lo' + 1) (last - lo') := by
  induction out generalizing lo with
  | nil => exact ⟨lo, le_rfl, hlo, h⟩
  | cons el out ih =>
    by_cases hel : seqnoCmp el.srcSeqno dest ≤ 0
    · rw [List.dropWhile_cons_of_pos (by simpa using hel)]
      have hlen := congrArg List.length h
      rw [List.cons_append, List.map_cons] at h
      simp only [List.cons_append, List.map_cons, List.length_cons, List.length_range'] at hlen
      rw [show last - lo = (last - (lo + 1)) + 1 by omega, List.range'_succ,
        List.cons.injEq] at h
      rw [hcmp el List.mem_cons_self, h.1] at hel
      obtain ⟨lo', hle, hle', hrest⟩ := ih h.2
        (fun x hx => hcmp x (List.mem_cons_of_mem el hx)) (by omega)
      exact ⟨lo', by omega, hle', hrest⟩
    · rw [List.dropWhile_cons_of_neg (by simpa using hel)]
      exact ⟨lo, le_rfl, hlo, h⟩

/-- An ack of packets that were sent keeps the rest in a row. -/
theorem InRow.acked {dest : ℕ} (h : InRow v lo) (hdest : dest ≤ v.outSeqno)
    (hnear : v.outSeqno < dest + 2 ^ 31) : ∃ lo', InRow (v.acked dest) lo' := by
  have hlo := h.lo_le
  have hwindow := h.window_le
  have hlt := h.lt
  unfold SendView.acked
  split
  · next hgt =>
      rw [seqnoCmp_eq (by omega) (by omega)] at hgt
      split
      · obtain ⟨lo', hle, hle', hrow⟩ := dropWhile_range h.seqnos
          (fun el hel => h.cmp_window (List.mem_append_left _ hel) (by omega) hdest)
          (show lo ≤ dest by omega)
        exact ⟨lo', hrow, hle', hdest, by simp only; omega⟩
      · exact ⟨lo, h.seqnos, by simp only; omega, hdest, h.lt⟩
  · exact ⟨lo, h⟩

/-! ### Posts -/

theorem seqnos_fillPkts (outSeqno inSeqno : ℕ) (pkts : List (InboxCode × List UInt8)) :
    (fillPkts outSeqno inSeqno pkts).map InboxPkt.srcSeqno =
      List.range' (outSeqno + 1) pkts.length := by
  induction pkts generalizing outSeqno with
  | nil => rfl
  | cons x rest ih => rw [fillPkts, List.map_cons, ih, List.length_cons, List.range'_succ]

theorem InRow.posted (h : InRow v lo) (inSeqno : ℕ) {pkts : List (InboxCode × List UInt8)}
    (hlt : (v.out ++ v.queue).length + pkts.length < 2 ^ 31) :
    InRow { v with
      outSeqno := v.outSeqno + pkts.length
      queue := v.queue ++ fillPkts v.outSeqno inSeqno pkts } lo := by
  rw [h.length] at hlt
  have hlo := h.lo_le
  have hwindow := h.window_le
  refine ⟨?_, hlo, by simp only; omega, by simp only; omega⟩
  simp only
  rw [← List.append_assoc, List.map_append, h.seqnos, seqnos_fillPkts,
    show v.outSeqno + pkts.length - lo = (v.outSeqno - lo) + pkts.length by omega,
    show v.outSeqno + 1 = lo + 1 + 1 * (v.outSeqno - lo) by omega, List.range'_append]

/-! ### Repairs -/

theorem rdropWhile_of_rtakeWhile_nil {α : Type*} {f : α → Bool} {l : List α}
    (h : l.rtakeWhile f = []) : l.rdropWhile f = l := by
  have hsplit := List.rdropWhile_append_rtakeWhile (p := f) (l := l)
  rwa [h, List.append_nil] at hsplit

/-- The window is repaired while nothing waits in the queue, or nothing is repaired. -/
theorem InRow.repaired (h : InRow v lo) (inSeqno : ℕ)
    (halone : (∃ el ∈ v.out.getLast?, v.unacked el = true) → v.queue = []) :
    InRow (v.repaired inSeqno) lo := by
  have hsplit := List.rdropWhile_append_rtakeWhile (p := v.unacked) (l := v.out)
  refine ⟨?_, h.lo_le, h.window_le, h.lt⟩
  by_cases hlast : ∃ el ∈ v.out.getLast?, v.unacked el = true
  · have hseqnos := h.seqnos
    rw [halone hlast, List.append_nil] at hseqnos
    simp only [SendView.repaired, halone hlast, List.nil_append]
    rw [← hseqnos, ← hsplit, List.map_append, List.map_append, List.map_map, hsplit]
    rfl
  · have hnil : v.out.rtakeWhile v.unacked = [] := by
      rw [List.rtakeWhile_eq_nil_iff]
      intro hne hun
      exact hlast ⟨v.out.getLast hne, List.getLast_mem_getLast? hne, hun⟩
    simp only [SendView.repaired, hnil, List.map_nil, List.append_nil,
      rdropWhile_of_rtakeWhile_nil hnil]
    exact h.seqnos

/-! ### What the row says -/

theorem InRow.sorted (h : InRow v lo) :
    v.out.Pairwise fun a b => seqnoCmp a.srcSeqno b.srcSeqno < 0 := by
  refine List.Pairwise.imp_of_mem ?_ (List.pairwise_append.1 h.pairwise).1
  intro a b ha hb hlt
  obtain ⟨hgt, hle⟩ := h.mem (List.mem_append_left _ ha)
  obtain ⟨hgt', hle'⟩ := h.mem (List.mem_append_left _ hb)
  have hbound := h.lt
  rw [seqnoCmp_eq (by omega) (by omega)]
  omega

/-- Every number after the first one acked is in the row once. -/
theorem InRow.once (h : InRow v lo) {s : ℕ} (hs : v.window < s) (hs' : s ≤ v.outSeqno) :
    v.queue.countP (fun el => el.srcSeqno = s) + v.out.countP (fun el => el.srcSeqno = s) = 1 := by
  have hlo := h.lo_le
  have hcount : ((v.out ++ v.queue).map InboxPkt.srcSeqno).count s = 1 := by
    rw [h.seqnos]
    refine List.count_eq_one_of_mem List.nodup_range' ?_
    rw [List.mem_range'_1]
    omega
  rw [List.count_eq_countP, List.countP_map, List.countP_append] at hcount
  rw [Nat.add_comm, ← hcount]
  rfl

/-- The repair walks the window from its tail, and the window is sorted: what it leaves
is acked. -/
theorem InRow.left_acked (h : InRow v lo) {el : InboxPkt}
    (hel : el ∈ v.out.rdropWhile v.unacked) : el.srcSeqno ≤ v.window := by
  have hlo := h.lo_le
  have hwindow := h.window_le
  have hne : v.out.rdropWhile v.unacked ≠ [] := List.ne_nil_of_mem hel
  have hpre : v.out.rdropWhile v.unacked <+: v.out := List.rdropWhile_prefix _ _
  have hlast := List.rdropWhile_last_not v.unacked v.out hne
  have hmem := hpre.mem (List.getLast_mem hne)
  rw [unacked, h.cmp_window (List.mem_append_left _ hmem) hlo hwindow] at hlast
  simp only [sub_pos, Int.ofNat_lt, decide_eq_true_eq, not_lt] at hlast
  have hpair := (List.pairwise_append.1 h.pairwise).1.sublist hpre.sublist
  rw [← List.dropLast_append_getLast hne, List.mem_append, List.mem_singleton] at hel
  rcases hel with hel | rfl
  · rw [← List.dropLast_append_getLast hne, List.pairwise_append] at hpair
    exact (hpair.2.2 el hel _ (List.mem_singleton_self _)).le.trans hlast
  · exact hlast

theorem InRow.repaired_mem (h : InRow v lo) (inSeqno : ℕ) {s : ℕ} (hs : v.window < s)
    (hs' : s ≤ v.outSeqno) : ∃ el ∈ (v.repaired inSeqno).queue, el.srcSeqno = s := by
  have hlo := h.lo_le
  have hmem : s ∈ (v.out ++ v.queue).map InboxPkt.srcSeqno := by
    rw [h.seqnos, List.mem_range'_1]
    omega
  obtain ⟨el, hel, rfl⟩ := List.mem_map.1 hmem
  simp only [SendView.repaired, List.mem_append]
  rcases List.mem_append.1 hel with hel | hel
  · rw [← List.rdropWhile_append_rtakeWhile (p := v.unacked) (l := v.out), List.mem_append] at hel
    rcases hel with hel | hel
    · exact absurd (h.left_acked hel) (by omega)
    · exact ⟨rexmit inSeqno el, .inr (List.mem_map_of_mem hel), rfl⟩
  · exact ⟨el, .inl hel, rfl⟩

end

end SendView

namespace InboxHeap

/-! ## Retransmission -/

/-- No packet of the peer is skipped when its window is repaired. -/
structure Unskipped (h : InboxHeap) (q : ℕ) : Prop where
  sorted : (h.peer q).out.Pairwise fun a b => seqnoCmp a.pkt.srcSeqno b.pkt.srcSeqno < 0
  once : ∀ s, (h.peer q).outWindowSeqno < s → s ≤ (h.peer q).outSeqno →
    (dataOf q h.out).countP (fun pkt => pkt.srcSeqno = s) +
      (h.peer q).out.countP (fun el => el.pkt.srcSeqno = s) = 1
  checked : 0 < seqnoCmp (h.peer q).outSeqno (h.peer q).outWindowSeqno →
    ∀ s, (h.peer q).outWindowSeqno < s → s ≤ (h.peer q).outSeqno →
      ∃ pkt ∈ dataOf q (h.checkWindow q).out, pkt.srcSeqno = s

/-- There are fewer than `2^31` packets of a peer in the window and the queue, acks are of
the last `2^31` packets that were numbered, and no peer is reset. -/
def Outstanding (h : InboxHeap) : Event → Prop
  | .recv q pkt => pkt.destSeqno ≤ (h.peer q).outSeqno ∧
      (h.peer q).outSeqno < pkt.destSeqno + 2 ^ 31
  | .call (.reset _) | .call (.reassign _ _) => False
  | .call c => ∀ x ∈ h.packets (.call c),
      ((h.sendView x.1).out ++ (h.sendView x.1).queue).length + x.2.length < 2 ^ 31
  | .ack _ type => type ≠ .data
  | _ => True

instance Outstanding.decidable (h : InboxHeap) : ∀ e, Decidable (h.Outstanding e)
  | .recv q pkt => inferInstanceAs (Decidable (pkt.destSeqno ≤ (h.peer q).outSeqno ∧
      (h.peer q).outSeqno < pkt.destSeqno + 2 ^ 31))
  | .call (.reset _) | .call (.reassign _ _) => instDecidableFalse
  | .call (.post q msg) =>
    inferInstanceAs (Decidable (∀ x ∈ h.packets (.call (.post q msg)), _))
  | .call (.postFrag q msg trail) =>
    inferInstanceAs (Decidable (∀ x ∈ h.packets (.call (.postFrag q msg trail)), _))
  | .ack _ type => inferInstanceAs (Decidable (type ≠ .data))
  | .next | .ret | .write | .repair _ => instDecidableTrue

/-- The window of a peer is not repaired behind packets that wait in the queue. -/
def RepairsAlone (h : InboxHeap) : Event → Prop
  | .repair q => h.ctl.isIdle = true →
      0 < seqnoCmp (h.peer q).outSeqno (h.peer q).outWindowSeqno →
        (∃ pkt ∈ (h.sendView q).out.getLast?, (h.sendView q).unacked pkt = true) →
          dataOf q h.out = []
  | _ => True

instance RepairsAlone.decidable (h : InboxHeap) : ∀ e, Decidable (h.RepairsAlone e)
  | .repair q => inferInstanceAs (Decidable (_ → _ → (∃ pkt ∈ (h.sendView q).out.getLast?, _) → _))
  | .call _ | .recv _ _ | .next | .ret | .write | .ack _ _ => instDecidableTrue

section

variable {h : InboxHeap} {q : ℕ}

theorem Outstanding.sends {e : Event} (hout : h.Outstanding e) : Sends e := by
  cases e with
  | ack q type => exact hout
  | _ => trivial

theorem Outstanding.not_resets {e : Event} (hout : h.Outstanding e) (q : ℕ) : ¬ Resets q e := by
  cases e with
  | call c =>
    cases c with
    | post r msg => exact fun h => h
    | postFrag r msg trail => exact fun h => h
    | reset r => exact False.elim hout
    | reassign r addr => exact False.elim hout
  | _ => exact fun h => h

theorem Outstanding.room {e : Event} (hout : h.Outstanding e)
    {pkts : List (InboxCode × List UInt8)} (hpkts : h.packets e = some (q, pkts)) :
    ((h.sendView q).out ++ (h.sendView q).queue).length + pkts.length < 2 ^ 31 := by
  cases e with
  | call c =>
    cases c with
    | post r msg => exact hout (q, pkts) hpkts
    | postFrag r msg trail => exact hout (q, pkts) hpkts
    | reset r => exact False.elim hout
    | reassign r addr => exact False.elim hout
  | _ => cases hpkts

theorem unskipped_of_inRow (hqueue : h.Queued) {lo : ℕ} (hrow : (h.sendView q).InRow lo) :
    h.Unskipped q := by
  refine ⟨List.pairwise_map.1 hrow.sorted, fun s hs hs' => ?_, fun hgt s hs hs' => ?_⟩
  · have honce := hrow.once hs hs'
    unfold sendView at honce
    dsimp only at honce
    rwa [List.countP_map] at honce
  · obtain ⟨pkt, hpkt, heq⟩ := hrow.repaired_mem (h.peer q).inSeqno hs hs'
    have hview := sendView_checkWindow hqueue q q
    rw [if_pos rfl, SendView.step, if_pos (show 0 < seqnoCmp (h.sendView q).outSeqno
      (h.sendView q).window from hgt)] at hview
    refine ⟨pkt, ?_, heq⟩
    rw [← hview] at hpkt
    exact hpkt

/-- An event keeps the packets of a peer in a row. -/
theorem inRow_step (hqueue : h.Queued) {e : Event} (hout : h.Outstanding e)
    (halone : h.RepairsAlone e) {lo : ℕ} (hrow : (h.sendView q).InRow lo) :
    ∃ lo, ((h.step e).sendView q).InRow lo := by
  rw [sendView_step hqueue hout.sends (hout.not_resets q)]
  have hcases := sendEvent_cases h q e
  generalize h.sendEvent q e = se at hcases ⊢
  cases hcases with
  | none => exact ⟨lo, hrow⟩
  | post hpkts => exact ⟨lo, hrow.posted _ (hout.room hpkts)⟩
  | ack he =>
    subst he
    exact hrow.acked hout.1 hout.2
  | write he =>
    refine ⟨lo, ?_, hrow.lo_le, hrow.window_le, hrow.lt⟩
    simp only [SendView.step]
    rw [List.append_nil]
    exact hrow.seqnos
  | repair he hidle =>
    subst he
    simp only [SendView.step]
    split
    · next hgt => exact ⟨lo, hrow.repaired _ (halone hidle hgt)⟩
    · exact ⟨lo, hrow⟩

end

end InboxHeap

namespace InboxMem

/-! ## Runs -/

/-- The packets of every peer are in a row, and in memory. -/
structure SendInv (m : InboxMem) : Prop where
  inv : m.Inv
  row : ∀ q, ∃ lo, (m.heap.sendView q).InRow lo

theorem SendInv.step {m : InboxMem} (h : SendInv m) {e : InboxHeap.Event}
    (hout : m.view.Outstanding e) (halone : m.view.RepairsAlone e) (hkept : m.view.RetsKept e) :
    SendInv (m.step e) := by
  rw [h.inv.view] at hout halone hkept
  refine ⟨h.inv.step hkept, fun q => ?_⟩
  obtain ⟨lo, hrow⟩ := h.row q
  rw [h.inv.heap_step]
  exact InboxHeap.inRow_step h.inv.queued hout halone hrow

/-- In a run that repairs no window behind packets of the peer in the queue and gives up
no memory that is in use, no packet is skipped. -/
theorem unskipped_of_repairsAlone (mtu : { mtu : UInt32 // mtu ≠ 48 }) (addr : ℕ → List UInt8)
    (junk : List (Write InboxPkt) → Cell → InboxPkt) {m : InboxMem}
    (hrun : Run.Reach step
      (fun m e => m.view.Outstanding e ∧ m.view.RepairsAlone e ∧ m.view.RetsKept e)
      (start (.start mtu addr) junk) m) (q : ℕ) : m.view.Unskipped q := by
  have hinv : SendInv m := by
    refine hrun.invariant ⟨inv_start mtu addr junk, fun _ => ⟨0, rfl, le_rfl, le_rfl, ?_⟩⟩
      fun _ _ hs hok => hs.step hok.1 hok.2.1 hok.2.2
    exact Nat.two_pow_pos 31
  obtain ⟨lo, hrow⟩ := hinv.row q
  rw [hinv.inv.view]
  exact InboxHeap.unskipped_of_inRow hinv.inv.queued hrow

/-- Two packets are repaired while an ack waits to be sent, and written again after a
message of two fragments came, during which the next packet was posted. -/
def repairedTwice : List InboxHeap.Event :=
  [.call (.post 0 [65]), .call (.postFrag 0 [66] [67]), .write,
    .recv 0 ⟨⟨.rack, false, false, false⟩, 0, 0, []⟩, .ack 0 .rack, .repair 0,
    .recv 0 ⟨InboxCode.message.setFragment, 1, 0, [1]⟩, .next, .next,
    .recv 0 ⟨InboxCode.message.setRollup, 2, 0, [2]⟩, .next, .call (.post 0 [68]), .ret, .next,
    .write, .recv 0 ⟨⟨.rack, false, false, false⟩, 2, 1, []⟩]

theorem unskipped_of_repairsAlone_twice :
    let m := repairedTwice.foldl step (start (.start ⟨1500, by decide⟩ fun _ => []) blank)
    (m.view.peer 0).out.map (fun el => el.pkt.srcSeqno) = [2, 3] ∧ m.view.Unskipped 0 :=
  ⟨by decide +kernel, unskipped_of_repairsAlone ⟨1500, by decide⟩ _ _
    (Run.Reach.start.foldl (by decide +kernel)) 0⟩

/-- Two packets wait in the queue when the window of three is repaired: they come to the
window before the three. Then the three are acked. -/
def repairedBehind : List InboxHeap.Event :=
  [.call (.post 0 [65]), .call (.post 0 [66]), .call (.post 0 [67]), .write,
    .recv 0 ⟨⟨.rack, false, false, false⟩, 0, 0, []⟩, .call (.post 0 [68]), .call (.post 0 [69]),
    .repair 0, .write, .recv 0 ⟨⟨.rack, false, false, false⟩, 0, 3, []⟩]

/-- The next repair sees an acked packet at the tail and stops there. -/
theorem repair_skips_unacked :
    ¬ ∀ (mtu : { mtu : UInt32 // mtu ≠ 48 }) (addr : ℕ → List UInt8)
      (junk : List (Write InboxPkt) → Cell → InboxPkt) (m : InboxMem),
      Run.Reach step (fun m e => m.view.Outstanding e) (start (.start mtu addr) junk) m →
        ∀ q, m.view.Unskipped q := by
  intro h
  have hok : Run.AllOk step (fun m e => m.view.Outstanding e)
      (start (.start ⟨1500, by decide⟩ fun _ => []) blank) repairedBehind := by decide +kernel
  have hunskipped := h _ _ _ _ (Run.Reach.start.foldl hok) 0
  obtain ⟨pkt, hpkt, -⟩ := hunskipped.checked (by decide +kernel) 4 (by decide +kernel)
    (by decide +kernel)
  have hnil : InboxHeap.dataOf 0 (((repairedBehind.foldl step (start (.start ⟨1500, by decide⟩
      fun _ => []) blank)).view.checkWindow 0).out) = [] := by decide +kernel
  rw [hnil] at hpkt
  exact List.not_mem_nil hpkt

end InboxMem

end Raims
