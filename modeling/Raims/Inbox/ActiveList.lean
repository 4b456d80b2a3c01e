import Raims.Inbox.InboxTransport

/-!
# The active peers of the inbox transport

The timer goes through a list of peers; a peer is on it as long as one of its three
active bits is set. The bits and the list are written apart from each other, by
packets, writes and the timer itself.
-/

namespace Raims

namespace EvInboxTransport

variable {t t' : EvInboxTransport} {q : ℕ} {p : InboxPeer}

/-- A peer is on the list once if it is active, and else not at all. -/
def ActiveOk (t : EvInboxTransport) : Prop :=
  ∀ q, t.active.count q = if (t.peer q).active then 1 else 0

theorem ActiveOk.congr (h : ActiveOk t) (hactive : t'.active = t.active)
    (hpeer : ∀ q, (t'.peer q).active = (t.peer q).active) : ActiveOk t' := by
  intro q
  rw [hactive, hpeer]
  exact h q

theorem setPeer_active (hp : p.active = (t.peer q).active) (q' : ℕ) :
    ((t.setPeer q p).peer q').active = (t.peer q').active := by
  show (Function.update t.peer q p q').active = _
  by_cases hq : q' = q
  · subst hq
    rw [Function.update_self, hp]
  · rw [Function.update_of_ne hq]

theorem ActiveOk.setPeer (h : ActiveOk t) (hp : p.active = (t.peer q).active) :
    ActiveOk (t.setPeer q p) :=
  h.congr rfl (setPeer_active hp)

theorem ActiveOk.pushActive (h : ActiveOk t) (hp : p.active = true) :
    ActiveOk (t.pushActive q p) := by
  intro q'
  show (if (t.peer q).active then t.active else t.active ++ [q]).count q' =
    if (Function.update t.peer q p q').active then 1 else 0
  by_cases hq : q' = q
  · subst hq
    rw [Function.update_self, if_pos hp]
    have hcount := h q'
    split
    · next hact => rwa [if_pos hact] at hcount
    · next hact =>
      rw [if_neg hact] at hcount
      rw [List.count_append, hcount, List.count_singleton_self]
  · rw [Function.update_of_ne hq]
    split
    · exact h q'
    · rw [List.count_append, List.count_singleton, beq_eq_false_iff_ne.2 (Ne.symm hq)]
      exact h q'

theorem ActiveOk.pushActiveSend (h : ActiveOk t) (q : ℕ) : ActiveOk (t.pushActiveSend q) :=
  h.pushActive (by simp [InboxPeer.active])

theorem ActiveOk.pushActiveWindow (h : ActiveOk t) (q : ℕ) : ActiveOk (t.pushActiveWindow q) :=
  h.pushActive (by simp [InboxPeer.active])

theorem ActiveOk.pushActiveRecv (h : ActiveOk t) (q : ℕ) : ActiveOk (t.pushActiveRecv q) := by
  unfold EvInboxTransport.pushActiveRecv
  split
  · exact h
  · exact h.pushActive (by simp [InboxPeer.active])

/-! ### Receiving -/

theorem ackPeer_active (p : InboxPeer) (dest : ℕ) : (ackPeer p dest).active = p.active := by
  unfold ackPeer
  split
  · dsimp only
    split <;> rfl
  · rfl

theorem consume_active (p : InboxPeer) (pkt : InboxPkt) :
    (consume p pkt).1.active = p.active := by
  unfold consume
  split
  · rfl
  · split <;> rfl

theorem drain_active (p : InboxPeer) (pkts : List InboxPkt) :
    (drain p pkts).1.active = p.active := by
  induction pkts generalizing p with
  | nil => rfl
  | cons el rest ih =>
    unfold drain
    split
    · rfl
    · exact (ih _).trans (consume_active p el)

theorem dispatchPkt_active (p : InboxPeer) (pkt : InboxPkt) :
    (dispatchPkt p pkt).1.active = p.active := by
  unfold dispatchPkt
  split
  · exact (drain_active _ _).trans (consume_active p pkt)
  · split
    · split
      · rfl
      · exact drain_active _ _
    · rfl

theorem ActiveOk.dispatchMsg (h : ActiveOk t) (q : ℕ) (pkt : InboxPkt) :
    ActiveOk (t.dispatchMsg q pkt) :=
  (h.pushActiveRecv q).congr rfl (setPeer_active (dispatchPkt_active _ pkt))

theorem ActiveOk.process (h : ActiveOk t) (q : ℕ) (pkt : InboxPkt) :
    ActiveOk (t.process q pkt) := by
  unfold EvInboxTransport.process
  have hpeer : ActiveOk (t.setPeer q
      (if 0 < seqnoCmp pkt.srcSeqno (ackPeer (t.peer q) pkt.destSeqno).inWindowSeqno
        then { ackPeer (t.peer q) pkt.destSeqno with inWindowSeqno := pkt.srcSeqno }
        else ackPeer (t.peer q) pkt.destSeqno)) := by
    refine h.setPeer ?_
    split
    · exact ackPeer_active _ _
    · exact ackPeer_active _ _
  dsimp only
  split
  · refine ActiveOk.dispatchMsg ?_ q pkt
    split
    · exact hpeer.pushActiveWindow q
    · exact hpeer
  · split
    · exact hpeer.pushActiveWindow q
    · exact hpeer

/-! ### Sending -/

theorem ActiveOk.postPkts (h : ActiveOk t) (q : ℕ) (pkts : List (InboxCode × List UInt8)) :
    ActiveOk (t.postPkts q pkts) :=
  h.congr rfl (setPeer_active rfl)

theorem ActiveOk.writeElem (h : ActiveOk t) (el : InboxPktElem) : ActiveOk (t.writeElem el) := by
  unfold EvInboxTransport.writeElem
  split
  · exact (h.pushActiveSend el.peer).setPeer rfl
  · exact h

theorem ActiveOk.write (h : ActiveOk t) : ActiveOk t.write := by
  have hstart : ActiveOk { t with out := t.out.drop t.outCount, outCount := 0 } :=
    h.congr rfl fun _ => rfl
  exact List.foldlRecOn t.writing EvInboxTransport.writeElem hstart fun s hs el _ =>
    hs.writeElem el

/-! ### The timer -/

/-- The turn of a peer between its parts: it is on the list, active or not. -/
def ActiveBut (t : EvInboxTransport) (q : ℕ) : Prop :=
  t.active.count q = 1 ∧
    ∀ q', q' ≠ q → t.active.count q' = if (t.peer q').active then 1 else 0

theorem ActiveBut.setPeer (h : ActiveBut t q) (p : InboxPeer) : ActiveBut (t.setPeer q p) q := by
  refine ⟨h.1, fun q' hq => ?_⟩
  show t.active.count q' = if (Function.update t.peer q p q').active then 1 else 0
  rw [Function.update_of_ne hq]
  exact h.2 q' hq

theorem ActiveBut.congr (h : ActiveBut t q) (hactive : t'.active = t.active)
    (hpeer : t'.peer = t.peer) : ActiveBut t' q := by
  unfold ActiveBut
  rw [hactive, hpeer]
  exact h

theorem ActiveBut.ite {c : Prop} [Decidable c] (h : ActiveBut t q) (h' : ActiveBut t' q) :
    ActiveBut (if c then t else t') q := by
  split
  · exact h
  · exact h'

theorem ActiveOk.but (h : ActiveOk t) (hq : q ∈ t.active) : ActiveBut t q := by
  refine ⟨?_, fun q' _ => h q'⟩
  have hpos := List.count_pos_iff.2 hq
  have hcount := h q
  split at hcount
  · exact hcount
  · rw [hcount] at hpos
    exact absurd hpos (lt_irrefl 0)

/-- The end of the turn: the peer stays on the list if it is still active. -/
theorem ActiveBut.popActive (h : ActiveBut t q) :
    ActiveOk (if (t.peer q).active then t else { t with active := t.active.erase q }) := by
  split
  · next hact =>
    intro q'
    by_cases hq : q' = q
    · subst hq
      rw [h.1, if_pos hact]
    · exact h.2 q' hq
  · next hact =>
    intro q'
    show (t.active.erase q).count q' = _
    by_cases hq : q' = q
    · subst hq
      rw [List.count_erase_self, h.1, if_neg hact]
    · rw [List.count_erase_of_ne hq]
      exact h.2 q' hq

theorem ActiveBut.timerAck (h : ActiveBut t q) (now : ℕ) : ActiveOk (t.timerAck q now) := by
  unfold EvInboxTransport.timerAck
  refine ActiveBut.popActive (ActiveBut.ite ?_ (h.setPeer _))
  exact (h.setPeer _).congr rfl rfl

theorem repairWindow_active (t : EvInboxTransport) (q q' : ℕ) :
    (t.repairWindow q).1.active = t.active ∧
      ((t.repairWindow q).1.peer q').active = (t.peer q').active := by
  unfold repairWindow
  dsimp only
  split
  · exact ⟨rfl, rfl⟩
  · exact ⟨rfl, setPeer_active
      (p := { t.peer q with out := (t.peer q).out.rdropWhile (unacked (t.peer q)) }) rfl q'⟩

theorem ActiveOk.checkWindow (h : ActiveOk t) (q : ℕ) : ActiveOk (t.checkWindow q).1 := by
  unfold EvInboxTransport.checkWindow
  extract_lets r p
  have hr : ActiveOk r.1 := by
    simp only [r]
    split
    · exact h.congr (repairWindow_active t q q).1 fun q' => (repairWindow_active t q q').2
    · exact h
  split
  · exact (hr.setPeer (p := { p with inAckSeqno := p.inWindowSeqno }) rfl).pushActiveRecv q
  · exact hr

theorem windowTimerExpire_active (p : InboxPeer) (now : ℕ) :
    (p.windowTimerExpire now).1.active = p.active := by
  unfold InboxPeer.windowTimerExpire
  split <;> rfl

/-- A peer that comes to the list in its turn was on it. -/
theorem checkWindow_mem (h : ActiveOk t) (hact : (t.peer q).activeWindow = true) :
    q ∈ (t.checkWindow q).1.active := by
  have hmem : q ∈ t.active := by
    refine List.count_pos_iff.1 ?_
    rw [h q, if_pos (by simp [InboxPeer.active, hact])]
    exact Nat.one_pos
  unfold EvInboxTransport.checkWindow
  extract_lets r p
  have hr : q ∈ r.1.active := by
    simp only [r]
    split
    · rwa [(repairWindow_active t q q).1]
    · exact hmem
  split
  · unfold EvInboxTransport.pushActiveRecv
    split
    · exact hr
    · show q ∈ if _ then _ else _
      split
      · exact hr
      · exact List.mem_append_left _ hr
  · exact hr

theorem ActiveOk.timerWindow (h : ActiveOk t) (hq : q ∈ t.active) (now : ℕ) :
    ActiveBut (t.timerWindow q now) q := by
  unfold EvInboxTransport.timerWindow
  extract_lets p w t₁ c
  split
  · exact h.but hq
  · next hact =>
    have ht₁ : ActiveOk t₁ := h.setPeer (windowTimerExpire_active p now)
    split
    · exact ht₁.but hq
    · have hact₁ : (t₁.peer q).activeWindow = true := by
        have hw : w.1.activeWindow = p.activeWindow := by
          simp only [w]
          unfold InboxPeer.windowTimerExpire
          split <;> rfl
        rw [show t₁.peer q = w.1 from Function.update_self _ _ _, hw]
        exact Bool.eq_true_of_not_eq_false hact
      have hc : ActiveBut c.1 q :=
        (ht₁.checkWindow q).but (checkWindow_mem ht₁ hact₁)
      split
      · exact hc
      · exact hc.setPeer _

theorem ActiveOk.timerPeer (h : ActiveOk t) (hq : q ∈ t.active) (now : ℕ) :
    ActiveOk (timerPeer now t q) :=
  (h.timerWindow hq now).timerAck now

/-- The turn of a peer does not move the others on the list. -/
theorem pushActiveRecv_count {q' : ℕ} (t : EvInboxTransport) (hq : q' ≠ q) :
    (t.pushActiveRecv q).active.count q' = t.active.count q' := by
  unfold EvInboxTransport.pushActiveRecv
  split
  · rfl
  · show (if _ then _ else _ : List ℕ).count q' = _
    split
    · rfl
    · rw [List.count_append, List.count_singleton, beq_eq_false_iff_ne.2 (Ne.symm hq)]
      rfl

theorem checkWindow_count {q' : ℕ} (t : EvInboxTransport) (hq : q' ≠ q) :
    (t.checkWindow q).1.active.count q' = t.active.count q' := by
  unfold EvInboxTransport.checkWindow
  extract_lets r p
  have hr : r.1.active.count q' = t.active.count q' := by
    simp only [r]
    split
    · rw [(repairWindow_active t q q).1]
    · rfl
  split
  · exact (pushActiveRecv_count _ hq).trans hr
  · exact hr

theorem timerWindow_count {q' : ℕ} (t : EvInboxTransport) (now : ℕ) (hq : q' ≠ q) :
    (t.timerWindow q now).active.count q' = t.active.count q' := by
  unfold EvInboxTransport.timerWindow
  extract_lets p w t₁ c
  split
  · rfl
  · split
    · rfl
    · have hc : c.1.active.count q' = t.active.count q' := checkWindow_count t₁ hq
      split
      · exact hc
      · exact hc

theorem timerAck_count {q' : ℕ} (t : EvInboxTransport) (now : ℕ) (hq : q' ≠ q) :
    (t.timerAck q now).active.count q' = t.active.count q' := by
  unfold EvInboxTransport.timerAck
  extract_lets p r isRack r₁ p₁ s isSack s₁ p₂ src t'
  have ht' : t'.active = t.active := by
    simp only [t']
    split <;> rfl
  split
  · rw [ht']
  · show (t'.active.erase q).count q' = _
    rw [List.count_erase_of_ne hq, ht']

theorem timerPeer_count {q' : ℕ} (t : EvInboxTransport) (now : ℕ) (hq : q' ≠ q) :
    (timerPeer now t q).active.count q' = t.active.count q' :=
  (timerAck_count _ now hq).trans (timerWindow_count t now hq)

theorem ActiveOk.foldl_timerPeer (now : ℕ) (qs : List ℕ) (hnodup : qs.Nodup) (h : ActiveOk t)
    (hqs : ∀ q ∈ qs, q ∈ t.active) : ActiveOk (qs.foldl (EvInboxTransport.timerPeer now) t) := by
  induction qs generalizing t with
  | nil => exact h
  | cons q qs ih =>
    rw [List.nodup_cons] at hnodup
    refine ih hnodup.2 (h.timerPeer (hqs q List.mem_cons_self) now) fun q' hq' => ?_
    have hne : q' ≠ q := fun heq => hnodup.1 (heq ▸ hq')
    rw [← List.count_pos_iff, timerPeer_count t now hne]
    exact List.count_pos_iff.2 (hqs q' (List.mem_cons_of_mem q hq'))

theorem ActiveOk.timerExpire (h : ActiveOk t) (now : ℕ) : ActiveOk (t.timerExpire now) := by
  have hnodup : t.active.Nodup := by
    refine List.nodup_iff_count.2 fun q => ?_
    rw [h q]
    split
    · exact le_refl 1
    · exact Nat.zero_le 1
  exact ActiveOk.foldl_timerPeer now t.active hnodup (h.congr rfl fun _ => rfl) fun _ hq => hq

end EvInboxTransport

end Raims
