import Raims.Inbox.InboxView
import Raims.Lib.Reassembly

/-!
# The pieces of messages in packets

The packets of one peer, numbered, are a stream of pieces of its messages. A receiver
has read the pieces up to its number, each once, and holds packets after a gap.
-/

namespace Raims

open Reassembly (Kind)

namespace InboxCode

def kind (c : InboxCode) : Kind :=
  if c.isFragment = false then .whole else if c.isRollup then .last else .part

end InboxCode

namespace InboxPair

open EvInboxTransport (fillPkts)
open InboxHeap (repeated insertIn)

/-! ## The pieces of a message -/

def pieces (pkts : List (InboxCode × List UInt8)) : List (Kind × List UInt8) :=
  pkts.map fun x => (x.1.kind, x.2)

theorem pieces_fragCodes (frags : List (List UInt8)) :
    pieces (fragCodes frags) = Reassembly.marked frags := by
  induction frags using fragCodes.induct with
  | case1 => rfl
  | case2 msg => rfl
  | case3 msg rest hne ih =>
    rw [fragCodes, Reassembly.marked, ← ih]
    · rfl
    · exact hne
    · exact hne

theorem fragLoop_ne_nil (max : ℕ) (msg : List UInt8) : fragLoop max msg ≠ [] := by
  rw [fragLoop]
  split
  · exact List.cons_ne_nil _ _
  · exact List.cons_ne_nil _ _

theorem fragLoop_flatten (max : ℕ) (msg : List UInt8) : (fragLoop max msg).flatten = msg := by
  induction msg using fragLoop.induct max with
  | case1 msg h ih => rw [fragLoop, dif_pos h, List.flatten_cons, ih, List.take_append_drop]
  | case2 msg h => rw [fragLoop, dif_neg h, List.flatten_singleton]

theorem fragTrailLoop_ne_nil (max left : ℕ) (msg trail : List UInt8) :
    fragTrailLoop max left msg trail ≠ [] := by
  rw [fragTrailLoop]
  split
  · exact List.cons_ne_nil _ _
  · exact List.cons_ne_nil _ _

/-- A fragment within the message and the trail has no padding. -/
theorem fragBytes_eq_take {n : ℕ} {msg trail : List UInt8} (h : n ≤ msg.length + trail.length) :
    fragBytes n msg trail = (msg ++ trail).take n := by
  have hpad : ¬ 0 < n - min msg.length n - min trail.length (n - min msg.length n) := by omega
  simp only [fragBytes]
  rw [if_neg hpad, List.append_nil, List.take_append]
  congr 1
  · rw [List.take_eq_take_iff]
    omega
  · rw [List.take_eq_take_iff]
    omega

theorem fragBytes_last {k : ℕ} (hk : k ≤ 1) (msg trail : List UInt8) :
    fragBytes (msg.length + trail.length + k) msg trail = msg ++ trail ++ List.replicate k 0 := by
  simp only [fragBytes]
  rw [List.take_of_length_le (by omega), List.take_of_length_le (by omega)]
  congr 1
  rcases Nat.le_one_iff_eq_zero_or_eq_one.1 hk with rfl | rfl
  · rw [if_neg (by omega)]
    rfl
  · rw [if_pos (by omega)]
    rfl

/-- The fragments of a message with a trail, put together: `k` is the padding. -/
theorem fragTrailLoop_flatten (max k : ℕ) (hk : k ≤ 1) (left : ℕ) (msg trail : List UInt8)
    (h : left = msg.length + trail.length + k) :
    (fragTrailLoop max left msg trail).flatten = msg ++ trail ++ List.replicate k 0 := by
  induction left, msg, trail using fragTrailLoop.induct max with
  | case1 left msg trail hmax ih =>
    have hdrop : msg.drop max ++ trail.drop (max - min msg.length max) =
        (msg ++ trail).drop max := by
      rw [List.drop_append]
      congr 2
      omega
    have hlen : left - max =
        (msg.drop max).length + (trail.drop (max - min msg.length max)).length + k := by
      rw [List.length_drop, List.length_drop]
      omega
    rw [fragTrailLoop, dif_pos hmax, List.flatten_cons, ih hlen, hdrop,
      fragBytes_eq_take (by omega), ← List.append_assoc, List.take_append_drop]
  | case2 left msg trail hmax =>
    rw [fragTrailLoop, dif_neg hmax, List.flatten_singleton, h, fragBytes_last hk]

theorem trailBytes_eq (msg trail : List UInt8) :
    trailBytes msg trail = msg ++ trail ++ List.replicate (trail.length % 2) 0 := by
  rw [trailBytes]
  rcases Nat.mod_two_eq_zero_or_one trail.length with h | h
  · rw [h, if_neg (by omega)]
    rfl
  · rw [h, if_pos rfl]
    rfl

theorem foldl_join_msgPackets (max : ℕ) (msg : List UInt8) (d : List (List UInt8)) :
    (pieces (msgPackets max msg)).foldl Reassembly.join (d, []) = (d ++ [msg], []) := by
  rw [msgPackets]
  split
  · rfl
  · rw [pieces_fragCodes, Reassembly.foldl_join_marked (fragLoop_ne_nil max msg), List.nil_append,
      fragLoop_flatten]

theorem foldl_join_trailPackets (max : ℕ) (msg trail : List UInt8) (d : List (List UInt8)) :
    (pieces (trailPackets max msg trail)).foldl Reassembly.join (d, []) =
      (d ++ [trailBytes msg trail], []) := by
  simp only [trailPackets]
  split
  · rfl
  · rw [pieces_fragCodes, Reassembly.foldl_join_marked (fragTrailLoop_ne_nil _ _ _ _),
      List.nil_append, fragTrailLoop_flatten max (trail.length % 2) (by omega) _ _ _ rfl,
      trailBytes_eq]

/-- The packet carries the piece of its number. -/
def Holds (P : List (Kind × List UInt8)) (pkt : InboxPkt) : Prop :=
  0 < pkt.srcSeqno ∧ P[pkt.srcSeqno - 1]? = some (pkt.code.kind, pkt.msg)

/-- The pieces up to the number are read: `frags` are the parts of the next message. -/
structure Consumed (P : List (Kind × List UInt8)) (n : ℕ) (frags d : List (List UInt8)) :
    Prop where
  le : n ≤ P.length
  near : P.length < n + 2 ^ 31
  read : Reassembly.read (P.take n) = (d, frags)

/-- The recv window is sorted, and ahead of the number. -/
structure Ahead (P : List (Kind × List UInt8)) (n : ℕ) (els : List WinElem) : Prop where
  sorted : els.Pairwise fun a b => a.pkt.srcSeqno < b.pkt.srcSeqno
  lt : ∀ el ∈ els, n < el.pkt.srcSeqno
  holds : ∀ el ∈ els, Holds P el.pkt

section

variable {P : List (Kind × List UInt8)} {frags d : List (List UInt8)} {pkt : InboxPkt} {n : ℕ}
  {el : WinElem} {els : List WinElem}

theorem Holds.le (h : Holds P pkt) : pkt.srcSeqno ≤ P.length := by
  obtain ⟨hpos, hget⟩ := h
  have hlt := (List.getElem?_eq_some_iff.1 hget).1
  omega

theorem Holds.append (h : Holds P pkt) (P' : List (Kind × List UInt8)) : Holds (P ++ P') pkt :=
  ⟨h.1, List.getElem?_append_left (List.getElem?_eq_some_iff.1 h.2).1 ▸ h.2⟩

/-- The packets of a post carry the pieces that follow. -/
theorem holds_fillPkts {pkts : List (InboxCode × List UInt8)} (inSeqno : ℕ)
    {P : List (Kind × List UInt8)} {el : InboxPkt} (hel : el ∈ fillPkts P.length inSeqno pkts) :
    Holds (P ++ pieces pkts) el := by
  induction pkts generalizing P with
  | nil => exact absurd hel List.not_mem_nil
  | cons x rest ih =>
    have happ : P ++ pieces (x :: rest) = (P ++ [(x.1.kind, x.2)]) ++ pieces rest := by
      rw [List.append_assoc]
      rfl
    rw [fillPkts, List.mem_cons] at hel
    rcases hel with rfl | hel
    · refine ⟨Nat.succ_pos _, ?_⟩
      simp [pieces]
    · rw [happ]
      refine ih ?_
      rw [List.length_append]
      exact hel

/-! ## Reading -/

/-- The piece of a packet that is next. -/
theorem Consumed.join (h : Consumed P n frags d) (hpkt : Holds P pkt)
    (hnext : pkt.srcSeqno = n + 1) {frags' d' : List (List UInt8)}
    (hjoin : Reassembly.join (d, frags) (pkt.code.kind, pkt.msg) = (d', frags')) :
    Consumed P pkt.srcSeqno frags' d' := by
  have hnear := h.near
  have hget := hpkt.2
  rw [hnext, Nat.add_sub_cancel] at hget
  refine ⟨hpkt.le, ?_, ?_⟩
  · omega
  · rw [hnext, List.take_add_one, hget, Reassembly.read_append, h.read]
    exact hjoin

theorem Consumed.whole (h : Consumed P n frags d) (hpkt : Holds P pkt)
    (hnext : pkt.srcSeqno = n + 1) (hwhole : pkt.code.isFragment = false) :
    Consumed P pkt.srcSeqno frags (d ++ [pkt.msg]) := by
  refine h.join hpkt hnext ?_
  rw [show pkt.code.kind = .whole from if_pos hwhole]
  rfl

theorem Consumed.part (h : Consumed P n frags d) (hpkt : Holds P pkt)
    (hnext : pkt.srcSeqno = n + 1) (hfrag : pkt.code.isFragment = true)
    (hroll : pkt.code.isRollup = false) :
    Consumed P pkt.srcSeqno (frags ++ [pkt.msg]) d := by
  refine h.join hpkt hnext ?_
  rw [show pkt.code.kind = .part by simp [InboxCode.kind, hfrag, hroll]]
  rfl

theorem Consumed.last (h : Consumed P n frags d) (hpkt : Holds P pkt)
    (hnext : pkt.srcSeqno = n + 1) (hfrag : pkt.code.isFragment = true)
    (hroll : pkt.code.isRollup = true) :
    Consumed P pkt.srcSeqno [] (d ++ [(frags ++ [pkt.msg]).flatten]) := by
  refine h.join hpkt hnext ?_
  rw [show pkt.code.kind = .last by simp [InboxCode.kind, hfrag, hroll]]
  rfl

/-! ## The recv window -/

theorem Ahead.mono {m : ℕ} (h : Ahead P n els) (hle : m ≤ n) : Ahead P m els :=
  ⟨h.sorted, fun el hel => Nat.lt_of_le_of_lt hle (h.lt el hel), h.holds⟩

/-- What follows the first packet. -/
theorem Ahead.tail (h : Ahead P n (el :: els)) : Ahead P el.pkt.srcSeqno els :=
  ⟨(List.pairwise_cons.1 h.sorted).2, (List.pairwise_cons.1 h.sorted).1,
    fun x hx => h.holds x (List.mem_cons_of_mem el hx)⟩

/-- A window whose first packet is not the next one is after a gap. -/
theorem Ahead.gap (h : Ahead P n els) (hne : ∀ el ∈ els.head?, el.pkt.srcSeqno ≠ n + 1) :
    Ahead P (n + 1) els := by
  refine ⟨h.sorted, fun x hx => ?_, h.holds⟩
  cases els with
  | nil => cases hx
  | cons el rest =>
    have hlt := h.lt el List.mem_cons_self
    have hgap : el.pkt.srcSeqno ≠ n + 1 := hne el rfl
    rcases List.mem_cons.1 hx with rfl | hx
    · omega
    · have hltx := (List.pairwise_cons.1 h.sorted).1 x hx
      omega

/-- A packet compares with one of the window as the numbers do. -/
theorem Ahead.cmp (h : Ahead P n els) (hnear : P.length < n + 2 ^ 31) (hpkt : Holds P pkt)
    (hlt : n < pkt.srcSeqno) (hel : el ∈ els) :
    seqnoCmp el.pkt.srcSeqno pkt.srcSeqno = el.pkt.srcSeqno - pkt.srcSeqno := by
  have hle := hpkt.le
  have hellt := h.lt el hel
  have helle := (h.holds el hel).le
  exact seqnoCmp_eq (by omega) (by omega)

/-- The packet is put at its place, if it is not there. -/
theorem Ahead.insertIn (h : Ahead P n els) (hnear : P.length < n + 2 ^ 31) {x : WinElem}
    (hpkt : Holds P x.pkt) (hlt : n < x.pkt.srcSeqno)
    (hnew : repeated x.pkt.srcSeqno els = false) :
    Ahead P n (insertIn x els) ∧ ∀ y ∈ insertIn x els, y = x ∨ y ∈ els := by
  induction els with
  | nil =>
    refine ⟨⟨List.pairwise_singleton _ _, fun el hel => ?_, fun el hel => ?_⟩, fun y hy => ?_⟩
    · rw [List.mem_singleton.1 hel]
      exact hlt
    · rw [List.mem_singleton.1 hel]
      exact hpkt
    · exact .inl (List.mem_singleton.1 hy)
  | cons el rest ih =>
    have hcmp := h.cmp hnear hpkt hlt List.mem_cons_self
    have hellt := h.lt el List.mem_cons_self
    have hsorted := List.pairwise_cons.1 h.sorted
    rw [InboxHeap.repeated, hcmp] at hnew
    rw [InboxHeap.insertIn, hcmp]
    split
    · next hge =>
        rw [if_pos hge] at hnew
        have hne := of_decide_eq_false hnew
        have hbefore : x.pkt.srcSeqno < el.pkt.srcSeqno := by omega
        refine ⟨⟨List.pairwise_cons.2 ⟨fun y hy => ?_, h.sorted⟩, fun y hy => ?_, fun y hy => ?_⟩,
          fun y hy => List.mem_cons.1 hy⟩
        · rcases List.mem_cons.1 hy with rfl | hy
          · exact hbefore
          · exact hbefore.trans (hsorted.1 y hy)
        · rcases List.mem_cons.1 hy with rfl | hy
          · exact hlt
          · exact h.lt y hy
        · rcases List.mem_cons.1 hy with rfl | hy
          · exact hpkt
          · exact h.holds y hy
    · next hge =>
        rw [if_neg hge] at hnew
        have htail : Ahead P n rest := h.tail.mono hellt.le
        obtain ⟨hahead, hmem⟩ := ih htail hnew
        refine ⟨⟨List.pairwise_cons.2 ⟨fun y hy => ?_, hahead.sorted⟩, fun y hy => ?_,
          fun y hy => ?_⟩, fun y hy => ?_⟩
        · rcases hmem y hy with rfl | hy
          · omega
          · exact hsorted.1 y hy
        · rcases List.mem_cons.1 hy with rfl | hy
          · exact hellt
          · exact hahead.lt y hy
        · rcases List.mem_cons.1 hy with rfl | hy
          · exact h.holds y List.mem_cons_self
          · exact hahead.holds y hy
        · rcases List.mem_cons.1 hy with rfl | hy
          · exact .inr List.mem_cons_self
          · exact (hmem y hy).imp_right (List.mem_cons_of_mem el)

end

end InboxPair

end Raims
