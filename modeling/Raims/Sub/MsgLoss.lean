import Raims.Sub.MatchSeqno
import Raims.Pub.PubTab

/-!
# The messages that were lost

What a publisher stamps on a subject, and what a subscriber that gets some of it, in
order, is told of the rest. In a frame the difference of the numbers counts, across
the start of a frame the chain does. If the start of a frame is lost nobody knows how
many were.
-/

namespace Raims

/-! ## What a publisher stamps -/

/-- What the callers of `next_seqno` see to: the clock does not go back, the window
is longer than a frame, an entry that is dropped is of an older frame, and so is one
that counted to the end of its frame. -/
structure Timely (last : UInt64) (isNew : Bool) (curFrame oldFrame : UInt64) : Prop where
  lt : curFrame.toNat < 2 ^ 62
  old : (timeFrame oldFrame).toNat < (timeFrame curFrame).toNat
  le : (seqnoFrame last).toNat ≤ (timeFrame curFrame).toNat
  fresh : isNew = true ∨ seqnoBase (last + 1) = 0 →
    (seqnoFrame last).toNat < (timeFrame curFrame).toNat

/-- The messages that a publisher stamps with `next_seqno` after the number `last`.
An entry that was dropped from the window is new when it is published again. -/
inductive Stamps : UInt64 → List Stamped → Prop
  | nil (last : UInt64) : Stamps last []
  | cons {last : UInt64} {rest : List Stamped} (p : Pub) (isNew : Bool)
      (curFrame oldFrame : UInt64) :
      p.seqno = (if isNew then 0 else last) → Timely last isNew curFrame oldFrame →
      Stamps (p.nextSeqno isNew curFrame oldFrame).1.seqno rest →
      Stamps last ((p.nextSeqno isNew curFrame oldFrame).2 :: rest)

/-- A message that goes on in the frame of the last number. -/
structure GoesOn (last : UInt64) (m : Stamped) : Prop where
  seqno : m.seqno.toNat = last.toNat + 1
  frame : seqnoFrame m.seqno = seqnoFrame last
  base : seqnoBase m.seqno ≠ 1
  chain : m.chainSeqno = 0

/-- A message that starts a new frame, with the chain to the last number or without
one. -/
structure Restarts (last : UInt64) (m : Stamped) : Prop where
  frame : (seqnoFrame last).toNat < (seqnoFrame m.seqno).toNat
  base : seqnoBase m.seqno = 1
  chain : m.chainSeqno = 0 ∨ m.chainSeqno = last

/-- What holds of every message: it counts from 1, in a frame that is not 0. -/
structure WellStamped (m : Stamped) : Prop where
  base : seqnoBase m.seqno ≠ 0
  frame : 0 < (seqnoFrame m.seqno).toNat
  time : m.time.toNat < 2 ^ 62

theorem seqnoBase_seqnoInit_succ (time : UInt64) : seqnoBase (seqnoInit time + 1) = 1 := by
  refine UInt64.toNat_inj.1 ?_
  rw [toNat_seqnoBase, toNat_seqnoInit_succ, UInt64.toNat_one]
  omega

/-- A number that is followed in its frame by the first one is 0. -/
theorem seqnoBase_succ_ne_one {last : UInt64} (h : seqnoBase (last + 1) ≠ 0)
    (hlast : seqnoBase last ≠ 0) : seqnoBase (last + 1) ≠ 1 := by
  obtain ⟨hsucc, -⟩ := toNat_succ_of_base h
  intro h1
  have hone : (seqnoBase (last + 1)).toNat = 1 := by rw [h1]; rfl
  have h0 : (seqnoBase last).toNat ≠ 0 := fun h0 => hlast (UInt64.toNat_inj.1 h0)
  rw [toNat_seqnoBase, hsucc] at hone
  rw [toNat_seqnoBase] at h0
  omega

/-- One message: it goes on, or it starts a new frame. The first message of all
starts one. -/
theorem nextSeqno_cases {last curFrame oldFrame : UInt64} {p : Pub} {isNew : Bool}
    (hp : p.seqno = if isNew then 0 else last) (ht : Timely last isNew curFrame oldFrame)
    (hlast : last = 0 ∨ seqnoBase last ≠ 0) :
    let r := p.nextSeqno isNew curFrame oldFrame
    r.1.seqno = r.2.seqno ∧ WellStamped r.2 ∧
      (Restarts last r.2 ∨ last ≠ 0 ∧ GoesOn last r.2) := by
  intro r
  have hframe := seqnoFrame_seqnoInit_succ curFrame
  have hbase := seqnoBase_seqnoInit_succ curFrame
  have hwell (chain l : UInt64) :
      WellStamped ⟨seqnoInit curFrame + 1, curFrame, chain, l⟩ := by
    refine ⟨?_, ?_, ht.lt⟩
    · rw [hbase]
      decide
    · rw [hframe]
      exact lt_of_le_of_lt (Nat.zero_le _) ht.old
  cases isNew with
  | true =>
    refine ⟨rfl, hwell 0 p.seqno, Or.inl ⟨?_, hbase, Or.inl rfl⟩⟩
    show _ < (seqnoFrame (seqnoInit curFrame + 1)).toNat
    rw [hframe]
    exact ht.fresh (Or.inl rfl)
  | false =>
    obtain ⟨seqno, stamp⟩ := p
    obtain rfl : seqno = last := hp
    by_cases hold : seqnoFrame seqno ≤ timeFrame oldFrame ∨ seqnoBase (seqno + 1) = 0
    · have hr : r = (⟨seqnoInit curFrame + 1, curFrame⟩,
          ⟨seqnoInit curFrame + 1, curFrame, seqno, seqno⟩) := by
        simp only [r, Pub.nextSeqno, Bool.false_eq_true, if_false, if_pos hold]
        rfl
      rw [hr]
      refine ⟨rfl, hwell seqno seqno, Or.inl ⟨?_, hbase, Or.inr rfl⟩⟩
      show _ < (seqnoFrame (seqnoInit curFrame + 1)).toNat
      rw [hframe]
      rcases hold with hle | hfull
      · exact lt_of_le_of_lt (UInt64.le_iff_toNat_le.1 hle) ht.old
      · exact ht.fresh (Or.inr hfull)
    · have hr : r = (⟨seqno + 1, curFrame⟩, ⟨seqno + 1, curFrame, 0, seqno⟩) := by
        simp only [r, Pub.nextSeqno, Bool.false_eq_true, if_false, if_neg hold]
      rw [hr]
      obtain ⟨hlt, hfull⟩ := not_or.1 hold
      obtain ⟨hsucc, hsame⟩ := toNat_succ_of_base hfull
      have hne : seqno ≠ 0 := by
        rintro rfl
        exact hlt (UInt64.le_iff_toNat_le.2 (Nat.zero_le _))
      have hpos : 0 < (seqnoFrame seqno).toNat := by
        rw [UInt64.le_iff_toNat_le] at hlt
        omega
      refine ⟨rfl, ⟨hfull, ?_, ht.lt⟩, Or.inr ⟨hne, hsucc, hsame, ?_, rfl⟩⟩
      · rwa [hsame]
      · exact seqnoBase_succ_ne_one hfull (hlast.resolve_left hne)

/-- Two messages in a row. -/
def Succeeds (a b : Stamped) : Prop := Restarts a.seqno b ∨ GoesOn a.seqno b

theorem Stamps.chain {a : Stamped} {hist : List Stamped} (h : Stamps a.seqno hist)
    (ha : seqnoBase a.seqno ≠ 0) : (∀ m ∈ hist, WellStamped m) ∧ (a :: hist).IsChain Succeeds := by
  induction hist generalizing a with
  | nil => exact ⟨by simp, List.isChain_singleton a⟩
  | cons m rest ih =>
    cases h with
    | cons p isNew curFrame oldFrame hp ht hrest =>
      obtain ⟨hseqno, hwell, hnext⟩ := nextSeqno_cases hp ht (Or.inr ha)
      rw [hseqno] at hrest
      obtain ⟨hall, hchain⟩ := ih hrest hwell.base
      refine ⟨List.forall_mem_cons.2 ⟨hwell, hall⟩, List.isChain_cons_cons.2 ⟨?_, hchain⟩⟩
      exact hnext.imp id fun h => h.2

/-- A history from the first message on. -/
theorem Stamps.history {hist : List Stamped} (h : Stamps 0 hist) :
    (∀ m ∈ hist, WellStamped m) ∧ hist.IsChain Succeeds := by
  cases h with
  | nil => exact ⟨by simp, List.isChain_nil⟩
  | cons p isNew curFrame oldFrame hp ht hrest =>
    obtain ⟨hseqno, hwell, -⟩ := nextSeqno_cases hp ht (Or.inl rfl)
    rw [hseqno] at hrest
    obtain ⟨hall, hchain⟩ := hrest.chain hwell.base
    exact ⟨List.forall_mem_cons.2 ⟨hwell, hall⟩, hchain⟩

/-! ## Two messages of a history -/

/-- A start of a frame is among the messages between two. -/
def LostRestart (hist : List Stamped) (i j : ℕ) : Prop :=
  ∃ k m, i < k ∧ k < j ∧ hist[k]? = some m ∧ seqnoBase m.seqno = 1

/-- What the stamps of two messages say of the number of messages between them. -/
inductive Gap (a b : Stamped) (d : ℕ) (lost : Prop) : Prop
  | sameFrame : seqnoFrame b.seqno = seqnoFrame a.seqno →
      b.seqno.toNat = a.seqno.toNat + d + 1 → Gap a b d lost
  | chained : (seqnoFrame a.seqno).toNat < (seqnoFrame b.seqno).toNat →
      seqnoBase b.seqno = 1 → seqnoFrame b.chainSeqno = seqnoFrame a.seqno →
      b.chainSeqno.toNat = a.seqno.toNat + d → Gap a b d lost
  | unchained : (seqnoFrame a.seqno).toNat < (seqnoFrame b.seqno).toNat →
      seqnoBase b.seqno = 1 → seqnoFrame b.chainSeqno ≠ seqnoFrame a.seqno → Gap a b d lost
  | inner : (seqnoFrame a.seqno).toNat < (seqnoFrame b.seqno).toNat →
      seqnoBase b.seqno ≠ 1 → b.chainSeqno = 0 → lost → Gap a b d lost

/-- The next message starts a frame. -/
theorem gap_restarts {a b c : Stamped} {d : ℕ} {lost : Prop} (ha : WellStamped a)
    (hle : (seqnoFrame a.seqno).toNat ≤ (seqnoFrame b.seqno).toNat)
    (hsame : seqnoFrame b.seqno = seqnoFrame a.seqno → b.seqno.toNat = a.seqno.toNat + d)
    (h : Restarts b.seqno c) : Gap a c d lost := by
  have hlt := lt_of_le_of_lt hle h.frame
  have hzero : seqnoFrame 0 ≠ seqnoFrame a.seqno := by
    intro h0
    have hpos := ha.frame
    rw [← h0] at hpos
    exact absurd hpos (by decide)
  rcases h.chain with h0 | hchain
  · refine .unchained hlt h.base ?_
    rw [h0]
    exact hzero
  · by_cases hframe : seqnoFrame b.seqno = seqnoFrame a.seqno
    · refine .chained hlt h.base ?_ ?_
      · rw [hchain]
        exact hframe
      · rw [hchain]
        exact hsame hframe
    · refine .unchained hlt h.base ?_
      rw [hchain]
      exact hframe

/-- One more message after a gap. -/
theorem Gap.succ {a b c : Stamped} {d : ℕ} {lost lost' : Prop} (ha : WellStamped a)
    (h : Gap a b d lost) (hmono : lost → lost') (hnew : seqnoBase b.seqno = 1 → lost')
    (hbc : Succeeds b c) : Gap a c (d + 1) lost' := by
  have hle : (seqnoFrame a.seqno).toNat ≤ (seqnoFrame b.seqno).toNat := by
    cases h with
    | sameFrame hframe _ => rw [hframe]
    | chained hlt _ _ _ => exact hlt.le
    | unchained hlt _ _ => exact hlt.le
    | inner hlt _ _ _ => exact hlt.le
  rcases hbc with hrestart | hon
  · refine gap_restarts ha hle (fun hframe => ?_) hrestart
    cases h with
    | sameFrame _ hseqno => exact hseqno
    | chained hlt _ _ _ => exact absurd (congrArg UInt64.toNat hframe) (Nat.ne_of_gt hlt)
    | unchained hlt _ _ => exact absurd (congrArg UInt64.toNat hframe) (Nat.ne_of_gt hlt)
    | inner hlt _ _ _ => exact absurd (congrArg UInt64.toNat hframe) (Nat.ne_of_gt hlt)
  · have hlater (hlt : (seqnoFrame a.seqno).toNat < (seqnoFrame b.seqno).toNat)
        (hlost : lost') : Gap a c (d + 1) lost' := by
      refine .inner ?_ hon.base hon.chain hlost
      rwa [hon.frame]
    cases h with
    | sameFrame hframe hseqno =>
      refine .sameFrame (hon.frame.trans hframe) ?_
      rw [hon.seqno, hseqno]
      rfl
    | chained hlt hbase _ _ => exact hlater hlt (hnew hbase)
    | unchained hlt hbase _ => exact hlater hlt (hnew hbase)
    | inner hlt _ _ hlost => exact hlater hlt (hmono hlost)

theorem succeeds_of_isChain {hist : List Stamped} (h : hist.IsChain Succeeds) {k : ℕ}
    {a b : Stamped} (ha : hist[k]? = some a) (hb : hist[k + 1]? = some b) : Succeeds a b := by
  obtain ⟨hk, rfl⟩ := List.getElem?_eq_some_iff.1 ha
  obtain ⟨hk', rfl⟩ := List.getElem?_eq_some_iff.1 hb
  exact List.isChain_iff_getElem.1 h k hk'

/-- The stamps of any two messages of a history. -/
theorem gap_of_history {hist : List Stamped} (h : Stamps 0 hist) {i d : ℕ} {a b : Stamped}
    (ha : hist[i]? = some a) (hb : hist[i + 1 + d]? = some b) :
    Gap a b d (LostRestart hist i (i + 1 + d)) := by
  obtain ⟨hwell, hchain⟩ := h.history
  have hwella := hwell a (List.mem_of_getElem? ha)
  induction d generalizing b with
  | zero =>
    rcases succeeds_of_isChain hchain ha hb with hrestart | hon
    · exact gap_restarts hwella le_rfl (fun _ => rfl) hrestart
    · exact .sameFrame hon.frame hon.seqno
  | succ d ih =>
    obtain ⟨c, hc⟩ : ∃ c, hist[i + 1 + d]? = some c := by
      obtain ⟨hlt, -⟩ := List.getElem?_eq_some_iff.1 hb
      exact ⟨_, List.getElem?_eq_getElem (Nat.lt_of_succ_lt hlt)⟩
    refine (ih hc).succ hwella ?_ ?_ (succeeds_of_isChain hchain hc hb)
    · rintro ⟨k, m, hik, hkj, hm⟩
      exact ⟨k, m, hik, Nat.lt_succ_of_lt hkj, hm⟩
    · intro hbase
      exact ⟨i + 1 + d, c, by omega, Nat.lt_succ_self _, hc, hbase⟩

/-! ## What the subscriber is told -/

/-- The numbers that stand for a loss fit their field, `uint16_t msg_loss`. -/
structure SeqnoKv.Fits (kv : SeqnoKv) : Prop where
  maxMsgLoss : kv.maxMsgLoss < 2 ^ 16
  msgFrameLoss : kv.msgFrameLoss < 2 ^ 16

/-- A later frame is a later time. -/
theorem lt_of_timeFrame_lt {a b : UInt64} (ha : a.toNat < 2 ^ 62) (hb : b.toNat < 2 ^ 62)
    (h : (timeFrame a).toNat < (timeFrame b).toNat) : a < b := by
  rw [toNat_timeFrame_of_lt ha, toNat_timeFrame_of_lt hb] at h
  rw [UInt64.lt_iff_toNat_lt]
  omega

namespace SubSeqno

variable {kv : SeqnoKv} {s : SubSeqno} {a b : Stamped} {time : UInt64} {ctx : SeqnoArgs} {d : ℕ}
  {lost : Prop}

/-- A message of a later frame is not the next one of the last frame. -/
theorem ne_succ_of_frame_lt (hbase : seqnoBase b.seqno ≠ 0)
    (h : (seqnoFrame a.seqno).toNat < (seqnoFrame b.seqno).toNat) : b.seqno ≠ a.seqno + 1 := by
  intro heq
  rw [heq] at hbase h
  obtain ⟨-, hframe⟩ := toNat_succ_of_base hbase
  rw [hframe] at h
  exact Nat.lt_irrefl _ h

/-- What `sequence` says of a message of the history, after another one of it. -/
def Told (kv : SeqnoKv) (a b : Stamped) (d : ℕ) (lost : Prop) (status : SeqnoStatus)
    (msgLoss : ℕ) : Prop :=
  status.accepted = true ∧
    (msgLoss = min d kv.maxMsgLoss ∨ (msgLoss = kv.msgFrameLoss ∧ lost) ∨
      (d ≠ 0 ∧ seqnoBase b.seqno = 1 ∧ seqnoFrame b.chainSeqno ≠ seqnoFrame a.seqno))

/-- The record of a publisher whose last message was `a`. -/
structure Recorded (v : SeqnoSave) (a : Stamped) : Prop where
  seqno : v.seqno = a.seqno
  inFrame : v.InFrame
  time : v.time.toNat < 2 ^ 62

theorem sequence_told (hfit : kv.Fits) (ha : Recorded s.last a) (hwa : WellStamped a)
    (hwb : WellStamped b) (htime : timeFrame time = seqnoFrame b.seqno)
    (hlt : time.toNat < 2 ^ 62) (hchain : ctx.chainSeqno = b.chainSeqno) (hloss : ctx.msgLoss = 0)
    (hgap : Gap a b d lost) :
    let r := s.sequence kv b.seqno time ctx
    Told kv a b d lost r.2.2 r.2.1.msgLoss ∧ Recorded r.1.last b := by
  have hseqno : s.lastSeqno = a.seqno := ha.seqno
  have hframe : timeFrame s.lastTime = seqnoFrame a.seqno := by
    rw [← ha.seqno]
    exact ha.inFrame
  -- a message of a later frame
  have hlater (hab : (seqnoFrame a.seqno).toNat < (seqnoFrame b.seqno).toNat) :
      b.seqno ≠ s.lastSeqno + 1 ∧ seqnoFrame b.seqno ≠ timeFrame s.lastTime ∧
        s.lastTime < time := by
    refine ⟨?_, ?_, lt_of_timeFrame_lt ha.time hlt ?_⟩
    · rw [hseqno]
      exact ne_succ_of_frame_lt hwb.base hab
    · rw [hframe]
      exact fun h => Nat.ne_of_gt hab (congrArg UInt64.toNat h)
    · rwa [hframe, htime]
  have hnew : Recorded ⟨b.seqno, time, ctx.stamp⟩ b := ⟨rfl, htime, hlt⟩
  cases hgap with
  | sameFrame hsame hcount =>
    have hrec : Recorded ⟨b.seqno, s.lastTime, ctx.stamp⟩ b :=
      ⟨rfl, hframe.trans hsame.symm, ha.time⟩
    by_cases hnext : b.seqno = s.lastSeqno + 1
    · have hd : d = 0 := by
        rw [hseqno] at hnext
        obtain ⟨hsucc, -⟩ := toNat_succ_of_base (hnext ▸ hwb.base)
        rw [hnext, hsucc] at hcount
        omega
      simp only [sequence, if_pos hnext]
      refine ⟨⟨rfl, Or.inl ?_⟩, hrec⟩
      rw [hd, Nat.zero_min]
      exact hloss
    · have hgt : s.lastSeqno < b.seqno := by
        rw [hseqno, UInt64.lt_iff_toNat_lt]
        omega
      simp only [sequence, if_neg hnext, if_pos (hsame.trans hframe.symm), if_pos hgt]
      refine ⟨⟨rfl, Or.inl ?_⟩, hrec⟩
      have hsub : (b.seqno - (s.lastSeqno + 1)).toNat = d := by
        have hlt := b.seqno.toNat_lt
        have hsucc : (s.lastSeqno + 1).toNat = a.seqno.toNat + 1 := by
          rw [hseqno, UInt64.toNat_add, UInt64.toNat_one]
          omega
        rw [UInt64.toNat_sub_of_le _ _ (UInt64.le_iff_toNat_le.2 (by omega)), hsucc]
        omega
      rw [hsub]
      exact Nat.mod_eq_of_lt (lt_of_le_of_lt (min_le_right _ _) hfit.maxMsgLoss)
  | chained hab _ hcf hcount =>
    obtain ⟨hne, hnf, htl⟩ := hlater hab
    simp only [sequence, if_neg hne, if_neg hnf, if_pos htl]
    by_cases hlast : s.lastSeqno = ctx.chainSeqno
    · rw [if_pos hlast]
      refine ⟨⟨rfl, Or.inl ?_⟩, hnew⟩
      rw [hseqno, hchain] at hlast
      rw [← hlast] at hcount
      have hd : d = 0 := by omega
      rw [hd, Nat.zero_min]
      exact hloss
    · rw [if_neg hlast, if_pos (by rw [hchain, hcf, hseqno])]
      refine ⟨⟨rfl, Or.inl ?_⟩, hnew⟩
      have hsub : (ctx.chainSeqno - s.lastSeqno).toNat = d := by
        rw [hchain, hseqno, UInt64.toNat_sub_of_le _ _ (UInt64.le_iff_toNat_le.2 (by omega))]
        omega
      rw [hsub]
      exact Nat.mod_eq_of_lt (lt_of_le_of_lt (min_le_right _ _) hfit.maxMsgLoss)
  | unchained hab hbase hcf =>
    obtain ⟨hne, hnf, htl⟩ := hlater hab
    have hlast : s.lastSeqno ≠ ctx.chainSeqno := by
      rw [hseqno, hchain]
      exact fun h => hcf (congrArg seqnoFrame h.symm)
    have hcf' : seqnoFrame ctx.chainSeqno ≠ seqnoFrame s.lastSeqno := by rwa [hchain, hseqno]
    simp only [sequence, if_neg hne, if_neg hnf, if_pos htl, if_neg hlast, if_neg hcf',
      if_pos hbase]
    refine ⟨⟨rfl, ?_⟩, hnew⟩
    by_cases hd : d = 0
    · rw [hd, Nat.zero_min]
      exact Or.inl hloss
    · exact Or.inr (Or.inr ⟨hd, hbase, hcf⟩)
  | inner hab hbase h0 hlost =>
    obtain ⟨hne, hnf, htl⟩ := hlater hab
    have hcf : seqnoFrame ctx.chainSeqno ≠ seqnoFrame s.lastSeqno := by
      rw [hchain, hseqno, h0]
      intro h
      have hpos := hwa.frame
      rw [← h] at hpos
      exact absurd hpos (by decide)
    have hlast : s.lastSeqno ≠ ctx.chainSeqno := fun h => hcf (congrArg seqnoFrame h.symm)
    simp only [sequence, if_neg hne, if_neg hnf, if_pos htl, if_neg hlast, if_neg hcf,
      if_neg hbase]
    exact ⟨⟨rfl, Or.inr (Or.inl ⟨Nat.mod_eq_of_lt hfit.msgFrameLoss, hlost⟩)⟩, hnew⟩

/-- The publisher published last, or its record is restored. -/
theorem receive_told {uid : UInt32} {v : SeqnoSave} (time : UInt64) (hfit : kv.Fits)
    (hsaved : s.saved uid = some v) (ha : Recorded v a) (hwa : WellStamped a)
    (hwb : WellStamped b) (htime : timeFrame time = seqnoFrame b.seqno)
    (hlt : time.toNat < 2 ^ 62) (hchain : ctx.chainSeqno = b.chainSeqno) (hloss : ctx.msgLoss = 0)
    (hgap : Gap a b d lost) :
    let r := s.receive kv uid b.seqno time ctx
    Told kv a b d lost r.2.2 r.2.1.msgLoss ∧ ∃ v', r.1.saved uid = some v' ∧ Recorded v' b := by
  obtain ⟨s', huid, hlast, heq⟩ := receive_eq_sequence kv b.seqno time ctx hsaved
  rw [heq]
  subst hlast
  obtain ⟨htold, hrec⟩ := sequence_told hfit ha hwa hwb htime hlt hchain hloss hgap
  exact ⟨htold, _, saved_sequence_last kv ctx huid, hrec⟩

end SubSeqno

/-! ## A subscriber -/

namespace SubNode

variable {kv : SeqnoKv} {n : SubNode} {pub : MsgFramePublish} {stamp : UInt64}

/-- What `match_subscription` leaves of the arguments. -/
def SameLoss (ctx ctx' : SeqnoArgs) : Prop :=
  ctx'.chainSeqno = ctx.chainSeqno ∧ ctx'.msgLoss = ctx.msgLoss

theorem sameLoss_addRoute {ctx ctx' : SeqnoArgs} (h : SameLoss ctx ctx') (startSeqno : ℕ)
    (onData : Option ℕ) (ref : SubRefs) : SameLoss ctx (ctx'.addRoute startSeqno onData ref) := by
  rw [SeqnoArgs.addRoute]
  dsimp only
  split
  · exact h
  · exact h

theorem sameLoss_matchSubscription (kv : SeqnoKv) (db : SubDB) (pub : MsgFramePublish)
    (ctx : SeqnoArgs) : SameLoss ctx (db.matchSubscription kv pub ctx).1 := by
  rw [SubDB.matchSubscription]
  refine List.foldlRecOn (motive := fun r : SeqnoArgs × Bool => SameLoss ctx r.1) _ _ ⟨rfl, rfl⟩
    fun r hr h _ => ?_
  split
  · split
    · exact hr
    · exact sameLoss_addRoute hr _ _ _
  · exact List.foldlRecOn (motive := fun r : SeqnoArgs × Bool => SameLoss ctx r.1) _ _ hr
      fun r hr rt _ => sameLoss_addRoute hr _ _ _

/-- A message that goes to the entry that is there. -/
theorem recv_kept (htrail : n.isTrailing pub (recvArgs pub stamp) = false)
    (hkeep : n.keeps kv pub.key (.recv pub stamp) = true) :
    ∃ s s' ctx, n.seqnoTab.find pub.key = some s ∧ (∀ uid, s'.saved uid = s.saved uid) ∧
      ctx.chainSeqno = pub.chainSeqno ∧ ctx.msgLoss = 0 ∧
      n.recv kv pub stamp = matchEntry kv pub (msgTime pub (recvArgs pub stamp))
        (n.seqnoTab.upsert pub.key).1 s' ctx := by
  have hmatch := sameLoss_matchSubscription kv n.db pub (recvArgs pub stamp)
  have hfind := SeqnoTab.upsert_entry n.seqnoTab pub.key
  have hrecv := show n.recv kv pub stamp = n.matchSeqno kv pub (recvArgs pub stamp) from rfl
  rw [matchSeqno, htrail, if_neg Bool.false_ne_true] at hrecv
  dsimp only at hrecv
  simp only [keeps, if_true] at hkeep
  cases hentry : n.seqnoTab.find pub.key with
  | none =>
    rw [hentry] at hkeep
    cases hkeep
  | some s =>
    simp only [hfind, hentry] at hrecv hkeep
    by_cases hupd : s.updateSeqno = n.db.updateSeqno
    · rw [if_neg (not_not.2 hupd)] at hrecv
      exact ⟨s, s, _, rfl, fun _ => rfl, rfl, rfl, hrecv⟩
    · simp only [hupd, decide_false, Bool.false_or, Bool.and_eq_true, decide_eq_true_eq] at hkeep
      rw [if_pos hupd, if_pos hkeep.1, if_neg (not_not.2 hkeep.2.symm)] at hrecv
      refine ⟨s, _, _, rfl, ?_, hmatch.1, hmatch.2, hrecv⟩
      exact fun _ => rfl

/-- A message of the history, as it is received. -/
def stampedPub (key : RouteKey) (uid : UInt32) (m : Stamped) (skew : UInt64) (hash : List UInt32) :
    MsgFramePublish :=
  ⟨uid, skew, key.hash, key.value, hash, m.seqno, m.time, m.chainSeqno⟩

/-- A node, and the place in the history of the last message that it took. -/
structure Listener where
  node : SubNode
  last : ℕ

/-- What can happen to a listener: a message of the history, or anything else. -/
inductive Heard where
  | message (j : ℕ) (skew : UInt64) (hash : List UInt32) (stamp : UInt64)
  | other (e : Event)

variable (kv) (subKv : Kv) (hist : List Stamped) (key : RouteKey) (uid : UInt32)

/-- A message that is older than the trailing edge is not taken. -/
def Listener.step (w : Listener) : Heard → Listener
  | .message j skew hash stamp =>
    match hist[j]? with
    | none => w
    | some m =>
      let pub := stampedPub key uid m skew hash
      ⟨w.node.step kv subKv (.recv pub stamp),
        if w.node.isTrailing pub (recvArgs pub stamp) then w.last else j⟩
  | .other e => ⟨w.node.step kv subKv e, w.last⟩

/-- The messages come in the order in which they were published, and the entry of
the subject stays. -/
def Listener.Hears (w : Listener) : Heard → Prop
  | .message j skew hash stamp =>
    ∃ m, hist[j]? = some m ∧ w.last < j ∧
      w.node.keeps kv key (.recv (stampedPub key uid m skew hash) stamp) = true
  | .other e =>
    w.node.keeps kv key e = true ∧
      ∀ pub stamp, e = .recv pub stamp → ¬ (pub.uid = uid ∧ pub.key = key)

/-- The window has an entry with the record of the publisher's last message. -/
def Listener.Live (w : Listener) : Prop :=
  ∃ m s v, hist[w.last]? = some m ∧ w.node.seqnoTab.find key = some s ∧
    s.saved uid = some v ∧ SubSeqno.Recorded v m

/-- The message is accepted, and the loss is the number of messages since the last
one, or nobody knows it because the start of a frame is among them. -/
def Exact (i j : ℕ) (r : Result) : Prop :=
  r.status.accepted = true ∧
    (r.ctx.msgLoss = min (j - i - 1) kv.maxMsgLoss ∨
      (r.ctx.msgLoss = kv.msgFrameLoss ∧ LostRestart hist i j))

variable {kv hist key uid} {subKv} {w : Listener}

theorem toNat_msgTime_lt {m : Stamped} (hm : WellStamped m) (key : RouteKey) (uid : UInt32)
    (skew : UInt64) (hash : List UInt32) (stamp : UInt64) :
    (msgTime (stampedPub key uid m skew hash)
      (recvArgs (stampedPub key uid m skew hash) stamp)).toNat < 2 ^ 62 := by
  rw [msgTime]
  split
  · exact hm.time
  · rw [toNat_seqnoTime]
    have hlt := (stampedPub key uid m skew hash).seqno.toNat_lt
    omega

/-- A message of the history that is not behind the trailing edge. -/
theorem recv_told (hfit : kv.Fits) (hhist : Stamps 0 hist) (hlive : w.Live hist key uid)
    {j : ℕ} {b : Stamped} {skew : UInt64} {hash : List UInt32} (hb : hist[j]? = some b)
    (hlt : w.last < j)
    (hkeep : w.node.keeps kv key (.recv (stampedPub key uid b skew hash) stamp) = true)
    (htrail : w.node.isTrailing (stampedPub key uid b skew hash)
      (recvArgs (stampedPub key uid b skew hash) stamp) = false) :
    let r := w.node.recv kv (stampedPub key uid b skew hash) stamp
    (∃ a, hist[w.last]? = some a ∧ SubSeqno.Told kv a b (j - w.last - 1)
        (LostRestart hist w.last j) r.status r.ctx.msgLoss) ∧
      ∃ s v, r.seqnoTab.find key = some s ∧ s.saved uid = some v ∧ SubSeqno.Recorded v b := by
  intro r
  obtain ⟨a, s₀, v₀, ha, hfind, hsaved, hrec⟩ := hlive
  obtain ⟨hwell, -⟩ := hhist.history
  have hwb := hwell b (List.mem_of_getElem? hb)
  have hj : j = w.last + 1 + (j - w.last - 1) := by omega
  have hgap : Gap a b (j - w.last - 1) (LostRestart hist w.last j) := by
    have hgap := gap_of_history hhist (d := j - w.last - 1) ha (by rw [← hj]; exact hb)
    rwa [← hj] at hgap
  obtain ⟨s, s', ctx, hs, hs', hchain, hloss, hr⟩ := recv_kept htrail hkeep
  obtain rfl := Option.some.inj (hfind.symm.trans hs)
  have htime := timeFrame_msgTime (stampedPub key uid b skew hash)
    (recvArgs (stampedPub key uid b skew hash) stamp)
  have htime_lt := toNat_msgTime_lt hwb key uid skew hash stamp
  generalize msgTime (stampedPub key uid b skew hash)
    (recvArgs (stampedPub key uid b skew hash) stamp) = time at htime htime_lt hr
  obtain ⟨htold, v, hv, hrecv⟩ := SubSeqno.receive_told time hfit
    ((hs' uid).trans hsaved) hrec (hwell a (List.mem_of_getElem? ha)) hwb htime htime_lt
    hchain hloss hgap
  have hr' : r = _ := hr
  refine ⟨⟨a, ha, ?_⟩, _, v, ?_, hv, hrecv⟩
  · rw [hr']
    exact htold
  · rw [hr']
    exact matchEntry_find _ _ _ _ _ _

theorem Listener.Live.step (hfit : kv.Fits) (hhist : Stamps 0 hist) (h : w.Live hist key uid)
    {e : Heard} (he : w.Hears kv hist key uid e) :
    (w.step kv subKv hist key uid e).Live hist key uid := by
  cases e with
  | message j skew hash stamp =>
    obtain ⟨b, hb, hlt, hkeep⟩ := he
    simp only [Listener.step, hb]
    cases htrail : w.node.isTrailing (stampedPub key uid b skew hash)
        (recvArgs (stampedPub key uid b skew hash) stamp) with
    | true =>
      have hsame : w.node.step kv subKv (.recv (stampedPub key uid b skew hash) stamp) =
          w.node := by
        rw [SubNode.step, recv, matchSeqno, if_pos htrail]
      rw [hsame]
      exact h
    | false =>
      obtain ⟨-, s, v, hs, hv, hrec⟩ := recv_told hfit hhist h hb hlt hkeep htrail
      exact ⟨b, s, v, hb, hs, hv, hrec⟩
  | other e =>
    obtain ⟨m, s, v, hm, hs, hv, hrec⟩ := h
    obtain ⟨s', hs', hsaved⟩ := step_keeps_record subKv he.1 he.2 hs
    exact ⟨m, s', v, hm, hs', hsaved.trans hv, hrec⟩

/-- **The loss that is told.** A subscriber has the record of a message of a
publisher and gets some of the later ones, in order. Each one that is not older than
the trailing edge is accepted, and it is told how many were lost before it, or that
the start of a frame was. This says nothing of a message that starts a frame after a
loss, if its chain is not to the frame of the last one. -/
theorem loss_told (subKv : Kv) (hfit : kv.Fits) (hhist : Stamps 0 hist) {w₀ : Listener}
    (hlive : w₀.Live hist key uid)
    (h : Run.Reach (Listener.step kv subKv hist key uid) (Listener.Hears kv hist key uid) w₀ w)
    {j : ℕ} {skew : UInt64} {hash : List UInt32} {stamp : UInt64}
    (hears : w.Hears kv hist key uid (.message j skew hash stamp)) :
    ∃ a b, hist[w.last]? = some a ∧ hist[j]? = some b ∧
      (w.node.isTrailing (stampedPub key uid b skew hash)
          (recvArgs (stampedPub key uid b skew hash) stamp) = false →
        let r := w.node.recv kv (stampedPub key uid b skew hash) stamp
        r.status.accepted = true ∧
          (Exact kv hist w.last j r ∨ (j ≠ w.last + 1 ∧ seqnoBase b.seqno = 1 ∧
            seqnoFrame b.chainSeqno ≠ seqnoFrame a.seqno))) := by
  have hw : w.Live hist key uid := by
    refine h.invariant ?_ ?_
    · exact hlive
    · exact fun w e hw he => hw.step hfit hhist he
  obtain ⟨b, hb, hlt, hkeep⟩ := hears
  obtain ⟨a, -, -, ha, -⟩ := id hw
  refine ⟨a, b, ha, hb, fun htrail => ?_⟩
  obtain ⟨⟨a', ha', hacc, htold⟩, -⟩ := recv_told hfit hhist hw hb hlt hkeep htrail
  obtain rfl := Option.some.inj (ha.symm.trans ha')
  refine ⟨hacc, ?_⟩
  rcases htold with hexact | hframe | ⟨hd, hbase, hchain⟩
  · exact Or.inl ⟨hacc, Or.inl hexact⟩
  · exact Or.inl ⟨hacc, Or.inr hframe⟩
  · exact Or.inr ⟨by omega, hbase, hchain⟩

/-- Five messages in the frames 2, 4 and 6, each frame chained to the one before. -/
def threeFrames : List Stamped :=
  [⟨68719476737, 17179869184, 0, 0⟩, ⟨68719476738, 17179869184, 0, 68719476737⟩,
    ⟨137438953473, 34359738368, 68719476738, 68719476738⟩,
    ⟨137438953474, 34359738368, 0, 137438953473⟩,
    ⟨206158430209, 51539607552, 137438953474, 137438953474⟩]

theorem stamps_threeFrames : Stamps 0 threeFrames := by
  refine .cons ⟨0, 0⟩ true 17179869184 8589934592 rfl ⟨?_, ?_, ?_, fun _ => ?_⟩
    (.cons ⟨68719476737, 0⟩ false 17179869184 8589934592 rfl ⟨?_, ?_, ?_, ?_⟩
    (.cons ⟨68719476738, 0⟩ false 34359738368 17179869184 rfl ⟨?_, ?_, ?_, ?_⟩
    (.cons ⟨137438953473, 0⟩ false 34359738368 25769803776 rfl ⟨?_, ?_, ?_, ?_⟩
    (.cons ⟨137438953474, 0⟩ false 51539607552 34359738368 rfl ⟨?_, ?_, ?_, ?_⟩ (.nil _)))))
  all_goals decide +kernel

/-- The subscriber of "A" that got the first message. -/
def firstHeard : Listener where
  node := subscribed.step plainKv SubDB.prefixKv
    (.recv (stampedPub ⟨7, [65]⟩ 1 ⟨68719476737, 17179869184, 0, 0⟩ 0 [7]) 0)
  last := 0

theorem live_firstHeard : firstHeard.Live threeFrames ⟨7, [65]⟩ 1 :=
  ⟨_, _, ⟨68719476737, 17179869184, 0⟩, rfl, rfl, rfl, rfl,
    by rw [SeqnoSave.InFrame]; decide, by decide⟩

/-- The second message is lost, the third one starts a frame: its chain tells of
the loss. -/
theorem loss_told_chained :
    (firstHeard.node.recv plainKv
        (stampedPub ⟨7, [65]⟩ 1 ⟨137438953473, 34359738368, 68719476738, 68719476738⟩ 0 [7])
        0).ctx.msgLoss = 1 ∧
      ∃ a b, threeFrames[firstHeard.last]? = some a ∧ threeFrames[2]? = some b ∧
        (firstHeard.node.isTrailing (stampedPub ⟨7, [65]⟩ 1 b 0 [7])
            (recvArgs (stampedPub ⟨7, [65]⟩ 1 b 0 [7]) 0) = false →
          let r := firstHeard.node.recv plainKv (stampedPub ⟨7, [65]⟩ 1 b 0 [7]) 0
          r.status.accepted = true ∧
            (Exact plainKv threeFrames firstHeard.last 2 r ∨
              (2 ≠ firstHeard.last + 1 ∧ seqnoBase b.seqno = 1 ∧
                seqnoFrame b.chainSeqno ≠ seqnoFrame a.seqno))) :=
  ⟨by decide +kernel, loss_told SubDB.prefixKv ⟨by decide, by decide⟩ stamps_threeFrames
    live_firstHeard .start ⟨_, rfl, by decide, by decide +kernel⟩⟩

/-- The loss is not told exactly. A message that the publisher's clock puts behind
the trailing edge is refused. And a message that starts a frame is not told of any
loss if the start of the frame before it was lost, too. -/
theorem loss_not_exact :
    ¬ (∀ (hist : List Stamped) (w : Listener) (j : ℕ) (skew : UInt64) (b : Stamped),
      Stamps 0 hist → w.Live hist ⟨7, [65]⟩ 1 → hist[j]? = some b →
      w.Hears plainKv hist ⟨7, [65]⟩ 1 (.message j skew [7] 0) →
        Exact plainKv hist w.last j
          (w.node.recv plainKv (stampedPub ⟨7, [65]⟩ 1 b skew [7]) 0)) ∧
    ¬ (∀ (hist : List Stamped) (w : Listener) (j : ℕ) (skew : UInt64) (b : Stamped),
      Stamps 0 hist → w.Live hist ⟨7, [65]⟩ 1 → hist[j]? = some b →
      w.Hears plainKv hist ⟨7, [65]⟩ 1 (.message j skew [7] 0) →
      w.node.isTrailing (stampedPub ⟨7, [65]⟩ 1 b skew [7])
          (recvArgs (stampedPub ⟨7, [65]⟩ 1 b skew [7]) 0) = false →
        Exact plainKv hist w.last j
          (w.node.recv plainKv (stampedPub ⟨7, [65]⟩ 1 b skew [7]) 0)) := by
  constructor
  · intro h
    -- the clock of the publisher is five seconds ahead
    obtain ⟨hacc, -⟩ := h threeFrames firstHeard 1 18446744068709551616 _ stamps_threeFrames
      live_firstHeard rfl ⟨_, rfl, by decide, by decide +kernel⟩
    exact absurd hacc (by decide +kernel)
  · intro h
    obtain ⟨-, hloss⟩ := h threeFrames firstHeard 4 0 _ stamps_threeFrames live_firstHeard rfl
      ⟨_, rfl, by decide, by decide +kernel⟩ (by decide +kernel)
    rcases hloss with hloss | ⟨hloss, -⟩
    · exact absurd hloss (by decide +kernel)
    · exact absurd hloss (by decide +kernel)

end SubNode

end Raims
