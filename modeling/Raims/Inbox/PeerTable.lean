import Raims.Inbox.ActiveList
import Raims.Inbox.InboxPeers
import Raims.Lib.Run

/-!
# The arrays of the inbox peers

The two arrays and the list of active peers agree with the state of the peers until
a packet takes the slot of another peer, or brings a peer without uid into `dest`.
Both are told by the header of the packet and the state before it.
-/

namespace Raims

/-! ## The arrays -/

namespace InboxPeers

/-- A uid is set where its bit is, and no peer that is still to be made has one. -/
structure Inv (s : InboxPeers) : Prop extends Mapped s where
  srcSet : ∀ q, (s.ids q).resolveSrc = true ↔ (s.ids q).srcUid ≠ noUid
  destSet : ∀ q, (s.ids q).resolveDest = true ↔ (s.ids q).destUid ≠ noUid
  fresh : ∀ q, s.nextPeer ≤ q → (s.ids q).srcUid = noUid ∧ (s.ids q).destUid = noUid
  srcLt : ∀ i q, PtrArray.get s.src i = some q → q < s.nextPeer

/-- The ids have the same uids and bits. -/
structure SameUids (p p' : PeerIds) : Prop where
  srcUid : p'.srcUid = p.srcUid
  destUid : p'.destUid = p.destUid
  resolveSrc : p'.resolveSrc = p.resolveSrc
  resolveDest : p'.resolveDest = p.resolveDest

section

variable {s : InboxPeers} {q q' : ℕ} {p : PeerIds} {uid : UInt32}

theorem SameUids.refl (p : PeerIds) : SameUids p p := ⟨rfl, rfl, rfl, rfl⟩

theorem setIds_self (s : InboxPeers) (q : ℕ) (p : PeerIds) : (s.setIds q p).ids q = p :=
  Function.update_self _ _ _

theorem setIds_of_ne (p : PeerIds) (hq : q' ≠ q) : (s.setIds q p).ids q' = s.ids q' :=
  Function.update_of_ne hq _ _

theorem setIds_sameUids (hp : SameUids (s.ids q) p) (q' : ℕ) :
    SameUids (s.ids q') ((s.setIds q p).ids q') := by
  by_cases hq : q' = q
  · subst hq
    rwa [setIds_self]
  · rw [setIds_of_ne p hq]
    exact SameUids.refl _

/-- A change of the other ids. -/
theorem Inv.congr {s' : InboxPeers} (h : Inv s) (hsrc : s'.src = s.src) (hdest : s'.dest = s.dest)
    (htport : s'.tport.ActiveOk) (hnext : s'.nextPeer = s.nextPeer)
    (hids : ∀ q, SameUids (s.ids q) (s'.ids q)) : Inv s' := by
  refine ⟨⟨?_, ?_, htport⟩, ?_, ?_, ?_, ?_⟩
  · intro uid q
    rw [hsrc, (hids q).srcUid, (hids q).resolveSrc]
    exact h.src uid q
  · intro q
    rw [hdest, (hids q).destUid, (hids q).resolveDest]
    exact h.dest q
  · intro q
    rw [(hids q).srcUid, (hids q).resolveSrc]
    exact h.srcSet q
  · intro q
    rw [(hids q).destUid, (hids q).resolveDest]
    exact h.destSet q
  · intro q hq
    rw [(hids q).srcUid, (hids q).destUid]
    exact h.fresh q (hnext ▸ hq)
  · intro i q hget
    rw [hnext]
    exact h.srcLt i q (hsrc ▸ hget)

theorem Inv.setIds (h : Inv s) (hp : SameUids (s.ids q) p) : Inv (s.setIds q p) :=
  h.congr rfl rfl h.active rfl (setIds_sameUids hp)

/-- A peer without source uid takes a free slot. -/
theorem Inv.insertSrc (h : Inv s) (hlt : q < s.nextPeer) (hnone : (s.ids q).srcUid = noUid)
    (huid : uid ≠ noUid) (hfree : PtrArray.get s.src uid.toNat = none) :
    Inv (s.insertSrc q uid) := by
  have hself : (s.insertSrc q uid).ids q =
      { s.ids q with srcUid := uid, resolveSrc := true } := Function.update_self _ _ _
  have hother : ∀ {v}, v ≠ q → (s.insertSrc q uid).ids v = s.ids v :=
    fun hv => Function.update_of_ne hv _ _
  refine ⟨⟨?_, ?_, h.active⟩, ?_, ?_, ?_, ?_⟩
  · intro u v
    show PtrArray.get (PtrArray.put s.src uid.toNat q) u.toNat = some v ↔ _
    rw [PtrArray.get_put]
    by_cases hv : v = q
    · subst hv
      rw [hself]
      by_cases hu : u = uid
      · simp [hu]
      · have hne : u.toNat ≠ uid.toNat := fun heq => hu (UInt32.toNat_inj.1 heq)
        rw [if_neg hne, h.src u v, hnone]
        have hbit : (s.ids v).resolveSrc ≠ true := fun hb => (h.srcSet v).1 hb hnone
        simp [hbit, Ne.symm hu]
    · rw [hother hv]
      by_cases hu : u = uid
      · subst hu
        have hnot := h.src u v
        rw [hfree] at hnot
        rw [if_pos rfl]
        constructor
        · intro heq
          exact absurd (Option.some.inj heq).symm hv
        · intro hset
          exact absurd (hnot.2 hset) (by simp)
      · have hne : u.toNat ≠ uid.toNat := fun heq => hu (UInt32.toNat_inj.1 heq)
        rw [if_neg hne]
        exact h.src u v
  · intro v
    by_cases hv : v = q
    · subst hv
      rw [hself]
      exact h.dest v
    · rw [hother hv]
      exact h.dest v
  · intro v
    by_cases hv : v = q
    · subst hv
      rw [hself]
      simp [huid]
    · rw [hother hv]
      exact h.srcSet v
  · intro v
    by_cases hv : v = q
    · subst hv
      rw [hself]
      exact h.destSet v
    · rw [hother hv]
      exact h.destSet v
  · intro v hv
    have hne : v ≠ q := fun heq => absurd hlt (Nat.not_lt.2 (heq ▸ hv))
    rw [hother hne]
    exact h.fresh v hv
  · intro i v hget
    rw [show (s.insertSrc q uid).src = PtrArray.put s.src uid.toNat q from rfl,
      PtrArray.get_put] at hget
    split at hget
    · exact Option.some.inj hget ▸ hlt
    · exact h.srcLt i v hget

/-- A peer without uid of its own comes to `dest`. -/
theorem Inv.insertDest (h : Inv s) (hlt : q < s.nextPeer) (hnone : (s.ids q).destUid = noUid)
    (huid : uid ≠ noUid) : Inv (s.insertDest q uid) := by
  have hself : (s.insertDest q uid).ids q =
      { s.ids q with destUid := uid, resolveDest := true } := Function.update_self _ _ _
  have hother : ∀ {v}, v ≠ q → (s.insertDest q uid).ids v = s.ids v :=
    fun hv => Function.update_of_ne hv _ _
  refine ⟨⟨?_, ?_, h.active⟩, ?_, ?_, ?_, h.srcLt⟩
  · intro u v
    by_cases hv : v = q
    · subst hv
      rw [hself]
      exact h.src u v
    · rw [hother hv]
      exact h.src u v
  · intro v
    show (PtrArray.put s.dest s.dest.length q).count (some v) = _
    rw [PtrArray.put_length]
    by_cases hv : v = q
    · subst hv
      rw [hself, PtrArray.count_append_self, h.dest v, hnone]
      simp [huid]
    · rw [hother hv, PtrArray.count_append_of_ne _ hv]
      exact h.dest v
  · intro v
    by_cases hv : v = q
    · subst hv
      rw [hself]
      exact h.srcSet v
    · rw [hother hv]
      exact h.srcSet v
  · intro v
    by_cases hv : v = q
    · subst hv
      rw [hself]
      simp [huid]
    · rw [hother hv]
      exact h.destSet v
  · intro v hv
    have hne : v ≠ q := fun heq => absurd hlt (Nat.not_lt.2 (heq ▸ hv))
    rw [hother hne]
    exact h.fresh v hv

theorem resetPeer_self (s : InboxPeers) (q : ℕ) : (s.resetPeer q).ids q =
    { s.ids q with destPeerId := 0, srcUid := noUid, destUid := noUid,
                   resolveSrc := false, resolveDest := false } :=
  Function.update_self _ _ _

theorem resetPeer_of_ne (hq : q' ≠ q) : (s.resetPeer q).ids q' = s.ids q' :=
  Function.update_of_ne hq _ _

/-- The slots of a reset peer are free, the others stay. -/
theorem Inv.resetPeer_src (h : Inv s) (q : ℕ) (u : UInt32) :
    PtrArray.get (s.resetPeer q).src u.toNat =
      if PtrArray.get s.src u.toNat = some q then none else PtrArray.get s.src u.toNat := by
  show PtrArray.get (if (s.ids q).srcUid ≠ noUid then _ else _) u.toNat = _
  by_cases huid : (s.ids q).srcUid ≠ noUid
  · rw [if_pos huid, PtrArray.get_clear]
    by_cases hu : u = (s.ids q).srcUid
    · subst hu
      rw [if_pos rfl, if_pos ((h.src _ q).2 ⟨rfl, (h.srcSet q).2 huid⟩)]
    · have hne : u.toNat ≠ (s.ids q).srcUid.toNat := fun heq => hu (UInt32.toNat_inj.1 heq)
      have hnot : PtrArray.get s.src u.toNat ≠ some q := fun hget => hu ((h.src u q).1 hget).1.symm
      rw [if_neg hne, if_neg hnot]
  · have hnot : PtrArray.get s.src u.toNat ≠ some q :=
      fun hget => huid ((h.srcSet q).1 ((h.src u q).1 hget).2)
    rw [if_neg huid, if_neg hnot]

theorem Inv.resetPeer_active (h : Inv s) (q : ℕ) : (s.resetPeer q).tport.ActiveOk := by
  intro v
  show (if (s.tport.peer q).active then s.tport.active.erase q else s.tport.active).count v =
    if (Function.update s.tport.peer q .zero v).active then 1 else 0
  have hcount := h.active v
  by_cases hv : v = q
  · subst hv
    have hzero : InboxPeer.zero.active = false := rfl
    rw [Function.update_self, hzero]
    by_cases hact : (s.tport.peer v).active
    · rw [if_pos hact] at hcount ⊢
      rw [List.count_erase_self, hcount]
      rfl
    · rw [if_neg hact] at hcount ⊢
      exact hcount
  · rw [Function.update_of_ne hv, ← hcount]
    split
    · rw [List.count_erase_of_ne hv]
    · rfl

theorem Inv.resetPeer (h : Inv s) (q : ℕ) : Inv (s.resetPeer q) := by
  refine ⟨⟨?_, ?_, h.resetPeer_active q⟩, ?_, ?_, ?_, ?_⟩
  · intro u v
    rw [h.resetPeer_src q u]
    by_cases hv : v = q
    · subst hv
      rw [resetPeer_self]
      split
      · simp
      · next hget => simp [hget]
    · rw [resetPeer_of_ne hv, ← h.src u v]
      split
      · next hget => simp [hget, Ne.symm hv]
      · rfl
  · intro v
    show (if (s.ids q).destUid ≠ noUid then PtrArray.remove q s.dest else s.dest).count (some v) = _
    have hcount := h.dest v
    by_cases hv : v = q
    · subst hv
      rw [resetPeer_self]
      by_cases huid : (s.ids v).destUid ≠ noUid
      · rw [if_pos huid, PtrArray.count_remove_self, hcount, if_pos ⟨huid, (h.destSet v).2 huid⟩]
        rfl
      · rw [if_neg huid, hcount, if_neg (fun hset => huid hset.1)]
        rfl
    · rw [resetPeer_of_ne hv, ← hcount]
      split
      · rw [PtrArray.count_remove_of_ne _ hv]
      · rfl
  · intro v
    by_cases hv : v = q
    · subst hv
      rw [resetPeer_self]
      simp
    · rw [resetPeer_of_ne hv]
      exact h.srcSet v
  · intro v
    by_cases hv : v = q
    · subst hv
      rw [resetPeer_self]
      simp
    · rw [resetPeer_of_ne hv]
      exact h.destSet v
  · intro v hv
    by_cases hvq : v = q
    · subst hvq
      rw [resetPeer_self]
      exact ⟨rfl, rfl⟩
    · rw [resetPeer_of_ne hvq]
      exact h.fresh v hv
  · intro i v hget
    rw [show (s.resetPeer q).src = if (s.ids q).srcUid ≠ noUid
      then PtrArray.clear s.src (s.ids q).srcUid.toNat else s.src from rfl] at hget
    split at hget
    · rw [PtrArray.get_clear] at hget
      split at hget
      · cases hget
      · exact h.srcLt i v hget
    · exact h.srcLt i v hget

theorem allocPeer_self (s : InboxPeers) (addr : List UInt8) (urlHash : UInt32) :
    (s.allocPeer addr urlHash).ids s.nextPeer = PeerIds.new addr s.newId.1 urlHash :=
  Function.update_self _ _ _

theorem Inv.allocPeer (h : Inv s) (addr : List UInt8) (urlHash : UInt32) :
    Inv (s.allocPeer addr urlHash) := by
  have hblank : SameUids (s.ids s.nextPeer) (PeerIds.new addr s.newId.1 urlHash) := by
    obtain ⟨hsrc, hdest⟩ := h.fresh s.nextPeer (le_refl _)
    have hsrcBit : (s.ids s.nextPeer).resolveSrc = false :=
      Bool.eq_false_iff.2 fun hb => (h.srcSet _).1 hb hsrc
    have hdestBit : (s.ids s.nextPeer).resolveDest = false :=
      Bool.eq_false_iff.2 fun hb => (h.destSet _).1 hb hdest
    exact ⟨hsrc.symm, hdest.symm, hsrcBit.symm, hdestBit.symm⟩
  have hset := h.setIds hblank
  exact ⟨⟨hset.src, hset.dest, hset.active⟩, hset.srcSet, hset.destSet,
    fun q hq => hset.fresh q (Nat.le_of_succ_le hq),
    fun i q hget => Nat.lt_succ_of_lt (hset.srcLt i q hget)⟩

/-! ### Lookups -/

/-- What `match` can do: nothing, or note a connection id where there was none. -/
theorem matchSrc_cases (s : InboxPeers) (uid myPeerId destPeerId : UInt32) :
    (s.matchSrc uid myPeerId destPeerId).1 = s ∨
      ∃ q, (s.ids q).destPeerId = 0 ∧ (s.matchSrc uid myPeerId destPeerId).1 =
        s.setIds q { s.ids q with destPeerId := destPeerId } := by
  unfold matchSrc
  split
  · exact Or.inl rfl
  · next q _ =>
    dsimp only
    split
    · exact Or.inl rfl
    · split
      · exact Or.inl rfl
      · by_cases hzero : destPeerId ≠ 0 ∧ (s.ids q).destPeerId = 0
        · refine Or.inr ⟨q, hzero.2, ?_⟩
          rw [if_pos hzero]
          split <;> rfl
        · refine Or.inl ?_
          rw [if_neg hzero]
          split <;> rfl

theorem Inv.matchSrc (h : Inv s) (uid myPeerId destPeerId : UInt32) :
    Inv (s.matchSrc uid myPeerId destPeerId).1 := by
  obtain heq | ⟨q, -, heq⟩ := matchSrc_cases s uid myPeerId destPeerId
  · rw [heq]
    exact h
  · rw [heq]
    exact h.setIds ⟨rfl, rfl, rfl, rfl⟩

theorem matchSrc_some {myPeerId destPeerId : UInt32}
    (hm : (s.matchSrc uid myPeerId destPeerId).2 = some q) :
    PtrArray.get s.src uid.toNat = some q := by
  unfold InboxPeers.matchSrc at hm
  split at hm
  · cases hm
  · next v hget =>
    rw [hget]
    dsimp only at hm
    split at hm
    · cases hm
    · split at hm
      · cases hm
      · split at hm
        · cases hm
        · exact hm

/-- With no connection ids to compare, `match` finds the peer of every slot in use. -/
theorem Inv.matchSrc_none (h : Inv s) (hm : (s.matchSrc uid 0 0).2 = none) :
    PtrArray.get s.src uid.toNat = none := by
  rcases hget : PtrArray.get s.src uid.toNat with _ | q
  · rfl
  · have huid := ((h.src uid q).1 hget).1
    simp [InboxPeers.matchSrc, hget, huid] at hm

theorem matchSrc_zero (s : InboxPeers) (uid : UInt32) : (s.matchSrc uid 0 0).1 = s := by
  unfold matchSrc
  split
  · rfl
  · dsimp only
    split
    · rfl
    · simp

theorem resolve_some {arr : List (Option ℕ)} {addr : List UInt8}
    (hq : s.resolve arr addr = some q) : some q ∈ arr ∧ (s.ids q).resolved = false := by
  unfold resolve at hq
  have hmem := List.mem_of_find?_eq_some hq
  have hprop := List.find?_some hq
  simp only [Bool.and_eq_true, Bool.not_eq_true', decide_eq_true_eq] at hprop
  obtain ⟨slot, hslot, rfl⟩ := List.mem_filterMap.1 hmem
  exact ⟨List.mem_reverse.1 hslot, hprop.1⟩

theorem resolveDest2_some {addr : List UInt8} (hq : s.resolveDest2 addr uid = some q) :
    some q ∈ s.dest := by
  obtain ⟨slot, hslot, rfl⟩ := List.mem_filterMap.1 (List.mem_of_find?_eq_some hq)
  exact hslot

theorem Inv.dest_mem (h : Inv s) (hq : some q ∈ s.dest) : (s.ids q).destUid ≠ noUid := by
  have hpos := List.count_pos_iff.2 hq
  rw [h.dest q] at hpos
  split at hpos
  · next hset => exact hset.1
  · exact absurd hpos (lt_irrefl 0)

theorem Inv.dest_lt (h : Inv s) (hq : some q ∈ s.dest) : q < s.nextPeer := by
  by_contra hge
  exact h.dest_mem hq (h.fresh q (Nat.le_of_not_lt hge)).2

theorem Inv.foundSrc_lt (h : Inv s) {addr : List UInt8} (hq : s.foundSrc addr uid = some q) :
    q < s.nextPeer := by
  rcases Option.or_eq_some_iff.1 hq with hsrc | ⟨-, hdest⟩
  · obtain ⟨i, hget⟩ := PtrArray.mem_iff_get.1 (resolve_some hsrc).1
    exact h.srcLt i q hget
  · exact h.dest_lt (resolveDest2_some hdest)

/-! ### The steps that keep the arrays -/

/-- The state that `resolve_src_uid` goes on with, when the peer is not the one it was. -/
theorem Inv.restarting (h : Inv s) (q : ℕ) :
    Inv (if (s.ids q).destUid ≠ noUid then s.resetPeer q else s) ∧
      ((if (s.ids q).destUid ≠ noUid then s.resetPeer q else s).ids q).destUid = noUid := by
  split
  · rw [resetPeer_self]
    exact ⟨h.resetPeer q, rfl⟩
  · next hnone => exact ⟨h, not_not.1 hnone⟩

theorem Inv.restartSrc (h : Inv s) (hlt : q < s.nextPeer) {hdr : InboxHdr}
    (hok : restarted (s.ids q) hdr = true → hdr.srcUid ≠ noUid) : Inv (s.restartSrc q hdr) := by
  unfold InboxPeers.restartSrc
  dsimp only
  split
  · next hre =>
    obtain ⟨hinv, hnone⟩ := h.restarting q
    set s₁ := if (s.ids q).destUid ≠ noUid then s.resetPeer q else s with hs₁
    have hlt₁ : q < s₁.nextPeer := by
      rw [hs₁]
      split <;> exact hlt
    have hnote : Inv (s₁.setIds q { s₁.ids q with destPeerId := hdr.ident }) :=
      hinv.setIds ⟨rfl, rfl, rfl, rfl⟩
    refine hnote.insertDest hlt₁ ?_ (hok hre)
    rw [setIds_self]
    exact hnone
  · exact h.setIds ⟨rfl, rfl, rfl, rfl⟩

theorem Inv.learnSrc (h : Inv s) (hlt : q < s.nextPeer) {hdr : InboxHdr}
    (hfree : hdr.destUid ≠ noUid → (s.ids q).srcUid = noUid →
      PtrArray.get s.src hdr.destUid.toNat = none) : Inv (s.learnSrc q hdr) := by
  unfold InboxPeers.learnSrc
  split
  · next hset => exact h.insertSrc hlt hset.2 hset.1 (hfree hset.1 hset.2)
  · exact h

theorem learnSrc_nextPeer (s : InboxPeers) (q : ℕ) (hdr : InboxHdr) :
    (s.learnSrc q hdr).nextPeer = s.nextPeer := by
  unfold learnSrc
  split <;> rfl

theorem Inv.learnDest (h : Inv s) (hlt : q < s.nextPeer) (hdr : InboxHdr) :
    Inv (s.learnDest q hdr) := by
  unfold InboxPeers.learnDest
  split
  · next hset => exact h.insertDest hlt hset.2 hset.1
  · exact h

theorem Inv.learnUids (h : Inv s) (hlt : q < s.nextPeer) {hdr : InboxHdr}
    (hfree : hdr.destUid ≠ noUid → (s.ids q).srcUid = noUid →
      PtrArray.get s.src hdr.destUid.toNat = none) : Inv (s.learnUids q hdr) := by
  unfold InboxPeers.learnUids
  split
  · exact h
  · exact (h.learnSrc hlt hfree).learnDest ((learnSrc_nextPeer s q hdr).symm ▸ hlt) hdr

/-- The peer of a message is new, or in `dest` and not in `src`. -/
theorem Inv.pickDest (h : Inv s) (hfree : PtrArray.get s.src uid.toNat = none)
    (addr : List UInt8) (urlHash : UInt32) :
    Inv (s.pickDest uid addr urlHash).1 ∧
    (s.pickDest uid addr urlHash).2 < (s.pickDest uid addr urlHash).1.nextPeer ∧
    ((s.pickDest uid addr urlHash).1.ids (s.pickDest uid addr urlHash).2).srcUid = noUid ∧
    (s.pickDest uid addr urlHash).1.src = s.src := by
  have hmatch : s.resolveSrc2 addr uid = none := by
    simp [resolveSrc2, InboxPeers.matchSrc, hfree]
  unfold InboxPeers.pickDest
  rw [hmatch, Option.or_none]
  rcases hq : s.resolve s.dest addr with _ | q
  · refine ⟨h.allocPeer addr urlHash, Nat.lt_succ_self _, ?_, rfl⟩
    rw [allocPeer_self]
    rfl
  · obtain ⟨hmem, hres⟩ := resolve_some hq
    refine ⟨h, h.dest_lt hmem, ?_, rfl⟩
    by_contra hset
    have hdest := (h.destSet q).2 (h.dest_mem hmem)
    have hsrc := (h.srcSet q).2 hset
    simp [PeerIds.resolved, hsrc, hdest] at hres

theorem Inv.noteUrl (h : Inv s) (q : ℕ) (urlHash : UInt32) : Inv (s.noteUrl q urlHash) := by
  unfold InboxPeers.noteUrl
  split
  · exact h.setIds ⟨rfl, rfl, rfl, rfl⟩
  · exact h

theorem Inv.resolveDestUid (h : Inv s) (hfree : PtrArray.get s.src uid.toNat = none)
    (addr : List UInt8) (urlHash : UInt32) : Inv (s.resolveDestUid uid addr urlHash).1 := by
  obtain ⟨hinv, hlt, hnone, hsrc⟩ := h.pickDest hfree addr urlHash
  refine Inv.noteUrl ?_ _ urlHash
  unfold InboxPeers.takeSrc
  rw [hnone, if_neg (not_not_intro rfl)]
  split
  · next huid => exact hinv.insertSrc hlt hnone (Ne.symm huid) (hsrc ▸ hfree)
  · exact hinv

theorem Inv.reassignPeer (h : Inv s) (hget : PtrArray.get s.src uid.toNat = some q)
    (addr : Option (List UInt8)) (urlHash : UInt32) :
    Inv (s.reassignPeer q uid addr urlHash).1 := by
  unfold InboxPeers.reassignPeer
  split
  · exact h
  · split
    · exact h
    · obtain ⟨huid, hbit⟩ := (h.src uid q).1 hget
      have hne : uid ≠ noUid := huid ▸ (h.srcSet q).1 hbit
      have hfree : PtrArray.get (s.resetPeer q).src uid.toNat = none := by
        rw [h.resetPeer_src q uid, if_pos hget]
      have hnone : ((s.resetPeer q).ids q).srcUid = noUid := by
        rw [resetPeer_self]
      exact ((h.resetPeer q).insertSrc (h.srcLt _ q hget) hnone hne hfree).setIds
        ⟨rfl, rfl, rfl, rfl⟩

theorem Inv.shutdownPeer (h : Inv s) (uid urlHash : UInt32) : Inv (s.shutdownPeer uid urlHash) := by
  unfold InboxPeers.shutdownPeer
  have hmatch := h.matchSrc uid 0 0
  rcases hm : s.matchSrc uid 0 0 with ⟨s', _ | q⟩
  · rw [hm] at hmatch
    exact hmatch
  · rw [hm] at hmatch
    dsimp only
    split
    · exact hmatch.resetPeer q
    · exact hmatch

theorem Inv.resolveMsg (h : Inv s) (uid : UInt32) (addr : Option (List UInt8))
    (urlHash : UInt32) : Inv (s.resolveMsg uid addr urlHash).1 := by
  unfold InboxPeers.resolveMsg
  have hzero := matchSrc_zero s uid
  rcases hm : s.matchSrc uid 0 0 with ⟨s', _ | q⟩
  · obtain rfl : s' = s := by rw [← hzero, hm]
    have hfree := h.matchSrc_none (congrArg Prod.snd hm)
    dsimp only
    split
    · exact h
    · exact h.resolveDestUid hfree _ urlHash
  · obtain rfl : s' = s := by rw [← hzero, hm]
    have hget := matchSrc_some (congrArg Prod.snd hm)
    dsimp only
    split
    · exact h
    · split
      · exact h.setIds ⟨rfl, rfl, rfl, rfl⟩
      · exact h.reassignPeer hget addr urlHash

theorem Inv.tport (h : Inv s) {t : EvInboxTransport} (ht : t.ActiveOk) : Inv { s with tport := t } :=
  h.congr rfl rfl ht rfl fun _ => SameUids.refl _

theorem Inv.onMsg (h : Inv s) (uid : UInt32) (addr : Option (List UInt8)) (urlHash : UInt32)
    (msg trail : List UInt8) : Inv (s.onMsg uid addr urlHash msg trail) := by
  unfold InboxPeers.onMsg
  have hres := h.resolveMsg uid addr urlHash
  rcases hm : s.resolveMsg uid addr urlHash with ⟨s', _ | q⟩
  · rw [hm] at hres
    exact hres
  · rw [hm] at hres
    refine hres.tport ?_
    have hactive : s'.tport.ActiveOk := hres.active
    split
    · exact hactive.postPkts q _
    · exact hactive.postPkts q _

/-! ### Packets -/

end

/-- The ids of the peer of a packet that `match` does not find: by the address, or new. -/
def pktIds (s : InboxPeers) (hdr : InboxHdr) (addr : List UInt8) : PeerIds :=
  match s.foundSrc addr hdr.srcUid with
  | some q => s.ids q
  | none => { PeerIds.new addr s.newId.1 0 with destPeerId := hdr.ident }

/-- The peer has no source uid when the uids of the header are learned. -/
def lacksSrc (p : PeerIds) (hdr : InboxHdr) : Bool :=
  p.srcUid = noUid || (restarted p hdr && p.destUid ≠ noUid)

/-- The events that keep the arrays: all but a packet that `match` does not find and that
has no source uid and restarts a peer, or takes the slot of a peer other than the one
found by its address. -/
def Keeps (s : InboxPeers) : Event → Prop
  | .recv hdr addr _ =>
    (s.matchSrc hdr.destUid hdr.destId hdr.ident).2 = none →
      (restarted (s.pktIds hdr addr) hdr = true → hdr.srcUid ≠ noUid) ∧
      (hdr.destUid ≠ noUid → lacksSrc (s.pktIds hdr addr) hdr = true →
        ∀ q, PtrArray.get s.src hdr.destUid.toNat = some q →
          s.foundSrc addr hdr.srcUid = some q)
  | _ => True

instance (s : InboxPeers) : (e : Event) → Decidable (Keeps s e)
  | .recv hdr addr _ =>
    inferInstanceAs (Decidable ((s.matchSrc hdr.destUid hdr.destId hdr.ident).2 = none →
      (restarted (s.pktIds hdr addr) hdr = true → hdr.srcUid ≠ noUid) ∧
      (hdr.destUid ≠ noUid → lacksSrc (s.pktIds hdr addr) hdr = true →
        ∀ q ∈ PtrArray.get s.src hdr.destUid.toNat, s.foundSrc addr hdr.srcUid = some q)))
  | .send .. => isTrue trivial
  | .shutdown .. => isTrue trivial
  | .write => isTrue trivial
  | .timer _ => isTrue trivial

section

variable {s : InboxPeers} {q q' : ℕ} {uid : UInt32} {hdr : InboxHdr} {addr : List UInt8}

/-- The connection id that `match` notes changes nothing that is looked at here. -/
theorem matchSrc_pktIds (s : InboxPeers) (uid myPeerId : UInt32) (hdr : InboxHdr)
    (addr : List UInt8) :
    (s.matchSrc uid myPeerId hdr.ident).1.foundSrc addr hdr.srcUid =
      s.foundSrc addr hdr.srcUid ∧
    restarted ((s.matchSrc uid myPeerId hdr.ident).1.pktIds hdr addr) hdr =
      restarted (s.pktIds hdr addr) hdr ∧
    SameUids (s.pktIds hdr addr) ((s.matchSrc uid myPeerId hdr.ident).1.pktIds hdr addr) ∧
    (s.matchSrc uid myPeerId hdr.ident).1.src = s.src := by
  obtain heq | ⟨v, hzero, heq⟩ := matchSrc_cases s uid myPeerId hdr.ident
  · rw [heq]
    exact ⟨rfl, rfl, SameUids.refl _, rfl⟩
  · rw [heq]
    set s₁ := s.setIds v { s.ids v with destPeerId := hdr.ident }
    have hids : ∀ w, (s₁.ids w).addr = (s.ids w).addr ∧ SameUids (s.ids w) (s₁.ids w) ∧
        restarted (s₁.ids w) hdr = restarted (s.ids w) hdr := by
      intro w
      by_cases hw : w = v
      · subst hw
        rw [setIds_self]
        refine ⟨rfl, ⟨rfl, rfl, rfl, rfl⟩, ?_⟩
        simp [restarted, hzero]
      · rw [setIds_of_ne _ hw]
        exact ⟨rfl, SameUids.refl _, rfl⟩
    have hfound : s₁.foundSrc addr hdr.srcUid = s.foundSrc addr hdr.srcUid := by
      unfold foundSrc resolve resolveDest2 PeerIds.resolved
      simp only [fun w => (hids w).1, fun w => (hids w).2.1.destUid,
        fun w => (hids w).2.1.resolveSrc, fun w => (hids w).2.1.resolveDest]
      rfl
    refine ⟨hfound, ?_, ?_, rfl⟩
    · unfold pktIds
      rw [hfound]
      rcases s.foundSrc addr hdr.srcUid with _ | w
      · rfl
      · exact (hids w).2.2
    · unfold pktIds
      rw [hfound]
      rcases s.foundSrc addr hdr.srcUid with _ | w
      · exact SameUids.refl _
      · exact (hids w).2.1

/-- `resolve_src_uid` restarts a peer with the ids of the packet's peer, and another peer
of a slot is not the one found by the address. -/
theorem Inv.resolveSrcUid_eq (h : Inv s) (hdr : InboxHdr) (addr : List UInt8) :
    ∃ s₂ q, s.resolveSrcUid hdr addr = (s₂.restartSrc q hdr, q) ∧ Inv s₂ ∧ q < s₂.nextPeer ∧
      s₂.ids q = s.pktIds hdr addr ∧ s₂.src = s.src ∧
      ∀ i v, PtrArray.get s.src i = some v → (s.foundSrc addr hdr.srcUid = some v ↔ v = q) := by
  unfold InboxPeers.resolveSrcUid pktIds
  rcases hfound : s.foundSrc addr hdr.srcUid with _ | q
  · refine ⟨_, _, rfl, (h.allocPeer addr 0).setIds ⟨rfl, rfl, rfl, rfl⟩, Nat.lt_succ_self _,
      ?_, rfl, ?_⟩
    · rw [setIds_self, allocPeer_self]
    · intro i v hget
      have hlt := h.srcLt i v hget
      constructor
      · intro heq
        cases heq
      · intro heq
        exact absurd hlt (heq ▸ lt_irrefl _)
  · refine ⟨s, q, rfl, h, h.foundSrc_lt hfound, rfl, rfl, ?_⟩
    intro i v _
    rw [Option.some.injEq]
    exact eq_comm

/-- The source side of a peer that is restarted. -/
theorem restartSrc_srcUid (s : InboxPeers) (q : ℕ) (hdr : InboxHdr) :
    ((s.restartSrc q hdr).ids q).srcUid =
      if restarted (s.ids q) hdr = true ∧ (s.ids q).destUid ≠ noUid then noUid
      else (s.ids q).srcUid := by
  unfold restartSrc
  dsimp only
  by_cases hre : restarted (s.ids q) hdr = true
  · rw [if_pos hre]
    rw [show ∀ s₁ : InboxPeers, ((s₁.setIds q { s₁.ids q with destPeerId := hdr.ident }).insertDest
      q hdr.srcUid).ids q = { (s₁.setIds q { s₁.ids q with destPeerId := hdr.ident }).ids q with
        destUid := hdr.srcUid, resolveDest := true } from fun s₁ => Function.update_self _ _ _]
    rw [setIds_self]
    by_cases hdest : (s.ids q).destUid ≠ noUid
    · rw [if_pos hdest, if_pos ⟨hre, hdest⟩, resetPeer_self]
    · rw [if_neg hdest, if_neg fun hboth => hdest hboth.2]
  · rw [if_neg hre, setIds_self, if_neg (show ¬ (restarted (s.ids q) hdr = true ∧ _) from
      fun hboth => hre hboth.1)]

theorem Inv.restartSrc_src (h : Inv s) (q : ℕ) (hdr : InboxHdr) (u : UInt32) :
    PtrArray.get (s.restartSrc q hdr).src u.toNat =
      if (restarted (s.ids q) hdr = true ∧ (s.ids q).destUid ≠ noUid) ∧
          PtrArray.get s.src u.toNat = some q then none
      else PtrArray.get s.src u.toNat := by
  unfold InboxPeers.restartSrc
  dsimp only
  by_cases hre : restarted (s.ids q) hdr = true
  · rw [if_pos hre]
    by_cases hdest : (s.ids q).destUid ≠ noUid
    · rw [if_pos hdest]
      refine (h.resetPeer_src q u).trans ?_
      by_cases hget : PtrArray.get s.src u.toNat = some q
      · rw [if_pos hget, if_pos ⟨⟨hre, hdest⟩, hget⟩]
      · rw [if_neg hget, if_neg fun hall => hget hall.2]
    · rw [if_neg hdest, if_neg fun hall => hdest hall.1.2]
      rfl
  · rw [if_neg hre, if_neg (show ¬ ((restarted (s.ids q) hdr = true ∧ _) ∧ _) from
      fun hall => hre hall.1.1)]
    rfl

/-- What the arrays must not look like, when the rest of `process` has run. -/
theorem not_mapped_of_src {s' : InboxPeers} {u : UInt32}
    (hget : PtrArray.get s'.src u.toNat = some q) (hne : q' ≠ q)
    (hq' : (s'.ids q').srcUid = u ∧ (s'.ids q').resolveSrc = true) : ¬ Mapped s' := by
  intro h
  have hother := (h.src u q').2 hq'
  rw [hget] at hother
  exact hne (Option.some.inj hother).symm

theorem not_mapped_of_dest {s' : InboxPeers} (hmem : some q ∈ s'.dest)
    (hnone : (s'.ids q).destUid = noUid) : ¬ Mapped s' := by
  intro h
  have hpos := List.count_pos_iff.2 hmem
  rw [h.dest q, if_neg fun hset => hset.1 hnone] at hpos
  exact lt_irrefl 0 hpos

/-- A restart by a packet without source uid puts a peer without uid into `dest`. -/
theorem restartSrc_noUid (hre : restarted (s.ids q) hdr = true) (hnone : hdr.srcUid = noUid) :
    some q ∈ ((s.restartSrc q hdr).learnUids q hdr).dest ∧
      (((s.restartSrc q hdr).learnUids q hdr).ids q).destUid = noUid := by
  have hrestart : some q ∈ (s.restartSrc q hdr).dest ∧
      ((s.restartSrc q hdr).ids q).destUid = noUid := by
    unfold restartSrc
    dsimp only
    rw [if_pos hre]
    constructor
    · show some q ∈ PtrArray.put _ _ q
      rw [PtrArray.put_length]
      exact List.mem_append_right _ (List.mem_singleton_self _)
    · exact (congrArg PeerIds.destUid (Function.update_self _ _ _)).trans hnone
  unfold learnUids
  split
  · exact hrestart
  · have hdest : ∀ s₁ : InboxPeers, s₁.learnDest q hdr = s₁ := fun s₁ => if_neg fun h => h.1 hnone
    rw [hdest]
    unfold learnSrc
    split
    · refine ⟨hrestart.1, ?_⟩
      rw [show ((s.restartSrc q hdr).insertSrc q hdr.destUid).ids q =
        { (s.restartSrc q hdr).ids q with srcUid := hdr.destUid, resolveSrc := true }
        from Function.update_self _ _ _]
      exact hrestart.2
    · exact hrestart

/-- The slot of another peer is taken. -/
theorem learnUids_takes (hset : hdr.destUid ≠ noUid) (hnone : (s.ids q).srcUid = noUid)
    (hbit : (s.ids q).resolveSrc = false) (hne : q' ≠ q) :
    PtrArray.get (s.learnUids q hdr).src hdr.destUid.toNat = some q ∧
      (s.learnUids q hdr).ids q' = s.ids q' := by
  have hres : (s.ids q).resolved = false := by
    rw [PeerIds.resolved, hbit]
    rfl
  unfold learnUids learnSrc
  rw [hres, if_neg Bool.false_ne_true, if_pos ⟨hset, hnone⟩]
  have hins : PtrArray.get (s.insertSrc q hdr.destUid).src hdr.destUid.toNat = some q ∧
      (s.insertSrc q hdr.destUid).ids q' = s.ids q' :=
    ⟨(PtrArray.get_put _ _ _ _).trans (if_pos rfl), Function.update_of_ne hne _ _⟩
  unfold learnDest
  split
  · exact ⟨hins.1, (Function.update_of_ne hne _ _).trans hins.2⟩
  · exact hins

theorem restartSrc_nextPeer (s : InboxPeers) (q : ℕ) (hdr : InboxHdr) :
    (s.restartSrc q hdr).nextPeer = s.nextPeer := by
  unfold restartSrc
  dsimp only
  split
  · show (if (s.ids q).destUid ≠ noUid then s.resetPeer q else s).nextPeer = _
    split <;> rfl
  · rfl

theorem restartSrc_lacksSrc (s : InboxPeers) (q : ℕ) (hdr : InboxHdr) :
    ((s.restartSrc q hdr).ids q).srcUid = noUid ↔ lacksSrc (s.ids q) hdr = true := by
  rw [restartSrc_srcUid]
  split
  · next hreset => simp [lacksSrc, hreset.1, hreset.2]
  · next hreset =>
    simp only [lacksSrc, Bool.or_eq_true, decide_eq_true_eq, Bool.and_eq_true]
    exact ⟨Or.inl, fun hor => hor.elim (fun hnone => hnone) fun hboth => absurd hboth hreset⟩

/-- A peer that is restarted learns the uids of the packet, and takes no other's slot. -/
theorem Inv.restartLearn (h : Inv s) (hlt : q < s.nextPeer)
    (hok : restarted (s.ids q) hdr = true → hdr.srcUid ≠ noUid)
    (hslot : hdr.destUid ≠ noUid → lacksSrc (s.ids q) hdr = true →
      ∀ v, PtrArray.get s.src hdr.destUid.toNat = some v → v = q) :
    Inv ((s.restartSrc q hdr).learnUids q hdr) := by
  have hinv := h.restartSrc hlt hok
  refine hinv.learnUids (restartSrc_nextPeer s q hdr ▸ hlt) fun huid hnone => ?_
  rw [restartSrc_lacksSrc] at hnone
  rw [h.restartSrc_src]
  split
  · rfl
  · next hnot =>
    rcases hget : PtrArray.get s.src hdr.destUid.toNat with _ | v
    · rfl
    · -- the slot is the peer's own, and was not freed by a reset
      exfalso
      obtain rfl := hslot huid hnone v hget
      have hown := ((h.src _ v).1 hget).1
      simp only [lacksSrc, Bool.or_eq_true, decide_eq_true_eq, Bool.and_eq_true] at hnone
      rcases hnone with hnone | hreset
      · exact huid (hown.symm.trans hnone)
      · exact hnot ⟨hreset, hget⟩

/-- The other way around: what the arrays of the packet's peer tell of the header. -/
theorem Inv.restartLearn_keeps (h : Inv s) (hlt : q < s.nextPeer) {t : EvInboxTransport}
    (hmapped : Mapped { (s.restartSrc q hdr).learnUids q hdr with tport := t }) :
    (restarted (s.ids q) hdr = true → hdr.srcUid ≠ noUid) ∧
      (hdr.destUid ≠ noUid → lacksSrc (s.ids q) hdr = true →
        ∀ v, PtrArray.get s.src hdr.destUid.toNat = some v → v = q) := by
  have hok : restarted (s.ids q) hdr = true → hdr.srcUid ≠ noUid := by
    intro hre hnone
    obtain ⟨hmem, hdest⟩ := restartSrc_noUid hre hnone
    refine absurd hmapped (not_mapped_of_dest (q := q) ?_ ?_)
    · exact hmem
    · exact hdest
  refine ⟨hok, fun huid hlacks v hget => ?_⟩
  by_contra hne
  have hinv := h.restartSrc hlt hok
  have hnone := (restartSrc_lacksSrc s q hdr).2 hlacks
  have hbit : ((s.restartSrc q hdr).ids q).resolveSrc = false :=
    Bool.eq_false_iff.2 fun hb => (hinv.srcSet q).1 hb hnone
  have hkept : PtrArray.get (s.restartSrc q hdr).src hdr.destUid.toNat = some v := by
    have hnot : PtrArray.get s.src hdr.destUid.toNat ≠ some q := by
      rw [hget]
      exact fun heq => hne (Option.some.inj heq)
    rw [h.restartSrc_src, if_neg fun hall => hnot hall.2, hget]
  obtain ⟨htaken, hids⟩ := learnUids_takes huid hnone hbit hne
  have hv := (hinv.src _ v).1 hkept
  refine absurd hmapped (not_mapped_of_src (q := q) htaken hne ?_)
  show (((s.restartSrc q hdr).learnUids q hdr).ids v).srcUid = _ ∧ _
  rw [hids]
  exact hv

/-- A packet keeps the arrays if and only if its header is as `Keeps` says. -/
theorem Inv.process (h : Inv s) (hdr : InboxHdr) (addr : List UInt8) (pkt : InboxPkt) :
    (Keeps s (.recv hdr addr pkt) → Inv (s.process hdr addr pkt)) ∧
      (Mapped (s.process hdr addr pkt) → Keeps s (.recv hdr addr pkt)) := by
  have hinv₁ := h.matchSrc hdr.destUid hdr.destId hdr.ident
  obtain ⟨hfound, hre, hsame, hsrc⟩ := matchSrc_pktIds s hdr.destUid hdr.destId hdr addr
  unfold InboxPeers.process resolvePkt
  rcases hm : s.matchSrc hdr.destUid hdr.destId hdr.ident with ⟨s₁, _ | q⟩
  · rw [hm] at hinv₁ hfound hre hsame hsrc
    dsimp only at hinv₁ hfound hre hsame hsrc ⊢
    obtain ⟨s₂, q, heq, hinv₂, hlt, hids, hsrc₂, hother⟩ := hinv₁.resolveSrcUid_eq hdr addr
    have hre₂ : restarted (s₂.ids q) hdr = restarted (s.pktIds hdr addr) hdr := by rw [hids, hre]
    have hlacks : lacksSrc (s₂.ids q) hdr = lacksSrc (s.pktIds hdr addr) hdr := by
      rw [lacksSrc, lacksSrc, hre₂, hids, hsame.srcUid, hsame.destUid]
    have hslot : ∀ v, PtrArray.get s.src hdr.destUid.toNat = some v →
        (s.foundSrc addr hdr.srcUid = some v ↔ v = q) := by
      intro v hget
      rw [← hfound]
      exact hother _ v (hsrc ▸ hget)
    rw [heq]
    constructor
    · intro hkeep
      obtain ⟨hok, hfree⟩ := hkeep (congrArg Prod.snd hm)
      have hlearn : Inv ((s₂.restartSrc q hdr).learnUids q hdr) := by
        refine hinv₂.restartLearn hlt (hre₂ ▸ hok) fun huid hl v hget => ?_
        rw [hsrc₂, hsrc] at hget
        exact (hslot v hget).1 (hfree huid (hlacks ▸ hl) v hget)
      exact hlearn.tport (EvInboxTransport.ActiveOk.process hlearn.active q pkt)
    · intro hmapped _
      obtain ⟨hok, hfree⟩ := hinv₂.restartLearn_keeps hlt hmapped
      refine ⟨hre₂ ▸ hok, fun huid hl v hget => (hslot v hget).2 ?_⟩
      refine hfree huid (hlacks ▸ hl) v ?_
      rwa [hsrc₂, hsrc]
  · rw [hm] at hinv₁ hsrc
    have hget : PtrArray.get s₁.src hdr.destUid.toNat = some q :=
      hsrc ▸ matchSrc_some (congrArg Prod.snd hm)
    refine ⟨fun _ => ?_, fun _ hnone => ?_⟩
    · -- the peer of a slot has a source uid
      have hlearn : Inv (s₁.learnUids q hdr) := by
        refine hinv₁.learnUids (hinv₁.srcLt _ q hget) fun huid hnone => ?_
        exact absurd (((hinv₁.src _ q).1 hget).1.symm.trans hnone) huid
      exact hlearn.tport (EvInboxTransport.ActiveOk.process hlearn.active q pkt)
    · rw [hm] at hnone
      cases hnone

/-! ## Every run -/

theorem Inv.step (h : Inv s) (e : Event) :
    (Keeps s e → Inv (s.step e)) ∧ (Mapped (s.step e) → Keeps s e) := by
  cases e with
  | recv hdr addr pkt => exact h.process hdr addr pkt
  | send uid addr urlHash msg trail =>
    exact ⟨fun _ => h.onMsg uid addr urlHash msg trail, fun _ => trivial⟩
  | shutdown uid urlHash => exact ⟨fun _ => h.shutdownPeer uid urlHash, fun _ => trivial⟩
  | write =>
    exact ⟨fun _ => h.tport (EvInboxTransport.ActiveOk.write h.active), fun _ => trivial⟩
  | timer now =>
    exact ⟨fun _ => h.tport (EvInboxTransport.ActiveOk.timerExpire h.active now),
      fun _ => trivial⟩

theorem inv_start (mtu : UInt32) (hmtu : mtu ≠ 48) (now : ℕ) (id : UInt32) :
    Inv (start (EvInboxTransport.listen mtu hmtu now) id) := by
  have hget : ∀ i, PtrArray.get ([] : List (Option ℕ)) i = none := fun _ => rfl
  refine ⟨⟨?_, ?_, ?_⟩, ?_, ?_, fun _ _ => ⟨rfl, rfl⟩, ?_⟩
  · intro uid q
    simp [start, hget, PeerIds.new]
  · intro q
    simp [start, PeerIds.new]
  · intro q
    rfl
  · intro q
    simp [start, PeerIds.new]
  · intro q
    simp [start, PeerIds.new]
  · intro i q hq
    cases hq

end

/-- **The arrays are right as long as the headers are.** In a run of the transport, the
arrays and the list agree with the peers in every state if and only if every packet is
as `Keeps` says in the state it comes to. -/
theorem mapped_iff_keeps (mtu : UInt32) (hmtu : mtu ≠ 48) (now : ℕ) (id : UInt32)
    (es : List Event) :
    (∀ k, Mapped ((es.take k).foldl step (start (EvInboxTransport.listen mtu hmtu now) id))) ↔
      Run.AllOk step Keeps (start (EvInboxTransport.listen mtu hmtu now) id) es :=
  (Run.allOk_iff_good (fun _ h => h.toMapped) (fun _ e h => (h.step e).1)
    (fun _ e h => (h.step e).2) (inv_start mtu hmtu now id) es).symm

/-- Two senders that write uids of their own; the first gets a message and then starts again with
another id, the second is shut down and comes back. -/
def ownUids : List Event :=
  let pkt : InboxPkt := ⟨.message, 1, 0, []⟩
  [.recv ⟨5, 0, 7, 3⟩ [10, 0, 0, 1] pkt, .recv ⟨6, 0, 9, 4⟩ [10, 0, 0, 2] pkt,
    .recv ⟨5, 0, 7, 3⟩ [10, 0, 0, 1] pkt, .send 3 (some [10, 0, 0, 1]) 77 [1, 2] [], .write,
    .recv ⟨8, 0, 7, 3⟩ [10, 0, 0, 1] pkt, .timer 1000000000, .shutdown 4 0,
    .recv ⟨6, 0, 9, 4⟩ [10, 0, 0, 2] pkt]

theorem mapped_iff_keeps_ownUids :
    Run.AllOk step Keeps (start (EvInboxTransport.listen 1500 (by decide) 0) 1) ownUids ∧
    ∀ k, Mapped ((ownUids.take k).foldl step
      (start (EvInboxTransport.listen 1500 (by decide) 0) 1)) := by
  have hok : Run.AllOk step Keeps (start (EvInboxTransport.listen 1500 (by decide) 0) 1)
      ownUids := by
    decide +kernel
  exact ⟨hok, (mapped_iff_keeps 1500 (by decide) 0 1 ownUids).2 hok⟩

/-- Two senders that both write the uid 3 of a peer into their packets. -/
def sameUid : List Event :=
  let pkt : InboxPkt := ⟨.message, 1, 0, []⟩
  [.recv ⟨5, 0, 7, 3⟩ [10, 0, 0, 1] pkt, .recv ⟨6, 0, 9, 3⟩ [10, 0, 0, 2] pkt]

/-- The second sender takes the slot of the first, whose state does not change. -/
theorem sameUid_not_mapped :
    ¬ ∀ k, Mapped ((sameUid.take k).foldl step
      (start (EvInboxTransport.listen 1500 (by decide) 0) 1)) := by
  intro h
  have hfirst := ((h 2).src 3 0).2 (by decide +kernel)
  revert hfirst
  decide +kernel

end InboxPeers

end Raims
