import Raims.LinkState.UserRoster

/-!
# Records parked and replayed

A publisher's changes arrive in order, but those that name a peer the receiver
does not know yet are parked and applied after newer ones. What parking itself
leaves in the table is harmless; the receiver's table differs from the table of a
receiver that knew every peer only if a record is applied while a record that is
not independent of it is still parked before it. The receiver does not look for
that, so an old record may undo a newer one.
-/

namespace Raims

open UserDB UserBridge Deferred

/-! ## Records on the publisher's table -/

variable {find f : UidTable} {u : ℕ}

theorem AdjacencyTab.apply_of_not_parks (hf : find.Extends f) {rec : AdjacencyRec}
    (h : rec.parks find u = false) (tab : AdjacencyTab) :
    tab.apply find u rec = tab.apply f u rec := by
  cases ht : rec.tportid with
  | none => rw [apply_of_no_tportid _ ht, apply_of_no_tportid _ ht]
  | some t =>
    have hr : rec.resolved find u = true := by simpa [AdjacencyRec.parks, ht] using h
    rw [apply_of_tportid _ ht, apply_of_tportid _ ht,
      AdjacencyRec.memberOp_of_resolved hf hr]

theorem AdjacencyRec.absorbs_of_parks (hf : find.Extends f) {rec : AdjacencyRec}
    (h : rec.parks find u = true) :
    Absorbs (AdjacencyTab.apply f u) rec fun tab => tab.apply find u rec := by
  apply AdjacencyRec.absorbs hf
  simp only [AdjacencyRec.parks, Bool.and_eq_true, Bool.not_eq_true'] at h
  exact h.2

/-- No record of the message overtakes a parked one that it is not independent of,
parked before or in the message itself. -/
def ArrivesInOrder (find : UidTable) (u : ℕ) (parked recs : List AdjacencyRec) : Prop :=
  (∀ a ∈ parked, ∀ b ∈ recs, b.parks find u = false → a.Independent b) ∧
    recs.Pairwise fun a b => a.parks find u = true → b.parks find u = false → a.Independent b

/-- A message is applied and what it names unknown is parked behind the rest. -/
theorem caughtUp_arrival (hf : find.Extends f) (hinj : f.Injective) {tab₀ tab : AdjacencyTab}
    {log parked recs : List AdjacencyRec}
    (h : CaughtUp (AdjacencyTab.apply f u) tab₀ log tab parked)
    (hord : ArrivesInOrder find u parked recs) :
    CaughtUp (AdjacencyTab.apply f u) tab₀ (log ++ recs)
      (recs.foldl (AdjacencyTab.apply find u) tab)
      (parked ++ recs.filter (·.parks find u)) := by
  induction recs generalizing log tab parked with
  | nil => simpa using h
  | cons rec recs ih =>
    obtain ⟨hpark, hpair⟩ := hord
    rw [List.pairwise_cons] at hpair
    cases hp : rec.parks find u with
    | true =>
      have h' := h.park (AdjacencyRec.absorbs_of_parks hf hp)
      have hord' : ArrivesInOrder find u (parked ++ [rec]) recs := by
        refine ⟨?_, hpair.2⟩
        intro a ha b hb hbp
        rcases List.mem_append.mp ha with ha | ha
        · exact hpark a ha b (List.mem_cons_of_mem _ hb) hbp
        · rw [List.mem_singleton.mp ha]
          exact hpair.1 b hb hp hbp
      have h'' := ih h' hord'
      rw [List.append_assoc, List.append_assoc] at h''
      rw [List.filter_cons_of_pos hp]
      exact h''
    | false =>
      have h' := h.overtake (r := rec) fun a ha =>
        (hpark a ha rec (by simp) hp).commutes hinj
      rw [← AdjacencyTab.apply_of_not_parks hf hp] at h'
      have h'' := ih h' ⟨fun a ha b hb => hpark a ha b (List.mem_cons_of_mem _ hb), hpair.2⟩
      rw [List.append_assoc] at h''
      rw [List.filter_cons_of_neg (by simp [hp])]
      exact h''

/-- No record that is replayed overtakes one that stays and that it is not
independent of. -/
def ReplaysInOrder (find : UidTable) (u : ℕ) (nonce : Nonce) (parked : List AdjacencyRec) :
    Prop :=
  parked.Pairwise fun a b =>
    stays find u nonce a = true → stays find u nonce b = false → a.Independent b

/-- The records that name the new peer are replayed where they are known now. -/
theorem caughtUp_replay (hf : find.Extends f) (hinj : f.Injective) (nonce : Nonce)
    {tab₀ tab : AdjacencyTab} {log kept parked : List AdjacencyRec}
    (h : CaughtUp (AdjacencyTab.apply f u) tab₀ log tab (kept ++ parked))
    (hkept : ∀ a ∈ kept, ∀ b ∈ parked, stays find u nonce b = false → a.Independent b)
    (hord : ReplaysInOrder find u nonce parked) :
    CaughtUp (AdjacencyTab.apply f u) tab₀ log
      ((parked.filter (names nonce)).foldl (AdjacencyTab.apply find u) tab)
      (kept ++ parked.filter (stays find u nonce)) := by
  induction parked generalizing tab kept with
  | nil => exact h
  | cons rec parked ih =>
    unfold ReplaysInOrder at hord
    rw [List.pairwise_cons] at hord
    cases hs : stays find u nonce rec with
    | true =>
      have hkept' : ∀ a ∈ kept ++ [rec], ∀ b ∈ parked, stays find u nonce b = false →
          a.Independent b := by
        intro a ha b hb hbs
        rcases List.mem_append.mp ha with ha | ha
        · exact hkept a ha b (List.mem_cons_of_mem _ hb) hbs
        · rw [List.mem_singleton.mp ha]
          exact hord.1 b hb hs hbs
      rw [List.filter_cons_of_pos hs]
      cases hn : names nonce rec with
      | true =>
        -- tried again, and still without a peer
        have hp : rec.parks find u = true := by simpa [stays, hn] using hs
        have h' := h.retry (AdjacencyRec.absorbs_of_parks hf hp)
        have h'' := @ih _ (kept ++ [rec]) (by simpa using h') hkept' hord.2
        rw [List.filter_cons_of_pos hn]
        simpa using h''
      | false =>
        have h'' := @ih _ (kept ++ [rec]) (by simpa using h) hkept' hord.2
        rw [List.filter_cons_of_neg (by simp [hn])]
        simpa using h''
    | false =>
      obtain ⟨hn, hp⟩ : names nonce rec = true ∧ rec.parks find u = false := by
        simpa [stays] using hs
      have h' := h.replay fun a ha => (hkept a ha rec (by simp) hs).commutes hinj
      rw [← AdjacencyTab.apply_of_not_parks hf hp] at h'
      rw [List.filter_cons_of_pos hn, List.filter_cons_of_neg (by simp [hs])]
      exact ih h' (fun a ha b hb => hkept a ha b (List.mem_cons_of_mem _ hb)) hord.2

namespace UserDB

variable {db : UserDB} {v : ℕ}

/-! ## Other publishers -/

/-- The bridge and the pending entries of `u` are untouched. -/
structure SameSlot (u : ℕ) (db db' : UserDB) : Prop where
  bridge : db'.bridgeTab u = db.bridgeTab u
  pending : db'.pendingOf u = db.pendingOf u

theorem SameSlot.refl (u : ℕ) (db : UserDB) : SameSlot u db db := ⟨rfl, rfl⟩

theorem SameSlot.trans {db db' db'' : UserDB} (h : SameSlot u db db')
    (h' : SameSlot u db' db'') : SameSlot u db db'' :=
  ⟨h'.bridge.trans h.bridge, h'.pending.trans h.pending⟩

variable {v : ℕ}

theorem sameSlot_modifyBridge (db : UserDB) (hv : u ≠ v) (f : UserBridge → UserBridge) :
    SameSlot u db (db.modifyBridge v f) :=
  ⟨bridgeTab_modifyBridge_ne db f hv, rfl⟩

theorem sameSlot_save (db : UserDB) (hv : u ≠ v) (seqno : ℕ) (recs : List AdjacencyRec)
    (b : Bool) : SameSlot u db (db.saveUnknownAdjacency v seqno recs b) :=
  ⟨bridgeTab_modifyBridge_ne db _ hv, pendingOf_save_ne db seqno recs b hv⟩

theorem sameSlot_clearUnknownAdjacency (db : UserDB) (hv : u ≠ v) :
    SameSlot u db (db.clearUnknownAdjacency v) :=
  ⟨bridgeTab_modifyBridge_ne db _ hv, pendingOf_clearUnknownAdjacency_ne db hv⟩

theorem sameSlot_recvAdjacencyChange (db : UserDB) (hv : u ≠ v) (linkState : ℕ)
    (recs : List AdjacencyRec) : SameSlot u db (db.recvAdjacencyChange v linkState recs) := by
  unfold recvAdjacencyChange
  split
  · exact .refl u db
  · next n _ =>
      have happ := sameSlot_modifyBridge db hv fun _ =>
        (n.applyAdjacencyChange db.find v recs).1
      simp only
      split
      · split
        · exact .refl u db
        · split
          · exact happ.trans (sameSlot_save _ hv linkState _ true)
          · exact .refl u db
      · have hsaved : SameSlot u db
            (if (n.applyAdjacencyChange db.find v recs).2 = [] then
              db.modifyBridge v fun _ => (n.applyAdjacencyChange db.find v recs).1
            else (db.modifyBridge v fun _ =>
              (n.applyAdjacencyChange db.find v recs).1).saveUnknownAdjacency v linkState
                (n.applyAdjacencyChange db.find v recs).2 true) := by
          split
          · exact happ
          · exact happ.trans (sameSlot_save _ hv linkState _ true)
        by_cases hz : (n.applyAdjacencyChange db.find v recs).1.unknownAdjRefs = 0
        · rw [if_pos hz]
          exact hsaved.trans (sameSlot_modifyBridge _ hv _)
        · rw [if_neg hz]
          exact hsaved

theorem sameSlot_replaceAdjacency (db : UserDB) (hv : u ≠ v) (linkState : ℕ)
    (recs : List AdjacencyRec) : SameSlot u db (db.replaceAdjacency v linkState recs) := by
  have hdrop : SameSlot u db (db.dropUnknown v) := by
    unfold dropUnknown
    split
    · exact .refl u db
    · split
      · exact sameSlot_clearUnknownAdjacency db hv
      · exact .refl u db
  unfold replaceAdjacency
  refine hdrop.trans ?_
  generalize db.dropUnknown v = db'
  simp only
  split
  · exact .refl u db'
  · split
    · exact (sameSlot_modifyBridge db' hv _).trans (sameSlot_modifyBridge _ hv _)
    · exact (sameSlot_modifyBridge db' hv _).trans (sameSlot_save _ hv linkState _ false)

theorem sameSlot_recvAdjacencyResult (db : UserDB) (hv : u ≠ v) (linkState : ℕ)
    (recs : List AdjacencyRec) (reas : AdjacencyRequest) (quiet : Bool) :
    SameSlot u db (db.recvAdjacencyResult v linkState recs reas quiet) := by
  unfold recvAdjacencyResult
  split
  · exact .refl u db
  · split
    · exact sameSlot_replaceAdjacency db hv linkState recs
    · split
      · exact sameSlot_modifyBridge db hv _
      · exact .refl u db

theorem sameSlot_removeAuthenticated (db : UserDB) (hv : u ≠ v) (stage : Bye) :
    SameSlot u db (db.removeAuthenticated v stage) := by
  unfold removeAuthenticated
  split
  · exact .refl u db
  · next n _ =>
      have hclear : SameSlot u db
          (if n.authenticated ∧ stage ≠ .hbTimeout ∧ stage ≠ .ping then
            db.clearUnknownAdjacency v else db) := by
        split
        · exact sameSlot_clearUnknownAdjacency db hv
        · exact .refl u db
      have hmod := hclear.trans (sameSlot_modifyBridge _ hv fun n =>
        { n with
          authenticated := false
          zombie := true
          linkStateSeqno := 0
          uidCsum := 0
          adjacency := AdjacencyTab.empty })
      exact ⟨hmod.bridge, hmod.pending⟩

/-! ## Bridge ids keep their uids -/

theorem KnowsPeers.addUser {db : UserDB} (h : KnowsPeers db) {nonce : Nonce}
    (hnew : db.find nonce = none) : KnowsPeers (db.addUser nonce) := by
  rw [knowsPeers_iff] at h ⊢
  rw [roster_addUser]
  exact h.enter hnew

variable {n : UserBridge}

theorem find_setAuthenticated {db : UserDB} (h : KnowsPeers db)
    (hn : db.bridgeTab v = some n) : (db.setAuthenticated v n).find = db.find :=
  (congrArg Roster.find (roster_setAuthenticated hn)).trans
    (Roster.find_join (knowsPeers_iff.1 h) v)

theorem KnowsPeers.setAuthenticated {db : UserDB} (h : KnowsPeers db)
    (hn : db.bridgeTab v = some n) : KnowsPeers (db.setAuthenticated v n) := by
  rw [knowsPeers_iff] at h ⊢
  rw [roster_setAuthenticated hn]
  exact h.join v

theorem find_removeAuthenticated {db : UserDB} (h : KnowsPeers db) (v : ℕ) (stage : Bye) :
    (db.removeAuthenticated v stage).find = db.find :=
  (congrArg Roster.find (roster_removeAuthenticated db v stage)).trans
    (Roster.find_leave (knowsPeers_iff.1 h) v)

theorem KnowsPeers.removeAuthenticated {db : UserDB} (h : KnowsPeers db) (v : ℕ)
    (stage : Bye) : KnowsPeers (db.removeAuthenticated v stage) := by
  rw [knowsPeers_iff] at h ⊢
  rw [roster_removeAuthenticated db v stage]
  exact h.leave v

/-- The records of `u` that are parked. -/
def parked (db : UserDB) (u : ℕ) : List AdjacencyRec :=
  (db.pendingOf u).flatMap AdjPending.recList

end UserDB

/-! ## Following one publisher -/

/-- The receiver has every message of `u` up to `seqno`, applied or parked. -/
structure Following (u seqno : ℕ) (db : UserDB) (n : UserBridge) : Prop where
  bridge : db.bridgeTab u = some n
  auth : n.authenticated = true
  slot : Slot (some n) (db.pendingOf u)
  applied : db.pendingOf u = [] → n.linkStateSeqno = seqno
  edge : ∀ p ∈ db.pendingOf u, p.linkStateSeqno = seqno

namespace Following

variable {seqno : ℕ} {db : UserDB} {n : UserBridge} {recs : List AdjacencyRec}

/-- The branch of `recv_adjacency_change` that parks, with or without an entry
before. -/
theorem save (h : Following u seqno db n)
    (hroom : n.unknownAdjRefs + recs.length < 2 ^ 32) (hnew : n.linkStateSeqno < seqno + 1)
    (hne : db.pendingOf u = [] → recs.filter (·.parks db.find u) ≠ []) :
    ∃ n', Following u (seqno + 1)
        ((db.modifyBridge u fun _ => (n.applyAdjacencyChange db.find u recs).1).saveUnknownAdjacency
          u (seqno + 1) (recs.filter (·.parks db.find u)) true) n' ∧
      n'.adjacency = recs.foldl (AdjacencyTab.apply db.find u) n.adjacency ∧
      ((db.modifyBridge u fun _ => (n.applyAdjacencyChange db.find u recs).1).saveUnknownAdjacency
          u (seqno + 1) (recs.filter (·.parks db.find u)) true).parked u =
        db.parked u ++ recs.filter (·.parks db.find u) := by
  obtain ⟨h2, csum, h1⟩ := n.applyAdjacencyChange_eq db.find u recs hroom
  have hle : (recs.filter (·.parks db.find u)).length ≤ recs.length :=
    List.length_filter_le _ _
  have hpend : db.pendingOf u = [] ∧ recs.filter (·.parks db.find u) ≠ [] ∨
      true = true ∧ ∃ p, db.pendingOf u = [p] ∧ p.recCount = p.recList.length ∧
        p.recList ≠ [] := by
    rcases h.slot with ⟨hl, -⟩ | ⟨p, hp, hpark⟩
    · exact Or.inl ⟨hl, hne hl⟩
    · exact Or.inr ⟨rfl, p, hp, hpark.count, hpark.nonempty⟩
  have hrefs : ((db.pendingOf u).flatMap AdjPending.recList ++
      recs.filter (·.parks db.find u)).length ≤
        (n.applyAdjacencyChange db.find u recs).1.unknownAdjRefs := by
    rw [h1, List.length_append]
    rcases h.slot with ⟨hl, -⟩ | ⟨p, hp, hpark⟩
    · simp [hl]
    · have hr := hpark.refs
      have hc := hpark.count
      simp only [hp, List.flatMap_cons, List.flatMap_nil, List.append_nil]
      omega
  obtain ⟨p, hp, hseq, hrecs, hpark⟩ := slot_save
    (n.applyAdjacencyChange db.find u recs).1 hpend hrefs
    (by rw [h1]; simp only; omega) (by rw [h1]; exact hnew)
  refine ⟨_, ⟨bridgeTab_save_self h.bridge _ _ _ _, ?_, ?_, ?_, ?_⟩, ?_, ?_⟩
  · rw [h1]
    exact h.auth
  · rw [hp]
    exact Or.inr ⟨p, rfl, hpark⟩
  · simp [hp]
  · simpa [hp] using hseq
  · rw [h1]
  · simp only [parked, hp, List.flatMap_cons, List.flatMap_nil, List.append_nil, hrecs]

/-- The next message: its records are applied as far as they go and the rest is
parked. -/
theorem recv (h : Following u seqno db n)
    (hroom : n.unknownAdjRefs + recs.length < 2 ^ 32) (hlt : seqno + 1 < 2 ^ 32) :
    ∃ n', Following u (seqno + 1) (db.recvAdjacencyChange u (seqno + 1) recs) n' ∧
      n'.adjacency = recs.foldl (AdjacencyTab.apply db.find u) n.adjacency ∧
      (db.recvAdjacencyChange u (seqno + 1) recs).parked u =
        db.parked u ++ recs.filter (·.parks db.find u) := by
  obtain ⟨h2, csum, h1⟩ := n.applyAdjacencyChange_eq db.find u recs hroom
  rcases h.slot with ⟨hl, hz, hu⟩ | ⟨p, hp, hpark⟩
  · have hseq := h.applied hl
    by_cases hnil : recs.filter (·.parks db.find u) = []
    · -- everything is known: the seqno is taken
      have hrefs : (n.applyAdjacencyChange db.find u recs).1.unknownAdjRefs = 0 := by
        rw [h1, hnil]
        simpa using hz
      have hstep : db.recvAdjacencyChange u (seqno + 1) recs =
          (db.modifyBridge u fun _ => (n.applyAdjacencyChange db.find u recs).1).modifyBridge u
            fun n => n.updateLinkStateSeqno (seqno + 1) := by
        simp only [recvAdjacencyChange, h.bridge, h2, hseq, hrefs, hnil]
        simp
      rw [hstep, hnil]
      refine ⟨(n.applyAdjacencyChange db.find u recs).1.updateLinkStateSeqno (seqno + 1),
        ⟨?_, ?_, Or.inl ⟨hl, hrefs, ?_⟩, fun _ => Nat.mod_eq_of_lt hlt, ?_⟩, ?_, ?_⟩
      · simp [h.bridge]
      · rw [h1]
        exact h.auth
      · rw [h1]
        exact hu
      · simp [hl]
      · rw [h1]
        rfl
      · simp [parked]
    · have hpos := List.length_pos_iff.mpr hnil
      have hrefs : ¬ (n.applyAdjacencyChange db.find u recs).1.unknownAdjRefs = 0 := by
        rw [h1]
        simp only
        omega
      have hstep : db.recvAdjacencyChange u (seqno + 1) recs =
          (db.modifyBridge u fun _ => (n.applyAdjacencyChange db.find u recs).1).saveUnknownAdjacency
            u (seqno + 1) (recs.filter (·.parks db.find u)) true := by
        simp only [recvAdjacencyChange, h.bridge, h2, hseq, hrefs, hnil]
        simp
      rw [hstep]
      exact h.save hroom (by omega) fun _ => hnil
  · have hseq := h.edge p (by simp [hp])
    have hedge := hpark.seqno
    have hnew := hpark.newer
    have hstep : db.recvAdjacencyChange u (seqno + 1) recs =
        (db.modifyBridge u fun _ => (n.applyAdjacencyChange db.find u recs).1).saveUnknownAdjacency
          u (seqno + 1) (recs.filter (·.parks db.find u)) true := by
      simp only [recvAdjacencyChange, h.bridge, h2]
      rw [if_pos (by omega), if_neg (by omega), if_pos (by omega)]
    rw [hstep]
    exact h.save hroom (by omega) fun hl => by simp [hp] at hl

/-- Nothing about the publisher has changed. -/
theorem of_sameSlot (h : Following u seqno db n) {db' : UserDB} (hs : SameSlot u db db') :
    Following u seqno db' n :=
  ⟨hs.bridge.trans h.bridge, h.auth, hs.pending.symm ▸ h.slot,
    fun hl => h.applied (hs.pending.symm.trans hl), fun p hp => h.edge p (hs.pending ▸ hp)⟩

/-- A bridge id gets a user: the records that name it are replayed. -/
theorem addUnknownAdjacency (h : Following u seqno db n) (hlt : seqno < 2 ^ 32)
    (nonce : Nonce) :
    ∃ n', Following u seqno (db.addUnknownAdjacency true nonce) n' ∧
      n'.adjacency = ((db.parked u).filter (names nonce)).foldl
        (AdjacencyTab.apply db.find u) n.adjacency ∧
      (db.addUnknownAdjacency true nonce).parked u =
        (db.parked u).filter (stays db.find u nonce) := by
  rcases h.slot with ⟨hl, -⟩ | ⟨p, hp, hpark⟩
  · obtain ⟨h1, h2⟩ := addUnknownAdjacency_none true nonce db hl
    refine ⟨n, h.of_sameSlot ⟨h1, h2.trans hl.symm⟩, ?_, ?_⟩
    · simp [parked, hl]
    · simp [parked, hl, h2]
  · obtain ⟨h1, h2⟩ := addUnknownAdjacency_some true nonce db hp h.bridge
    obtain ⟨csum, hr⟩ := hpark.replayPending_known h.auth db.find u nonce
    have hparked : db.parked u = p.recList := by simp [parked, hp]
    have hseq := h.edge p (by simp [hp])
    have hslot := hpark.replayPending db.find u true nonce
    rw [hparked]
    rw [hr] at h1 h2 hslot
    simp only at h1 h2 hslot
    by_cases hleft : p.left db.find u nonce = []
    · -- nothing stays: the seqno is taken
      rw [if_pos hleft] at h1 h2 hslot
      refine ⟨_, ⟨h1, h.auth, by rw [h2]; exact hslot, fun _ => ?_, by simp [h2]⟩, rfl, ?_⟩
      · show p.linkStateSeqno % 2 ^ 32 = seqno
        rw [hseq, Nat.mod_eq_of_lt hlt]
      · rw [parked, h2]
        exact hleft.symm
    · rw [if_neg hleft] at h1 h2 hslot
      refine ⟨_, ⟨h1, h.auth, by rw [h2]; exact hslot, by simp [h2], ?_⟩, rfl, ?_⟩
      · simpa [h2] using hseq
      · simp [parked, h2, AdjPending.left]

theorem setAuthenticated (h : Following u seqno db n) (w : ℕ) (m : UserBridge) :
    ∃ n', Following u seqno (db.setAuthenticated w m) n' ∧ n'.adjacency = n.adjacency := by
  rcases eq_or_ne u w with rfl | hw
  · refine ⟨{ n with zombie := false, authenticated := true },
      ⟨?_, rfl, h.slot.congr rfl rfl (Nat.le_refl _), h.applied, h.edge⟩, rfl⟩
    exact (bridgeTab_modifyBridge_self db u _).trans (by rw [h.bridge]; rfl)
  · exact ⟨n, h.of_sameSlot ⟨bridgeTab_modifyBridge_ne db _ hw, rfl⟩, rfl⟩

/-- A peer that was never known says bye, and no parked record names it. -/
theorem byePeer (h : Following u seqno db n) {nonce : Nonce}
    (hnone : ∀ rec ∈ db.parked u, names nonce rec = false) :
    SameSlot u db (db.addUnknownAdjacency false nonce) := by
  rcases h.slot with ⟨hl, -⟩ | ⟨p, hp, hpark⟩
  · obtain ⟨h1, h2⟩ := addUnknownAdjacency_none false nonce db hl
    exact ⟨h1, h2.trans hl.symm⟩
  · obtain ⟨h1, h2⟩ := addUnknownAdjacency_some false nonce db hp h.bridge
    have hkeep : n.replayPending db.find u false nonce p = (n, some p) := by
      have hnew := hpark.newer
      have hseq := hpark.seqno
      have hpos := hpark.count_pos
      have hin : ¬ (¬ n.authenticated ∨ p.linkStateSeqno ≤ n.linkStateSeqno ∨
          n.unknownLinkSeqno ≠ p.linkStateSeqno) := by
        rw [h.auth]
        simp only [not_true, false_or]
        omega
      have hout : ¬ (p.recCount = 0 ∨ ∃ rec ∈ p.recList,
          rec.nonce.getD 0 = nonce ∨ rec.remBridge = some nonce) := by
        rintro (h0 | ⟨rec, hrec, hname⟩)
        · omega
        · have hf := hnone rec (by simpa [parked, hp] using hrec)
          exact absurd (decide_eq_true hname) (by simpa [names] using hf)
      simp only [replayPending, hin, if_false, Bool.false_eq_true, hout]
    rw [hkeep] at h1 h2
    exact ⟨h1.trans h.bridge.symm, h2.trans hp.symm⟩

theorem processUnknownAdjacency (h : Following u seqno db n) {now : ℕ}
    (hkeep : ∀ p ∈ db.pendingOf u, Due now p → p.requestCount ≤ 5) :
    Following u seqno (db.processUnknownAdjacency now) n ∧
      (db.processUnknownAdjacency now).parked u = db.parked u := by
  have hpend : (db.processUnknownAdjacency now).pendingOf u =
      (db.pendingOf u).map (requested now) := by
    refine pendingOf_processUnknownAdjacency fun p hp => ⟨?_, hkeep p hp⟩
    rcases h.slot with ⟨hl, -⟩ | ⟨q, hl, hq⟩
    · simp [hl] at hp
    · rw [hl, List.mem_singleton] at hp
      exact hp ▸ Nat.ne_of_gt hq.count_pos
  have hreq : ∀ p, (requested now p).linkStateSeqno = p.linkStateSeqno ∧
      (requested now p).recList = p.recList := by
    intro p
    unfold requested
    split <;> exact ⟨rfl, rfl⟩
  refine ⟨⟨h.bridge, h.auth, h.slot.processUnknownAdjacency hkeep, ?_, ?_⟩, ?_⟩
  · intro hl
    exact h.applied (List.map_eq_nil_iff.mp (hpend.symm.trans hl))
  · intro p hp
    rw [hpend] at hp
    obtain ⟨q, hq, rfl⟩ := List.mem_map.mp hp
    rw [(hreq q).1]
    exact h.edge q hq
  · simp [parked, hpend, List.flatMap_map, hreq]

end Following

/-! ## A run of the receiver -/

/-- The receiver, with the records `u` has sent and the number of its messages. -/
structure Delivery where
  db : UserDB
  log : List AdjacencyRec
  sent : ℕ

/-- The next message of the publisher, or anything else. -/
inductive Deliver where
  | change (recs : List AdjacencyRec)
  | other (e : Event)

namespace Delivery

/-- The publisher numbers its messages from `seqno₀ + 1` on. -/
def step (u seqno₀ : ℕ) (s : Delivery) : Deliver → Delivery
  | .change recs =>
    ⟨s.db.recvAdjacencyChange u (seqno₀ + s.sent + 1) recs, s.log ++ recs, s.sent + 1⟩
  | .other e => { s with db := s.db.step e }

/-- The publisher's messages come in order and it stays; a bridge id gets one
uid. -/
def Legal (u : ℕ) (s : Delivery) : Deliver → Prop
  | .change _ => True
  | .other (.addUser nonce) => s.db.find nonce = none
  | .other (.removeAuthenticated v _) => v ≠ u
  | .other (.recvAdjacencyChange v _ _) => v ≠ u
  | .other (.recvAdjacencyResult v _ _ _ _) => v ≠ u
  | .other _ => True

/-- No record is applied before a parked one that it is not independent of; no
parked record is dropped; the 32 bits of the counters and of the seqno are
enough. -/
def InOrder (u seqno₀ : ℕ) (s : Delivery) : Deliver → Prop
  | .change recs =>
    seqno₀ + s.sent + 1 < 2 ^ 32 ∧
      (∀ n, s.db.bridgeTab u = some n → n.unknownAdjRefs + recs.length < 2 ^ 32) ∧
      ArrivesInOrder s.db.find u (s.db.parked u) recs
  | .other (.addAuthenticated v) =>
    ∀ n, s.db.bridgeTab v = some n →
      ReplaysInOrder s.db.find u n.nonce (s.db.parked u)
  | .other (.byePeer nonce) => ∀ rec ∈ s.db.parked u, names nonce rec = false
  | .other (.processUnknownAdjacency now) =>
    ∀ p ∈ s.db.pendingOf u, Due now p → p.requestCount ≤ 5
  | .other _ => True

end Delivery

/-- The tables give every bridge id one uid of its own. -/
structure Numbered (db : UserDB) : Prop where
  knows : KnowsPeers db
  injective : db.find.Injective
  lt : ∀ x b, db.find x = some b → b < db.nextUid

theorem Numbered.of_roster {db db' : UserDB} (h : Numbered db) (hr : db'.roster = db.roster) :
    Numbered db' :=
  ⟨h.knows.of_roster hr, (find_of_roster hr).symm ▸ h.injective, by
    rw [find_of_roster hr, nextUid_of_roster hr]
    exact h.lt⟩

theorem Numbered.addUser {db : UserDB} (h : Numbered db) (nonce : Nonce)
    (hnew : db.find nonce = none) : Numbered (db.addUser nonce) := by
  have hfind : (db.addUser nonce).find = Function.update db.find nonce (some db.nextUid) :=
    (congrArg Roster.find (roster_addUser db nonce)).trans (Roster.find_enter ..)
  have hself : (db.addUser nonce).find nonce = some db.nextUid := by
    rw [hfind, Function.update_self]
  have hother : ∀ x, x ≠ nonce → (db.addUser nonce).find x = db.find x := by
    intro x hx
    rw [hfind, Function.update_of_ne hx]
  refine ⟨h.knows.addUser hnew, ?_, ?_⟩
  · intro x y b hx hy
    by_cases hxn : x = nonce <;> by_cases hyn : y = nonce
    · rw [hxn, hyn]
    · rw [hxn, hself] at hx
      rw [hother y hyn, ← hx] at hy
      exact absurd (h.lt y _ hy) (Nat.lt_irrefl _)
    · rw [hyn, hself] at hy
      rw [hother x hxn, ← hy] at hx
      exact absurd (h.lt x _ hx) (Nat.lt_irrefl _)
    · rw [hother x hxn] at hx
      rw [hother y hyn] at hy
      exact h.injective x y b hx hy
  · intro x b hx
    show b < db.nextUid + 1
    rcases eq_or_ne x nonce with rfl | hxn
    · rw [hself] at hx
      have := Option.some.inj hx
      omega
    · rw [hother x hxn] at hx
      have := h.lt x b hx
      omega

theorem Numbered.setAuthenticated {db : UserDB} (h : Numbered db) {v : ℕ} {n : UserBridge}
    (hn : db.bridgeTab v = some n) : Numbered (db.setAuthenticated v n) := by
  have hfind := find_setAuthenticated h.knows hn
  refine ⟨h.knows.setAuthenticated hn, hfind.symm ▸ h.injective, ?_⟩
  rw [hfind]
  exact h.lt

theorem Numbered.addAuthenticated {db : UserDB} (h : Numbered db) (v : ℕ) :
    Numbered (db.addAuthenticated v) := by
  unfold UserDB.addAuthenticated
  cases hn : db.bridgeTab v with
  | none => exact h
  | some n =>
    simp only
    split
    · exact h.setAuthenticated hn
    · exact (h.setAuthenticated hn).of_roster (roster_addUnknownAdjacency true n.nonce)

theorem Numbered.removeAuthenticated {db : UserDB} (h : Numbered db) (v : ℕ) (stage : Bye) :
    Numbered (db.removeAuthenticated v stage) := by
  have hfind := find_removeAuthenticated h.knows v stage
  refine ⟨h.knows.removeAuthenticated v stage, hfind.symm ▸ h.injective, ?_⟩
  rw [hfind, nextUid_removeAuthenticated]
  exact h.lt

theorem numbered_init (nonce : Nonce) : Numbered (UserDB.init nonce) := by
  have hfind : ∀ x b, (UserDB.init nonce).find x = some b → x = nonce ∧ b = 0 := by
    intro x b hx
    by_cases hxn : x = nonce
    · subst hxn
      simp [UserDB.find, UserDB.init] at hx
      exact ⟨rfl, hx.symm⟩
    · simp [UserDB.find, UserDB.init, Function.update_of_ne hxn] at hx
  refine ⟨?_, ?_, ?_⟩
  · intro uid x
    simp [ids, UserDB.init]
  · intro x y b hx hy
    rw [(hfind x b hx).1, (hfind y b hy).1]
  · intro x b hx
    rw [(hfind x b hx).2]
    exact Nat.one_pos

/-- The state in which the publisher's messages start: it is authenticated and
nothing of it is pending. -/
structure Ready (u : ℕ) (db : UserDB) (n : UserBridge) : Prop where
  numbered : Numbered db
  lt : u < db.nextUid
  bridge : db.bridgeTab u = some n
  auth : n.authenticated = true
  pending : db.pendingOf u = []
  refs : n.unknownAdjRefs = 0
  edge : n.unknownLinkSeqno = 0
  seqno : n.linkStateSeqno < 2 ^ 32

structure ReceiverInv (u seqno₀ : ℕ) (tab₀ : AdjacencyTab) (s : Delivery) : Prop where
  numbered : Numbered s.db
  lt : u < s.db.nextUid
  seqno : seqno₀ + s.sent < 2 ^ 32
  following : ∃ n, Following u (seqno₀ + s.sent) s.db n ∧
    ∀ f : UidTable, s.db.find.Extends f → f.Injective →
      CaughtUp (AdjacencyTab.apply f u) tab₀ s.log n.adjacency (s.db.parked u)

namespace ReceiverInv

variable {seqno₀ : ℕ} {tab₀ : AdjacencyTab} {s : Delivery}

/-- An event that leaves the publisher alone, and may teach a bridge id. -/
theorem of_sameSlot (h : ReceiverInv u seqno₀ tab₀ s) {db : UserDB}
    (hs : SameSlot u s.db db) (hnum : Numbered db) (hlt : u < db.nextUid)
    (hext : s.db.find.Extends db.find) : ReceiverInv u seqno₀ tab₀ { s with db := db } := by
  obtain ⟨n, hfol, hcaught⟩ := h.following
  refine ⟨hnum, hlt, h.seqno, n, hfol.of_sameSlot hs, fun f hf hinj => ?_⟩
  have hparked : db.parked u = s.db.parked u := by simp [parked, hs.pending]
  rw [hparked]
  exact hcaught f (fun x b hx => hf x b (hext x b hx)) hinj

theorem of_roster (h : ReceiverInv u seqno₀ tab₀ s) {db : UserDB}
    (hs : SameSlot u s.db db) (hr : db.roster = s.db.roster) :
    ReceiverInv u seqno₀ tab₀ { s with db := db } :=
  h.of_sameSlot hs (h.numbered.of_roster hr) (nextUid_of_roster hr ▸ h.lt)
    (find_of_roster hr ▸ fun _ _ hx => hx)

theorem change (h : ReceiverInv u seqno₀ tab₀ s) {recs : List AdjacencyRec}
    (hord : s.InOrder u seqno₀ (.change recs)) :
    ReceiverInv u seqno₀ tab₀ (s.step u seqno₀ (.change recs)) := by
  obtain ⟨hlt, hroom, hord⟩ := hord
  obtain ⟨n, hfol, hcaught⟩ := h.following
  obtain ⟨n', hfol', htab, hparked⟩ := hfol.recv (hroom n hfol.bridge) hlt
  have hr := roster_recvAdjacencyChange s.db u (seqno₀ + s.sent + 1) recs
  refine ⟨h.numbered.of_roster hr, (nextUid_of_roster hr).symm ▸ h.lt, hlt, n', hfol', ?_⟩
  intro f hf hinj
  rw [show (s.step u seqno₀ (.change recs)).db.find = s.db.find from find_of_roster hr] at hf
  rw [htab]
  show CaughtUp _ _ (s.log ++ recs) _
    ((s.db.recvAdjacencyChange u (seqno₀ + s.sent + 1) recs).parked u)
  rw [hparked]
  exact caughtUp_arrival hf hinj (hcaught f hf hinj) hord

theorem addAuthenticated (h : ReceiverInv u seqno₀ tab₀ s) {v : ℕ}
    (hord : s.InOrder u seqno₀ (.other (.addAuthenticated v))) :
    ReceiverInv u seqno₀ tab₀ (s.step u seqno₀ (.other (.addAuthenticated v))) := by
  show ReceiverInv u seqno₀ tab₀ { s with db := s.db.addAuthenticated v }
  cases hv : s.db.bridgeTab v with
  | none => simpa [UserDB.addAuthenticated, hv] using h
  | some m =>
    have hfind := find_setAuthenticated h.numbered.knows hv
    have hnum := h.numbered.setAuthenticated hv
    obtain ⟨n, hfol, hcaught⟩ := h.following
    obtain ⟨n₁, hfol₁, htab₁⟩ := hfol.setAuthenticated v m
    simp only [UserDB.addAuthenticated, hv]
    split
    · refine ⟨hnum, h.lt, h.seqno, n₁, hfol₁, fun f hf hinj => ?_⟩
      rw [htab₁]
      exact hcaught f (hfind ▸ hf) hinj
    · obtain ⟨n₂, hfol₂, htab₂, hparked₂⟩ := hfol₁.addUnknownAdjacency h.seqno m.nonce
      have hr : ((s.db.setAuthenticated v m).addUnknownAdjacency true m.nonce).roster =
          (s.db.setAuthenticated v m).roster := roster_addUnknownAdjacency true m.nonce
      refine ⟨hnum.of_roster hr, h.lt, h.seqno, n₂, hfol₂, fun f hf hinj => ?_⟩
      have hf' : s.db.find.Extends f := by
        rw [← hfind, ← find_of_roster hr]
        exact hf
      have hc : CaughtUp (AdjacencyTab.apply f u) tab₀ s.log n.adjacency
          ([] ++ s.db.parked u) := hcaught f hf' hinj
      have hc' := caughtUp_replay hf' hinj m.nonce hc (by simp) (hord m hv)
      have hsame : (s.db.setAuthenticated v m).parked u = s.db.parked u := rfl
      rw [htab₂, hparked₂, hfind, hsame, htab₁]
      exact hc'

theorem step (h : ReceiverInv u seqno₀ tab₀ s) {e : Deliver} (hlegal : s.Legal u e)
    (hord : s.InOrder u seqno₀ e) : ReceiverInv u seqno₀ tab₀ (s.step u seqno₀ e) := by
  cases e with
  | change recs => exact h.change hord
  | other e =>
    cases e with
    | addUser nonce =>
      have hne : u ≠ s.db.nextUid := Nat.ne_of_lt h.lt
      exact h.of_sameSlot
        ⟨Function.update_of_ne hne _ _, rfl⟩ (h.numbered.addUser nonce hlegal)
        (Nat.lt_succ_of_lt h.lt) (extends_addUser hlegal)
    | addAuthenticated v => exact h.addAuthenticated hord
    | removeAuthenticated v stage =>
      have hfind := find_removeAuthenticated h.numbered.knows v stage
      have hnext := nextUid_removeAuthenticated s.db v stage
      exact h.of_sameSlot (sameSlot_removeAuthenticated s.db (Ne.symm hlegal) stage)
        (h.numbered.removeAuthenticated v stage) (hnext.symm ▸ h.lt)
        (hfind.symm ▸ fun _ _ hx => hx)
    | recvAdjacencyChange v linkState recs =>
      exact h.of_roster
        (sameSlot_recvAdjacencyChange s.db (Ne.symm hlegal) linkState recs)
        (roster_recvAdjacencyChange s.db v linkState recs)
    | recvAdjacencyResult v linkState recs reas quiet =>
      exact h.of_roster
        (sameSlot_recvAdjacencyResult s.db (Ne.symm hlegal) linkState recs reas quiet)
        (roster_recvAdjacencyResult s.db v linkState recs reas quiet)
    | byePeer nonce =>
      obtain ⟨n, hfol, -⟩ := h.following
      exact h.of_roster (hfol.byePeer hord)
        (roster_addUnknownAdjacency false nonce)
    | processUnknownAdjacency now =>
      obtain ⟨n, hfol, hcaught⟩ := h.following
      obtain ⟨hfol', hparked⟩ := hfol.processUnknownAdjacency hord
      refine ⟨h.numbered.of_roster rfl, h.lt, h.seqno, n, hfol', ?_⟩
      intro f hf hinj
      show CaughtUp _ _ _ _ ((s.db.processUnknownAdjacency now).parked u)
      rw [hparked]
      exact hcaught f hf hinj

end ReceiverInv

theorem Ready.receiverInv {db : UserDB} {n : UserBridge} (h : Ready u db n) :
    ReceiverInv u n.linkStateSeqno n.adjacency ⟨db, [], 0⟩ := by
  refine ⟨h.numbered, h.lt, h.seqno, n,
    ⟨h.bridge, h.auth, Or.inl ⟨h.pending, h.refs, h.edge⟩, fun _ => rfl, ?_⟩, ?_⟩
  · simp [h.pending]
  · intro f _ _
    simp [parked, h.pending, CaughtUp]

/-- The receiver's table of the publisher is what its records give in order at a
receiver that knew, from the start, every peer this one knows now and maybe
more. -/
def TableIsSequential (u : ℕ) (tab₀ : AdjacencyTab) (s : Delivery) : Prop :=
  ∃ n, s.db.bridgeTab u = some n ∧ s.db.find.Injective ∧
    ∀ f : UidTable, s.db.find.Extends f → f.Injective →
      n.adjacency = s.log.foldl (AdjacencyTab.apply f u) tab₀

/-- **Late records do no harm when they are independent.** In every run whose
events are all in order, once nothing of the publisher is pending, its table is
the table of a receiver that knew every peer from the start. -/
theorem replay_eq_sequential {db₀ : UserDB} {n₀ : UserBridge} (h₀ : Ready u db₀ n₀)
    {s : Delivery}
    (h : Run.Reach (Delivery.step u n₀.linkStateSeqno)
      (fun s e => s.Legal u e ∧ s.InOrder u n₀.linkStateSeqno e) ⟨db₀, [], 0⟩ s)
    (hdone : s.db.pendingOf u = []) : TableIsSequential u n₀.adjacency s := by
  have hinv : ReceiverInv u n₀.linkStateSeqno n₀.adjacency s :=
    h.invariant h₀.receiverInv fun _ _ hs he => hs.step he.1 he.2
  obtain ⟨n, hfol, hcaught⟩ := hinv.following
  refine ⟨n, hfol.bridge, hinv.numbered.injective, fun f hf hinj => ?_⟩
  have hc := hcaught f hf hinj
  rw [parked, hdone] at hc
  exact hc

/-- A node with the publisher, uid 1, and one other peer, uid 2. -/
def twoPeers : UserDB :=
  ((((UserDB.init 3).addUser 7).addAuthenticated 1).addUser 8).addAuthenticated 2

/-- The publisher's bridge in `twoPeers`. -/
def publisher : UserBridge := { UserBridge.new 7 with authenticated := true }

theorem ready_twoPeers : Ready 1 twoPeers publisher := by
  refine ⟨?_, by decide, rfl, rfl, rfl, rfl, rfl, by decide⟩
  have h1 := ((numbered_init 3).addUser 7 (by decide)).addAuthenticated 1
  exact (h1.addUser 8 (by decide)).addAuthenticated 2

/-- A link to an unknown peer, then one to the known peer on another transport. -/
def lateLink : List Deliver :=
  [.change [linkTo 9], .change [{ linkTo 8 with tportid := some 1 }], .other (.addUser 9),
    .other (.addAuthenticated 3)]

theorem replay_eq_sequential_lateLink :
    TableIsSequential 1 publisher.adjacency
      (lateLink.foldl (Delivery.step 1 0) ⟨twoPeers, [], 0⟩) := by
  refine replay_eq_sequential ready_twoPeers (Run.Reach.start.foldl ?_) rfl
  refine ⟨⟨trivial, by decide, ?_, ?_⟩, ⟨trivial, by decide, ?_, ?_⟩, ⟨rfl, trivial⟩,
    ⟨trivial, ?_⟩, trivial⟩
  · intro n hn
    obtain rfl : _ = n := Option.some.inj hn
    decide
  · exact ⟨by decide, by decide⟩
  · intro n hn
    obtain rfl : _ = n := Option.some.inj hn
    decide
  · exact ⟨by decide, by decide⟩
  · intro n hn
    obtain rfl : _ = n := Option.some.inj hn
    show List.Pairwise _ _
    decide

/-- Add the known peer with an unknown remote end; then remove it. -/
def addThenRemove : List Deliver :=
  [.change [{ linkTo 8 with remBridge := some 9, remTportid := some 5 }],
    .change [{ linkTo 8 with add := false }], .other (.addUser 9),
    .other (.addAuthenticated 3)]

/-- The add is parked for its remote end and replayed after the remove, so that a
link the publisher has taken down is up again at the receiver. -/
theorem replay_undoes_remove :
    ¬ ∀ (u : ℕ) (db₀ : UserDB) (n₀ : UserBridge), Ready u db₀ n₀ → ∀ s : Delivery,
      Run.Reach (Delivery.step u n₀.linkStateSeqno) (fun s e => s.Legal u e) ⟨db₀, [], 0⟩ s →
      s.db.pendingOf u = [] → TableIsSequential u n₀.adjacency s := by
  intro h
  have hrun := h 1 twoPeers publisher ready_twoPeers
    (addThenRemove.foldl (Delivery.step 1 0) ⟨twoPeers, [], 0⟩)
    (Run.Reach.start.foldl ⟨trivial, trivial, rfl, trivial, trivial⟩) rfl
  obtain ⟨n, hn, hinj, htab⟩ := hrun
  have heq := htab _ (fun x b hx => hx) hinj
  have hgot : ((addThenRemove.foldl (Delivery.step 1 0) ⟨twoPeers, [], 0⟩).db.bridgeTab 1).map
      (fun n => members n.adjacency 0) = some {2} := by decide
  rw [hn, Option.map_some, heq] at hgot
  exact absurd hgot (by decide)

end Raims
