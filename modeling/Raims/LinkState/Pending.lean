import Raims.LinkState.UserDB
import Raims.Lib.Run

/-!
# Pending adjacency stays in step with the bridges

For every uid the list of pending entries has none, and the counters of its
bridge are zero, or one, and the counters describe it (`Slot`). Every operation
changes the slot of one uid, so each is described by what it does to that slot.
Two branches break the rule: `process_unknown_adjacency` deletes an entry that was
requested too often and leaves the counters, and a restarted sync may park
records under a seqno that the bridge already has.
-/

namespace Raims

open UserDB

/-! ## Slots -/

namespace UserDB

def pendingOf (db : UserDB) (uid : ℕ) : List AdjPending :=
  db.adjacencyUnknown.filter (·.uid = uid)

end UserDB

/-- The counters of `n` describe the entry `p`. -/
structure Parked (n : UserBridge) (p : AdjPending) : Prop where
  refs : p.recCount ≤ n.unknownAdjRefs
  refs_lt : n.unknownAdjRefs < 2 ^ 32
  seqno : p.linkStateSeqno = n.unknownLinkSeqno
  newer : n.linkStateSeqno < p.linkStateSeqno
  count : p.recCount = p.recList.length
  nonempty : p.recList ≠ []

def Slot : Option UserBridge → List AdjPending → Prop
  | none, l => l = []
  | some n, l =>
    (l = [] ∧ n.unknownAdjRefs = 0 ∧ n.unknownLinkSeqno = 0) ∨ ∃ p, l = [p] ∧ Parked n p

theorem Parked.count_pos {n : UserBridge} {p : AdjPending} (h : Parked n p) :
    0 < p.recCount := by
  rw [h.count]
  exact List.length_pos_iff.mpr h.nonempty

theorem Slot.refs_ne_zero {n : UserBridge} {l : List AdjPending} (h : Slot (some n) l) :
    n.unknownAdjRefs ≠ 0 ↔ l ≠ [] := by
  rcases h with ⟨rfl, h0, -⟩ | ⟨p, rfl, hp⟩
  · simp [h0]
  · have := hp.count_pos
    have := hp.refs
    simp only [ne_eq, List.cons_ne_nil, not_false_eq_true, iff_true]
    omega

/-- The slot reads the counters only, and an older seqno does not hurt. -/
theorem Slot.congr {n n' : UserBridge} {l : List AdjPending} (h : Slot (some n) l)
    (hr : n'.unknownAdjRefs = n.unknownAdjRefs) (hu : n'.unknownLinkSeqno = n.unknownLinkSeqno)
    (hs : n'.linkStateSeqno ≤ n.linkStateSeqno) : Slot (some n') l := by
  rcases h with ⟨hl, h0, h1⟩ | ⟨p, hl, hp⟩
  · exact Or.inl ⟨hl, hr.trans h0, hu.trans h1⟩
  · exact Or.inr ⟨p, hl, hr ▸ hp.refs, hr ▸ hp.refs_lt, hu ▸ hp.seqno,
      hs.trans_lt hp.newer, hp.count, hp.nonempty⟩

/-- Every uid has its slot in order, and no bridge is beyond `next_uid`. -/
structure PendingInv (db : UserDB) : Prop where
  slot : ∀ uid, Slot (db.bridgeTab uid) (db.pendingOf uid)
  fresh : ∀ uid, db.nextUid ≤ uid → db.bridgeTab uid = none

/-! ## Entries of one uid in the list -/

theorem filter_eraseP_self (l : List AdjPending) (uid : ℕ) :
    (l.eraseP (·.uid = uid)).filter (·.uid = uid) =
      (l.filter (·.uid = uid)).tail := by
  induction l with
  | nil => rfl
  | cons p l ih => by_cases hp : p.uid = uid <;> simp [hp, ih]

theorem filter_eraseP_ne (l : List AdjPending) {uid v : ℕ} (h : v ≠ uid) :
    (l.eraseP (·.uid = uid)).filter (·.uid = v) = l.filter (·.uid = v) := by
  induction l with
  | nil => rfl
  | cons p l ih =>
    by_cases hp : p.uid = uid
    · have hv : ¬ p.uid = v := fun hv => h (hv.symm.trans hp)
      simp [hp, Ne.symm h]
    · by_cases hv : p.uid = v <;> simp [hp, hv, ih, h]

theorem uid_of_pendingOf {db : UserDB} {uid : ℕ} {p : AdjPending} {l : List AdjPending}
    (h : db.pendingOf uid = p :: l) : p.uid = uid := by
  have hp : p ∈ db.pendingOf uid := by simp [h]
  simpa using (List.mem_filter.mp hp).2

theorem find?_of_pendingOf (db : UserDB) (uid : ℕ) :
    db.adjacencyUnknown.find? (·.uid = uid) = (db.pendingOf uid).head? :=
  List.head?_filter.symm

/-! ## One bridge -/

namespace UserBridge

variable {find : UidTable} {uid : ℕ}

theorem addAdjacencyChange_snd (n : UserBridge) (rec : AdjacencyRec) :
    (n.addAdjacencyChange find uid rec).2 = !rec.parks find uid :=
  AdjacencyTab.addChange_snd find uid n.adjacency rec

theorem addAdjacencyChange_fst (find : UidTable) (uid : ℕ) (n : UserBridge)
    (rec : AdjacencyRec) : ∃ csum, (n.addAdjacencyChange find uid rec).1 =
      { n with adjacency := n.adjacency.apply find uid rec, uidCsum := csum } :=
  ⟨_, rfl⟩

/-- A message's records are applied in order as far as each goes; those that name
an unknown peer come back and are counted. -/
theorem applyAdjacencyChange_eq (find : UidTable) (uid : ℕ) (n : UserBridge)
    (recs : List AdjacencyRec) (h : n.unknownAdjRefs + recs.length < 2 ^ 32) :
    (n.applyAdjacencyChange find uid recs).2 = recs.filter (·.parks find uid) ∧
    ∃ csum, (n.applyAdjacencyChange find uid recs).1 =
      { n with
        adjacency := recs.foldl (AdjacencyTab.apply find uid) n.adjacency
        uidCsum := csum
        unknownAdjRefs :=
          n.unknownAdjRefs + (recs.filter (·.parks find uid)).length } := by
  induction recs generalizing n with
  | nil => exact ⟨rfl, n.uidCsum, rfl⟩
  | cons rec recs ih =>
    obtain ⟨csum, hfst⟩ := addAdjacencyChange_fst find uid n rec
    rw [List.length_cons] at h
    unfold applyAdjacencyChange
    simp only [addAdjacencyChange_snd, hfst]
    cases hp : rec.parks find uid with
    | false =>
      obtain ⟨h2, c, h1⟩ := ih { n with
        adjacency := n.adjacency.apply find uid rec, uidCsum := csum }
        (by simp only; omega)
      refine ⟨?_, c, ?_⟩
      · simp [hp, h2]
      · simp [hp, h1]
    | true =>
      have hmod : (n.unknownAdjRefs + 1) % 2 ^ 32 = n.unknownAdjRefs + 1 := by omega
      obtain ⟨h2, c, h1⟩ := ih { n with
        adjacency := n.adjacency.apply find uid rec
        uidCsum := csum
        unknownAdjRefs := n.unknownAdjRefs + 1 } (by simp only; omega)
      simp only [hmod, Bool.not_true, Bool.false_eq_true, if_false, h2, h1]
      refine ⟨by simp [hp], c, ?_⟩
      simp [hp]
      omega

/-- The record names the bridge id. -/
def names (nonce : Nonce) (rec : AdjacencyRec) : Bool :=
  rec.nonce.getD 0 = nonce ∨ rec.remBridge = some nonce

/-- The record stays pending when the bridge id `nonce` gets a user. -/
def stays (find : UidTable) (uid : ℕ) (nonce : Nonce) (rec : AdjacencyRec) : Bool :=
  !names nonce rec || rec.parks find uid

/-- The records that name the bridge id are applied in order as far as each goes;
those that still lack a peer stay, with the ones not named. -/
theorem replayRecs_eq (find : UidTable) (uid : ℕ) (nonce : Nonce)
    (recs : List AdjacencyRec) (m : UserBridge) (pend : List AdjacencyRec)
    (h : pend.length + recs.length < 2 ^ 32) :
    ∃ csum, m.replayRecs find uid nonce recs (pend.length + recs.length) pend =
      ({ m with
          adjacency := (recs.filter (names nonce)).foldl (AdjacencyTab.apply find uid)
            m.adjacency
          uidCsum := csum },
        (pend ++ recs.filter (stays find uid nonce)).length,
        pend ++ recs.filter (stays find uid nonce)) := by
  induction recs generalizing m pend with
  | nil => exact ⟨m.uidCsum, by simp [replayRecs]⟩
  | cons rec recs ih =>
    rw [List.length_cons] at h
    unfold replayRecs
    by_cases hn : rec.nonce.getD 0 = nonce ∨ rec.remBridge = some nonce
    · have hnames : names nonce rec = true := decide_eq_true hn
      obtain ⟨c1, hfst⟩ := addAdjacencyChange_fst find uid m rec
      simp only [hn, if_true, addAdjacencyChange_snd, hfst]
      cases hp : rec.parks find uid with
      | false =>
        have hleft : (pend.length + (rec :: recs).length + (2 ^ 32 - 1)) % 2 ^ 32 =
            pend.length + recs.length := by
          rw [List.length_cons]
          omega
        simp only [hleft, Bool.not_false, if_true]
        split
        · -- nothing is left to look at
          next hz =>
            obtain ⟨hpend, hrecs⟩ : pend = [] ∧ recs = [] := by
              constructor <;> apply List.eq_nil_of_length_eq_zero <;> omega
            exact ⟨c1, by simp [hpend, hrecs, stays, hnames, hp]⟩
        · obtain ⟨c, hc⟩ := ih { m with
            adjacency := m.adjacency.apply find uid rec, uidCsum := c1 } pend
            (by omega)
          refine ⟨c, ?_⟩
          rw [hc]
          simp [stays, hnames, hp]
      | true =>
        obtain ⟨c, hc⟩ := ih { m with
          adjacency := m.adjacency.apply find uid rec, uidCsum := c1 } (pend ++ [rec])
          (by simp; omega)
        have hlen : pend.length + (rec :: recs).length =
            (pend ++ [rec]).length + recs.length := by
          simp
          omega
        refine ⟨c, ?_⟩
        simp only [Bool.not_true, Bool.false_eq_true, if_false, hlen, hc]
        simp [stays, hnames, hp]
    · have hnames : names nonce rec = false := decide_eq_false hn
      obtain ⟨c, hc⟩ := ih m (pend ++ [rec]) (by simp; omega)
      have hlen : pend.length + (rec :: recs).length =
          (pend ++ [rec]).length + recs.length := by
        simp
        omega
      refine ⟨c, ?_⟩
      rw [if_neg hn, hlen, hc]
      simp [stays, hnames]

end UserBridge

/-! ## What each operation does to a slot -/

namespace UserDB

variable {db : UserDB} {uid v : ℕ}

@[simp] theorem pendingOf_modifyBridge (db : UserDB) (uid v : ℕ) (f : UserBridge → UserBridge) :
    (db.modifyBridge uid f).pendingOf v = db.pendingOf v := rfl

@[simp] theorem bridgeTab_modifyBridge_self (db : UserDB) (uid : ℕ)
    (f : UserBridge → UserBridge) :
    (db.modifyBridge uid f).bridgeTab uid = (db.bridgeTab uid).map f := by
  simp [modifyBridge]

theorem bridgeTab_modifyBridge_ne (db : UserDB) (f : UserBridge → UserBridge)
    (h : v ≠ uid) : (db.modifyBridge uid f).bridgeTab v = db.bridgeTab v := by
  simp [modifyBridge, h]

theorem bridgeTab_save (db : UserDB) (uid seqno : ℕ) (recs : List AdjacencyRec) (b : Bool) :
    (db.saveUnknownAdjacency uid seqno recs b).bridgeTab =
      (db.modifyBridge uid fun n => { n with unknownLinkSeqno := seqno }).bridgeTab := rfl

theorem uid_savedEntry {seqno pend : ℕ} {sav : Option AdjPending} {recs : List AdjacencyRec}
    (h : ∀ s, sav = some s → s.uid = uid) : (savedEntry uid seqno pend sav recs).1.uid = uid := by
  unfold savedEntry
  cases sav with
  | none => rfl
  | some s =>
    simp only
    split
    · rfl
    · exact h s rfl

theorem uid_takePending {b : Bool} {s : AdjPending} (h : (db.takePending uid b).1 = some s) :
    s.uid = uid := by
  cases b with
  | false => simp [takePending] at h
  | true => simpa using List.find?_some h

theorem pendingOf_save_ne (db : UserDB) (seqno : ℕ) (recs : List AdjacencyRec) (b : Bool)
    (h : v ≠ uid) : (db.saveUnknownAdjacency uid seqno recs b).pendingOf v =
      db.pendingOf v := by
  have hp : ¬ (savedEntry uid seqno db.pendingSeqno (db.takePending uid b).1 recs).1.uid = v := by
    rw [uid_savedEntry fun s => uid_takePending]
    exact Ne.symm h
  simp only [pendingOf, saveUnknownAdjacency, List.filter_append, List.filter_singleton, hp]
  cases b with
  | false => simp [takePending]
  | true => simp [takePending, filter_eraseP_ne _ h]

/-- The entry of `uid` after a save: what it had and what is new, under the new
seqno. -/
theorem pendingOf_save_self (db : UserDB) (seqno : ℕ) (recs : List AdjacencyRec) {b : Bool}
    (hslot : db.pendingOf uid = [] ∨ b = true ∧ ∃ p, db.pendingOf uid = [p] ∧
      p.recCount = p.recList.length ∧ p.recList ≠ [])
    (hlen : ((db.pendingOf uid).flatMap AdjPending.recList ++ recs).length < 2 ^ 32) :
    ∃ p, (db.saveUnknownAdjacency uid seqno recs b).pendingOf uid = [p] ∧
      p.linkStateSeqno = seqno ∧ p.recCount = p.recList.length ∧
      p.recList = (db.pendingOf uid).flatMap AdjPending.recList ++ recs := by
  have hself : ∀ q : AdjPending, q.uid = uid → (db.takePending uid b).2.filter (·.uid = uid) = [] →
      (savedEntry uid seqno db.pendingSeqno (db.takePending uid b).1 recs).1 = q →
      (db.saveUnknownAdjacency uid seqno recs b).pendingOf uid = [q] := by
    intro q hq hrest hentry
    simp only [pendingOf, saveUnknownAdjacency, List.filter_append, hrest, hentry]
    simp [hq]
  rcases hslot with hnil | ⟨rfl, p, hp, hcount, hne⟩
  · rw [hnil] at hlen ⊢
    simp only [List.flatMap_nil, List.nil_append] at hlen ⊢
    have hmod : recs.length % 2 ^ 32 = recs.length := Nat.mod_eq_of_lt hlen
    have hsav : (db.takePending uid b).1 = none := by
      cases b with
      | false => rfl
      | true => simp [takePending, find?_of_pendingOf, hnil]
    have hrest : (db.takePending uid b).2.filter (·.uid = uid) = [] := by
      cases b with
      | false => exact hnil
      | true =>
        rw [pendingOf] at hnil
        simp [takePending, filter_eraseP_self, hnil]
    refine ⟨⟨uid, seqno, 0, db.pendingSeqno + 1, 0, recs.length, recs⟩,
      hself _ rfl hrest ?_, rfl, rfl, rfl⟩
    simp only [hsav, savedEntry, mergeRecs, hmod, List.take_length]
  · have hsav : (db.takePending uid true).1 = some p := by
      simp [takePending, find?_of_pendingOf, hp]
    have hpu : p.uid = uid := uid_of_pendingOf hp
    have hrest : (db.takePending uid true).2.filter (·.uid = uid) = [] := by
      rw [pendingOf] at hp
      simp [takePending, filter_eraseP_self, hp]
    rw [hp] at hlen ⊢
    simp only [List.flatMap_cons, List.flatMap_nil, List.append_nil, List.length_append]
      at hlen ⊢
    have hmod : (recs.length % 2 ^ 32 + p.recCount) % 2 ^ 32 =
        p.recList.length + recs.length := by
      omega
    by_cases hlt : p.recCount < p.recList.length + recs.length
    · refine ⟨⟨uid, seqno, 0, db.pendingSeqno + 1, 0, p.recList.length + recs.length,
        p.recList ++ recs⟩, hself _ rfl hrest ?_, rfl, by simp, rfl⟩
      simp only [hsav, savedEntry, mergeRecs, hne, if_false, hmod, hlt, if_true]
      rw [← List.length_append, List.take_length]
    · -- nothing new: the old entry gets the new seqno
      have hrecs : recs = [] := List.eq_nil_of_length_eq_zero (by omega)
      refine ⟨{ p with linkStateSeqno := seqno }, hself _ hpu hrest ?_, rfl, hcount,
        by simp [hrecs]⟩
      simp only [hsav, savedEntry, mergeRecs, hne, if_false, hmod, hlt]

theorem pendingOf_clearUnknownAdjacency_self (db : UserDB) (uid : ℕ) :
    (db.clearUnknownAdjacency uid).pendingOf uid = [] := by
  simp only [pendingOf, clearUnknownAdjacency, List.filter_filter]
  exact List.filter_eq_nil_iff.mpr (by simp)

theorem pendingOf_clearUnknownAdjacency_ne (db : UserDB) (h : v ≠ uid) :
    (db.clearUnknownAdjacency uid).pendingOf v = db.pendingOf v := by
  simp only [pendingOf, clearUnknownAdjacency, List.filter_filter]
  refine List.filter_congr fun p _ => ?_
  by_cases hp : p.uid = v <;> simp [hp, h]

/-! ### `add_unknown_adjacency` -/

variable (find : UidTable) (known : Bool) (nonce : Nonce)

theorem uid_replayPending {find : UidTable} {known : Bool} {nonce : Nonce} {m : UserBridge}
    {p q : AdjPending} (h : (m.replayPending find uid known nonce p).2 = some q) : q.uid = p.uid := by
  unfold UserBridge.replayPending at h
  split at h
  · simp at h
  · split at h
    · simp only at h
      split at h
      · simp at h
      · exact (Option.some.inj h) ▸ rfl
    · split at h
      · simp at h
      · exact (Option.some.inj h) ▸ rfl

/-- An entry of another uid leaves the slot alone. -/
theorem replayStep_ne (s : (ℕ → Option UserBridge) × List AdjPending) {p : AdjPending}
    (h : p.uid ≠ v) :
    (replayStep find known nonce s p).1 v = s.1 v ∧
      (replayStep find known nonce s p).2.filter (·.uid = v) = s.2.filter (·.uid = v) := by
  unfold replayStep
  cases hm : s.1 p.uid with
  | none => exact ⟨rfl, rfl⟩
  | some m =>
    simp only [Function.update_of_ne (Ne.symm h), List.filter_append, true_and]
    cases hq : (m.replayPending find p.uid known nonce p).2 with
    | none => simp
    | some q =>
      have hqu : ¬ q.uid = v := fun hqv => h ((uid_replayPending hq).symm.trans hqv)
      simp [hqu]

theorem foldl_replayStep_ne (l : List AdjPending)
    (s : (ℕ → Option UserBridge) × List AdjPending) (h : l.filter (·.uid = v) = []) :
    (l.foldl (replayStep find known nonce) s).1 v = s.1 v ∧
      (l.foldl (replayStep find known nonce) s).2.filter (·.uid = v) =
        s.2.filter (·.uid = v) := by
  induction l generalizing s with
  | nil => exact ⟨rfl, rfl⟩
  | cons p l ih =>
    have hp : p.uid ≠ v := fun hp => by simp [hp] at h
    rw [List.filter_cons_of_neg (by simpa using hp)] at h
    obtain ⟨h1, h2⟩ := ih (replayStep find known nonce s p) h
    obtain ⟨h3, h4⟩ := replayStep_ne find known nonce s hp
    exact ⟨h1.trans h3, h2.trans h4⟩

/-- The only entry of a uid is replayed on its bridge. -/
theorem foldl_replayStep_self (l : List AdjPending)
    (s : (ℕ → Option UserBridge) × List AdjPending) {p : AdjPending} {m : UserBridge}
    (h : l.filter (·.uid = v) = [p]) (hm : s.1 v = some m) (hs : s.2.filter (·.uid = v) = []) :
    (l.foldl (replayStep find known nonce) s).1 v =
        some (m.replayPending find v known nonce p).1 ∧
      (l.foldl (replayStep find known nonce) s).2.filter (·.uid = v) =
        (m.replayPending find v known nonce p).2.toList := by
  induction l generalizing s with
  | nil => simp at h
  | cons q l ih =>
    by_cases hq : q.uid = v
    · rw [List.filter_cons_of_pos (by simpa using hq)] at h
      obtain ⟨rfl, hl⟩ := List.cons.inj h
      subst hq
      obtain ⟨h1, h2⟩ := foldl_replayStep_ne find known nonce l
        (replayStep find known nonce s q) hl
      rw [List.foldl_cons, h1, h2]
      simp only [replayStep, hm, Function.update_self, List.filter_append, hs,
        List.nil_append, true_and]
      rw [List.filter_eq_self]
      intro r hr
      simpa using uid_replayPending (Option.mem_toList.mp hr)
    · rw [List.filter_cons_of_neg (by simpa using hq)] at h
      obtain ⟨h3, h4⟩ := replayStep_ne find known nonce s hq
      exact ih _ h (h3.trans hm) (h4.trans hs)

theorem addUnknownAdjacency_none (db : UserDB) (h : db.pendingOf v = []) :
    (db.addUnknownAdjacency known nonce).bridgeTab v = db.bridgeTab v ∧
      (db.addUnknownAdjacency known nonce).pendingOf v = [] :=
  foldl_replayStep_ne db.find known nonce db.adjacencyUnknown (db.bridgeTab, []) h

theorem addUnknownAdjacency_some (db : UserDB) {p : AdjPending} {m : UserBridge}
    (h : db.pendingOf v = [p]) (hm : db.bridgeTab v = some m) :
    (db.addUnknownAdjacency known nonce).bridgeTab v =
        some (m.replayPending db.find v known nonce p).1 ∧
      (db.addUnknownAdjacency known nonce).pendingOf v =
        (m.replayPending db.find v known nonce p).2.toList :=
  foldl_replayStep_self db.find known nonce db.adjacencyUnknown (db.bridgeTab, []) h hm rfl

end UserDB

/-! ## Every operation keeps the slots in order -/

theorem Parked.length_lt {m : UserBridge} {p : AdjPending} (h : Parked m p) :
    p.recList.length < 2 ^ 32 := by
  have h1 := h.refs
  have h2 := h.refs_lt
  have h3 := h.count
  omega

/-- The records of an entry that stay when the bridge id `nonce` gets a user. -/
def AdjPending.left (find : UidTable) (uid : ℕ) (nonce : Nonce) (p : AdjPending) :
    List AdjacencyRec :=
  p.recList.filter (UserBridge.stays find uid nonce)

/-- What `add_unknown_adjacency` does with an entry in order. -/
theorem Parked.replayPending_known {m : UserBridge} {p : AdjPending} (h : Parked m p)
    (ha : m.authenticated) (find : UidTable) (uid : ℕ) (nonce : Nonce) :
    ∃ csum, m.replayPending find uid true nonce p =
      let m' : UserBridge := { m with
        adjacency := (p.recList.filter (UserBridge.names nonce)).foldl
          (AdjacencyTab.apply find uid) m.adjacency
        uidCsum := csum }
      if p.left find uid nonce = [] then
        ((m'.updateLinkStateSeqno p.linkStateSeqno).clearUnknown, none)
      else (m', some { p with
        recCount := (p.left find uid nonce).length, recList := p.left find uid nonce }) := by
  obtain ⟨csum, hr⟩ := UserBridge.replayRecs_eq find uid nonce p.recList m []
    (by simpa using h.length_lt)
  refine ⟨csum, ?_⟩
  have hin : ¬ (¬ m.authenticated ∨ p.linkStateSeqno ≤ m.linkStateSeqno ∨
      m.unknownLinkSeqno ≠ p.linkStateSeqno) := by
    have h1 := h.newer
    have h2 := h.seqno
    simp only [ha, not_true, false_or, not_or, not_not, Nat.not_le]
    exact ⟨h1, h2.symm⟩
  rw [List.length_nil, Nat.zero_add, ← h.count, List.nil_append] at hr
  change _ = (_, (p.left find uid nonce).length, p.left find uid nonce) at hr
  simp only [UserBridge.replayPending, hin, if_false, if_true, hr]
  by_cases hl : p.left find uid nonce = []
  · rw [if_pos hl, if_pos (List.length_eq_zero_iff.mpr hl)]
  · rw [if_neg hl, if_neg fun h0 => hl (List.length_eq_zero_iff.mp h0)]

/-- Replaying an entry leaves its slot in order. -/
theorem Parked.replayPending {m : UserBridge} {p : AdjPending} (h : Parked m p)
    (find : UidTable) (uid : ℕ) (known : Bool) (nonce : Nonce) :
    Slot (some (m.replayPending find uid known nonce p).1)
      (m.replayPending find uid known nonce p).2.toList := by
  by_cases hin : ¬ m.authenticated ∨ p.linkStateSeqno ≤ m.linkStateSeqno ∨
      m.unknownLinkSeqno ≠ p.linkStateSeqno
  · simp only [UserBridge.replayPending, hin, if_true]
    exact Or.inl ⟨rfl, rfl, rfl⟩
  · cases known with
    | false =>
      simp only [UserBridge.replayPending, hin, if_false, Bool.false_eq_true]
      split
      · exact Or.inl ⟨rfl, rfl, rfl⟩
      · exact Or.inr ⟨p, rfl, h⟩
    | true =>
      have ha : m.authenticated := by
        by_contra ha
        exact hin (Or.inl ha)
      obtain ⟨csum, hr⟩ := h.replayPending_known ha find uid nonce
      rw [hr]
      simp only
      split
      · exact Or.inl ⟨rfl, rfl, rfl⟩
      · next hleft =>
          refine Or.inr ⟨_, rfl, ?_, h.refs_lt, h.seqno, h.newer, rfl, hleft⟩
          have hle : (p.left find uid nonce).length ≤ p.recList.length :=
            List.length_filter_le _ _
          exact (hle.trans h.count.symm.le).trans h.refs

/-- Saving records leaves the slot in order, when the counters already count them
and the seqno is newer than the bridge's. -/
theorem slot_save {db : UserDB} {uid : ℕ}
    {recs : List AdjacencyRec} {seqno : ℕ} {b : Bool} (r : UserBridge)
    (hslot : db.pendingOf uid = [] ∧ recs ≠ [] ∨ b = true ∧ ∃ p, db.pendingOf uid = [p] ∧
      p.recCount = p.recList.length ∧ p.recList ≠ [])
    (hrefs : ((db.pendingOf uid).flatMap AdjPending.recList ++ recs).length ≤ r.unknownAdjRefs)
    (hlt : r.unknownAdjRefs < 2 ^ 32) (hnew : r.linkStateSeqno < seqno) :
    ∃ p, ((db.modifyBridge uid fun _ => r).saveUnknownAdjacency uid seqno recs b).pendingOf uid =
        [p] ∧ p.linkStateSeqno = seqno ∧
      p.recList = (db.pendingOf uid).flatMap AdjPending.recList ++ recs ∧
      Parked { r with unknownLinkSeqno := seqno } p := by
  obtain ⟨p, hp, hseq, hcount, hrecs⟩ :=
    pendingOf_save_self (db.modifyBridge uid fun _ => r) seqno recs
      (hslot.imp_left And.left) (hrefs.trans_lt hlt)
  refine ⟨p, hp, hseq, hrecs, ?_, hlt, hseq, hseq ▸ hnew, hcount, ?_⟩
  · rw [hcount, hrecs]
    exact hrefs
  · rw [hrecs, pendingOf_modifyBridge]
    rcases hslot with ⟨-, hne⟩ | ⟨-, q, hq, -, hne⟩
    · exact List.append_ne_nil_of_right_ne_nil _ hne
    · simp [hq, hne]

theorem bridgeTab_save_self {db : UserDB} {uid : ℕ} {n : UserBridge}
    (hn : db.bridgeTab uid = some n) (r : UserBridge) (seqno : ℕ) (recs : List AdjacencyRec)
    (b : Bool) :
    ((db.modifyBridge uid fun _ => r).saveUnknownAdjacency uid seqno recs b).bridgeTab uid =
      some { r with unknownLinkSeqno := seqno } := by
  rw [bridgeTab_save, bridgeTab_modifyBridge_self, bridgeTab_modifyBridge_self, hn]
  rfl

/-- An entry after `process_unknown_adjacency`, if it is kept. -/
def requested (now : ℕ) (p : AdjPending) : AdjPending :=
  if Due now p then { p with requestTimeMono := now, requestCount := p.requestCount + 1 }
  else p

theorem uid_requestPending {now : ℕ} {p q : AdjPending} (h : requestPending now p = some q) :
    q.uid = p.uid := by
  unfold requestPending at h
  split at h
  · exact (Option.some.inj h) ▸ rfl
  · split at h
    · simp at h
    · exact (Option.some.inj h) ▸ rfl

theorem requestPending_of_keep {now : ℕ} {p : AdjPending} (hpos : p.recCount ≠ 0)
    (hkeep : Due now p → p.requestCount ≤ 5) :
    requestPending now p = some (requested now p) := by
  unfold requestPending requested
  by_cases hdue : Due now p
  · have hle : ¬ 5 < p.requestCount := Nat.not_lt.mpr (hkeep hdue)
    simp [hdue, hle, hpos]
  · simp [hdue]

theorem pendingOf_processUnknownAdjacency {db : UserDB} {now v : ℕ}
    (hkeep : ∀ p ∈ db.pendingOf v, p.recCount ≠ 0 ∧ (Due now p → p.requestCount ≤ 5)) :
    (db.processUnknownAdjacency now).pendingOf v = (db.pendingOf v).map (requested now) := by
  unfold pendingOf processUnknownAdjacency at *
  generalize db.adjacencyUnknown = l at hkeep ⊢
  simp only
  induction l with
  | nil => rfl
  | cons p l ih =>
    by_cases hp : p.uid = v
    · rw [List.filter_cons_of_pos (by simpa using hp)] at hkeep ⊢
      obtain ⟨hpos, hreq⟩ := hkeep p (by simp)
      have hq := requestPending_of_keep hpos hreq
      rw [List.filterMap_cons_some hq, List.map_cons, List.filter_cons_of_pos
        (by simpa [uid_requestPending hq] using hp)]
      rw [ih fun q hq => hkeep q (List.mem_cons_of_mem _ hq)]
    · rw [List.filter_cons_of_neg (by simpa using hp)] at hkeep ⊢
      rw [← ih hkeep]
      cases hq : requestPending now p with
      | none => rw [List.filterMap_cons_none hq]
      | some q =>
        rw [List.filterMap_cons_some hq, List.filter_cons_of_neg
          (by simpa [uid_requestPending hq] using hp)]

/-- Counting a request leaves the slot in order. -/
theorem Slot.processUnknownAdjacency {db : UserDB} {now v : ℕ} {n : UserBridge}
    (h : Slot (some n) (db.pendingOf v))
    (hkeep : ∀ p ∈ db.pendingOf v, Due now p → p.requestCount ≤ 5) :
    Slot (some n) ((db.processUnknownAdjacency now).pendingOf v) := by
  rw [pendingOf_processUnknownAdjacency fun p hp => ⟨?_, hkeep p hp⟩]
  · rcases h with ⟨hl, h0⟩ | ⟨p, hl, hp⟩
    · exact Or.inl ⟨by rw [hl]; rfl, h0⟩
    · refine Or.inr ⟨requested now p, by rw [hl]; rfl, ?_⟩
      unfold requested
      split
      · exact ⟨hp.refs, hp.refs_lt, hp.seqno, hp.newer, hp.count, hp.nonempty⟩
      · exact hp
  · rcases h with ⟨hl, -⟩ | ⟨q, hl, hq⟩
    · simp [hl] at hp
    · rw [hl, List.mem_singleton] at hp
      exact hp ▸ Nat.ne_of_gt hq.count_pos

namespace PendingInv

variable {db : UserDB}

theorem addUnknownAdjacency (h : PendingInv db) (known : Bool) (nonce : Nonce) :
    PendingInv (db.addUnknownAdjacency known nonce) where
  slot v := by
    have hv := h.slot v
    cases hm : db.bridgeTab v with
    | none =>
      rw [hm] at hv
      obtain ⟨h1, h2⟩ := addUnknownAdjacency_none known nonce db hv
      rw [h1, h2, hm]
      rfl
    | some m =>
      rw [hm] at hv
      rcases hv with ⟨hnil, h0⟩ | ⟨p, hp, hpark⟩
      · obtain ⟨h1, h2⟩ := addUnknownAdjacency_none known nonce db hnil
        rw [h1, h2, hm]
        exact Or.inl ⟨rfl, h0⟩
      · obtain ⟨h1, h2⟩ := addUnknownAdjacency_some known nonce db hp hm
        rw [h1, h2]
        exact hpark.replayPending db.find v known nonce
  fresh v hv := by
    have hnone := h.fresh v hv
    have hslot := h.slot v
    rw [hnone] at hslot
    exact (addUnknownAdjacency_none known nonce db hslot).1.trans hnone

/-- The slot of `uid` is what an operation leaves there and the others are as they
were. -/
theorem of_slot (h : PendingInv db) {db' : UserDB} (uid : ℕ) (hnext : db'.nextUid = db.nextUid)
    (hnone : db'.bridgeTab uid = none ↔ db.bridgeTab uid = none)
    (htab : ∀ v, v ≠ uid → db'.bridgeTab v = db.bridgeTab v)
    (hpend : ∀ v, v ≠ uid → db'.pendingOf v = db.pendingOf v)
    (hslot : Slot (db'.bridgeTab uid) (db'.pendingOf uid)) : PendingInv db' where
  slot v := by
    rcases eq_or_ne v uid with rfl | hv
    · exact hslot
    · rw [htab v hv, hpend v hv]
      exact h.slot v
  fresh v hv := by
    rw [hnext] at hv
    rcases eq_or_ne v uid with rfl | hne
    · exact hnone.mpr (h.fresh v hv)
    · rw [htab v hne]
      exact h.fresh v hv

theorem modifyBridge (h : PendingInv db) {uid : ℕ} {f : UserBridge → UserBridge}
    (hf : ∀ n, db.bridgeTab uid = some n → Slot (some n) (db.pendingOf uid) →
      Slot (some (f n)) (db.pendingOf uid)) : PendingInv (db.modifyBridge uid f) := by
  refine h.of_slot uid rfl ?_ (fun v hv => bridgeTab_modifyBridge_ne db f hv)
    (fun v _ => rfl) ?_
  · rw [bridgeTab_modifyBridge_self, Option.map_eq_none_iff]
  · rw [bridgeTab_modifyBridge_self, pendingOf_modifyBridge]
    have hslot := h.slot uid
    cases hm : db.bridgeTab uid with
    | none =>
      rw [hm] at hslot
      exact hslot
    | some n =>
      rw [hm] at hslot
      exact hf n hm hslot

theorem clearUnknownAdjacency (h : PendingInv db) (uid : ℕ) :
    PendingInv (db.clearUnknownAdjacency uid) := by
  refine h.of_slot uid rfl ?_ (fun v hv => bridgeTab_modifyBridge_ne db _ hv)
    (fun v hv => pendingOf_clearUnknownAdjacency_ne db hv) ?_
  · exact (bridgeTab_modifyBridge_self db uid _) ▸ Option.map_eq_none_iff
  · rw [pendingOf_clearUnknownAdjacency_self]
    show Slot ((db.modifyBridge uid UserBridge.clearUnknown).bridgeTab uid) []
    rw [bridgeTab_modifyBridge_self]
    cases db.bridgeTab uid with
    | none => rfl
    | some n => exact Or.inl ⟨rfl, rfl, rfl⟩

theorem save (h : PendingInv db) {uid : ℕ} {n : UserBridge} (hn : db.bridgeTab uid = some n)
    {recs : List AdjacencyRec} {seqno : ℕ} {b : Bool} (r : UserBridge)
    (hslot : db.pendingOf uid = [] ∧ recs ≠ [] ∨ b = true ∧ ∃ p, db.pendingOf uid = [p] ∧
      p.recCount = p.recList.length ∧ p.recList ≠ [])
    (hrefs : ((db.pendingOf uid).flatMap AdjPending.recList ++ recs).length ≤ r.unknownAdjRefs)
    (hlt : r.unknownAdjRefs < 2 ^ 32) (hnew : r.linkStateSeqno < seqno) :
    PendingInv ((db.modifyBridge uid fun _ => r).saveUnknownAdjacency uid seqno recs b) := by
  obtain ⟨p, hp, -, -, hpark⟩ := slot_save r hslot hrefs hlt hnew
  refine h.of_slot uid rfl ?_ ?_ ?_ ?_
  · simp [bridgeTab_save, hn]
  · intro v hv
    rw [bridgeTab_save, bridgeTab_modifyBridge_ne _ _ hv, bridgeTab_modifyBridge_ne _ _ hv]
  · exact fun v hv => pendingOf_save_ne _ seqno recs b hv
  · rw [bridgeTab_save_self hn r seqno recs b, hp]
    exact Or.inr ⟨p, rfl, hpark⟩

theorem recvAdjacencyChange (h : PendingInv db) {uid linkState : ℕ}
    {recs : List AdjacencyRec}
    (hroom : ∀ n, db.bridgeTab uid = some n → n.unknownAdjRefs + recs.length < 2 ^ 32) :
    PendingInv (db.recvAdjacencyChange uid linkState recs) := by
  cases hn : db.bridgeTab uid with
  | none => simpa [UserDB.recvAdjacencyChange, hn] using h
  | some n =>
    obtain ⟨h2, csum, h1⟩ := n.applyAdjacencyChange_eq db.find uid recs (hroom n hn)
    have hlt := hroom n hn
    have hle : (recs.filter (·.parks db.find uid)).length ≤ recs.length :=
      List.length_filter_le _ _
    have hslot := h.slot uid
    rw [hn] at hslot
    have hsave : n.linkStateSeqno < linkState →
        (db.pendingOf uid = [] → recs.filter (·.parks db.find uid) ≠ []) →
        PendingInv ((db.modifyBridge uid fun _ =>
          (n.applyAdjacencyChange db.find uid recs).1).saveUnknownAdjacency uid linkState
            (recs.filter (·.parks db.find uid)) true) := by
      intro hnew hne
      refine h.save hn _ ?_ ?_ ?_ ?_
      · rcases hslot with ⟨hl, -⟩ | ⟨p, hp, hpark⟩
        · exact Or.inl ⟨hl, hne hl⟩
        · exact Or.inr ⟨rfl, p, hp, hpark.count, hpark.nonempty⟩
      · rw [h1, List.length_append]
        rcases hslot with ⟨hl, -⟩ | ⟨p, hp, hpark⟩
        · simp [hl]
        · have hrefs := hpark.refs
          have hcount := hpark.count
          simp only [hp, List.flatMap_cons, List.flatMap_nil, List.append_nil]
          omega
      · rw [h1]
        simp only
        omega
      · rw [h1]
        exact hnew
    simp only [UserDB.recvAdjacencyChange, hn, h2]
    by_cases hnext : linkState = n.linkStateSeqno + 1
    · rw [if_neg (not_not.mpr hnext)]
      by_cases hnil : recs.filter (·.parks db.find uid) = []
      · -- every record was applied: the slot is as it was
        have happlied : PendingInv
            (db.modifyBridge uid fun _ => (n.applyAdjacencyChange db.find uid recs).1) := by
          refine h.modifyBridge fun m hm hs => ?_
          obtain rfl : n = m := Option.some.inj (hn.symm.trans hm)
          exact hs.congr (by rw [h1, hnil]; rfl) (by rw [h1]) (by rw [h1])
        rw [if_pos hnil]
        split
        · next hz =>
            refine happlied.modifyBridge fun m hm hs => ?_
            obtain rfl : (n.applyAdjacencyChange db.find uid recs).1 = m := by
              simpa [hn] using hm
            rcases hs with hs | ⟨p, hp, hpark⟩
            · exact Or.inl hs
            · have hpos := hpark.count_pos
              have hrefs := hpark.refs
              omega
        · exact happlied
      · have hpos := List.length_pos_iff.mpr hnil
        rw [if_neg hnil, if_neg (by rw [h1]; simp only; omega)]
        exact hsave (by omega) fun _ => hnil
    · rw [if_pos hnext]
      split
      · exact h
      · split
        · next hgt hedge =>
            -- the edge is one behind, so there are records pending
            refine hsave (by omega) fun hl => ?_
            rcases hslot with ⟨-, -, hz⟩ | ⟨p, hp, -⟩
            · omega
            · simp [hp] at hl
        · exact h

/-- The slot of `uid` is emptied, and its bridge counts nothing. -/
theorem dropUnknown (h : PendingInv db) {uid : ℕ} {n : UserBridge}
    (hn : db.bridgeTab uid = some n) : PendingInv (db.dropUnknown uid) ∧
      (db.dropUnknown uid).pendingOf uid = [] ∧
      ∃ m, (db.dropUnknown uid).bridgeTab uid = some m ∧ m.unknownAdjRefs = 0 ∧
        m.linkStateSeqno = n.linkStateSeqno := by
  unfold UserDB.dropUnknown
  simp only [hn]
  split
  · refine ⟨h.clearUnknownAdjacency uid, pendingOf_clearUnknownAdjacency_self db uid,
      n.clearUnknown, ?_, rfl, rfl⟩
    exact (bridgeTab_modifyBridge_self db uid _).trans (by rw [hn]; rfl)
  · next hz =>
      have hslot := h.slot uid
      rw [hn] at hslot
      refine ⟨h, ?_, n, hn, not_not.mp hz, rfl⟩
      by_contra hl
      exact hz (hslot.refs_ne_zero.mpr hl)

theorem find_dropUnknown (db : UserDB) (uid : ℕ) : (db.dropUnknown uid).find = db.find := by
  unfold UserDB.dropUnknown
  split
  · rfl
  · split <;> rfl

theorem replaceAdjacency (h : PendingInv db) {uid linkState : ℕ} {n : UserBridge}
    (hn : db.bridgeTab uid = some n) {recs : List AdjacencyRec} (hroom : recs.length < 2 ^ 32)
    (hnew : linkState ≤ n.linkStateSeqno → ∀ rec ∈ recs, rec.parks db.find uid = false) :
    PendingInv (db.replaceAdjacency uid linkState recs) := by
  obtain ⟨hinv, hempty, m, hm, hz, hs⟩ := h.dropUnknown hn
  have hfind := find_dropUnknown db uid
  obtain ⟨h2, csum, h1⟩ := (zeroAdjacency m).applyAdjacencyChange_eq
    (db.dropUnknown uid).find uid recs (by simpa [zeroAdjacency, hz] using hroom)
  have hle : (recs.filter (·.parks (db.dropUnknown uid).find uid)).length ≤ recs.length :=
    List.length_filter_le _ _
  simp only [UserDB.replaceAdjacency, hm, h2]
  rw [h1]
  simp only [zeroAdjacency, hz, Nat.zero_add]
  have hslot := hinv.slot uid
  rw [hm] at hslot
  split
  · next hnil =>
      refine PendingInv.modifyBridge (hinv.modifyBridge fun m' hm' hs' => ?_) ?_
      · obtain rfl : m = m' := Option.some.inj (hm.symm.trans hm')
        exact hs'.congr (by simp only [hz]; exact hnil) rfl (Nat.le_refl _)
      · intro m' hm' hs'
        rcases hs' with hs' | ⟨p, hp, -⟩
        · exact Or.inl hs'
        · rw [pendingOf_modifyBridge, hempty] at hp
          simp at hp
  · next hne =>
      refine hinv.save hm _ (Or.inl ⟨hempty, fun hl => hne (by rw [hl]; rfl)⟩) ?_ ?_ ?_
      · simp [hempty]
      · simp only
        omega
      · simp only [hs]
        by_contra hold
        -- an old seqno comes with known peers only
        have hall := hnew (Nat.le_of_not_lt hold)
        rw [hfind] at hne
        exact hne (List.length_eq_zero_iff.mpr
          (List.filter_eq_nil_iff.mpr fun rec hrec => by simp [hall rec hrec]))

theorem recvAdjacencyResult (h : PendingInv db) {uid linkState : ℕ}
    {recs : List AdjacencyRec} (reas : AdjacencyRequest) (quiet : Bool)
    (hroom : recs.length < 2 ^ 32)
    (hnew : ∀ n, db.bridgeTab uid = some n → TakesResult n linkState reas →
      linkState ≤ n.linkStateSeqno → ∀ rec ∈ recs, rec.parks db.find uid = false) :
    PendingInv (db.recvAdjacencyResult uid linkState recs reas quiet) := by
  cases hn : db.bridgeTab uid with
  | none => simpa [UserDB.recvAdjacencyResult, hn] using h
  | some n =>
    simp only [UserDB.recvAdjacencyResult, hn]
    split
    · next htake => exact h.replaceAdjacency hn hroom (hnew n hn htake)
    · split
      · exact h.modifyBridge fun m _ hs => hs.congr rfl rfl (Nat.le_refl _)
      · exact h

theorem addUser (h : PendingInv db) (nonce : Nonce) : PendingInv (db.addUser nonce) where
  slot v := by
    have hnone := h.fresh db.nextUid (Nat.le_refl _)
    have hslot := h.slot v
    rcases eq_or_ne v db.nextUid with rfl | hv
    · rw [hnone] at hslot
      simp only [UserDB.addUser, Function.update_self]
      exact Or.inl ⟨hslot, rfl, rfl⟩
    · simp only [UserDB.addUser, Function.update_of_ne hv]
      exact hslot
  fresh v hv := by
    simp only [UserDB.addUser] at hv ⊢
    rw [Function.update_of_ne (by omega)]
    exact h.fresh v (by omega)

theorem of_hts (h : PendingInv db) {nodeHt zombieHt : UidTable} :
    PendingInv { db with nodeHt := nodeHt, zombieHt := zombieHt } :=
  ⟨h.slot, h.fresh⟩

theorem setAuthenticated (h : PendingInv db) (uid : ℕ) (n : UserBridge) :
    PendingInv (db.setAuthenticated uid n) := by
  have hmod : PendingInv (db.modifyBridge uid fun n =>
      { n with zombie := false, authenticated := true }) :=
    h.modifyBridge fun m _ hs => hs.congr rfl rfl (Nat.le_refl _)
  exact hmod.of_hts

theorem addAuthenticated (h : PendingInv db) (uid : ℕ) :
    PendingInv (db.addAuthenticated uid) := by
  unfold UserDB.addAuthenticated
  split
  · exact h
  · next n _ =>
      simp only
      split
      · exact h.setAuthenticated uid n
      · exact (h.setAuthenticated uid n).addUnknownAdjacency true n.nonce

theorem removeAuthenticated (h : PendingInv db) (uid : ℕ) (stage : Bye) :
    PendingInv (db.removeAuthenticated uid stage) := by
  cases hn : db.bridgeTab uid with
  | none => simpa [UserDB.removeAuthenticated, hn] using h
  | some n =>
    simp only [UserDB.removeAuthenticated, hn]
    have hmod : ∀ db', PendingInv db' → PendingInv (db'.modifyBridge uid fun n =>
        { n with
          authenticated := false
          zombie := true
          linkStateSeqno := 0
          uidCsum := 0
          adjacency := AdjacencyTab.empty }) := fun db' h' =>
      h'.modifyBridge fun m _ hs => hs.congr rfl rfl (Nat.zero_le _)
    apply of_hts
    split
    · exact hmod _ (h.clearUnknownAdjacency uid)
    · exact hmod _ h

/-- The entries stay, with their requests counted, when none is given up. -/
theorem processUnknownAdjacency (h : PendingInv db) {now : ℕ}
    (hkeep : ∀ p ∈ db.adjacencyUnknown, Due now p → p.requestCount ≤ 5) :
    PendingInv (db.processUnknownAdjacency now) := by
  refine ⟨fun v => ?_, h.fresh⟩
  have hslot := h.slot v
  change Slot (db.bridgeTab v) _
  cases hn : db.bridgeTab v with
  | none =>
    rw [hn] at hslot
    rw [pendingOf_processUnknownAdjacency fun p hp => by
      rw [show db.pendingOf v = [] from hslot] at hp
      simp at hp, show db.pendingOf v = [] from hslot]
    rfl
  | some n =>
    rw [hn] at hslot
    exact hslot.processUnknownAdjacency fun p hp =>
      hkeep p (List.mem_of_mem_filter hp)

end PendingInv

/-! ## Every run -/

/-- What the counters and the list promise each other. -/
structure PendingConsistent (db : UserDB) : Prop where
  unique : ∀ uid, (db.pendingOf uid).length ≤ 1
  refs : ∀ uid n, db.bridgeTab uid = some n →
    (n.unknownAdjRefs ≠ 0 ↔ ∃ p ∈ db.adjacencyUnknown, p.uid = uid)
  seqno : ∀ p ∈ db.adjacencyUnknown, ∃ n, db.bridgeTab p.uid = some n ∧
    p.linkStateSeqno = n.unknownLinkSeqno ∧ n.linkStateSeqno < p.linkStateSeqno
  count : ∀ p ∈ db.adjacencyUnknown, p.recCount = p.recList.length

theorem PendingInv.consistent {db : UserDB} (h : PendingInv db) : PendingConsistent db := by
  -- the entry of a uid is in its slot
  have hentry : ∀ p ∈ db.adjacencyUnknown, ∃ n, db.bridgeTab p.uid = some n ∧ Parked n p := by
    intro p hp
    have hmem : p ∈ db.pendingOf p.uid := by simpa [pendingOf] using hp
    have hslot := h.slot p.uid
    cases hn : db.bridgeTab p.uid with
    | none =>
      rw [hn] at hslot
      rw [show db.pendingOf p.uid = [] from hslot] at hmem
      simp at hmem
    | some n =>
      rw [hn] at hslot
      rcases hslot with ⟨hl, -⟩ | ⟨q, hl, hq⟩
      · simp [hl] at hmem
      · rw [hl, List.mem_singleton] at hmem
        exact ⟨n, rfl, hmem ▸ hq⟩
  refine ⟨?_, ?_, ?_, ?_⟩
  · intro uid
    have hslot := h.slot uid
    cases hn : db.bridgeTab uid with
    | none =>
      rw [hn] at hslot
      simp [show db.pendingOf uid = [] from hslot]
    | some n =>
      rw [hn] at hslot
      rcases hslot with ⟨hl, -⟩ | ⟨q, hl, -⟩ <;> simp [hl]
  · intro uid n hn
    have hslot := h.slot uid
    rw [hn] at hslot
    rw [hslot.refs_ne_zero]
    constructor
    · intro hne
      obtain ⟨p, hp⟩ := List.exists_mem_of_ne_nil _ hne
      obtain ⟨hp, hu⟩ := List.mem_filter.mp hp
      exact ⟨p, hp, by simpa using hu⟩
    · rintro ⟨p, hp, hu⟩
      exact List.ne_nil_of_mem (List.mem_filter.mpr ⟨hp, by simpa using hu⟩)
  · intro p hp
    obtain ⟨n, hn, hpark⟩ := hentry p hp
    exact ⟨n, hn, hpark.seqno, hpark.newer⟩
  · intro p hp
    obtain ⟨n, -, hpark⟩ := hentry p hp
    exact hpark.count

/-- The events that keep clear of the two branches: no entry is given up after its
last request, and a restarted sync that brings no newer seqno names known peers
only. The counter of pending references has room for the records. -/
def KeepsPending (db : UserDB) : Event → Prop
  | .recvAdjacencyChange uid _ recs =>
    ∀ n, db.bridgeTab uid = some n → n.unknownAdjRefs + recs.length < 2 ^ 32
  | .recvAdjacencyResult uid linkState recs reas _ =>
    recs.length < 2 ^ 32 ∧
      ∀ n, db.bridgeTab uid = some n → TakesResult n linkState reas →
        linkState ≤ n.linkStateSeqno → ∀ rec ∈ recs, rec.parks db.find uid = false
  | .processUnknownAdjacency now =>
    ∀ p ∈ db.adjacencyUnknown, Due now p → p.requestCount ≤ 5
  | _ => True

theorem pendingInv_init (nonce : Nonce) : PendingInv (UserDB.init nonce) :=
  ⟨fun _ => rfl, fun _ _ => rfl⟩

theorem PendingInv.step {db : UserDB} (h : PendingInv db) {e : Event}
    (he : KeepsPending db e) : PendingInv (db.step e) := by
  cases e with
  | addUser nonce => exact h.addUser nonce
  | addAuthenticated uid => exact h.addAuthenticated uid
  | removeAuthenticated uid stage => exact h.removeAuthenticated uid stage
  | recvAdjacencyChange uid linkState recs => exact h.recvAdjacencyChange he
  | recvAdjacencyResult uid linkState recs reas quiet =>
    exact h.recvAdjacencyResult reas quiet he.1 he.2
  | byePeer nonce => exact h.addUnknownAdjacency false nonce
  | processUnknownAdjacency now => exact h.processUnknownAdjacency he

/-- **The pending list and the counters agree** in every state of a run whose
events all keep clear of the two branches. -/
theorem pending_consistent (nonce : Nonce) {db : UserDB}
    (h : Run.Reach UserDB.step KeepsPending (UserDB.init nonce) db) :
    PendingConsistent db := by
  have hinv : PendingInv db :=
    h.invariant (pendingInv_init nonce) fun _ _ hs he => hs.step he
  exact hinv.consistent

/-- A record of a link to the peer `nonce` on the first transport. -/
def linkTo (nonce : Nonce) : AdjacencyRec :=
  ⟨some nonce, text "mesh", text "tcp", some 0, AdjCost.const COST_DEFAULT, none, none, true⟩

/-- A peer tells of its link to another one that the node does not know. -/
def parkOne : List Event :=
  [.addUser 7, .addAuthenticated 1, .recvAdjacencyChange 1 1 [linkTo 9]]

theorem pending_consistent_parkOne :
    PendingConsistent (parkOne.foldl UserDB.step (UserDB.init 3)) := by
  refine pending_consistent 3 (Run.Reach.start.foldl ?_)
  refine ⟨trivial, trivial, ?_, trivial⟩
  intro n hn
  obtain rfl : _ = n := Option.some.inj hn
  decide

/-- The requests for the unknown peer stay unanswered. -/
def giveUp : List Event :=
  parkOne ++ (List.range 7).map fun i => .processUnknownAdjacency (2000000000 * (i + 1))

/-- After six requests in vain the entry is deleted, but the bridge still counts
its record, so the link state of the peer is never taken as complete again. -/
theorem unknown_refs_left_behind :
    ¬ ∀ (nonce : Nonce) (db : UserDB),
      Run.Reach UserDB.step (fun _ _ => True) (UserDB.init nonce) db →
      PendingConsistent db := by
  intro h
  have hc := h 3 _ (Run.Reach.start.foldl (Run.allOk_true _ giveUp))
  have hrefs : ((giveUp.foldl UserDB.step (UserDB.init 3)).bridgeTab 1).map
      (·.unknownAdjRefs) = some 1 := by decide
  have hlist : (giveUp.foldl UserDB.step (UserDB.init 3)).adjacencyUnknown.length = 0 := by
    decide
  obtain ⟨n, hn, h1⟩ := Option.map_eq_some_iff.mp hrefs
  obtain ⟨p, hp, -⟩ := (hc.refs 1 n hn).mp (by omega)
  rw [List.length_eq_zero_iff.mp hlist] at hp
  simp at hp

end Raims
