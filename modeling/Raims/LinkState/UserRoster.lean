import Raims.Lib.Roster
import Raims.LinkState.Pending

/-!
# The peers that the link state part knows

The peers of `UserDB`, their bridge ids, the two tables and who is authenticated are a
roster. A user that is added enters it, and `add_authenticated` and
`remove_authenticated` are to join and to leave; no message about link states changes it.
-/

namespace Raims

/-! ## What stays of a bridge -/

namespace UserBridge

/-- The bridge id of a peer, and whether it is authenticated or a zombie. -/
def entry (n : UserBridge) : Nonce × Standing := (n.nonce, ⟨n.authenticated, n.zombie⟩)

theorem entry_applyAdjacencyChange (find : UidTable) (uid : ℕ) (n : UserBridge)
    (recs : List AdjacencyRec) : (n.applyAdjacencyChange find uid recs).1.entry = n.entry := by
  induction recs generalizing n with
  | nil => rfl
  | cons rec recs ih =>
    unfold applyAdjacencyChange
    simp only
    split
    · exact ih _
    · exact ih _

theorem entry_replayRecs (find : UidTable) (uid : ℕ) (nonce : Nonce) (recs : List AdjacencyRec)
    (m : UserBridge) (count : ℕ) (pend : List AdjacencyRec) :
    (m.replayRecs find uid nonce recs count pend).1.entry = m.entry := by
  induction recs generalizing m count pend with
  | nil => rfl
  | cons rec recs ih =>
    unfold replayRecs
    split
    · simp only
      split
      · split
        · rfl
        · exact ih _ _ _
      · exact ih _ _ _
    · exact ih _ _ _

theorem entry_replayPending (find : UidTable) (uid : ℕ) (known : Bool) (nonce : Nonce)
    (m : UserBridge) (p : AdjPending) :
    (m.replayPending find uid known nonce p).1.entry = m.entry := by
  unfold replayPending
  split
  · rfl
  · split
    · simp only
      split
      · exact entry_replayRecs find uid nonce p.recList m p.recCount []
      · exact entry_replayRecs find uid nonce p.recList m p.recCount []
    · split <;> rfl

end UserBridge

namespace UserDB

open UserBridge

/-! ## The roster -/

def roster (db : UserDB) : Roster Nonce :=
  ⟨db.nextUid, db.nodeHt, db.zombieHt, fun uid => (db.bridgeTab uid).map UserBridge.entry⟩

section

variable {db : UserDB}

theorem member_roster {uid : ℕ} {n : UserBridge} (hn : db.bridgeTab uid = some n) :
    db.roster.member uid = some n.entry := congrArg (Option.map entry) hn

theorem member_roster_none {uid : ℕ} (hn : db.bridgeTab uid = none) :
    db.roster.member uid = none := congrArg (Option.map entry) hn

/-- A lookup depends on the roster alone. -/
theorem find_of_roster {db' : UserDB} (hr : db'.roster = db.roster) : db'.find = db.find :=
  congrArg Roster.find hr

theorem nextUid_of_roster {db' : UserDB} (hr : db'.roster = db.roster) :
    db'.nextUid = db.nextUid := congrArg Roster.nextId hr

theorem roster_modifyBridge (db : UserDB) {uid : ℕ} {f : UserBridge → UserBridge}
    (hf : ∀ n, db.bridgeTab uid = some n → (f n).entry = n.entry) :
    (db.modifyBridge uid f).roster = db.roster := by
  have hmember : (db.modifyBridge uid f).roster.member = db.roster.member := by
    funext v
    show ((db.modifyBridge uid f).bridgeTab v).map entry = (db.bridgeTab v).map entry
    by_cases hv : v = uid
    · subst hv
      rw [bridgeTab_modifyBridge_self]
      cases hn : db.bridgeTab v with
      | none => rfl
      | some n => exact congrArg some (hf n hn)
    · rw [bridgeTab_modifyBridge_ne _ _ hv]
  exact congrArg (Roster.mk db.nextUid db.nodeHt db.zombieHt) hmember

theorem roster_addUnknownAdjacency (known : Bool) (nonce : Nonce) :
    (db.addUnknownAdjacency known nonce).roster = db.roster := by
  have hfold : ∀ (l : List AdjPending) (s : (ℕ → Option UserBridge) × List AdjPending) (v : ℕ),
      ((l.foldl (replayStep db.find known nonce) s).1 v).map entry = (s.1 v).map entry := by
    intro l
    induction l with
    | nil => exact fun s v => rfl
    | cons p l ih =>
      intro s v
      rw [List.foldl_cons, ih]
      unfold replayStep
      cases hm : s.1 p.uid with
      | none => rfl
      | some m =>
        simp only
        by_cases hv : v = p.uid
        · subst hv
          rw [Function.update_self, hm]
          exact congrArg some (entry_replayPending db.find p.uid known nonce m p)
        · rw [Function.update_of_ne hv]
  have hmember := funext (hfold db.adjacencyUnknown (db.bridgeTab, []))
  exact congrArg (Roster.mk db.nextUid db.nodeHt db.zombieHt) hmember

theorem roster_save (uid seqno : ℕ) (recs : List AdjacencyRec) (b : Bool) :
    (db.saveUnknownAdjacency uid seqno recs b).roster = db.roster :=
  roster_modifyBridge db fun _ _ => rfl

theorem roster_clearUnknownAdjacency (uid : ℕ) :
    (db.clearUnknownAdjacency uid).roster = db.roster :=
  roster_modifyBridge db fun _ _ => rfl

end

/-! ## What leaves the roster as it is -/

theorem roster_updateLinkStateSeqno (db : UserDB) (uid seqno : ℕ) :
    (db.modifyBridge uid fun n => n.updateLinkStateSeqno seqno).roster = db.roster :=
  roster_modifyBridge db fun _ _ => rfl

theorem roster_dropUnknown (db : UserDB) (uid : ℕ) : (db.dropUnknown uid).roster = db.roster := by
  unfold dropUnknown
  split
  · rfl
  · split
    · exact roster_clearUnknownAdjacency uid
    · rfl

theorem roster_recvAdjacencyChange (db : UserDB) (uid linkState : ℕ)
    (recs : List AdjacencyRec) :
    (db.recvAdjacencyChange uid linkState recs).roster = db.roster := by
  unfold recvAdjacencyChange
  cases hn : db.bridgeTab uid with
  | none => rfl
  | some n =>
    have happ : (db.modifyBridge uid fun _ =>
        (n.applyAdjacencyChange db.find uid recs).1).roster = db.roster :=
      roster_modifyBridge db fun m hm => by
        obtain rfl : n = m := Option.some.inj (hn.symm.trans hm)
        exact entry_applyAdjacencyChange db.find uid n recs
    have hsave : ∀ l b, ((db.modifyBridge uid fun _ =>
        (n.applyAdjacencyChange db.find uid recs).1).saveUnknownAdjacency uid linkState
          l b).roster = db.roster :=
      fun l b => (roster_save uid linkState l b).trans happ
    simp only
    split
    · split
      · rfl
      · split
        · exact hsave _ _
        · rfl
    · have hsaved : (if (n.applyAdjacencyChange db.find uid recs).2 = [] then
            db.modifyBridge uid fun _ => (n.applyAdjacencyChange db.find uid recs).1
          else (db.modifyBridge uid fun _ =>
            (n.applyAdjacencyChange db.find uid recs).1).saveUnknownAdjacency uid linkState
              (n.applyAdjacencyChange db.find uid recs).2 true).roster = db.roster := by
        split
        · exact happ
        · exact hsave _ _
      by_cases hz : (n.applyAdjacencyChange db.find uid recs).1.unknownAdjRefs = 0
      · rw [if_pos hz]
        exact (roster_updateLinkStateSeqno _ uid linkState).trans hsaved
      · rw [if_neg hz]
        exact hsaved

theorem roster_replaceAdjacency (db : UserDB) (uid linkState : ℕ)
    (recs : List AdjacencyRec) :
    (db.replaceAdjacency uid linkState recs).roster = db.roster := by
  unfold replaceAdjacency
  rw [← roster_dropUnknown db uid]
  generalize db.dropUnknown uid = db'
  simp only
  cases hn : db'.bridgeTab uid with
  | none => rfl
  | some n =>
    have happ : (db'.modifyBridge uid fun _ =>
        { ((zeroAdjacency n).applyAdjacencyChange db'.find uid recs).1 with
          nullSyncRes := 0 }).roster = db'.roster :=
      roster_modifyBridge db' fun m hm => by
        obtain rfl : n = m := Option.some.inj (hn.symm.trans hm)
        exact entry_applyAdjacencyChange db'.find uid (zeroAdjacency n) recs
    simp only
    split
    · exact (roster_updateLinkStateSeqno _ uid linkState).trans happ
    · exact (roster_save uid linkState _ false).trans happ

theorem roster_recvAdjacencyResult (db : UserDB) (uid linkState : ℕ)
    (recs : List AdjacencyRec) (reas : AdjacencyRequest) (quiet : Bool) :
    (db.recvAdjacencyResult uid linkState recs reas quiet).roster = db.roster := by
  unfold recvAdjacencyResult
  split
  · rfl
  · split
    · exact roster_replaceAdjacency db uid linkState recs
    · split
      · exact roster_modifyBridge db fun _ _ => rfl
      · rfl

/-! ## Bridge ids keep their uids -/

/-- The bridge id and the zombie state of every peer. -/
def ids (db : UserDB) (uid : ℕ) : Option (Nonce × Bool) :=
  (db.bridgeTab uid).map fun n => (n.nonce, n.zombie)

/-- Every peer's bridge id is in the table its state says, under its uid. -/
def KnowsPeers (db : UserDB) : Prop :=
  ∀ uid nonce,
    (db.ids uid = some (nonce, false) → db.nodeHt nonce = some uid) ∧
    (db.ids uid = some (nonce, true) → db.nodeHt nonce = none ∧ db.zombieHt nonce = some uid)

theorem ids_eq (db : UserDB) (uid : ℕ) :
    db.ids uid = (db.roster.member uid).map fun p => (p.1, p.2.away) := by
  show _ = ((db.bridgeTab uid).map entry).map _
  rw [Option.map_map]
  rfl

theorem ids_eq_some {db : UserDB} {uid : ℕ} {nonce : Nonce} {a : Bool} :
    db.ids uid = some (nonce, a) ↔ ∃ s, db.roster.member uid = some (nonce, s) ∧ s.away = a := by
  rw [ids_eq, Option.map_eq_some_iff]
  constructor
  · rintro ⟨⟨x, s⟩, hm, heq⟩
    obtain ⟨rfl, rfl⟩ := Prod.mk.inj heq
    exact ⟨s, hm, rfl⟩
  · rintro ⟨s, hm, rfl⟩
    exact ⟨(nonce, s), hm, rfl⟩

theorem knowsPeers_iff {db : UserDB} : KnowsPeers db ↔ db.roster.Indexed := by
  constructor
  · intro h
    exact ⟨fun hm haway => (h _ _).1 (ids_eq_some.2 ⟨_, hm, haway⟩),
      fun hm haway => (h _ _).2 (ids_eq_some.2 ⟨_, hm, haway⟩)⟩
  · intro h uid nonce
    constructor
    · intro hid
      obtain ⟨s, hm, haway⟩ := ids_eq_some.1 hid
      exact h.here hm haway
    · intro hid
      obtain ⟨s, hm, haway⟩ := ids_eq_some.1 hid
      exact h.gone hm haway

theorem KnowsPeers.of_roster {db db' : UserDB} (h : KnowsPeers db)
    (hr : db'.roster = db.roster) : KnowsPeers db' := by
  rw [knowsPeers_iff] at h ⊢
  rwa [hr]

theorem extends_addUser {db : UserDB} {nonce : Nonce} (hnew : db.find nonce = none) :
    db.find.Extends (db.addUser nonce).find := by
  intro x b hx
  have hne : x ≠ nonce := by
    rintro rfl
    simp [hnew] at hx
  simpa [UserDB.find, addUser, Function.update_of_ne hne] using hx

/-! ## What changes the roster -/

theorem roster_addUser (db : UserDB) (nonce : Nonce) :
    (db.addUser nonce).roster = db.roster.enter nonce := by
  have hmember : (db.addUser nonce).roster.member =
      (db.roster.enter nonce).member := by
    funext v
    show (Function.update db.bridgeTab db.nextUid (some (UserBridge.new nonce)) v).map entry =
      Function.update db.roster.member db.nextUid (some (nonce, ⟨false, false⟩)) v
    by_cases hv : v = db.nextUid
    · subst hv
      rw [Function.update_self, Function.update_self]
      rfl
    · rw [Function.update_of_ne hv, Function.update_of_ne hv]
      rfl
  exact congrArg (Roster.mk _ _ db.zombieHt) hmember

section

variable {db : UserDB} {v : ℕ} {n : UserBridge}

/-- A write to a bridge, as the members see it. -/
theorem member_modifyBridge (hn : db.bridgeTab v = some n) (f : UserBridge → UserBridge) :
    (db.modifyBridge v f).roster.member =
      Function.update db.roster.member v (some (f n).entry) := by
  funext u
  show ((db.modifyBridge v f).bridgeTab u).map entry = _
  by_cases hu : u = v
  · subst hu
    rw [bridgeTab_modifyBridge_self, hn, Function.update_self]
    rfl
  · rw [bridgeTab_modifyBridge_ne _ _ hu, Function.update_of_ne hu]
    rfl

theorem roster_setAuthenticated (hn : db.bridgeTab v = some n) :
    (db.setAuthenticated v n).roster = db.roster.join v := by
  rw [Roster.join_eq (member_roster hn)]
  exact congrArg (Roster.mk _ _ _)
    (member_modifyBridge hn fun n => { n with zombie := false, authenticated := true })

theorem roster_addAuthenticated (db : UserDB) (v : ℕ) :
    (db.addAuthenticated v).roster = db.roster.join v := by
  unfold addAuthenticated
  cases hn : db.bridgeTab v with
  | none => rw [Roster.join, member_roster_none hn]
  | some n =>
    simp only
    split
    · exact roster_setAuthenticated hn
    · rw [roster_addUnknownAdjacency, roster_setAuthenticated hn]

theorem roster_removeAuthenticated (db : UserDB) (v : ℕ) (stage : Bye) :
    (db.removeAuthenticated v stage).roster = db.roster.leave v := by
  unfold removeAuthenticated
  cases hn : db.bridgeTab v with
  | none => rw [Roster.leave, member_roster_none hn]
  | some n =>
    simp only
    have hclear : (if n.authenticated ∧ stage ≠ .hbTimeout ∧ stage ≠ .ping then
          db.clearUnknownAdjacency v else db).roster = db.roster := by
      split
      · exact roster_clearUnknownAdjacency v
      · rfl
    generalize (if n.authenticated ∧ stage ≠ .hbTimeout ∧ stage ≠ .ping then
      db.clearUnknownAdjacency v else db) = db' at hclear
    have hm : db'.roster.member v = some n.entry := hclear ▸ member_roster hn
    obtain ⟨m, hm', hentry⟩ := Option.map_eq_some_iff.1 hm
    rw [← hclear, Roster.leave_eq hm]
    refine (congrArg (Roster.mk _ _ _) (member_modifyBridge hm' fun n => { n with
      authenticated := false
      zombie := true
      linkStateSeqno := 0
      uidCsum := 0
      adjacency := AdjacencyTab.empty })).trans ?_
    rw [show n.nonce = m.nonce from congrArg Prod.fst hentry.symm]
    rfl

end

theorem nextUid_removeAuthenticated (db : UserDB) (v : ℕ) (stage : Bye) :
    (db.removeAuthenticated v stage).nextUid = db.nextUid :=
  (congrArg Roster.nextId (roster_removeAuthenticated db v stage)).trans (Roster.nextId_leave ..)

/-- What an event does to the roster. -/
def rosterOp : Event → Option (Roster.Op Nonce)
  | .addUser nonce => some (.enter nonce)
  | .addAuthenticated uid => some (.join uid)
  | .removeAuthenticated uid _ => some (.leave uid)
  | _ => none

theorem roster_step (db : UserDB) (e : Event) :
    (db.step e).roster = (rosterOp e).elim db.roster db.roster.step := by
  cases e with
  | addUser nonce => exact roster_addUser db nonce
  | addAuthenticated uid => exact roster_addAuthenticated db uid
  | removeAuthenticated uid stage => exact roster_removeAuthenticated db uid stage
  | recvAdjacencyChange uid linkState recs =>
    exact roster_recvAdjacencyChange db uid linkState recs
  | recvAdjacencyResult uid linkState recs reas quiet =>
    exact roster_recvAdjacencyResult db uid linkState recs reas quiet
  | byePeer nonce => exact roster_addUnknownAdjacency false nonce
  | processUnknownAdjacency now => rfl

end UserDB

end Raims
