import Raims.Lib.Roster
import Raims.User.Members

/-!
# The peers that the summaries are about

The peers of `MemberDB` are a roster, as those of the link state part are. Besides it, the
way a peer was last authenticated or removed says when the peer is refused.
-/

namespace Raims

/-- The bridge id of a peer, and whether it is authenticated or a zombie. -/
def Member.entry (n : Member) : Nonce × Standing :=
  (n.nonce, ⟨n.isSet .authenticated, n.isSet .zombie⟩)

namespace MemberDB

/-- What `g` reads of the peers. -/
def view {α : Type} (g : Member → α) (db : MemberDB) (uid : ℕ) : Option α :=
  (db.bridgeTab uid).map g

def roster (db : MemberDB) : Roster Nonce :=
  ⟨db.nextUid, db.nodeHt, db.zombieHt, db.view Member.entry⟩

/-- How the peers were last authenticated or removed. -/
def lastAuth (db : MemberDB) : ℕ → Option AuthType := db.view Member.lastAuthType

section

variable {α : Type} {db : MemberDB} {uid : ℕ} {n : Member}

theorem view_of_some (g : Member → α) (hn : db.bridgeTab uid = some n) :
    db.view g uid = some (g n) := congrArg (Option.map g) hn

theorem view_of_none (g : Member → α) (hn : db.bridgeTab uid = none) : db.view g uid = none :=
  congrArg (Option.map g) hn

/-- A write to a bridge. -/
theorem view_put (g : Member → α) (db : MemberDB) (uid : ℕ) (n : Member) :
    (db.put uid n).view g = Function.update (db.view g) uid (some (g n)) := by
  ext v : 1
  show (Function.update db.bridgeTab uid (some n) v).map g = _
  by_cases hv : v = uid
  · subst hv
    rw [Function.update_self, Function.update_self]
    rfl
  · rw [Function.update_of_ne hv, Function.update_of_ne hv]
    rfl

theorem view_put_same (g : Member → α) (hn : db.bridgeTab uid = some n) {m : Member}
    (hm : g m = g n) : (db.put uid m).view g = db.view g := by
  rw [view_put, hm, ← view_of_some g hn]
  exact Function.update_eq_self ..

theorem member_roster (hn : db.bridgeTab uid = some n) : db.roster.member uid = some n.entry :=
  view_of_some Member.entry hn

theorem withBridge_some (hn : db.bridgeTab uid = some n) (f : MemberDB → ℕ → Member → MemberDB) :
    db.withBridge uid f = f db uid n := by
  rw [withBridge, hn]

/-! ## What leaves the peers as they are -/

/-- The peers are the same, and the way each was last authenticated or removed. -/
structure Still (db db' : MemberDB) : Prop where
  roster : db'.roster = db.roster
  lastAuth : db'.lastAuth = db.lastAuth

theorem Still.refl (db : MemberDB) : Still db db := ⟨rfl, rfl⟩

theorem Still.trans {db db' db'' : MemberDB} (h : Still db db') (h' : Still db' db'') :
    Still db db'' := ⟨h'.roster.trans h.roster, h'.lastAuth.trans h.lastAuth⟩

theorem roster_put (hn : db.bridgeTab uid = some n) {m : Member} (hentry : m.entry = n.entry) :
    (db.put uid m).roster = db.roster :=
  congrArg (Roster.mk db.nextUid db.nodeHt db.zombieHt) (view_put_same Member.entry hn hentry)

theorem still_put (hn : db.bridgeTab uid = some n) {m : Member} (hentry : m.entry = n.entry)
    (hlast : m.lastAuthType = n.lastAuthType) : Still db (db.put uid m) :=
  ⟨roster_put hn hentry, view_put_same Member.lastAuthType hn hlast⟩

theorem still_withBridge (uid : ℕ) {f : MemberDB → ℕ → Member → MemberDB}
    (hf : ∀ n, db.bridgeTab uid = some n → Still db (f db uid n)) :
    Still db (db.withBridge uid f) := by
  unfold withBridge
  split
  · exact .refl db
  · next n hn => exact hf n hn

theorem still_updateLinkStateSeqno (db : MemberDB) (uid : ℕ) (seqno : BitVec 32) :
    Still db (db.updateLinkStateSeqno uid seqno) := by
  unfold updateLinkStateSeqno
  split
  · exact .refl db
  · next n hn =>
    have hput := still_put (m := { n with linkStateSeqno := seqno.setWidth 64 }) hn rfl rfl
    exact ⟨hput.roster, hput.lastAuth⟩

theorem still_updateSubSeqno (db : MemberDB) (uid : ℕ) (seqno : BitVec 32) :
    Still db (db.updateSubSeqno uid seqno) := by
  unfold updateSubSeqno
  split
  · exact .refl db
  · next n hn =>
    have hput := still_put (m := { n with subSeqno := seqno.setWidth 64 }) hn rfl rfl
    exact ⟨hput.roster, hput.lastAuth⟩

theorem still_updateAll (db : MemberDB) (synced : List (ℕ × BitVec 32)) :
    Still db (synced.foldl (fun db p => db.updateLinkStateSeqno p.1 p.2) db) := by
  induction synced generalizing db with
  | nil => exact .refl db
  | cons p synced ih => exact (still_updateLinkStateSeqno db p.1 p.2).trans (ih _)

theorem still_nextLinkStateSeqno (db : MemberDB) (change : Bool) :
    Still db (if change then db.nextLinkStateSeqno else db) := by
  cases change <;> exact ⟨rfl, rfl⟩

theorem still_clearHb (hn : db.bridgeTab uid = some n) : Still db (db.clearHb uid n) := by
  unfold clearHb
  split
  · have hput : Still db (db.put uid (n.clear .hasHb)) := by
      refine still_put hn ?_ rfl
      rw [Member.entry, n.isSet_clear_of_ne (by decide), n.isSet_clear_of_ne (by decide)]
      rfl
    exact ⟨hput.roster, hput.lastAuth⟩
  · exact .refl db

theorem still_onHeartbeat (db : MemberDB) (uid : ℕ) (ok stranger : Bool) :
    Still db (db.onHeartbeat uid ok stranger) := by
  refine still_withBridge uid fun n hn => ?_
  split
  · have hput : Still db (db.put uid (n.set .hasHb)) := by
      refine still_put hn ?_ rfl
      rw [Member.entry, n.isSet_set_of_ne (by decide), n.isSet_set_of_ne (by decide)]
      rfl
    exact ⟨hput.roster, hput.lastAuth⟩
  · exact .refl db

theorem still_checkUidCsum (db : MemberDB) (peerCsum : Nonce) :
    Still db (db.checkUidCsum peerCsum) := by
  unfold checkUidCsum
  split
  · exact .refl db
  · split <;> exact ⟨rfl, rfl⟩

theorem still_mark (db : MemberDB) (uid : ℕ) (s : UserNonceState) (on : Bool) :
    Still db (db.mark uid s on) := by
  unfold mark
  split
  · exact .refl db
  · next hs =>
    have hne : ∀ t, Summarised t → t ≠ s := by
      rintro t ht rfl
      exact hs ht
    refine still_withBridge uid fun n hn => ?_
    cases on with
    | true =>
      refine still_put hn ?_ rfl
      rw [if_pos rfl, Member.entry, n.isSet_set_of_ne (hne _ rfl), n.isSet_set_of_ne (hne _ rfl)]
      rfl
    | false =>
      refine still_put hn ?_ rfl
      rw [if_neg Bool.false_ne_true, Member.entry, n.isSet_clear_of_ne (hne _ rfl),
        n.isSet_clear_of_ne (hne _ rfl)]
      rfl

/-! ## Who enters, joins and leaves -/

/-- A new user enters under the next uid. -/
theorem roster_addUser (db : MemberDB) (nonce : Nonce) :
    (db.addUser nonce).roster = db.roster.enter nonce :=
  Roster.ext rfl rfl rfl (view_put Member.entry db db.nextUid (Member.new nonce))

/-- The zombie that is a peer again; its other bits are as before. -/
theorem roster_reanimate (hn : db.bridgeTab uid = some n) :
    (db.reanimate uid n).roster =
      { nextId := db.nextUid
        here := if n.isSet .zombie then Function.update db.nodeHt n.nonce (some uid) else db.nodeHt
        gone := if n.isSet .zombie then Function.update db.zombieHt n.nonce none else db.zombieHt
        member := Function.update db.roster.member uid
          (some (n.nonce, ⟨n.isSet .authenticated, false⟩)) } := by
  unfold reanimate
  cases hz : n.isSet .zombie with
  | false =>
    have hentry : n.entry = (n.nonce, ⟨n.isSet .authenticated, false⟩) := by rw [Member.entry, hz]
    rw [← hentry, ← member_roster hn, Function.update_eq_self]
    rfl
  | true =>
    have hentry : (n.clear .zombie).entry = (n.nonce, ⟨n.isSet .authenticated, false⟩) := by
      rw [Member.entry, n.isSet_clear_self, n.isSet_clear_of_ne (by decide)]
      rfl
    rw [← hentry]
    exact Roster.ext rfl rfl rfl (view_put Member.entry ..)

theorem roster_authenticate (hn : db.bridgeTab uid = some n) :
    (db.authenticate uid n).roster =
      { nextId := db.nextUid
        here := db.nodeHt
        gone := db.zombieHt
        member := Function.update db.roster.member uid
          (some (n.nonce, ⟨true, n.isSet .zombie⟩)) } := by
  unfold authenticate
  cases ha : n.isSet .authenticated with
  | false =>
    have hentry : (n.set .authenticated).entry = (n.nonce, ⟨true, n.isSet .zombie⟩) := by
      rw [Member.entry, n.isSet_set_self, n.isSet_set_of_ne (by decide)]
      rfl
    rw [← hentry]
    exact Roster.ext rfl rfl rfl (view_put Member.entry ..)
  | true =>
    have hentry : n.entry = (n.nonce, ⟨true, n.isSet .zombie⟩) := by rw [Member.entry, ha]
    rw [← hentry, ← member_roster hn, Function.update_eq_self]
    rfl

/-- `add_authenticated` that does not refuse. -/
theorem roster_join (hn : db.bridgeTab uid = some n) :
    ((db.withBridge uid reanimate).withBridge uid authenticate).roster = db.roster.join uid := by
  have hre := roster_reanimate hn
  -- the bridge after the zombie is one no more
  obtain ⟨n', hn', hentry⟩ : ∃ n', (db.reanimate uid n).bridgeTab uid = some n' ∧
      n'.entry = (n.nonce, ⟨n.isSet .authenticated, false⟩) := by
    have hmember := congrFun (congrArg Roster.member hre) uid
    exact Option.map_eq_some_iff.1 (hmember.trans (Function.update_self ..))
  obtain ⟨hnonce, hstanding⟩ := Prod.mk.inj hentry
  rw [withBridge_some hn, withBridge_some hn', roster_authenticate hn', hre, hnonce,
    show n'.isSet .zombie = false from congrArg Standing.away hstanding,
    Roster.join_eq (member_roster hn)]
  simp only [Function.update_idem]
  rw [show (db.reanimate uid n).nextUid = _ from congrArg Roster.nextId hre,
    show (db.reanimate uid n).nodeHt = _ from congrArg Roster.here hre,
    show (db.reanimate uid n).zombieHt = _ from congrArg Roster.gone hre]
  rfl

theorem roster_addAuthenticated (db : MemberDB) (uid : ℕ) (stage : AuthType) (curMono : ℕ)
    (synced : List (ℕ × BitVec 32)) (change : Bool) :
    (db.addAuthenticated uid stage curMono synced change).roster =
      if (db.bridgeTab uid).any (·.refuses stage curMono) then db.roster
      else db.roster.join uid := by
  unfold addAuthenticated
  cases hn : db.bridgeTab uid with
  | none =>
    rw [Roster.join, show db.roster.member uid = none from view_of_none Member.entry hn]
    exact (ite_self _).symm
  | some n =>
    simp only [Option.any_some]
    split
    · rfl
    · have hnote : (db.put uid (n.noteAuth stage curMono)).bridgeTab uid =
          some (n.noteAuth stage curMono) := Function.update_self ..
      rw [(still_nextLinkStateSeqno _ change).roster, (still_updateAll _ synced).roster,
        roster_join hnote, roster_put (m := n.noteAuth stage curMono) hn rfl]

/-- The bridge of `uid` before it is buried: it has the bridge id and the zombie bit of the
member `n`, and nothing else of the roster has changed. -/
structure Leaving (db : MemberDB) (uid : ℕ) (n : Member) (db' : MemberDB) : Prop where
  bridge : ∃ n', db'.bridgeTab uid = some n' ∧ n'.nonce = n.nonce ∧
    n'.isSet .zombie = n.isSet .zombie
  others : ∀ v ≠ uid, db'.roster.member v = db.roster.member v
  nextUid : db'.nextUid = db.nextUid
  nodeHt : db'.nodeHt = db.nodeHt
  zombieHt : db'.zombieHt = db.zombieHt

theorem Leaving.of_roster {db' db'' : MemberDB} (h : Leaving db uid n db')
    (hsame : db''.roster = db'.roster) : Leaving db uid n db'' := by
  obtain ⟨n', hn', hnonce, hzombie⟩ := h.bridge
  obtain ⟨n'', hn'', hentry⟩ : ∃ n'', db''.bridgeTab uid = some n'' ∧ n''.entry = n'.entry :=
    Option.map_eq_some_iff.1
      ((congrFun (congrArg Roster.member hsame) uid).trans (member_roster hn'))
  obtain ⟨hnonce', hstanding⟩ := Prod.mk.inj hentry
  exact ⟨⟨n'', hn'', hnonce'.trans hnonce, (congrArg Standing.away hstanding).trans hzombie⟩,
    fun v hv => (congrFun (congrArg Roster.member hsame) v).trans (h.others v hv),
    (congrArg Roster.nextId hsame).trans h.nextUid,
    (congrArg Roster.here hsame).trans h.nodeHt, (congrArg Roster.gone hsame).trans h.zombieHt⟩

theorem leaving_deauthenticate (hn : db.bridgeTab uid = some n) (curMono : ℕ) :
    Leaving db uid n (db.deauthenticate uid n curMono) := by
  unfold deauthenticate
  split
  · refine ⟨⟨_, Function.update_self .., rfl, n.isSet_clear_of_ne (by decide)⟩, ?_, rfl, rfl, rfl⟩
    intro v hv
    exact congrArg (Option.map Member.entry) (Function.update_of_ne hv ..)
  · exact ⟨⟨n, hn, rfl, rfl⟩, fun _ _ => rfl, rfl, rfl, rfl⟩

/-- The member that is buried has left. -/
theorem Leaving.bury {db' : MemberDB} (h : Leaving db uid n db') (hn : db.bridgeTab uid = some n) :
    (db'.withBridge uid MemberDB.bury).roster = db.roster.leave uid := by
  obtain ⟨n', hn', hnonce, hzombie⟩ := h.bridge
  have hmember : (db'.put uid { n' with state := {.zombie} }).roster.member =
      Function.update db.roster.member uid (some (n.nonce, ⟨false, true⟩)) := by
    rw [show (db'.put uid { n' with state := {.zombie} }).roster.member = _ from
      view_put Member.entry ..]
    ext v : 1
    by_cases hv : v = uid
    · subst hv
      rw [Function.update_self, Function.update_self, ← hnonce]
      rfl
    · rw [Function.update_of_ne hv, Function.update_of_ne hv]
      exact h.others v hv
  rw [withBridge_some hn', Roster.leave_eq (member_roster hn), ← hmember,
    show db.roster.nextId = db'.nextUid from h.nextUid.symm]
  unfold MemberDB.bury
  rw [hnonce, hzombie, h.nodeHt, h.zombieHt]
  rfl

theorem roster_removeAuthenticated (db : MemberDB) (uid : ℕ) (bye : AuthType) (curMono : ℕ)
    (change : Bool) :
    (db.removeAuthenticated uid bye curMono change).roster = db.roster.leave uid := by
  unfold removeAuthenticated
  rw [(still_nextLinkStateSeqno _ change).roster]
  cases hn : db.bridgeTab uid with
  | none =>
    have hnone : ∀ f, db.withBridge uid f = db := fun f => by rw [withBridge, hn]
    simp only [hnone, updateSubSeqno, updateLinkStateSeqno, hn]
    rw [Roster.leave, show db.roster.member uid = none from view_of_none Member.entry hn]
  | some n =>
    rw [withBridge_some hn]
    have hput := roster_put (m := { n with lastAuthType := bye }) hn rfl
    have hself : (db.put uid { n with lastAuthType := bye }).bridgeTab uid =
        some { n with lastAuthType := bye } := Function.update_self ..
    generalize db.put uid { n with lastAuthType := bye } = db₁ at hput hself ⊢
    rw [withBridge_some hself, ← hput]
    have h₂ := leaving_deauthenticate hself curMono
    have h₃ := h₂.of_roster (still_withBridge uid fun _ hm => still_clearHb hm).roster
    have h₄ := h₃.of_roster (still_updateSubSeqno _ uid 0).roster
    exact (h₄.of_roster (still_updateLinkStateSeqno _ uid 0).roster).bury hself

/-! ## Events -/

/-- What an event does to the roster. -/
def rosterOp (db : MemberDB) : Event → Option (Roster.Op Nonce)
  | .lookupUser nonce peer =>
    if db.roster.find nonce = none ∧ peer = true then some (.enter nonce) else none
  | .makePeerSession userN nonce decoded =>
    if db.decodePeerMsg userN nonce = some none ∧ decoded = true then
      some (.enter nonce)
    else none
  | .onNameSvc nonce verified =>
    if db.roster.find nonce = none ∧ verified = true then some (.enter nonce) else none
  | .addAuthenticated uid stage curMono _ _ =>
    if (db.bridgeTab uid).any (·.refuses stage curMono) then none else some (.join uid)
  | .removeAuthenticated uid _ _ _ => some (.leave uid)
  | _ => none

/-- A user that is in one of the tables is not added again. -/
theorem lookupUser_eq (db : MemberDB) (nonce : Nonce) (peer : Bool) :
    db.lookupUser nonce peer =
      if db.roster.find nonce = none ∧ peer = true then db.addUser nonce else db := by
  have hfind : db.roster.find nonce = (db.nodeHt nonce).or (db.zombieHt nonce) := rfl
  unfold lookupUser
  cases hnode : db.nodeHt nonce with
  | some uid => simp [hfind, hnode]
  | none =>
    cases hzombie : db.zombieHt nonce with
    | some uid => simp [hfind, hnode, hzombie]
    | none => cases peer <;> simp [hfind, hnode, hzombie]

theorem makePeerSession_eq (db : MemberDB) (userN : Option ℕ) (nonce : Nonce) (decoded : Bool) :
    db.makePeerSession userN nonce decoded =
      if db.decodePeerMsg userN nonce = some none ∧ decoded = true then db.addUser nonce
      else db := by
  unfold makePeerSession
  split
  · next hnone => cases decoded <;> simp [hnone]
  · next hsome =>
    symm
    exact if_neg fun h => hsome h.1

theorem onNameSvc_eq (db : MemberDB) (nonce : Nonce) (verified : Bool) :
    db.onNameSvc nonce verified =
      if db.roster.find nonce = none ∧ verified = true then db.addUser nonce else db := by
  have hfind : db.roster.find nonce = (db.nodeHt nonce).or (db.zombieHt nonce) := rfl
  unfold onNameSvc
  split
  · next uid huid =>
    rw [hfind, huid]
    simp
  · next hnone =>
    rw [hfind, hnone]
    cases verified <;> simp

theorem roster_step (db : MemberDB) (e : Event) :
    (db.step e).roster = (db.rosterOp e).elim db.roster db.roster.step := by
  cases e with
  | lookupUser nonce peer =>
    rw [step, rosterOp, lookupUser_eq]
    split
    · exact roster_addUser db nonce
    · rfl
  | makePeerSession userN nonce decoded =>
    rw [step, rosterOp, makePeerSession_eq]
    split
    · exact roster_addUser db nonce
    · rfl
  | onNameSvc nonce verified =>
    rw [step, rosterOp, onNameSvc_eq]
    split
    · exact roster_addUser db nonce
    · rfl
  | addAuthenticated uid stage curMono synced change =>
    refine (roster_addAuthenticated db uid stage curMono synced change).trans ?_
    rw [rosterOp]
    split <;> rfl
  | removeAuthenticated uid bye curMono change =>
    exact roster_removeAuthenticated db uid bye curMono change
  | onHeartbeat uid ok stranger => exact (still_onHeartbeat db uid ok stranger).roster
  | checkUidCsum peerCsum => exact (still_checkUidCsum db peerCsum).roster
  | linkState uid seqno => exact (still_updateLinkStateSeqno db uid seqno).roster
  | subs uid seqno => exact (still_updateSubSeqno db uid seqno).roster
  | ownLinkState => rfl
  | ownSubs => rfl
  | mark uid s on => exact (still_mark db uid s on).roster

/-- An event that does nothing to the roster leaves the peers as they are. -/
theorem still_step {e : Event} (hop : db.rosterOp e = none) : Still db (db.step e) := by
  cases e with
  | lookupUser nonce peer =>
    rw [step, lookupUser_eq, if_neg fun h => by rw [rosterOp, if_pos h] at hop; cases hop]
    exact .refl db
  | makePeerSession userN nonce decoded =>
    rw [step, makePeerSession_eq, if_neg fun h => by rw [rosterOp, if_pos h] at hop; cases hop]
    exact .refl db
  | onNameSvc nonce verified =>
    rw [step, onNameSvc_eq, if_neg fun h => by rw [rosterOp, if_pos h] at hop; cases hop]
    exact .refl db
  | addAuthenticated uid stage curMono synced change =>
    rw [rosterOp] at hop
    cases hn : db.bridgeTab uid with
    | none =>
      rw [hn] at hop
      cases hop
    | some n =>
      rw [hn, Option.any_some] at hop
      have hrefuses : n.refuses stage curMono = true := by
        by_contra hok
        rw [if_neg hok] at hop
        cases hop
      rw [step, addAuthenticated, hn]
      dsimp only
      rw [if_pos hrefuses]
      exact .refl db
  | removeAuthenticated uid bye curMono change => cases hop
  | onHeartbeat uid ok stranger => exact still_onHeartbeat db uid ok stranger
  | checkUidCsum peerCsum => exact still_checkUidCsum db peerCsum
  | linkState uid seqno => exact still_updateLinkStateSeqno db uid seqno
  | subs uid seqno => exact still_updateSubSeqno db uid seqno
  | ownLinkState => exact ⟨rfl, rfl⟩
  | ownSubs => exact ⟨rfl, rfl⟩
  | mark uid s on => exact still_mark db uid s on

/-! ## How a peer was last authenticated or removed -/

theorem lastAuth_addUser (db : MemberDB) (nonce : Nonce) :
    (db.addUser nonce).lastAuth = Function.update db.lastAuth db.nextUid (some .none) :=
  view_put Member.lastAuthType db db.nextUid (Member.new nonce)

theorem lastAuth_withBridge (uid : ℕ) {f : MemberDB → ℕ → Member → MemberDB}
    (hf : ∀ n, db.bridgeTab uid = some n → (f db uid n).lastAuth = db.lastAuth) :
    (db.withBridge uid f).lastAuth = db.lastAuth := by
  unfold withBridge
  split
  · rfl
  · next n hn => exact hf n hn

theorem lastAuth_put_same (hn : db.bridgeTab uid = some n) {m : Member}
    (hlast : m.lastAuthType = n.lastAuthType) : (db.put uid m).lastAuth = db.lastAuth :=
  view_put_same Member.lastAuthType hn hlast

theorem lastAuth_reanimate (hn : db.bridgeTab uid = some n) :
    (db.reanimate uid n).lastAuth = db.lastAuth := by
  unfold reanimate
  split
  · exact lastAuth_put_same hn rfl
  · rfl

theorem lastAuth_authenticate (hn : db.bridgeTab uid = some n) :
    (db.authenticate uid n).lastAuth = db.lastAuth := by
  unfold authenticate
  split
  · rfl
  · exact lastAuth_put_same hn rfl

theorem lastAuth_deauthenticate (hn : db.bridgeTab uid = some n) (curMono : ℕ) :
    (db.deauthenticate uid n curMono).lastAuth = db.lastAuth := by
  unfold deauthenticate
  split
  · exact lastAuth_put_same hn rfl
  · rfl

theorem lastAuth_bury (hn : db.bridgeTab uid = some n) :
    (db.bury uid n).lastAuth = db.lastAuth :=
  lastAuth_put_same (m := { n with state := {.zombie} }) hn rfl

theorem lastAuth_addAuthenticated (hn : db.bridgeTab uid = some n) {stage : AuthType}
    {curMono : ℕ} (hok : n.refuses stage curMono = false) (synced : List (ℕ × BitVec 32))
    (change : Bool) :
    (db.addAuthenticated uid stage curMono synced change).lastAuth =
      Function.update db.lastAuth uid (some stage) := by
  rw [addAuthenticated, hn]
  dsimp only
  rw [hok, if_neg Bool.false_ne_true, (still_nextLinkStateSeqno _ change).lastAuth,
    (still_updateAll _ synced).lastAuth,
    lastAuth_withBridge uid fun _ h => lastAuth_authenticate h,
    lastAuth_withBridge uid fun _ h => lastAuth_reanimate h]
  exact view_put Member.lastAuthType db uid (n.noteAuth stage curMono)

theorem lastAuth_removeAuthenticated (hn : db.bridgeTab uid = some n) (bye : AuthType)
    (curMono : ℕ) (change : Bool) :
    (db.removeAuthenticated uid bye curMono change).lastAuth =
      Function.update db.lastAuth uid (some bye) := by
  unfold removeAuthenticated
  rw [(still_nextLinkStateSeqno _ change).lastAuth,
    lastAuth_withBridge uid fun _ h => lastAuth_bury h,
    (still_updateLinkStateSeqno _ uid 0).lastAuth, (still_updateSubSeqno _ uid 0).lastAuth,
    (still_withBridge uid fun _ h => still_clearHb h).lastAuth,
    lastAuth_withBridge uid fun _ h => lastAuth_deauthenticate h curMono, withBridge_some hn]
  exact view_put Member.lastAuthType db uid { n with lastAuthType := bye }

end

end MemberDB

end Raims
